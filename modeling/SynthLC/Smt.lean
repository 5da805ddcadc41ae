import Mathlib.Data.Int.Notation
import Mathlib.Tactic.Common

/-! Integer difference constraints and what is expected of a solver for them. -/
namespace Smt

inductive Constraint (α : Type) where
  | oneOf (t : α) (rs : List Int)
  | addEq (a t b : α)
  | succEq (a b : α)
  | lt (a b : α)
  | le (a b : α)
  | ge (a b : α)
  | eq (a b : α)
  | ne (a b : α)
  deriving DecidableEq

namespace Constraint

variable {α : Type}

def Holds (σ : α → Int) : Constraint α → Prop
  | oneOf t rs => σ t ∈ rs
  | addEq a t b => σ a + σ t = σ b
  | succEq a b => σ a + 1 = σ b
  | lt a b => σ a < σ b
  | le a b => σ a ≤ σ b
  | ge a b => σ b ≤ σ a
  | eq a b => σ a = σ b
  | ne a b => σ a ≠ σ b

/-- Every variable of the constraint satisfies `P`. -/
def Vars (P : α → Prop) : Constraint α → Prop
  | oneOf t _ => P t
  | addEq a t b => P a ∧ P t ∧ P b
  | succEq a b => P a ∧ P b
  | lt a b => P a ∧ P b
  | le a b => P a ∧ P b
  | ge a b => P a ∧ P b
  | eq a b => P a ∧ P b
  | ne a b => P a ∧ P b

theorem Vars.mono {P Q : α → Prop} {c : Constraint α} (h : c.Vars P) (hpq : ∀ x, P x → Q x) :
    c.Vars Q := by
  cases c with
  | oneOf t _ => exact hpq _ h
  | addEq a t b => exact ⟨hpq _ h.1, hpq _ h.2.1, hpq _ h.2.2⟩
  | _ => exact ⟨hpq _ h.1, hpq _ h.2⟩

/-- A constraint only sees its own variables. -/
theorem Holds.congr {P : α → Prop} {c : Constraint α} {σ τ : α → Int} (hv : c.Vars P)
    (heq : ∀ x, P x → σ x = τ x) (h : c.Holds σ) : c.Holds τ := by
  cases c with
  | oneOf t rs =>
    have ht := heq t hv
    simpa only [Holds, ← ht] using h
  | addEq a t b =>
    have ha := heq a hv.1
    have ht := heq t hv.2.1
    have hb := heq b hv.2.2
    simpa only [Holds, ← ha, ← ht, ← hb] using h
  | _ a b =>
    have ha := heq a hv.1
    have hb := heq b hv.2
    simpa only [Holds, ← ha, ← hb] using h

end Constraint

variable {α : Type}

def Models (σ : α → Int) (cs : List (Constraint α)) : Prop := ∀ c ∈ cs, c.Holds σ

theorem models_append {σ : α → Int} {cs ds : List (Constraint α)} :
    Models σ (cs ++ ds) ↔ Models σ cs ∧ Models σ ds := by
  simp only [Models, List.mem_append, or_imp, forall_and]

inductive Answer where
  | sat
  | unsat
  | unknown
  deriving DecidableEq

/-- A decision procedure for these constraints. -/
structure Solver (α : Type) where
  check : List (Constraint α) → Answer
  check_sat : ∀ cs, check cs = .sat ↔ ∃ σ, Models σ cs
  check_unsat : ∀ cs, check cs = .unsat ↔ ¬∃ σ, Models σ cs

/-- Deciding by cases, for use where only the answer matters. -/
noncomputable def Solver.classical : Solver α where
  check cs := open Classical in if ∃ σ, Models σ cs then .sat else .unsat
  check_sat cs := by
    split_ifs with h
    · simp [h]
    · simp [h]
  check_unsat cs := by
    split_ifs with h
    · simp [h]
    · simp [h]

end Smt
