import Mathlib.Tactic.Common

/-! A fragment of SystemVerilog assertions over infinite clocked runs: the Boolean
layer with `$past`, sequences with `##`, and properties with `|->`, `|=>`, `or` and
`s_eventually`. -/
namespace Sva

/-- Sampled values of the signals, one valuation for each clock tick. -/
abbrev Wave (σ : Type) := Nat → σ → Bool

/-- Boolean layer; `past n b` is `$past(b, n)`. -/
inductive BExp (σ : Type) where
  | one
  | sig (s : σ)
  | not (b : BExp σ)
  | and (a b : BExp σ)
  | or (a b : BExp σ)
  | past (n : Nat) (b : BExp σ)
  deriving DecidableEq

variable {σ : Type} (w : Wave σ)

/-- Value at one tick. Before the n-th tick `$past` reads its default value zero. -/
def BExp.eval : BExp σ → Nat → Bool
  | .one, _ => true
  | .sig s, t => w t s
  | .not b, t => !b.eval t
  | .and a b, t => a.eval t && b.eval t
  | .or a b, t => a.eval t || b.eval t
  | .past n b, t => decide (n ≤ t) && b.eval (t - n)

@[simp] theorem eval_one (t : Nat) : (BExp.one : BExp σ).eval w t = true := rfl

@[simp] theorem eval_sig (s : σ) (t : Nat) : (BExp.sig s).eval w t = w t s := rfl

@[simp] theorem eval_not (b : BExp σ) (t : Nat) :
    (BExp.not b).eval w t = true ↔ ¬b.eval w t = true := by
  simp [BExp.eval]

@[simp] theorem eval_and (a b : BExp σ) (t : Nat) :
    (BExp.and a b).eval w t = true ↔ a.eval w t = true ∧ b.eval w t = true := by
  simp [BExp.eval]

@[simp] theorem eval_or (a b : BExp σ) (t : Nat) :
    (BExp.or a b).eval w t = true ↔ a.eval w t = true ∨ b.eval w t = true := by
  simp [BExp.eval]

@[simp] theorem eval_past (n : Nat) (b : BExp σ) (t : Nat) :
    (BExp.past n b).eval w t = true ↔ n ≤ t ∧ b.eval w (t - n) = true := by
  simp [BExp.eval]

/-- Conjunction of a list, closed by the constant one as generated code writes it. -/
def BExp.all : List (BExp σ) → BExp σ
  | [] => .one
  | b :: bs => .and b (BExp.all bs)

/-- Disjunction of a list, closed by the constant zero. -/
def BExp.any : List (BExp σ) → BExp σ
  | [] => .not .one
  | b :: bs => .or b (BExp.any bs)

theorem eval_all (bs : List (BExp σ)) (t : Nat) :
    (BExp.all bs).eval w t = true ↔ ∀ b ∈ bs, b.eval w t = true := by
  induction bs with
  | nil => simp [BExp.all]
  | cons b bs ih => simp [BExp.all, ih]

theorem eval_any (bs : List (BExp σ)) (t : Nat) :
    (BExp.any bs).eval w t = true ↔ ∃ b ∈ bs, b.eval w t = true := by
  induction bs with
  | nil => simp [BExp.any]
  | cons b bs ih => simp [BExp.any, ih]

/-- The expression over other signals. -/
def BExp.map {τ : Type} (f : σ → τ) : BExp σ → BExp τ
  | .one => .one
  | .sig s => .sig (f s)
  | .not b => .not (b.map f)
  | .and a b => .and (a.map f) (b.map f)
  | .or a b => .or (a.map f) (b.map f)
  | .past n b => .past n (b.map f)

theorem eval_map {τ : Type} (f : σ → τ) (w : Wave τ) (b : BExp σ) (t : Nat) :
    (b.map f).eval w t = b.eval (fun t s => w t (f s)) t := by
  induction b generalizing t with
  | one => rfl
  | sig s => rfl
  | not b ih => simp only [BExp.map, BExp.eval, ih]
  | and a b iha ihb => simp only [BExp.map, BExp.eval, iha, ihb]
  | or a b iha ihb => simp only [BExp.map, BExp.eval, iha, ihb]
  | past n b ih => simp only [BExp.map, BExp.eval, ih]

/-- Sequences. `starThen b r` is `b [*0:$] ##1 r`, the only use of an empty match, so
every match below spans at least one tick. -/
inductive Seq (σ : Type) where
  | bool (b : BExp σ)
  | cat (s : Seq σ) (d : Nat) (r : Seq σ)
  | catFrom (s : Seq σ) (d : Nat) (r : Seq σ)
  | starThen (b : BExp σ) (r : Seq σ)
  deriving DecidableEq

/-- A match from its first to its last tick, both included. -/
def Seq.Match : Seq σ → Nat → Nat → Prop
  | .bool b, i, j => j = i ∧ b.eval w i = true
  | .cat s d r, i, j => ∃ m, s.Match i m ∧ r.Match (m + d) j
  | .catFrom s d r, i, j => ∃ m k, s.Match i m ∧ m + d ≤ k ∧ r.Match k j
  | .starThen b r, i, j =>
      ∃ k, i ≤ k ∧ (∀ t, i ≤ t → t < k → b.eval w t = true) ∧ r.Match k j

/-- `cover property`: some attempt matches. -/
def Seq.Covered (s : Seq σ) : Prop := ∃ i j, s.Match w i j

/-- Properties; a sequence in property position asks for a match. -/
inductive Property (σ : Type) where
  | seq (s : Seq σ)
  | or (p q : Property σ)
  | imp (s : Seq σ) (p : Property σ)
  | impNext (s : Seq σ) (p : Property σ)
  | eventually (p : Property σ)
  deriving DecidableEq

def Property.At : Property σ → Nat → Prop
  | .seq s, t => ∃ j, s.Match w t j
  | .or p q, t => p.At t ∨ q.At t
  | .imp s p, t => ∀ j, s.Match w t j → p.At j
  | .impNext s p, t => ∀ j, s.Match w t j → p.At (j + 1)
  | .eventually p, t => ∃ k, t ≤ k ∧ p.At k

/-- `assert property` and `assume property`: an attempt starts at every tick. -/
def Property.Holds (p : Property σ) : Prop := ∀ t, p.At w t

/-- Several labelled properties of one file. -/
def AllHold (ps : List (Property σ)) : Prop := ∀ p ∈ ps, p.Holds w

@[simp] theorem match_bool (b : BExp σ) (i j : Nat) :
    (Seq.bool b).Match w i j ↔ j = i ∧ b.eval w i = true := Iff.rfl

@[simp] theorem match_cat (s r : Seq σ) (d i j : Nat) :
    (Seq.cat s d r).Match w i j ↔ ∃ m, s.Match w i m ∧ r.Match w (m + d) j := Iff.rfl

@[simp] theorem match_catFrom (s r : Seq σ) (d i j : Nat) :
    (Seq.catFrom s d r).Match w i j ↔
      ∃ m k, s.Match w i m ∧ m + d ≤ k ∧ r.Match w k j := Iff.rfl

@[simp] theorem match_starThen (b : BExp σ) (r : Seq σ) (i j : Nat) :
    (Seq.starThen b r).Match w i j ↔
      ∃ k, i ≤ k ∧ (∀ t, i ≤ t → t < k → b.eval w t = true) ∧ r.Match w k j := Iff.rfl

theorem covered_bool (b : BExp σ) :
    (Seq.bool b).Covered w ↔ ∃ t, b.eval w t = true := by
  simp [Seq.Covered]

/-- A cover that ends in `##[d:$] b` needs a match of its front part and a late enough
tick of `b`. -/
theorem covered_catFrom_bool (s : Seq σ) (d : Nat) (b : BExp σ) :
    (Seq.catFrom s d (.bool b)).Covered w ↔
      ∃ i m k, s.Match w i m ∧ m + d ≤ k ∧ b.eval w k = true := by
  constructor
  · rintro ⟨i, j, m, k, hs, hk, hj, hb⟩
    exact ⟨i, m, k, hs, hk, hb⟩
  · rintro ⟨i, m, k, hs, hk, hb⟩
    exact ⟨i, k, m, k, hs, hk, rfl, hb⟩

@[simp] theorem at_bool (b : BExp σ) (t : Nat) :
    (Property.seq (.bool b)).At w t ↔ b.eval w t = true := by
  simp [Property.At]

@[simp] theorem at_cat_bool (a b : BExp σ) (d t : Nat) :
    (Property.seq (.cat (.bool a) d (.bool b))).At w t ↔
      a.eval w t = true ∧ b.eval w (t + d) = true := by
  simp [Property.At]

@[simp] theorem at_or (p q : Property σ) (t : Nat) :
    (Property.or p q).At w t ↔ p.At w t ∨ q.At w t := Iff.rfl

@[simp] theorem at_imp_bool (b : BExp σ) (p : Property σ) (t : Nat) :
    (Property.imp (.bool b) p).At w t ↔ (b.eval w t = true → p.At w t) := by
  simp [Property.At]

@[simp] theorem at_impNext_bool (b : BExp σ) (p : Property σ) (t : Nat) :
    (Property.impNext (.bool b) p).At w t ↔ (b.eval w t = true → p.At w (t + 1)) := by
  simp [Property.At]

theorem allHold_nil : AllHold w [] := by simp [AllHold]

theorem allHold_cons (p : Property σ) (ps : List (Property σ)) :
    AllHold w (p :: ps) ↔ p.Holds w ∧ AllHold w ps := by
  simp [AllHold]

theorem allHold_map {α : Type} (f : α → Property σ) (xs : List α) :
    AllHold w (xs.map f) ↔ ∀ x ∈ xs, (f x).Holds w := by
  simp [AllHold]

theorem allHold_append (ps qs : List (Property σ)) :
    AllHold w (ps ++ qs) ↔ AllHold w ps ∧ AllHold w qs := by
  simp only [AllHold, List.mem_append]
  exact ⟨fun h => ⟨fun p hp => h p (.inl hp), fun p hp => h p (.inr hp)⟩,
    fun h p hp => hp.elim (h.1 p) (h.2 p)⟩

end Sva
