import SynthLC.Visit
import Mathlib.Data.Set.Basic

/-! What the model checker is asked and what it may answer. -/
namespace SynthLC

open Sva

/-- The `Result` column of a verdict file; `err` is `get_result` without such a row. -/
inductive Result where
  | covered
  | unreachable
  | cex
  | proven
  | undetermined
  | err
  deriving DecidableEq, Repr

/-- `df_query`: a missing row fails the script's assertion. -/
def dfQuery (r : Result) : Option Result := if r = .err then none else some r

theorem dfQuery_covered {r : Result} : dfQuery r = some .covered ↔ r = .covered := by
  cases r <;> simp [dfQuery]

variable {PL : Type}

/-- A `proven` verdict is true of every legal run. -/
def SoundProven (legal : Set (Wave PL)) (p : Property (Sig PL)) (r : Result) : Prop :=
  r = .proven → ∀ tr ∈ legal, p.Holds (observe tr)

/-- Some legal run meets the assumptions of a file and matches its cover. -/
def Reached (legal : Set (Wave PL)) (assumes : List (Property (Sig PL))) (c : Seq (Sig PL)) :
    Prop :=
  ∃ tr ∈ legal, AllHold (observe tr) assumes ∧ c.Covered (observe tr)

/-- Exact verdict of a cover: decided, and right. -/
def ExactCover (legal : Set (Wave PL)) (assumes : List (Property (Sig PL))) (c : Seq (Sig PL))
    (r : Result) : Prop :=
  (Reached legal assumes c → r = .covered) ∧ (¬Reached legal assumes c → r = .unreachable)

theorem ExactCover.covered_iff {legal : Set (Wave PL)} {assumes : List (Property (Sig PL))}
    {c : Seq (Sig PL)} {r : Result} (h : ExactCover legal assumes c r) :
    r = .covered ↔ Reached legal assumes c := by
  constructor
  · intro hr
    by_contra hn
    have hun := h.2 hn
    rw [hr] at hun
    cases hun
  · exact h.1

theorem exactCover_of_reached {legal : Set (Wave PL)} {assumes : List (Property (Sig PL))}
    {c : Seq (Sig PL)} (h : Reached legal assumes c) : ExactCover legal assumes c .covered :=
  ⟨fun _ => rfl, fun hn => absurd h hn⟩

theorem ExactCover.ne_err {legal : Set (Wave PL)} {assumes : List (Property (Sig PL))}
    {c : Seq (Sig PL)} {r : Result} (h : ExactCover legal assumes c r) : r ≠ .err := by
  intro hr
  by_cases hreach : Reached legal assumes c
  · exact absurd (hr.symm.trans (h.1 hreach)) (by simp)
  · exact absurd (hr.symm.trans (h.2 hreach)) (by simp)

end SynthLC
