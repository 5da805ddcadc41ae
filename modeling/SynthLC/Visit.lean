import SynthLC.HBTemplate
import Mathlib.Data.Nat.Find

/-! When a run enters, stays in and leaves a performing location, and what the `_hpn`
register and the falling edge say about it. -/
namespace SynthLC

open Sva

variable {PL : Type} {tr : Wave PL} {p : PL}

def Visits (tr : Wave PL) (p : PL) : Prop := ∃ t, tr t p = true

/-- The locations of the list are those the run visits. -/
def VisitsExactly (tr : Wave PL) (s : List PL) : Prop := ∀ p, p ∈ s ↔ Visits tr p

/-- First tick at which the location is active; later visits are not restricted. -/
structure FirstEntry (tr : Wave PL) (p : PL) (n : Nat) : Prop where
  active : tr n p = true
  before : ∀ t < n, tr t p = false

/-- The only visit of the location: active from `enter` to `final`, both included, and
at no other tick. -/
structure Visit (tr : Wave PL) (p : PL) (enter final : Nat) : Prop where
  le : enter ≤ final
  active : ∀ t, tr t p = true ↔ enter ≤ t ∧ t ≤ final

theorem FirstEntry.visits {n : Nat} (h : FirstEntry tr p n) : Visits tr p := ⟨n, h.active⟩

/-- Tick of the first entry, zero for a location the run never visits. -/
noncomputable def enterTick (tr : Wave PL) (p : PL) : Nat :=
  open Classical in if h : Visits tr p then Nat.find h else 0

theorem firstEntry_enterTick (h : Visits tr p) : FirstEntry tr p (enterTick tr p) := by
  classical
  unfold enterTick
  rw [dif_pos h]
  refine ⟨Nat.find_spec h, fun t ht => ?_⟩
  have hn := Nat.find_min h ht
  simpa using hn

theorem FirstEntry.unique {m n : Nat} (hm : FirstEntry tr p m) (hn : FirstEntry tr p n) :
    m = n := by
  rcases Nat.lt_trichotomy m n with h | h | h
  · exact absurd hm.active (by simp [hn.before m h])
  · exact h
  · exact absurd hn.active (by simp [hm.before n h])

theorem Visit.firstEntry {e f : Nat} (h : Visit tr p e f) : FirstEntry tr p e := by
  refine ⟨(h.active e).mpr ⟨le_rfl, h.le⟩, fun t ht => ?_⟩
  have hn : ¬tr t p = true := by rw [h.active]; omega
  simpa using hn

theorem FirstEntry.hpn_iff {n : Nat} (h : FirstEntry tr p n) (t : Nat) :
    hpn tr p t = true ↔ n < t := by
  rw [hpn_eq_true_iff]
  constructor
  · rintro ⟨k, hk, hkp⟩
    by_contra hn
    simp [h.before k (by omega)] at hkp
  · intro ht
    exact ⟨n, ht, h.active⟩

/-- The tick a first entry happens at is the only one that is active and not yet
recorded in the register. -/
theorem FirstEntry.fresh_iff {n : Nat} (h : FirstEntry tr p n) (t : Nat) :
    (tr t p = true ∧ ¬hpn tr p t = true) ↔ t = n := by
  rw [h.hpn_iff]
  constructor
  · rintro ⟨ht, hn⟩
    rcases Nat.lt_or_ge t n with hlt | hge
    · simp [h.before t hlt] at ht
    · omega
  · rintro rfl
    exact ⟨h.active, by omega⟩

/-- Neither active nor recorded: the first entry is still to come. -/
theorem FirstEntry.notYet_iff {n : Nat} (h : FirstEntry tr p n) (t : Nat) :
    (¬hpn tr p t = true ∧ ¬tr t p = true) ↔ t < n := by
  rw [h.hpn_iff]
  constructor
  · rintro ⟨hle, hact⟩
    refine lt_of_le_of_ne (by omega) ?_
    rintro rfl
    exact hact h.active
  · intro hlt
    exact ⟨by omega, by simp [h.before t hlt]⟩

theorem Visit.hpn_iff {e f : Nat} (h : Visit tr p e f) (t : Nat) :
    hpn tr p t = true ↔ e < t := h.firstEntry.hpn_iff t

/-- A finite visit has one falling edge, one tick after its last active tick. -/
theorem Visit.eval_fell {e f : Nat} (h : Visit tr p e f) (t : Nat) :
    (fell p).eval (observe tr) t = true ↔ t = f + 1 := by
  have hle := h.le
  simp only [fell, eval_and, eval_past, eval_not, eval_sig, observe_loc, h.active]
  omega

/-- Run in which a location is active during one span of ticks, or never. -/
def ofSpans (v : PL → Option (Nat × Nat)) : Wave PL := fun t p =>
  match v p with
  | some (e, f) => decide (e ≤ t ∧ t ≤ f)
  | none => false

theorem ofSpans_visit {v : PL → Option (Nat × Nat)} {e f : Nat} (h : v p = some (e, f))
    (hle : e ≤ f) : Visit (ofSpans v) p e f := by
  refine ⟨hle, fun t => ?_⟩
  simp [ofSpans, h]

theorem ofSpans_visits {v : PL → Option (Nat × Nat)} (hv : ∀ p, ∀ ef ∈ v p, ef.1 ≤ ef.2) :
    Visits (ofSpans v) p ↔ (v p).isSome := by
  cases h : v p with
  | none => simp [Visits, ofSpans, h]
  | some ef =>
    have hvisit := ofSpans_visit h (hv p ef h)
    simpa using hvisit.firstEntry.visits

end SynthLC
