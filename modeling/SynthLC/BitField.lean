import Mathlib.Tactic.Common
import Mathlib.Data.Nat.Bitwise

/-! Comparisons of bit fields of a word with constants, and when some of them imply others. -/
namespace BitField

/-- Bits `hi` to `lo` of a word, compared with a constant. -/
inductive Test where
  | eq (hi lo value : Nat)
  | ne (hi lo value : Nat)
  deriving DecidableEq

variable {n : Nat} (w : BitVec n)

/-- The value of a field. -/
def slice (hi lo : Nat) : Nat := w.toNat >>> lo % 2 ^ (hi - lo + 1)

def Test.holds : Test → Bool
  | .eq hi lo value => slice w hi lo == value
  | .ne hi lo value => slice w hi lo != value

def allHold (ts : List Test) : Bool := ts.all (·.holds w)

def someHolds (ds : List (List Test)) : Bool := ds.any (allHold w)

/-- The field of a field is a field. -/
theorem slice_slice {hi lo hi' lo' : Nat} (hlo : lo ≤ lo') (hhi : hi' ≤ hi) (hne : lo' ≤ hi') :
    slice w hi lo >>> (lo' - lo) % 2 ^ (hi' - lo' + 1) = slice w hi' lo' := by
  unfold slice
  apply Nat.eq_of_testBit_eq
  intro i
  simp only [Nat.testBit_mod_two_pow, Nat.testBit_shiftRight]
  by_cases hbit : i < hi' - lo' + 1
  · have hin : lo' - lo + i < hi - lo + 1 := by omega
    have hpos : lo + (lo' - lo + i) = lo' + i := by omega
    simp [hbit, hin, hpos]
  · simp [hbit]

/-- A test that another one implies: the same, or an equation on a part of its field. -/
def Test.implies : Test → Test → Bool
  | .eq hi lo value, .eq hi' lo' value' =>
    decide (lo ≤ lo' ∧ hi' ≤ hi ∧ lo' ≤ hi' ∧ value >>> (lo' - lo) % 2 ^ (hi' - lo' + 1) = value')
  | a, b => decide (a = b)

variable {w}

theorem holds_of_implies {a b : Test} (himp : a.implies b = true) (ha : a.holds w = true) :
    b.holds w = true := by
  unfold Test.implies at himp
  split at himp
  · obtain ⟨hlo, hhi, hne, hvalue⟩ := of_decide_eq_true himp
    simp only [Test.holds, beq_iff_eq] at ha ⊢
    rw [← slice_slice w hlo hhi hne, ha, hvalue]
  · rwa [← of_decide_eq_true himp]

/-- Each test of some alternative is implied by one of the given tests. -/
def subsumed (ts : List Test) (ds : List (List Test)) : Bool :=
  ds.any fun d => d.all fun b => ts.any (·.implies b)

theorem someHolds_of_subsumed {ts : List Test} {ds : List (List Test)}
    (hsub : subsumed ts ds = true) (h : allHold w ts = true) : someHolds w ds = true := by
  obtain ⟨d, hd, himp⟩ := List.any_eq_true.mp hsub
  have hhold : allHold w d = true := by
    apply List.all_eq_true.mpr
    intro b hb
    obtain ⟨a, ha, hab⟩ := List.any_eq_true.mp (List.all_eq_true.mp himp b hb)
    exact holds_of_implies hab (List.all_eq_true.mp h a ha)
  exact List.any_eq_true.mpr ⟨d, hd, hhold⟩

/-- Two tests that no word passes together: a field inside the field of an equation is compared
with a different part of its constant. -/
def Test.excludes : Test → Test → Bool
  | .eq hi lo value, .eq hi' lo' value' =>
    decide (lo ≤ lo' ∧ hi' ≤ hi ∧ lo' ≤ hi' ∧ value >>> (lo' - lo) % 2 ^ (hi' - lo' + 1) ≠ value')
  | .eq hi lo value, .ne hi' lo' value' =>
    decide (lo ≤ lo' ∧ hi' ≤ hi ∧ lo' ≤ hi' ∧ value >>> (lo' - lo) % 2 ^ (hi' - lo' + 1) = value')
  | _, _ => false

theorem not_holds_of_excludes {a b : Test} (hexc : a.excludes b = true) (ha : a.holds w = true) :
    b.holds w = false := by
  unfold Test.excludes at hexc
  split at hexc
  · have ⟨hlo, hhi, hne, hvalue⟩ := of_decide_eq_true hexc
    simp only [Test.holds, beq_iff_eq, beq_eq_false_iff_ne] at ha ⊢
    rw [← slice_slice w hlo hhi hne, ha]
    exact hvalue
  · have ⟨hlo, hhi, hne, hvalue⟩ := of_decide_eq_true hexc
    simp only [Test.holds, beq_iff_eq, bne_eq_false_iff_eq] at ha ⊢
    rw [← slice_slice w hlo hhi hne, ha]
    exact hvalue
  · cases hexc

/-- Some test of one list excludes one of the other. -/
def disjoint (ts us : List Test) : Bool :=
  ts.any fun a => us.any fun b => a.excludes b || b.excludes a

theorem not_both_of_disjoint {ts us : List Test} (hdis : disjoint ts us = true)
    (hts : allHold w ts = true) (hus : allHold w us = true) : False := by
  have ⟨a, ha, hrest⟩ := List.any_eq_true.mp hdis
  have ⟨b, hb, hexc⟩ := List.any_eq_true.mp hrest
  have hpass := List.all_eq_true.mp hts a ha
  have hpass' := List.all_eq_true.mp hus b hb
  rw [Bool.or_eq_true] at hexc
  rcases hexc with hexc | hexc
  · rw [not_holds_of_excludes hexc hpass] at hpass'
    cases hpass'
  · rw [not_holds_of_excludes hexc hpass'] at hpass
    cases hpass

/-- A word made to pass the tests: the constants of the equations in place, and a one where a
field has to differ from zero. -/
def sample (ts : List Test) : BitVec 32 :=
  ts.foldl (fun w t =>
    match t with
    | .eq _ lo value => w ||| BitVec.ofNat 32 (value <<< lo)
    | .ne _ lo _ => w ||| BitVec.ofNat 32 (1 <<< lo)) 0

end BitField
