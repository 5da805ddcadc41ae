import SynthLC.Bisect
import SynthLC.Dict
import SynthLC.Orders
import Mathlib.Algebra.Order.Ring.Int
import Mathlib.Data.List.Sort
import Mathlib.Order.Bounds.Basic

/-! `xPerfLocCycleCount`: how long a location may be occupied. `template.tcl` bisects the length of
the stay, `proc` reads the verdicts of one location back, `gen_s2` asks for each reachable set
whether two cycles are possible, and `pp` collects the answers. -/
namespace SynthLC.CycleCount

open Sva Loop

section Search

variable (verdict : Int → Result)

/-- One pass of the loop in `template.tcl`. `cover` fails on a name that is used and on a negative
count. -/
def round (s : Bisect.State) : Option Bisect.State :=
  if s.mid ∈ s.probes ∨ s.mid < 0 then none
  else some (Bisect.step (fun k => verdict k = .covered) s)

/-- The loop with the passes it has left; the second part is their number when `cover` failed. -/
def whileLoop : Nat → Bisect.State → Bisect.State × Option Nat
  | 0, s => (s, none)
  | left + 1, s =>
    match round verdict s with
    | none => (s, some left)
    | some s' => whileLoop left s'

def search : Bisect.State × Option Nat := whileLoop verdict 10 ⟨0, 70, []⟩

/-- The counts `k` of the covers `consec_{itm}_{k}`, in the order they were proved. -/
def proved : List Int := (search verdict).1.probes

/-- `max_cycle_count_{itm}.csv` -/
def maxCycleCount : List (Int × Result) := (proved verdict).map fun k => (k, verdict k)

variable {verdict} {s : Bisect.State} {b : Int}

/-- From counts that start at zero the loop only fails once nothing is left between the bounds. -/
theorem round_eq (h : Bisect.Inv (fun k => verdict k = .covered) 0 b s) : round verdict s =
    if s.lo ≤ s.hi then some (Bisect.step (fun k => verdict k = .covered) s) else none := by
  unfold round
  split_ifs with hfail hne hne
  · obtain ⟨hfresh, hpos, _⟩ := h.mid_fresh hne
    rcases hfail with hused | hneg
    · exact absurd hused hfresh
    · omega
  · rfl
  · rfl
  · rcases h.mid_used (by omega) with hused | hneg
    · exact absurd (.inl hused) hfail
    · exact absurd (.inr (by omega)) hfail

/-- An interval shorter than `2 ^ n` is used up in `n` passes, and the next one fails. -/
theorem whileLoop_stops {n : Nat} (m : Nat)
    (h : Bisect.Inv (fun k => verdict k = .covered) 0 b s) (hsize : s.hi + 1 - s.lo < 2 ^ n) :
    ∃ s' left, whileLoop verdict (n + 1 + m) s = (s', some left) ∧ m ≤ left ∧
      Bisect.Inv (fun k => verdict k = .covered) 0 b s' ∧ s'.hi < s'.lo := by
  induction n generalizing s with
  | zero =>
    have hempty : ¬s.lo ≤ s.hi := by
      rw [pow_zero] at hsize
      omega
    refine ⟨s, m, ?_, le_rfl, h, not_le.mp hempty⟩
    rw [show 0 + 1 + m = m + 1 by omega, whileLoop, round_eq h, if_neg hempty]
  | succ n ih =>
    rw [show n + 1 + 1 + m = (n + 1 + m) + 1 by omega, whileLoop, round_eq h]
    split_ifs with hne
    · have hhalf := Bisect.step_halves (fun k => verdict k = .covered) s
      rw [pow_succ] at hsize
      exact ih (h.step hne) (by omega)
    · exact ⟨s, n + 1 + m, rfl, by omega, h, not_le.mp hne⟩

/-- Until then it looks at the points of a bisection. -/
theorem probes_whileLoop (left : Nat) (h : Bisect.Inv (fun k => verdict k = .covered) 0 b s) :
    (whileLoop verdict left s).1.probes =
      s.probes ++ Bisect.asked (fun k => verdict k = .covered) left s := by
  induction left generalizing s with
  | zero => exact (List.append_nil _).symm
  | succ left ih =>
    rw [whileLoop, round_eq h, Bisect.asked]
    split_ifs with hne
    · have hprobes : (Bisect.step (fun k => verdict k = .covered) s).probes =
          s.probes ++ [s.mid] := by
        unfold Bisect.step
        split_ifs <;> rfl
      rw [ih (h.step hne), hprobes, List.append_assoc]
      rfl
    · exact (List.append_nil _).symm

theorem proved_eq_asked (verdict : Int → Result) :
    proved verdict = Bisect.asked (fun k => verdict k = .covered) 10 ⟨0, 70, []⟩ :=
  probes_whileLoop 10 (Bisect.inv_start (b := 70) (by omega))

/-- Seventy-one counts take seven passes. -/
theorem search_stops (verdict : Int → Result) :
    ∃ s left, search verdict = (s, some left) ∧ 2 ≤ left ∧
      Bisect.Inv (fun k => verdict k = .covered) 0 70 s ∧ s.hi < s.lo :=
  @whileLoop_stops verdict ⟨0, 70, []⟩ 70 7 2 (Bisect.inv_start (by omega)) (by simp only; omega)

end Search

section Proc

/-- Order of `sorted(res_raw, key = lambda i: i[0], reverse=True)`. -/
def Longer (r r' : Int × Result) : Prop := r'.1 ≤ r.1

/-- Order of `sorted(res_raw, key = lambda i: i[0], reverse=False)`. -/
def Shorter (r r' : Int × Result) : Prop := r.1 ≤ r'.1

instance : DecidableRel Longer := fun r r' => inferInstanceAs (Decidable (r'.1 ≤ r.1))

instance : DecidableRel Shorter := fun r r' => inferInstanceAs (Decidable (r.1 ≤ r'.1))

instance : Std.Total Longer := ⟨fun r r' => le_total r'.1 r.1⟩

instance : Std.Total Shorter := ⟨fun r r' => le_total r.1 r'.1⟩

instance : IsTrans (Int × Result) Longer := ⟨fun _ _ _ h h' => le_trans h' h⟩

instance : IsTrans (Int × Result) Shorter := ⟨fun _ _ _ h h' => le_trans h h'⟩

/-- The scan of `res_inc` up to `min_unreach_cyc`, with `min_covered_cyc_under_unreach`. -/
def scanInc (cyc : Int) : Option Int → List (Int × Result) → Option Int × Option Int
  | cov, [] => (none, cov)
  | cov, rr :: rs =>
    if rr.2 = .unreachable ∧ rr.1 < cyc then (some rr.1, cov)
    else scanInc cyc (if rr.2 = .covered then some rr.1 else cov) rs

/-- Rows that `proc` takes for a possible stay. -/
def possible (r : Result) : Bool := r = .covered || r = .undetermined

/-- What `proc` returns: `None` without a file, else `(cyc, max_cyc_covered)`. -/
abbrev Counts := Option (Option Int × Int)

/-- `proc`; no value where its assertion fails. -/
def proc : Option (List (Int × Result)) → Option Counts
  | none => some none
  | some resRaw => do
    let res := resRaw.insertionSort Longer
    let resInc := resRaw.insertionSort Shorter
    let maxCycCovered ← (res.find? fun rr => rr.2 = .covered).map Prod.fst
    let cyc ← (res.find? fun rr => possible rr.2).map Prod.fst
    let (minUnreachCyc, minCovered) := scanInc cyc none resInc
    some (some (if minUnreachCyc.isSome then minCovered else some cyc, maxCycCovered))

/-- Counts with a verdict of this kind. -/
def stays (rows : List (Int × Result)) (P : Result → Bool) : Set Int :=
  {k | ∃ r, (k, r) ∈ rows ∧ P r = true}

variable {rows : List (Int × Result)} {rr : Int × Result} {P : Result → Bool} {C k cyc : Int}

theorem mem_stays_cons :
    k ∈ stays (rr :: rows) P ↔ (k = rr.1 ∧ P rr.2 = true) ∨ k ∈ stays rows P := by
  constructor
  · intro h
    obtain ⟨r, hmem, hr⟩ := h
    rcases List.mem_cons.mp hmem with heq | hmem
    · rw [← heq]
      exact .inl ⟨rfl, hr⟩
    · exact .inr ⟨r, hmem, hr⟩
  · intro h
    rcases h with ⟨rfl, hr⟩ | ⟨r, hmem, hr⟩
    · exact ⟨rr.2, by simp, hr⟩
    · exact ⟨r, List.mem_cons_of_mem rr hmem, hr⟩

theorem stays_cons_of_neg (h : ¬P rr.2 = true) : stays (rr :: rows) P = stays rows P := by
  ext k
  rw [mem_stays_cons, or_iff_right fun hk => h hk.2]

theorem stays_insertionSort (R : Int × Result → Int × Result → Prop) [DecidableRel R] :
    stays (rows.insertionSort R) P = stays rows P := by
  unfold stays
  simp only [List.mem_insertionSort]

theorem find?_longest (h : rows.Pairwise Longer)
    (hk : (rows.find? fun rr => P rr.2).map Prod.fst = some k) : IsGreatest (stays rows P) k := by
  induction rows with
  | nil => simp at hk
  | cons rr rs ih =>
    obtain ⟨hhead, htail⟩ := List.pairwise_cons.mp h
    rw [List.find?_cons] at hk
    cases hP : P rr.2 with
    | true =>
      rw [hP] at hk
      obtain rfl := Option.some.inj hk
      refine ⟨mem_stays_cons.mpr (.inl ⟨rfl, hP⟩), ?_⟩
      intro k' hk'
      rcases mem_stays_cons.mp hk' with ⟨rfl, _⟩ | ⟨r, hmem, _⟩
      · exact le_rfl
      · exact hhead _ hmem
    | false =>
      rw [hP] at hk
      rw [stays_cons_of_neg (by simp [hP])]
      exact ih htail hk

/-- The first row of a kind in the falling order is the longest stay of that kind. -/
theorem longest_iff : ((rows.insertionSort Longer).find? fun rr => P rr.2).map Prod.fst = some k ↔
    IsGreatest (stays rows P) k := by
  have hsorted := List.pairwise_insertionSort Longer rows
  have hstays : stays (rows.insertionSort Longer) P = stays rows P := stays_insertionSort Longer
  constructor
  · intro hk
    rw [← hstays]
    exact find?_longest hsorted hk
  · intro hk
    rw [← hstays] at hk
    obtain ⟨r, hmem, hr⟩ := hk.1
    cases hfind : (rows.insertionSort Longer).find? fun rr => P rr.2 with
    | none => exact absurd hr (by simpa using List.find?_eq_none.mp hfind _ hmem)
    | some rr =>
      have hgreatest := find?_longest (k := rr.1) hsorted (by rw [hfind]; rfl)
      rw [Option.map_some, hgreatest.unique hk]

theorem isSome_scanInc (cov : Option Int) : (scanInc cyc cov rows).1.isSome = true ↔
    ∃ u ∈ stays rows (· = .unreachable), u < cyc := by
  induction rows generalizing cov with
  | nil => simp [scanInc, stays]
  | cons rr rs ih =>
    unfold scanInc
    by_cases hbreak : rr.2 = .unreachable ∧ rr.1 < cyc
    · rw [if_pos hbreak]
      simp only [Option.isSome_some, true_iff]
      exact ⟨rr.1, mem_stays_cons.mpr (.inl ⟨rfl, by simpa using hbreak.1⟩), hbreak.2⟩
    · rw [if_neg hbreak, ih]
      apply exists_congr
      intro u
      apply and_congr_left
      intro hlt
      rw [mem_stays_cons, or_iff_right]
      intro hu
      obtain ⟨rfl, hr⟩ := hu
      exact hbreak ⟨by simpa using hr, hlt⟩

theorem scanInc_of_no_covered (h : stays rows (· = .covered) = ∅) (cov : Option Int) :
    (scanInc cyc cov rows).2 = cov := by
  induction rows generalizing cov with
  | nil => rfl
  | cons rr rs ih =>
    have hnot : rr.2 ≠ .covered := by
      intro hr
      have hmem : rr.1 ∈ stays (rr :: rs) (· = .covered) :=
        mem_stays_cons.mpr (.inl ⟨rfl, by simpa using hr⟩)
      rw [h] at hmem
      exact hmem
    unfold scanInc
    rw [if_neg hnot]
    split_ifs
    · rfl
    · rw [stays_cons_of_neg (by simpa using hnot)] at h
      exact ih h cov

/-- No covered stay is as long as an unreachable one. -/
def Separated (rows : List (Int × Result)) : Prop :=
  ∀ c ∈ stays rows (· = .covered), ∀ u ∈ stays rows (· = .unreachable), c < u

theorem Separated.tail (h : Separated (rr :: rows)) : Separated rows :=
  fun c hc u hu => h c (mem_stays_cons.mpr (.inr hc)) u (mem_stays_cons.mpr (.inr hu))

/-- If covered and unreachable stays are apart, the scan meets every covered one. -/
theorem scanInc_covered (hsorted : rows.Pairwise Shorter) (hsep : Separated rows)
    (hC : IsGreatest (stays rows (· = .covered)) C) (cov : Option Int) :
    (scanInc cyc cov rows).2 = some C := by
  induction rows generalizing cov with
  | nil =>
    obtain ⟨r, hmem, _⟩ := hC.1
    simp at hmem
  | cons rr rs ih =>
    obtain ⟨hhead, htail⟩ := List.pairwise_cons.mp hsorted
    have hle {c : Int} (hc : c ∈ stays rs (· = .covered)) : rr.1 ≤ c := by
      obtain ⟨r, hmem, _⟩ := hc
      exact hhead _ hmem
    unfold scanInc
    split_ifs with hbreak hcov
    · -- the scan cannot stop here: a covered stay would be as long as this one
      have hlt := hsep C hC.1 rr.1 (mem_stays_cons.mpr (.inl ⟨rfl, by simpa using hbreak.1⟩))
      rcases mem_stays_cons.mp hC.1 with ⟨heq, _⟩ | hrest
      · omega
      · have hge := hle hrest
        omega
    · rcases (stays rs (· = .covered)).eq_empty_or_nonempty with hempty | ⟨c, hc⟩
      · rw [scanInc_of_no_covered hempty]
        have hC' := mem_stays_cons.mp hC.1
        rw [hempty] at hC'
        rw [(hC'.resolve_right id).1]
      · refine ih htail hsep.tail ⟨?_, fun c' hc' => hC.2 (mem_stays_cons.mpr (.inr hc'))⟩ _
        rcases mem_stays_cons.mp hC.1 with ⟨heq, _⟩ | hrest
        · have hge := hle hc
          have hmax : c ≤ C := hC.2 (mem_stays_cons.mpr (.inr hc))
          rwa [show C = c by omega]
        · exact hrest
    · rw [stays_cons_of_neg (by simpa using hcov)] at hC
      exact ih htail hsep.tail hC _

section Separated

variable (hsep : Separated rows) {P : Int} (hC : IsGreatest (stays rows (· = .covered)) C)
  (hP : IsGreatest (stays rows possible) P)
include hsep hC hP

/-- `proc` on separated verdicts: the longest possible stay, unless a shorter one is known to be
unreachable. -/
theorem proc_of_separated : proc (some rows) =
    if (scanInc P none (rows.insertionSort Shorter)).1.isSome then some (some (some C, C))
    else some (some (some P, C)) := by
  have hsep' : Separated (rows.insertionSort Shorter) := by
    unfold Separated
    rwa [stays_insertionSort, stays_insertionSort]
  have hscan : (scanInc P none (rows.insertionSort Shorter)).2 = some C :=
    scanInc_covered (List.pairwise_insertionSort Shorter rows) hsep'
      (by rwa [stays_insertionSort]) none
  unfold proc
  simp only [longest_iff.mpr hP, longest_iff.mpr hC, Option.bind_eq_bind, Option.bind_some, hscan]
  split_ifs <;> rfl

theorem proc_of_unreachable (h : ∃ u ∈ stays rows (· = .unreachable), u < P) :
    proc (some rows) = some (some (some C, C)) := by
  rw [proc_of_separated hsep hC hP, if_pos]
  rwa [isSome_scanInc, stays_insertionSort]

theorem proc_of_not_unreachable (h : ¬∃ u ∈ stays rows (· = .unreachable), u < P) :
    proc (some rows) = some (some (some P, C)) := by
  rw [proc_of_separated hsep hC hP, if_neg]
  rwa [isSome_scanInc, stays_insertionSort]

end Separated

/-- Whenever `proc` returns counts there is a longest possible stay, and the second count is the
longest covered one. -/
theorem exists_of_proc {c : Option Int} (h : proc (some rows) = some (some (c, C))) :
    IsGreatest (stays rows (· = .covered)) C ∧ ∃ P, IsGreatest (stays rows possible) P := by
  unfold proc at h
  obtain ⟨C', hC, h⟩ := Option.bind_eq_some_iff.mp h
  obtain ⟨P, hP, h⟩ := Option.bind_eq_some_iff.mp h
  obtain rfl : C' = C := (Prod.mk.inj (Option.some.inj (Option.some.inj h))).2
  exact ⟨longest_iff.mp hC, P, longest_iff.mp hP⟩

end Proc

section Stay

variable {verdict : Int → Result} {M : Int}

theorem mem_stays_maxCycleCount {P : Result → Bool} {k : Int} :
    k ∈ stays (maxCycleCount verdict) P ↔ k ∈ proved verdict ∧ P (verdict k) = true := by
  simp only [stays, maxCycleCount, List.mem_map, Prod.mk.injEq, Set.mem_ofPred_eq]
  constructor
  · intro h
    obtain ⟨r, ⟨k', hk', rfl, rfl⟩, hP⟩ := h
    exact ⟨hk', hP⟩
  · intro h
    exact ⟨verdict k, ⟨k, h.1, rfl, rfl⟩, h.2⟩

/-- Verdicts that are right about a longest stay keep covered and unreachable apart. -/
theorem separated_maxCycleCount (hcov : ∀ k, verdict k = .covered → k ≤ M)
    (hunr : ∀ k, verdict k = .unreachable → M < k) : Separated (maxCycleCount verdict) := by
  intro c hc u hu
  have hc' := hcov c (by simpa using (mem_stays_maxCycleCount.mp hc).2)
  have hu' := hunr u (by simpa using (mem_stays_maxCycleCount.mp hu).2)
  omega

section Longest

variable {C P : Int} (hcov : ∀ k, verdict k = .covered → k ≤ M)
  (hunr : ∀ k, verdict k = .unreachable → M < k)
  (hC : IsGreatest (stays (maxCycleCount verdict) (· = .covered)) C)
  (hP : IsGreatest (stays (maxCycleCount verdict) possible) P)

include hcov hC in
theorem le_longest_covered_iff : M ≤ C ↔ M ∈ proved verdict ∧ verdict M = .covered := by
  obtain ⟨hmem, hcovered⟩ := mem_stays_maxCycleCount.mp hC.1
  have hle : C ≤ M := hcov C (by simpa using hcovered)
  constructor
  · intro hge
    rw [show M = C by omega]
    exact ⟨hmem, by simpa using hcovered⟩
  · intro h
    exact hC.2 (mem_stays_maxCycleCount.mpr ⟨h.1, by simpa using h.2⟩)

include hcov hP in
theorem le_longest_possible_iff : M ≤ P ↔ (M ∈ proved verdict ∧ verdict M = .covered) ∨
    ∃ k ∈ proved verdict, M ≤ k ∧ verdict k = .undetermined := by
  obtain ⟨hmem, hpos⟩ := mem_stays_maxCycleCount.mp hP.1
  constructor
  · intro hle
    have hcases : verdict P = .covered ∨ verdict P = .undetermined := by
      simpa [possible] using hpos
    rcases hcases with hcovered | hund
    · have hge := hcov P hcovered
      obtain rfl : M = P := by omega
      exact .inl ⟨hmem, hcovered⟩
    · exact .inr ⟨P, hmem, hle, hund⟩
  · intro h
    rcases h with ⟨hM, hcovered⟩ | ⟨k, hk, hMk, hund⟩
    · exact hP.2 (mem_stays_maxCycleCount.mpr ⟨hM, by simp [possible, hcovered]⟩)
    · have hkP : k ≤ P := hP.2 (mem_stays_maxCycleCount.mpr ⟨hk, by simp [possible, hund]⟩)
      omega

include hcov hunr hP in
/-- What stands above an unreachable length and is possible was left open. -/
theorem unreachable_below_iff : (∃ u ∈ stays (maxCycleCount verdict) (· = .unreachable), u < P) ↔
    ∃ u ∈ proved verdict, verdict u = .unreachable ∧
      ∃ k ∈ proved verdict, verdict k = .undetermined ∧ u < k := by
  obtain ⟨hmem, hpos⟩ := mem_stays_maxCycleCount.mp hP.1
  constructor
  · intro h
    obtain ⟨u, hu, hlt⟩ := h
    obtain ⟨humem, hunreach⟩ := mem_stays_maxCycleCount.mp hu
    have hMu := hunr u (by simpa using hunreach)
    have hcases : verdict P = .covered ∨ verdict P = .undetermined := by
      simpa [possible] using hpos
    refine ⟨u, humem, by simpa using hunreach, P, hmem, hcases.resolve_left ?_, hlt⟩
    intro hcovered
    have hPM := hcov P hcovered
    omega
  · intro h
    obtain ⟨u, hu, hunreach, k, hk, hund, hlt⟩ := h
    have hkP : k ≤ P := hP.2 (mem_stays_maxCycleCount.mpr ⟨hk, by simp [possible, hund]⟩)
    exact ⟨u, mem_stays_maxCycleCount.mpr ⟨hu, by simpa using hunreach⟩, by omega⟩

end Longest

/-- Every length is decided, up to a longest stay. -/
def decidedUpTo (M k : Int) : Result := if k ≤ M then .covered else .unreachable

theorem decidedUpTo_covered {M k : Int} : decidedUpTo M k = .covered ↔ k ≤ M := by
  unfold decidedUpTo
  split_ifs with hle <;> simp [hle]

theorem decidedUpTo_unreachable {M k : Int} : decidedUpTo M k = .unreachable ↔ M < k := by
  unfold decidedUpTo
  split_ifs with hle
  · simp [hle]
  · simp only [true_iff]
    omega

theorem possible_decidedUpTo {M k : Int} : possible (decidedUpTo M k) = true ↔ k ≤ M := by
  unfold decidedUpTo
  split_ifs with hle <;> simp [possible, hle]

/-- On decided verdicts `proc` returns the longest covered length twice. -/
theorem proc_decidedUpTo {M C : Int}
    (h : IsGreatest {k | k ∈ proved (decidedUpTo M) ∧ decidedUpTo M k = .covered} C) :
    proc (some (maxCycleCount (decidedUpTo M))) = some (some (some C, C)) := by
  have hC : IsGreatest (stays (maxCycleCount (decidedUpTo M)) (· = .covered)) C := by
    convert h using 1
    ext k
    simp [mem_stays_maxCycleCount]
  have hP : IsGreatest (stays (maxCycleCount (decidedUpTo M)) possible) C := by
    convert h using 1
    ext k
    simp [mem_stays_maxCycleCount, possible_decidedUpTo, decidedUpTo_covered]
  refine proc_of_not_unreachable ?_ hC hP ?_
  · exact separated_maxCycleCount (fun k => decidedUpTo_covered.mp)
      fun k => decidedUpTo_unreachable.mp
  · intro ⟨u, hu, hlt⟩
    have hun : decidedUpTo M u = .unreachable := by
      simpa using (mem_stays_maxCycleCount.mp hu).2
    have hMu := decidedUpTo_unreachable.mp hun
    have hle := decidedUpTo_covered.mp h.1.2
    omega

/-- The results on the verdicts that were asked for: the longest stay was covered, or a stay as long
was undetermined and nothing below an undetermined one was unreachable. -/
theorem bounds_iff_of_proved (hcov : ∀ k, verdict k = .covered → k ≤ M)
    (hunr : ∀ k, verdict k = .unreachable → M < k) {cyc : Option Int} {maxCycCovered : Int}
    (hret : proc (some (maxCycleCount verdict)) = some (some (cyc, maxCycCovered))) :
    ((∃ c, cyc = some c ∧ M ≤ c) ∧ maxCycCovered ≤ M) ↔
      (M ∈ proved verdict ∧ verdict M = .covered) ∨
        ((∃ k ∈ proved verdict, M ≤ k ∧ verdict k = .undetermined) ∧
          ¬∃ u ∈ proved verdict, verdict u = .unreachable ∧
            ∃ k ∈ proved verdict, verdict k = .undetermined ∧ u < k) := by
  have hsep := separated_maxCycleCount hcov hunr
  obtain ⟨hC, P, hP⟩ := exists_of_proc hret
  have hCM : maxCycCovered ≤ M := hcov _ (by simpa using (mem_stays_maxCycleCount.mp hC.1).2)
  have hcovered := le_longest_covered_iff hcov hC
  have hpossible := le_longest_possible_iff hcov hP
  rw [← unreachable_below_iff hcov hunr hP]
  by_cases hun : ∃ u ∈ stays (maxCycleCount verdict) (· = .unreachable), u < P
  · rw [proc_of_unreachable hsep hC hP hun] at hret
    obtain rfl : some maxCycCovered = cyc := by simpa using hret
    simp only [Option.some.injEq, exists_eq_left', hCM, hun, not_true, and_true, and_false,
      or_false, hcovered]
  · rw [proc_of_not_unreachable hsep hC hP hun] at hret
    obtain rfl : some P = cyc := by simpa using hret
    simp only [Option.some.injEq, exists_eq_left', hCM, hun, not_false_eq_true, and_true,
      hpossible]

/-- The longest stay is a count, and the longest covered one is no longer. -/
theorem covered_bounds (hcov : ∀ k, verdict k = .covered → k ≤ M) {cyc : Option Int}
    {maxCycCovered : Int}
    (hret : proc (some (maxCycleCount verdict)) = some (some (cyc, maxCycCovered))) :
    0 ≤ M ∧ maxCycCovered ≤ M := by
  obtain ⟨hC, _⟩ := exists_of_proc hret
  obtain ⟨hmem, hcovered⟩ := mem_stays_maxCycleCount.mp hC.1
  have hle := hcov maxCycCovered (by simpa using hcovered)
  have hrange := Bisect.mem_asked_between (proved_eq_asked verdict ▸ hmem)
  exact ⟨hrange.1.trans hle, hle⟩

/-- The counts that a bisection with exact answers looks at on its way to a longest stay. -/
def towards (M : Int) : List Int := Bisect.asked (fun k => k ≤ M) 10 ⟨0, 70, []⟩

/-- The first count on that way which is not longer than the stay and still not covered. The search
turns below it, away from the stay. -/
structure TurnsAway (verdict : Int → Result) (M : Int) (pre : List Int) (d : Int) : Prop where
  way : ∃ post, towards M = pre ++ d :: post
  le : d ≤ M
  notCovered : verdict d ≠ .covered
  before : ∀ k ∈ pre, k ≤ M → verdict k = .covered

theorem mem_towards (h0 : 0 ≤ M) (h70 : M ≤ 70) : M ∈ towards M :=
  Bisect.mem_asked (fun k => by rw [decide_eq_true_iff]) h0 h70 (by simp only; omega)

theorem covered_eq_decide_le {k : Int} (hcov : ∀ k, verdict k = .covered → k ≤ M)
    (hk : k ≤ M → verdict k = .covered) : decide (k ≤ M) = decide (verdict k = .covered) := by
  rw [decide_eq_decide]
  exact ⟨hk, hcov k⟩

/-- Where the covers of all shorter counts on the way are covered, the search goes all of it. -/
theorem proved_eq_towards (hcov : ∀ k, verdict k = .covered → k ≤ M)
    (h : ∀ k ∈ towards M, k ≤ M → verdict k = .covered) : proved verdict = towards M := by
  rw [proved_eq_asked]
  exact Bisect.asked_congr fun k hk => covered_eq_decide_le hcov (h k hk)

/-- Otherwise it goes with it up to the count where it turns away, and stays below that. -/
theorem TurnsAway.proved {pre : List Int} {d : Int} (h : TurnsAway verdict M pre d)
    (hcov : ∀ k, verdict k = .covered → k ≤ M) :
    ∃ rest, CycleCount.proved verdict = pre ++ d :: rest ∧ ∀ k ∈ rest, k < d := by
  obtain ⟨post, hway⟩ := h.way
  rw [proved_eq_asked]
  obtain ⟨rest, hrest⟩ := Bisect.asked_of_agree hway fun k hk =>
    covered_eq_decide_le hcov (h.before k hk)
  refine ⟨rest, hrest, ?_⟩
  intro k hk
  have hafter := Bisect.asked_after hrest hk
  rwa [if_neg (by simpa using h.notCovered)] at hafter

/-- The stay itself is not among the counts before: after it only longer ones would come. -/
theorem TurnsAway.not_mem {pre : List Int} {d : Int} (h : TurnsAway verdict M pre d) : M ∉ pre := by
  intro hmem
  obtain ⟨post, hway⟩ := h.way
  obtain ⟨xs, ys, rfl⟩ := List.append_of_mem hmem
  rw [List.append_assoc, List.cons_append] at hway
  have hafter := Bisect.asked_after hway (List.mem_append_right ys List.mem_cons_self)
  rw [if_pos (by simp)] at hafter
  have hle := h.le
  omega

/-- Of the counts as long as the stay it asks for those before the turn and for the turn itself. -/
theorem TurnsAway.mem_proved_iff {pre : List Int} {d k : Int} (h : TurnsAway verdict M pre d)
    (hcov : ∀ k, verdict k = .covered → k ≤ M) (hk : M ≤ k) :
    k ∈ CycleCount.proved verdict ↔ k ∈ pre ∨ k = d := by
  obtain ⟨rest, hproved, hrest⟩ := h.proved hcov
  have hnot : k ∉ rest := by
    intro hmem
    have hlt := hrest k hmem
    have hle := h.le
    omega
  rw [hproved, List.mem_append, List.mem_cons, or_iff_left hnot]

theorem TurnsAway.mem_proved_iff_of_lt {pre : List Int} {d k : Int}
    (h : TurnsAway verdict M pre d) (hcov : ∀ k, verdict k = .covered → k ≤ M) (hk : M < k) :
    k ∈ CycleCount.proved verdict ↔ k ∈ pre := by
  have hne : k ≠ d := by
    have hle := h.le
    omega
  rw [h.mem_proved_iff hcov hk.le, or_iff_left hne]

/-- What is open before the turn is longer than the stay. -/
theorem TurnsAway.lt_of_open {pre : List Int} {d k : Int} (h : TurnsAway verdict M pre d)
    (hk : k ∈ pre) (hund : verdict k = .undetermined) : M < k := by
  by_contra hle
  rw [h.before k hk (not_lt.mp hle)] at hund
  cases hund

/-- Where the search turns away, the results are right exactly if a count as long as the stay was
left open by then, and none was above an unreachable one. -/
theorem TurnsAway.bounds_iff {pre : List Int} {d : Int} (h : TurnsAway verdict M pre d)
    (hcov : ∀ k, verdict k = .covered → k ≤ M) (hunr : ∀ k, verdict k = .unreachable → M < k)
    {cyc : Option Int} {maxCycCovered : Int}
    (hret : proc (some (maxCycleCount verdict)) = some (some (cyc, maxCycCovered))) :
    ((∃ c, cyc = some c ∧ M ≤ c) ∧ maxCycCovered ≤ M) ↔
      ((d = M ∧ verdict d = .undetermined) ∨ ∃ k ∈ pre, verdict k = .undetermined) ∧
        ∀ u ∈ pre, verdict u = .unreachable → ∀ k ∈ pre, verdict k = .undetermined → k < u := by
  have hnotcovered : ¬(M ∈ CycleCount.proved verdict ∧ verdict M = .covered) := by
    intro ⟨hM, hcovered⟩
    rcases (h.mem_proved_iff hcov le_rfl).mp hM with hM | rfl
    · exact h.not_mem hM
    · exact h.notCovered hcovered
  rw [bounds_iff_of_proved hcov hunr hret, or_iff_right hnotcovered]
  apply and_congr
  · constructor
    · intro ⟨k, hk, hMk, hund⟩
      rcases (h.mem_proved_iff hcov hMk).mp hk with hk | rfl
      · exact .inr ⟨k, hk, hund⟩
      · exact .inl ⟨le_antisymm h.le hMk, hund⟩
    · intro hcases
      rcases hcases with ⟨rfl, hund⟩ | ⟨k, hk, hund⟩
      · exact ⟨d, (h.mem_proved_iff hcov le_rfl).mpr (.inr rfl), le_rfl, hund⟩
      · have hlt := h.lt_of_open hk hund
        exact ⟨k, (h.mem_proved_iff_of_lt hcov hlt).mpr hk, hlt.le, hund⟩
  · constructor
    · intro hnone u hu hunreach k hk hund
      by_contra hge
      have hne : u ≠ k := by
        rintro rfl
        rw [hunreach] at hund
        cases hund
      have hu' := (h.mem_proved_iff_of_lt hcov (hunr u hunreach)).mpr hu
      have hk' := (h.mem_proved_iff_of_lt hcov (h.lt_of_open hk hund)).mpr hk
      exact hnone ⟨u, hu', hunreach, k, hk', hund, by omega⟩
    · intro hall ⟨u, hu, hunreach, k, hk, hund, hlt⟩
      have hMu := hunr u hunreach
      have hu' := (h.mem_proved_iff_of_lt hcov hMu).mp hu
      have hk' := (h.mem_proved_iff_of_lt hcov (hMu.trans hlt)).mp hk
      exact absurd (hall u hu' hunreach k hk' hund) (not_lt.mpr hlt.le)

theorem exists_turnsAway (h : ¬∀ k ∈ towards M, k ≤ M → verdict k = .covered) :
    ∃ pre d, TurnsAway verdict M pre d := by
  cases hfind : (towards M).find? fun k => decide (k ≤ M ∧ verdict k ≠ .covered) with
  | none =>
    refine absurd ?_ h
    intro k hk hle
    by_contra hne
    have hnot := List.find?_eq_none.mp hfind k hk
    exact hnot (decide_eq_true ⟨hle, hne⟩)
  | some d =>
    obtain ⟨hd, pre, post, hway, hpre⟩ := List.find?_eq_some_iff_append.mp hfind
    obtain ⟨hle, hne⟩ := of_decide_eq_true hd
    refine ⟨pre, d, ⟨post, hway⟩, hle, hne, ?_⟩
    intro k hk hkM
    by_contra hnot
    have hk := hpre k hk
    rw [decide_eq_true ⟨hkM, hnot⟩] at hk
    cases hk

/-- With verdicts that may be undetermined, follow the bisection that always turns towards the
longest stay. If the cover of a count on that way, not longer than the stay, is not covered, then at
the first such count the stay itself or a longer count must have been left open by then, and none of
the open ones above an unreachable one. `max_cyc_covered` is never longer than the longest stay. -/
theorem cyc_bounds_longest_stay_iff (verdict : Int → Result) (M : Int)
    (hcov : ∀ k, verdict k = .covered → k ≤ M) (hunr : ∀ k, verdict k = .unreachable → M < k)
    (cyc : Option Int) (maxCycCovered : Int)
    (hret : proc (some (maxCycleCount verdict)) = some (some (cyc, maxCycCovered))) :
    maxCycCovered ≤ M ∧ ((∃ c, cyc = some c ∧ M ≤ c) ↔ M ≤ 70 ∧ ∀ pre d,
      TurnsAway verdict M pre d →
        ((d = M ∧ verdict d = .undetermined) ∨ ∃ k ∈ pre, verdict k = .undetermined) ∧
          ∀ u ∈ pre, verdict u = .unreachable → ∀ k ∈ pre, verdict k = .undetermined → k < u) := by
  have hrange {k : Int} (hk : k ∈ proved verdict) : 0 ≤ k ∧ k ≤ 70 :=
    Bisect.mem_asked_between (proved_eq_asked verdict ▸ hk)
  obtain ⟨hpos, hcovered⟩ := covered_bounds hcov hret
  have hproved := bounds_iff_of_proved hcov hunr hret
  refine ⟨hcovered, ?_⟩
  rw [← and_iff_left (a := ∃ c, cyc = some c ∧ M ≤ c) hcovered]
  constructor
  · intro h
    refine ⟨?_, fun pre d hturns => (hturns.bounds_iff hcov hunr hret).mp h⟩
    rcases hproved.mp h with ⟨hM, _⟩ | ⟨⟨k, hk, hMk, _⟩, _⟩
    · exact (hrange hM).2
    · exact hMk.trans (hrange hk).2
  · intro ⟨h70, h⟩
    by_cases hall : ∀ k ∈ towards M, k ≤ M → verdict k = .covered
    · have hM := mem_towards hpos h70
      apply hproved.mpr
      rw [proved_eq_towards hcov hall]
      exact .inl ⟨hM, hall M hM le_rfl⟩
    · obtain ⟨pre, d, hturns⟩ := exists_turnsAway hall
      exact (hturns.bounds_iff hcov hunr hret).mpr (h pre d hturns)

/-- Some counts are left open, all others are decided. -/
def openAt (ks : List Int) (M k : Int) : Result :=
  if k ∈ ks then .undetermined else decidedUpTo M k

theorem covered_of_openAt {ks : List Int} {k : Int} (h : openAt ks M k = .covered) : k ≤ M := by
  unfold openAt at h
  split_ifs at h
  exact decidedUpTo_covered.mp h

theorem unreachable_of_openAt {ks : List Int} {k : Int} (h : openAt ks M k = .unreachable) :
    M < k := by
  unfold openAt at h
  split_ifs at h
  exact decidedUpTo_unreachable.mp h

/-- On the way to 20 the search turns away at 17, but 35 was left open before. -/
theorem cyc_bounds_longest_stay_twenty :
    proc (some (maxCycleCount (openAt [17, 35] 20))) = some (some (some 35, 16)) ∧
      TurnsAway (openAt [17, 35] 20) 20 [35] 17 ∧ ∃ c, some (35 : Int) = some c ∧ 20 ≤ c := by
  have hret : proc (some (maxCycleCount (openAt [17, 35] 20))) = some (some (some 35, 16)) := by
    decide
  have hway : towards 20 = [35, 17, 26, 21, 19, 20] := by decide
  refine ⟨hret, ⟨⟨_, hway⟩, by decide, by decide, by decide⟩, ?_⟩
  apply (cyc_bounds_longest_stay_iff (openAt [17, 35] 20) 20 (fun k => covered_of_openAt)
    (fun k => unreachable_of_openAt) _ _ hret).2.mpr
  refine ⟨by decide, ?_⟩
  intro pre d h
  obtain ⟨post, hpre⟩ := h.way
  rw [hway] at hpre
  match pre with
  | [] =>
    obtain ⟨rfl, _⟩ := List.cons.inj hpre
    exact absurd h.le (by decide)
  | [p] =>
    obtain ⟨rfl, _⟩ := List.cons.inj hpre
    exact ⟨.inr (by decide), by decide⟩
  | p :: q :: rest =>
    obtain ⟨_, hpre⟩ := List.cons.inj hpre
    obtain ⟨rfl, _⟩ := List.cons.inj hpre
    have hcovered := h.before 17 (List.mem_cons_of_mem _ List.mem_cons_self) (by decide)
    exact absurd hcovered (by decide)

/-- The search turns below the open length although the location stays for twice as long. -/
theorem cyc_below_longest_stay :
    proc (some (maxCycleCount (openAt [35] 70))) = some (some (some 35, 34)) ∧
      openAt [35] 70 70 = .covered ∧ (∀ k, openAt [35] 70 k = .covered → k ≤ 70) ∧
      ∀ k, openAt [35] 70 k = .unreachable → 70 < k :=
  ⟨by decide, by decide, fun _ => covered_of_openAt, fun _ => unreachable_of_openAt⟩

/-- Whatever the verdicts, the search ends with `cover` refusing a count, before its tenth pass,
and no count was asked twice. On decided verdicts it finds the longest stay. -/
theorem search_converges (verdict : Int → Result) :
    (∃ left, (search verdict).2 = some left ∧ 0 < left) ∧
      (proved verdict).Nodup ∧ (∀ k ∈ proved verdict, 0 ≤ k ∧ k ≤ 70) ∧
      ∀ M, 1 ≤ M → verdict = decidedUpTo M →
        IsGreatest {k | k ∈ proved verdict ∧ verdict k = .covered} (min M 70) ∧
          proc (some (maxCycleCount verdict)) = some (some (some (min M 70), min M 70)) := by
  obtain ⟨s, left, hsearch, hleft, hinv, hempty⟩ := search_stops verdict
  have hproved : proved verdict = s.probes := by
    unfold proved
    rw [hsearch]
  refine ⟨⟨left, by rw [hsearch], by omega⟩, ?_, ?_, ?_⟩
  · rw [hproved]
    exact hinv.nodup
  · rw [hproved]
    exact hinv.range
  · intro M hM hdec
    subst hdec
    obtain ⟨hhi, hmem⟩ := hinv.hi_eq hempty (by omega) (show 0 ≤ M by omega)
      fun k => by rw [decide_eq_true_iff, decidedUpTo_covered]
    rw [hhi, ← hproved] at hmem
    have hgreatest : IsGreatest {k | k ∈ proved (decidedUpTo M) ∧ decidedUpTo M k = .covered}
        (min M 70) := by
      refine ⟨⟨hmem, decidedUpTo_covered.mpr (min_le_left M 70)⟩, ?_⟩
      intro k hk
      exact le_min (decidedUpTo_covered.mp hk.2) (hinv.range k (hproved ▸ hk.1)).2
    exact ⟨hgreatest, proc_decidedUpTo hgreatest⟩

end Stay

end SynthLC.CycleCount
