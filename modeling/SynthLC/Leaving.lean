import SynthLC.Visit
import SynthLC.OrderGraph

/-! The leaving facts of `xHBPerfG_leaving`: what each asserted property says about a run with
one visit of each location, and about which runs it says nothing. -/
namespace SynthLC

open Sva
open scoped Loop

variable {PL IID : Type}

/-- First and last cycle of each location as cycles of the nodes. -/
def nodeCycle (enter final : PL → Nat) : Node PL → Int
  | .enter p => enter p
  | .final p => final p

@[simp] theorem nodeCycle_enter (enter final : PL → Nat) (p : PL) :
    nodeCycle enter final (.enter p) = enter p := rfl

@[simp] theorem nodeCycle_final (enter final : PL → Nat) (p : PL) :
    nodeCycle enter final (.final p) = final p := rfl

namespace Leaving

/-- The property behind a line of `leaving_hb_proven.txt`; both ends entered is no line of it. -/
def hbAssert : Node PL → Node PL → Option (Property (Sig PL))
  | .final s1, .enter s2 => some (hbLeavingS1HbS2 s1 s2)
  | .enter s1, .final s2 => some (hbS1HbLeavingS2 s1 s2)
  | .final s1, .final s2 => some (hbLeavingS1HbLeavingS2 s1 s2)
  | .enter _, .enter _ => none

/-- The property behind a line of `leaving_concur_proven.txt`. -/
def concurAssert : Node PL → Node PL → Option (Property (Sig PL))
  | .final s1, .enter s2 => some (whbConcurLeavingS1HbS2 s1 s2)
  | .enter s1, .final s2 => some (whbConcurS1HbLeavingS2 s1 s2)
  | .final s1, .final s2 => some (whbConcurLeavingS1HbLeavingS2 s1 s2)
  | .enter _, .enter _ => none

variable (f : Facts PL IID)

/-- Assumptions of the file `HB_LEAVING_*.sv`; the file `WHB_LEAVING_*.sv` has none. -/
def assumes (s2 : PL) : List (Property (Sig PL)) :=
  if 1 < f.maxCycPerPl s2 then [assumeS2Over2cyc s2] else []

/-- Proven properties hold on the legal runs that meet the assumptions of their file; `gen`
skips pairs of one identifier. -/
structure LeavingFacts (legal : Set (Wave PL)) : Prop where
  hb : ∀ e ∈ f.leavingHbProvenResPairs, ∃ q, hbAssert e.1 e.2 = some q ∧
    ∀ tr ∈ legal, AllHold (observe tr) (assumes f e.2.loc) → q.Holds (observe tr)
  concur : ∀ e ∈ f.awsConcurLeavingPairs, ∃ q, concurAssert e.1 e.2 = some q ∧
    ∀ tr ∈ legal, q.Holds (observe tr)
  iid_ne : ∀ e ∈ f.leavingHbProvenResPairs ++ f.awsConcurLeavingPairs,
    f.iidMap e.1.loc ≠ f.iidMap e.2.loc

variable (enter final : PL → Nat)

/-- The run triggers the asserted property and meets the assumptions. -/
def HbDecided : Node PL → Node PL → Prop
  | .final s1, .enter s2 => enter s1 < final s1 ∧ (1 < f.maxCycPerPl s2 → enter s2 < final s2)
  | .enter s1, .final s2 => 0 < enter s1 ∧ (1 < f.maxCycPerPl s2 → enter s2 < final s2)
  | .final s1, .final s2 => enter s1 < final s1 ∧ (1 < f.maxCycPerPl s2 → enter s2 < final s2)
  | .enter _, .enter _ => False

def ConcurDecided : Node PL → Node PL → Prop
  | .final s1, .enter _ => enter s1 < final s1
  | .enter s1, .final s2 => 0 < enter s1 ∧ enter s2 < enter s1 ∧ enter s1 ≤ final s2
  | .final s1, .final _ => enter s1 < final s1
  | .enter _, .enter _ => False

section Meaning

variable {tr : Wave PL} {s1 s2 : PL} {e1 f1 e2 f2 : Nat}

/-- A stay of two cycles or more is over one cycle after its last one. -/
theorem leftAfterTwo_iff (h : Visit tr s1 e1 f1) (t : Nat) :
    (leftAfterTwo s1).eval (observe tr) t = true ↔ t = f1 + 1 ∧ e1 < f1 := by
  have hle := h.le
  simp only [leftAfterTwo, eval_and, eval_past, eval_not, eval_sig, observe_loc, h.active]
  omega

/-- A stay of two cycles or more meets the assumption of its file. -/
theorem assumeS2Over2cyc_holds (h : Visit tr s2 e2 f2) (hlong : e2 < f2) :
    (assumeS2Over2cyc s2).Holds (observe tr) := by
  intro t
  refine (at_imp_bool _ _ _ _).mpr fun hfirst => ?_
  obtain rfl : t = 0 := by simpa using hfirst
  have hactive (k : Nat) (hk : e2 ≤ k) (hk' : k ≤ e2 + 1) : tr k s2 = true :=
    (h.active k).mpr ⟨hk, by omega⟩
  refine ⟨e2, Nat.zero_le _, e2 + 1, e2, le_rfl, fun k h1 h2 => by omega, e2, ⟨rfl, ?_⟩, rfl, ?_⟩
  · exact hactive e2 le_rfl (by omega)
  · exact hactive (e2 + 1) (by omega) le_rfl

/-- A stay of two cycles or more triggers a leaving assertion once, one cycle after its last. -/
theorem imp_leftAfterTwo_holds (h : Visit tr s1 e1 f1) (hlong : e1 < f1) (b : BExp (Sig PL)) :
    (Property.imp (.bool (leftAfterTwo s1)) (.seq (.bool b))).Holds (observe tr) ↔
      b.eval (observe tr) (f1 + 1) = true := by
  simp only [Property.Holds, at_imp_bool, leftAfterTwo_iff h, at_bool, and_imp]
  constructor
  · intro hat
    exact hat (f1 + 1) rfl hlong
  · rintro hb t rfl _
    exact hb

section FinalFirst

variable (h1 : Visit tr s1 e1 f1) (h2 : Visit tr s2 e2 f2) (hlong : e1 < f1)
include h1 h2 hlong

theorem hbLeavingS1HbS2_holds : (hbLeavingS1HbS2 s1 s2).Holds (observe tr) ↔ f1 < e2 := by
  have hle := h2.le
  rw [hbLeavingS1HbS2, imp_leftAfterTwo_holds h1 hlong]
  simp only [eval_past, eval_not, eval_or, eval_sig, observe_hpn, observe_loc, h2.hpn_iff,
    h2.active]
  omega

theorem whbLeavingS1HbS2_holds : (whbLeavingS1HbS2 s1 s2).Holds (observe tr) ↔ f1 ≤ e2 := by
  rw [whbLeavingS1HbS2, imp_leftAfterTwo_holds h1 hlong]
  simp only [eval_past, eval_not, eval_sig, observe_hpn, h2.hpn_iff]
  omega

theorem whbConcurLeavingS1HbS2_holds :
    (whbConcurLeavingS1HbS2 s1 s2).Holds (observe tr) ↔ f1 = e2 := by
  have hle := h2.le
  rw [whbConcurLeavingS1HbS2, imp_leftAfterTwo_holds h1 hlong]
  simp only [eval_past, eval_not, eval_and, eval_sig, observe_hpn, observe_loc, h2.hpn_iff,
    h2.active]
  omega

theorem hbLeavingS1HbLeavingS2_holds :
    (hbLeavingS1HbLeavingS2 s1 s2).Holds (observe tr) ↔ f1 < f2 := by
  have hle := h2.le
  rw [hbLeavingS1HbLeavingS2, imp_leftAfterTwo_holds h1 hlong]
  simp only [eval_not, eval_or, eval_and, eval_sig, observe_hpn, observe_loc, h2.hpn_iff,
    h2.active]
  omega

theorem whbLeavingS1HbLeavingS2_holds :
    (whbLeavingS1HbLeavingS2 s1 s2).Holds (observe tr) ↔ f1 ≤ f2 := by
  have hle := h2.le
  rw [whbLeavingS1HbLeavingS2, imp_leftAfterTwo_holds h1 hlong]
  simp only [eval_past, eval_not, eval_or, eval_and, eval_sig, observe_hpn, observe_loc,
    h2.hpn_iff, h2.active]
  omega

/-- A stay of one cycle in the second location is never left after two. -/
theorem whbConcurLeavingS1HbLeavingS2_holds :
    (whbConcurLeavingS1HbLeavingS2 s1 s2).Holds (observe tr) ↔ f1 = f2 ∧ e2 < f2 := by
  rw [whbConcurLeavingS1HbLeavingS2, imp_leftAfterTwo_holds h1 hlong, leftAfterTwo_iff h2]
  omega

end FinalFirst

/-- `$past(!{s1}_hpn) && {s1}` matches in the entry cycle and, since the register is late and
`$past` reads it one cycle later still, in the next cycle of a longer stay. -/
theorem nearEntry_iff (h : Visit tr s1 e1 f1) (hpos : 0 < e1) (t : Nat) :
    (BExp.and (.past 1 (.not (hpnReg s1))) (loc s1)).eval (observe tr) t = true ↔
      t = e1 ∨ (t = e1 + 1 ∧ e1 < f1) := by
  have hle := h.le
  simp only [eval_and, eval_past, eval_not, eval_sig, observe_hpn, observe_loc, h.hpn_iff,
    h.active]
  omega

section EnterFirst

variable (h1 : Visit tr s1 e1 f1) (h2 : Visit tr s2 e2 f2) (hpos : 0 < e1)
include h1 h2 hpos

theorem hbS1HbLeavingS2_holds : (hbS1HbLeavingS2 s1 s2).Holds (observe tr) ↔
    (e2 ≤ e1 → e1 < f2) ∧ (e1 < f1 → e2 ≤ e1 + 1 → e1 + 1 < f2) := by
  have hle := h2.le
  simp only [Property.Holds, hbS1HbLeavingS2, at_impNext_bool, at_bool,
    eval_and _ (.and _ _) (.or _ _), nearEntry_iff h1 hpos, eval_or, eval_sig, observe_hpn,
    observe_loc, h2.hpn_iff, h2.active]
  constructor
  · intro hat
    have hentry := hat e1
    have hnext := hat (e1 + 1)
    omega
  · intro hat t ht
    omega

theorem lt_of_hbS1HbLeavingS2 (h : (hbS1HbLeavingS2 s1 s2).Holds (observe tr)) : e1 < f2 := by
  have hle := h2.le
  have hentry := ((hbS1HbLeavingS2_holds h1 h2 hpos).mp h).1
  omega

theorem whbS1HbLeavingS2_holds : (whbS1HbLeavingS2 s1 s2).Holds (observe tr) ↔
    (e2 < e1 → e1 ≤ f2) ∧ (e1 < f1 → e2 ≤ e1 → e1 < f2) := by
  simp only [Property.Holds, whbS1HbLeavingS2, at_imp_bool, at_bool,
    eval_and _ (.and _ _) (hpnReg s2), nearEntry_iff h1 hpos, eval_sig, observe_hpn, observe_loc,
    h2.hpn_iff, h2.active]
  constructor
  · intro hat
    have hentry := hat e1
    have hnext := hat (e1 + 1)
    omega
  · intro hat t ht
    omega

theorem whbConcurS1HbLeavingS2_holds (hin : e2 < e1) (hstay : e1 ≤ f2) :
    (whbConcurS1HbLeavingS2 s1 s2).Holds (observe tr) ↔ e1 = f2 := by
  simp only [Property.Holds, whbConcurS1HbLeavingS2, at_impNext_bool, at_bool,
    eval_and _ (.and _ _) _, nearEntry_iff h1 hpos, eval_not, eval_sig, observe_hpn, observe_loc,
    h2.hpn_iff, h2.active]
  constructor
  · intro hat
    have hentry := hat e1
    omega
  · intro heq t ht
    omega

end EnterFirst

/-- The leaving assertions whose left end is a last cycle say `<`, `<=` and `=`. -/
theorem final_first_asserts_compare (h1 : Visit tr s1 e1 f1) (h2 : Visit tr s2 e2 f2)
    (hlong : e1 < f1) :
    (((hbLeavingS1HbS2 s1 s2).Holds (observe tr) ↔ f1 < e2) ∧
      ((whbLeavingS1HbS2 s1 s2).Holds (observe tr) ↔ f1 ≤ e2) ∧
      ((whbConcurLeavingS1HbS2 s1 s2).Holds (observe tr) ↔ f1 = e2)) ∧
    ((hbLeavingS1HbLeavingS2 s1 s2).Holds (observe tr) ↔ f1 < f2) ∧
    ((whbLeavingS1HbLeavingS2 s1 s2).Holds (observe tr) ↔ f1 ≤ f2) ∧
    (e2 < f2 → ((whbConcurLeavingS1HbLeavingS2 s1 s2).Holds (observe tr) ↔ f1 = f2)) := by
  refine ⟨⟨hbLeavingS1HbS2_holds h1 h2 hlong, whbLeavingS1HbS2_holds h1 h2 hlong,
    whbConcurLeavingS1HbS2_holds h1 h2 hlong⟩, hbLeavingS1HbLeavingS2_holds h1 h2 hlong,
    whbLeavingS1HbLeavingS2_holds h1 h2 hlong, fun hlong2 => ?_⟩
  rw [whbConcurLeavingS1HbLeavingS2_holds h1 h2 hlong, and_iff_left hlong2]

/-- The leaving assertions whose left end is an entry: the second cycle of a longer stay triggers
them as well, and there they ask one cycle more of the other location. -/
theorem enter_first_asserts_compare_iff (h1 : Visit tr s1 e1 f1) (h2 : Visit tr s2 e2 f2)
    (hpos : 0 < e1) (hle : e2 ≤ e1) :
    (((hbS1HbLeavingS2 s1 s2).Holds (observe tr) ↔ e1 < f2) ∧
      ((whbS1HbLeavingS2 s1 s2).Holds (observe tr) ↔ e1 ≤ f2) ∧
      (e2 < e1 → e1 ≤ f2 → ((whbConcurS1HbLeavingS2 s1 s2).Holds (observe tr) ↔ e1 = f2))) ↔
    (e1 < f1 → f2 ≠ e1 ∧ f2 ≠ e1 + 1) := by
  rw [hbS1HbLeavingS2_holds h1 h2 hpos, whbS1HbLeavingS2_holds h1 h2 hpos,
    and_iff_left fun hin hstay => whbConcurS1HbLeavingS2_holds h1 h2 hpos hin hstay]
  have hle2 := h2.le
  omega

/-- The first location (`true`) from `e1` to `f1`, the second from cycle 2 to 4. -/
def stayWave (e1 f1 : Nat) : Wave Bool :=
  ofSpans fun s1 => some (if s1 then (e1, f1) else (2, 4))

theorem stayWave_first (e1 f1 : Nat) (hle : e1 ≤ f1) : Visit (stayWave e1 f1) true e1 f1 :=
  ofSpans_visit rfl hle

theorem stayWave_second (e1 f1 : Nat) : Visit (stayWave e1 f1) false 2 4 :=
  ofSpans_visit rfl (by decide)

theorem final_first_asserts_compare_overlap :
    ((hbLeavingS1HbLeavingS2 true false).Holds (observe (stayWave 1 3)) ↔ 3 < 4) ∧
      (2 < 4 → ((whbConcurLeavingS1HbLeavingS2 true false).Holds (observe (stayWave 1 3)) ↔
        3 = 4)) :=
  have h := final_first_asserts_compare (stayWave_first 1 3 (by decide)) (stayWave_second 1 3)
    (by decide)
  ⟨h.2.1, h.2.2.2⟩

theorem enter_first_asserts_compare_short :
    ((hbS1HbLeavingS2 true false).Holds (observe (stayWave 3 3)) ↔ 3 < 4) ∧
      ((whbS1HbLeavingS2 true false).Holds (observe (stayWave 3 3)) ↔ 3 ≤ 4) ∧
      (2 < 3 → 3 ≤ 4 →
        ((whbConcurS1HbLeavingS2 true false).Holds (observe (stayWave 3 3)) ↔ 3 = 4)) :=
  (enter_first_asserts_compare_iff (stayWave_first 3 3 (by decide)) (stayWave_second 3 3)
    (by decide) (by decide)).mpr (by decide)

/-- A location entered one cycle before the other is left fails the assertion in its own second
cycle. -/
theorem long_stay_fails_assert :
    Visit (stayWave 3 4) true 3 4 ∧ Visit (stayWave 3 4) false 2 4 ∧ 3 < 4 ∧
      ¬(hbS1HbLeavingS2 true false).Holds (observe (stayWave 3 4)) := by
  have h1 := stayWave_first 3 4 (by decide)
  have h2 := stayWave_second 3 4
  refine ⟨h1, h2, by decide, ?_⟩
  rw [hbS1HbLeavingS2_holds h1 h2 (by decide)]
  decide

end Meaning

section Facts

variable {f enter final} {legal : Set (Wave PL)} {tr : Wave PL} {e : Node PL × Node PL}

theorem assumes_hold {s2 : PL} (h : Visit tr s2 (enter s2) (final s2))
    (hlong : 1 < f.maxCycPerPl s2 → enter s2 < final s2) : AllHold (observe tr) (assumes f s2) := by
  unfold assumes
  split_ifs with hmax
  · intro q hq
    rw [List.mem_singleton.mp hq]
    exact assumeS2Over2cyc_holds h (hlong hmax)
  · exact allHold_nil _

/-- A proven leaving order holds on every legal run that triggers its property. -/
theorem LeavingFacts.lt (h : LeavingFacts f legal) (htr : tr ∈ legal)
    (he : e ∈ f.leavingHbProvenResPairs) (h1 : Visit tr e.1.loc (enter e.1.loc) (final e.1.loc))
    (h2 : Visit tr e.2.loc (enter e.2.loc) (final e.2.loc))
    (hdec : HbDecided f enter final e.1 e.2) :
    nodeCycle enter final e.1 < nodeCycle enter final e.2 := by
  obtain ⟨q, hq, hholds⟩ := h.hb e he
  obtain ⟨u, v⟩ := e
  cases u with
  | enter s1 =>
    cases v with
    | enter s2 => exact absurd hdec id
    | final s2 =>
      obtain rfl := Option.some.inj hq
      exact Int.ofNat_lt.mpr (lt_of_hbS1HbLeavingS2 h1 h2 hdec.1
        (hholds tr htr (assumes_hold h2 hdec.2)))
  | final s1 =>
    cases v with
    | enter s2 =>
      obtain rfl := Option.some.inj hq
      exact Int.ofNat_lt.mpr ((hbLeavingS1HbS2_holds h1 h2 hdec.1).mp
        (hholds tr htr (assumes_hold h2 hdec.2)))
    | final s2 =>
      obtain rfl := Option.some.inj hq
      exact Int.ofNat_lt.mpr ((hbLeavingS1HbLeavingS2_holds h1 h2 hdec.1).mp
        (hholds tr htr (assumes_hold h2 hdec.2)))

theorem LeavingFacts.eq (h : LeavingFacts f legal) (htr : tr ∈ legal)
    (he : e ∈ f.awsConcurLeavingPairs) (h1 : Visit tr e.1.loc (enter e.1.loc) (final e.1.loc))
    (h2 : Visit tr e.2.loc (enter e.2.loc) (final e.2.loc))
    (hdec : ConcurDecided enter final e.1 e.2) :
    nodeCycle enter final e.1 = nodeCycle enter final e.2 := by
  obtain ⟨q, hq, hholds⟩ := h.concur e he
  obtain ⟨u, v⟩ := e
  cases u with
  | enter s1 =>
    cases v with
    | enter s2 => exact absurd hdec id
    | final s2 =>
      obtain rfl := Option.some.inj hq
      exact congrArg Int.ofNat ((whbConcurS1HbLeavingS2_holds h1 h2 hdec.1 hdec.2.1 hdec.2.2).mp
        (hholds tr htr))
  | final s1 =>
    cases v with
    | enter s2 =>
      obtain rfl := Option.some.inj hq
      exact congrArg Int.ofNat ((whbConcurLeavingS1HbS2_holds h1 h2 hdec).mp (hholds tr htr))
    | final s2 =>
      obtain rfl := Option.some.inj hq
      exact congrArg Int.ofNat ((whbConcurLeavingS1HbLeavingS2_holds h1 h2 hdec).mp
        (hholds tr htr)).1

end Facts

end Leaving

end SynthLC
