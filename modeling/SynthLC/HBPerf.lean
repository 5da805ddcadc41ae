import SynthLC.Loop
import SynthLC.Verdict
import Mathlib.Data.Fintype.Basic
import Mathlib.Data.Set.Insert
import Mathlib.Logic.Relation
import Mathlib.Tactic.FinCases

/-! `xHBPerfG_dfg_v3_div/xHBPerf_dfg_v3.py`: which entering orders hold whenever two
locations are both visited. A pair is checked for happens-before first and, only after a
counterexample, for its weak and simultaneous forms. -/
namespace SynthLC

open Sva
open scoped Loop

variable {PL : Type}

namespace HBPerf

section Facts

variable {tr : Wave PL} {s1 s2 : PL} {m n : Nat} (h1 : FirstEntry tr s1 m)
  (h2 : FirstEntry tr s2 n)
include h1 h2

theorem hbT_holds : (hbT s1 s2).Holds (observe tr) ↔ m < n := by
  simp only [Property.Holds, hbT, at_imp_bool, at_bool, eval_and, eval_not, eval_or, eval_sig,
    observe_loc, observe_hpn, h1.fresh_iff, not_or, h2.notYet_iff, forall_eq]

theorem whbT_holds : (whbT s1 s2).Holds (observe tr) ↔ m ≤ n := by
  simp only [Property.Holds, whbT, at_imp_bool, at_bool, eval_and, eval_not, eval_sig,
    observe_loc, observe_hpn, h1.fresh_iff, h2.hpn_iff, forall_eq, not_lt]

theorem whbConcurT_holds : (whbConcurT s1 s2).Holds (observe tr) ↔ m = n := by
  simp only [Property.Holds, whbConcurT, at_imp_bool, at_bool, eval_and, eval_not, eval_sig,
    observe_loc, observe_hpn, h1.fresh_iff, h2.fresh_iff, forall_eq]

end Facts

variable [DecidableEq PL]

/-- Files the script reads, with the verdict of each generated property by edge number. -/
structure Input (PL : Type) where
  edge : List (PL × PL)
  reachableSets : List (List PL)
  reachableNodes : List PL
  hbCsv : Nat → Result
  whbCsv : Nat → Result
  whbConcurCsv : Nat → Result

def inASet (reachableSets : List (List PL)) (e : PL × PL) : Bool :=
  reachableSets.any fun aSet => e.1 ∈ aSet && e.2 ∈ aSet

/-- `gen`: the assertion of each `HB_{idx}.sv`. -/
def gen (i : Input PL) : List (Nat × Property (Sig PL)) :=
  i.edge.zipIdx.filterMap fun (e, idx) =>
    if inASet i.reachableSets e then some (idx, hbT e.1 e.2) else none

/-- `gen_s2`: the two assertions of each `WHB_{idx}.sv`. -/
def genS2 (i : Input PL) : List (Nat × Property (Sig PL) × Property (Sig PL)) :=
  i.edge.zipIdx.filterMap fun (e, idx) =>
    if inASet i.reachableSets e && i.hbCsv idx == .cex then
      some (idx, whbT e.1 e.2, whbConcurT e.1 e.2)
    else none

/-- The lists `pp` collects before it writes its files. -/
structure Lists (PL : Type) where
  hb : List (PL × PL) := []
  whb : List (PL × PL) := []
  awsSame : List (PL × PL) := []
  undeterminedHb : List (PL × PL) := []
  undeterminedWhb : List (PL × PL) := []
  undeterminedConcur : List (PL × PL) := []

def recordWhb (r2 : Result) (itm : PL × PL) (l : Lists PL) : Lists PL :=
  match r2 with
  | .proven => { l with whb := l.whb ++ [itm] }
  | .undetermined => { l with undeterminedWhb := l.undeterminedWhb ++ [itm] }
  | _ => l

def recordConcur (r2Samecyc : Result) (itm : PL × PL) (l : Lists PL) : Lists PL :=
  match r2Samecyc with
  | .proven => { l with awsSame := l.awsSame ++ [itm] }
  | .undetermined => { l with undeterminedConcur := l.undeterminedConcur ++ [itm] }
  | _ => l

/-- Body of the loop of `pp` over `enumerate(edge)`. -/
def ppStep (i : Input PL) (l : Lists PL) (x : (PL × PL) × Nat) : Lists PL :=
  let (itm, idx) := x
  if !(decide (itm.1 ∈ i.reachableNodes) && decide (itm.2 ∈ i.reachableNodes)) then l
  else if !inASet i.reachableSets itm then l
  else match i.hbCsv idx with
    | .cex => recordConcur (i.whbConcurCsv idx) itm (recordWhb (i.whbCsv idx) itm l)
    | .proven => { l with hb := l.hb ++ [itm] }
    | .undetermined => { l with undeterminedHb := l.undeterminedHb ++ [itm] }
    | _ => l

def collect (i : Input PL) : Lists PL := i.edge.zipIdx.foldl (ppStep i) {}

/-- Pairs weakly ordered both ways, then those proven simultaneous and not yet listed. -/
def atTheSameTime (whb awsSame : List (PL × PL)) : List (PL × PL) :=
  awsSame.foldl (fun acc e => if e ∈ acc then acc else acc ++ [e])
    (whb.filter fun e => (e.2, e.1) ∈ whb)

structure Output (PL : Type) where
  hbProven : List (PL × PL)
  awsConcurrent : List (PL × PL)
  whbProven : List (PL × PL)
  deriving DecidableEq

/-- The three files later stages read. -/
def pp (i : Input PL) : Output PL :=
  let l := collect i
  let sameTime := atTheSameTime l.whb l.awsSame
  { hbProven := l.hb
    awsConcurrent := sameTime
    whbProven := l.whb.filter fun e => e ∉ sameTime }

/-- Where the collected pairs come from: an edge inside a reachable set, with the verdicts
that made the loop record it. -/
structure Recorded (i : Input PL) (l : Lists PL) : Prop where
  hb : ∀ e ∈ l.hb, ∃ idx, (idx, hbT e.1 e.2) ∈ gen i ∧ i.hbCsv idx = .proven
  whb : ∀ e ∈ l.whb, ∃ idx, (idx, whbT e.1 e.2, whbConcurT e.1 e.2) ∈ genS2 i ∧
    i.whbCsv idx = .proven
  awsSame : ∀ e ∈ l.awsSame, ∃ idx, (idx, whbT e.1 e.2, whbConcurT e.1 e.2) ∈ genS2 i ∧
    i.whbConcurCsv idx = .proven

theorem mem_gen (i : Input PL) (e : PL × PL) (idx : Nat) (hmem : (e, idx) ∈ i.edge.zipIdx)
    (hset : inASet i.reachableSets e = true) : (idx, hbT e.1 e.2) ∈ gen i := by
  apply List.mem_filterMap.mpr
  exact ⟨(e, idx), hmem, by simp [hset]⟩

theorem mem_genS2 (i : Input PL) (e : PL × PL) (idx : Nat) (hmem : (e, idx) ∈ i.edge.zipIdx)
    (hset : inASet i.reachableSets e = true) (hcex : i.hbCsv idx = .cex) :
    (idx, whbT e.1 e.2, whbConcurT e.1 e.2) ∈ genS2 i := by
  apply List.mem_filterMap.mpr
  exact ⟨(e, idx), hmem, by simp [hset, hcex]⟩

theorem recordWhb_recorded (i : Input PL) (l : Lists PL) (e : PL × PL) (idx : Nat)
    (hfile : (idx, whbT e.1 e.2, whbConcurT e.1 e.2) ∈ genS2 i) (h : Recorded i l) :
    Recorded i (recordWhb (i.whbCsv idx) e l) := by
  cases hr : i.whbCsv idx with
  | proven =>
    refine ⟨h.hb, ?_, h.awsSame⟩
    intro e' he'
    rcases List.mem_append.mp he' with hold | hnew
    · exact h.whb e' hold
    · rw [List.mem_singleton.mp hnew]
      exact ⟨idx, hfile, hr⟩
  | _ => exact ⟨h.hb, h.whb, h.awsSame⟩

theorem recordConcur_recorded (i : Input PL) (l : Lists PL) (e : PL × PL) (idx : Nat)
    (hfile : (idx, whbT e.1 e.2, whbConcurT e.1 e.2) ∈ genS2 i) (h : Recorded i l) :
    Recorded i (recordConcur (i.whbConcurCsv idx) e l) := by
  cases hr : i.whbConcurCsv idx with
  | proven =>
    refine ⟨h.hb, h.whb, ?_⟩
    intro e' he'
    rcases List.mem_append.mp he' with hold | hnew
    · exact h.awsSame e' hold
    · rw [List.mem_singleton.mp hnew]
      exact ⟨idx, hfile, hr⟩
  | _ => exact ⟨h.hb, h.whb, h.awsSame⟩

theorem ppStep_recorded (i : Input PL) (l : Lists PL) (e : PL × PL) (idx : Nat)
    (hmem : (e, idx) ∈ i.edge.zipIdx) (h : Recorded i l) : Recorded i (ppStep i l (e, idx)) := by
  unfold ppStep
  dsimp only
  split_ifs with hnodes hset
  · exact h
  · exact h
  · have hin : inASet i.reachableSets e = true := by simpa using hset
    cases hr : i.hbCsv idx with
    | cex =>
      have hfile := mem_genS2 i e idx hmem hin hr
      exact recordConcur_recorded i _ e idx hfile (recordWhb_recorded i l e idx hfile h)
    | proven =>
      refine ⟨?_, h.whb, h.awsSame⟩
      intro e' he'
      rcases List.mem_append.mp he' with hold | hnew
      · exact h.hb e' hold
      · rw [List.mem_singleton.mp hnew]
        exact ⟨idx, mem_gen i e idx hmem hin, hr⟩
    | _ => exact ⟨h.hb, h.whb, h.awsSame⟩

/-- The whole loop records only proven pairs. -/
theorem collect_recorded (i : Input PL) : Recorded i (collect i) := by
  have hstart : Recorded i ({} : Lists PL) := ⟨by simp, by simp, by simp⟩
  exact List.foldlRecOn _ _ hstart fun l hl x hx => ppStep_recorded i l x.1 x.2 hx hl

theorem mem_atTheSameTime (whb awsSame : List (PL × PL)) (e : PL × PL)
    (h : e ∈ atTheSameTime whb awsSame) : (e ∈ whb ∧ (e.2, e.1) ∈ whb) ∨ e ∈ awsSame := by
  revert h
  refine List.foldlRecOn (motive := fun acc => e ∈ acc → _) awsSame _ ?_ ?_
  · intro h
    exact .inl (by simpa using h)
  · intro acc ih x hx h
    split_ifs at h with hold
    · exact ih h
    · rcases List.mem_append.mp h with hacc | hnew
      · exact ih hacc
      · rw [List.mem_singleton.mp hnew]
        exact .inr hx

/-- Every `proven` row of the two generations of files is true of all legal runs. -/
structure Sound (legal : Set (Wave PL)) (i : Input PL) : Prop where
  hb : ∀ idx p, (idx, p) ∈ gen i → SoundProven legal p (i.hbCsv idx)
  whb : ∀ idx p q, (idx, p, q) ∈ genS2 i → SoundProven legal p (i.whbCsv idx)
  whbConcur : ∀ idx p q, (idx, p, q) ∈ genS2 i → SoundProven legal q (i.whbConcurCsv idx)

/-- What the three files say about the first entries of one run. -/
structure EnterFacts (tr : Wave PL) (o : Output PL) : Prop where
  hb : ∀ u v m n, (u, v) ∈ o.hbProven → FirstEntry tr u m → FirstEntry tr v n → m < n
  whb : ∀ u v m n, (u, v) ∈ o.whbProven → FirstEntry tr u m → FirstEntry tr v n → m ≤ n
  concur : ∀ u v m n, (u, v) ∈ o.awsConcurrent → FirstEntry tr u m → FirstEntry tr v n → m = n

theorem pp_enterFacts (legal : Set (Wave PL)) (i : Input PL) (hsound : Sound legal i)
    (tr : Wave PL) (htr : tr ∈ legal) : EnterFacts tr (pp i) := by
  have hrec := collect_recorded i
  have hle (u v : PL) (m n : Nat) (he : (u, v) ∈ (collect i).whb) (hu : FirstEntry tr u m)
      (hv : FirstEntry tr v n) : m ≤ n := by
    obtain ⟨idx, hfile, hr⟩ := hrec.whb _ he
    exact (whbT_holds hu hv).mp (hsound.whb _ _ _ hfile hr tr htr)
  refine ⟨?_, ?_, ?_⟩
  · intro u v m n he hu hv
    obtain ⟨idx, hfile, hr⟩ := hrec.hb _ he
    exact (hbT_holds hu hv).mp (hsound.hb _ _ hfile hr tr htr)
  · intro u v m n he hu hv
    exact hle u v m n (List.mem_filter.mp he).1 hu hv
  · intro u v m n he hu hv
    rcases mem_atTheSameTime _ _ _ he with ⟨huv, hvu⟩ | hsame
    · exact le_antisymm (hle u v m n huv hu hv) (hle v u n m hvu hv hu)
    · obtain ⟨idx, hfile, hr⟩ := hrec.awsSame _ hsame
      exact (whbConcurT_holds hu hv).mp (hsound.whbConcur _ _ _ hfile hr tr htr)

/-- Pairs of a file whose two locations lie in the set. -/
def Inside (s : List PL) (es : List (PL × PL)) (u v : PL) : Prop :=
  (u, v) ∈ es ∧ u ∈ s ∧ v ∈ s

/-- Happens-before pairs inside a set, between classes of simultaneous locations. -/
def HbClass (o : Output PL) (s : List PL) :
    Quot (Inside s o.awsConcurrent) → Quot (Inside s o.awsConcurrent) → Prop :=
  Relation.Map (Inside s o.hbProven) (Quot.mk _) (Quot.mk _)

omit [DecidableEq PL] in
/-- One run that visits exactly the set gives every class a height that happens-before
pairs raise. -/
theorem hbClass_acyclic (tr : Wave PL) (o : Output PL) (s : List PL) (hfacts : EnterFacts tr o)
    (hs : VisitsExactly tr s) (x : Quot (Inside s o.awsConcurrent)) :
    ¬Relation.TransGen (HbClass o s) x x := by
  have hentry (p : PL) (hp : p ∈ s) : FirstEntry tr p (enterTick tr p) :=
    firstEntry_enterTick ((hs p).mp hp)
  let height : Quot (Inside s o.awsConcurrent) → Nat :=
    Quot.lift (enterTick tr) fun u v h =>
      hfacts.concur u v _ _ h.1 (hentry u h.2.1) (hentry v h.2.2)
  have hstep (y z : Quot (Inside s o.awsConcurrent)) (h : HbClass o s y z) :
      height y < height z := by
    obtain ⟨u, v, huv, rfl, rfl⟩ := h
    exact hfacts.hb u v _ _ huv.1 (hentry u huv.2.1) (hentry v huv.2.2)
  have hpath (y z : Quot (Inside s o.awsConcurrent)) (h : Relation.TransGen (HbClass o s) y z) :
      height y < height z := by
    induction h with
    | single h => exact hstep _ _ h
    | tail _ h ih => exact lt_trans ih (hstep _ _ h)
  intro h
  exact lt_irrefl _ (hpath x x h)

/-- The files of `pp` are true of every legal run, and inside a reachable set the
happens-before pairs have no cycle through classes of simultaneous locations. -/
theorem enter_facts_sound_and_acyclic (legal : Set (Wave PL)) (i : Input PL)
    (hsound : Sound legal i)
    (hreach : ∀ s ∈ i.reachableSets, ∃ tr ∈ legal, VisitsExactly tr s) :
    (∀ tr ∈ legal, EnterFacts tr (pp i)) ∧
    ∀ s ∈ i.reachableSets, ∀ x, ¬Relation.TransGen (HbClass (pp i) s) x x := by
  have hfacts := pp_enterFacts legal i hsound
  refine ⟨hfacts, ?_⟩
  intro s hs
  obtain ⟨tr, htr, hexact⟩ := hreach s hs
  exact hbClass_acyclic tr (pp i) s (hfacts tr htr) hexact

/-- Two locations entered together and a third one after them. -/
def sampleSpans : Fin 3 → Option (Nat × Nat)
  | 0 => some (1, 1)
  | 1 => some (1, 2)
  | 2 => some (2, 3)

def sample : Input (Fin 3) where
  edge := [(0, 1), (1, 0), (1, 2)]
  reachableSets := [[0, 1, 2]]
  reachableNodes := [0, 1, 2]
  hbCsv idx := if idx = 2 then .proven else .cex
  whbCsv _ := .proven
  whbConcurCsv _ := .undetermined

theorem sample_visit (p : Fin 3) : FirstEntry (ofSpans sampleSpans) p (if p = 2 then 2 else 1) := by
  fin_cases p <;> exact ⟨rfl, by decide⟩

theorem sample_sound : Sound {ofSpans sampleSpans} sample := by
  have hgen : gen sample = [(0, hbT 0 1), (1, hbT 1 0), (2, hbT 1 2)] := by decide
  have hgenS2 : genS2 sample =
      [(0, whbT 0 1, whbConcurT 0 1), (1, whbT 1 0, whbConcurT 1 0)] := by decide
  refine ⟨?_, ?_, ?_⟩
  · intro idx p hmem hr tr htr
    rw [Set.mem_singleton_iff.mp htr]
    simp only [hgen, List.mem_cons, Prod.mk.injEq, List.not_mem_nil, or_false] at hmem
    rcases hmem with ⟨rfl, rfl⟩ | ⟨rfl, rfl⟩ | ⟨rfl, rfl⟩
    · simp [sample] at hr
    · simp [sample] at hr
    · exact (hbT_holds (sample_visit 1) (sample_visit 2)).mpr (by decide)
  · intro idx p q hmem hr tr htr
    rw [Set.mem_singleton_iff.mp htr]
    simp only [hgenS2, List.mem_cons, Prod.mk.injEq, List.not_mem_nil, or_false] at hmem
    rcases hmem with ⟨rfl, rfl, rfl⟩ | ⟨rfl, rfl, rfl⟩
    · exact (whbT_holds (sample_visit 0) (sample_visit 1)).mpr (by decide)
    · exact (whbT_holds (sample_visit 1) (sample_visit 0)).mpr (by decide)
  · intro idx p q hmem hr
    simp [sample] at hr

theorem sample_facts_sound_and_acyclic :
    pp sample = ⟨[(1, 2)], [(0, 1), (1, 0)], []⟩ ∧
    (∀ tr ∈ ({ofSpans sampleSpans} : Set (Wave (Fin 3))), EnterFacts tr (pp sample)) ∧
    ∀ s ∈ sample.reachableSets, ∀ x, ¬Relation.TransGen (HbClass (pp sample) s) x x := by
  refine ⟨by decide, enter_facts_sound_and_acyclic _ sample sample_sound ?_⟩
  intro s hs
  refine ⟨ofSpans sampleSpans, rfl, fun p => ?_⟩
  have hp := (sample_visit p).visits
  rw [List.mem_singleton.mp hs]
  fin_cases p <;> simpa using hp

end HBPerf

end SynthLC
