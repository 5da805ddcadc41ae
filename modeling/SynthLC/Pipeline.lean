import SynthLC.ConstructPaths
import SynthLC.OrderCovers
import SynthLC.PairwiseDep

/-! The scripts from `xCollectReEval` to `xConstructPaths` run one after the other on the
verdicts of one exact checker, and what the covers of a set say about its runs. -/
namespace SynthLC

open Sva Graph Smt Loop

variable {PL IID : Type} [DecidableEq PL] [DecidableEq IID]

/-- Every todo file is the one its script writes, and every cover written has its exact verdict;
`pathCsv` are the files `com_{i}_{j}_{k}.csv`. -/
structure Pipeline (legal : Set (Wave PL)) (pkg : Package (Node PL)) (slv : Solver (Var (Node PL)))
    (f : Facts PL IID) (files : OrderFiles PL) (pathCsv : Nat → Nat → Nat → Csv PL) : Prop where
  enterTodo : ∀ aSet i, (aSet, i) ∈ f.reachableSets.zipIdx →
    CollectReEval.gen pkg slv f i aSet = some (files.enterTodo i)
  enterCsv : ∀ aSet i, (aSet, i) ∈ f.reachableSets.zipIdx → files.enterTodo i ≠ [] →
    ExactCsv legal (CollectReEval.comFile f aSet (files.enterTodo i)) (files.enterCsv i)
  finalTodo : ∀ aSet i, (aSet, i) ∈ f.reachableSets.zipIdx → ∀ combs,
    LeaveOrder.combEdges (files.enterTodo i) (files.enterCsv i) = some combs →
    ∀ comb j, (comb, j) ∈ combs.zipIdx →
      LeaveOrder.gen pkg slv f i aSet comb = some (files.finalTodo i j)
  finalCsv : ∀ aSet i, (aSet, i) ∈ f.reachableSets.zipIdx → ∀ combs,
    LeaveOrder.combEdges (files.enterTodo i) (files.enterCsv i) = some combs →
    ∀ comb j, (comb, j) ∈ combs.zipIdx → ∀ todo, files.finalTodo i j = some todo →
      ∀ file, LeaveOrder.svFile f aSet comb todo = some file →
        ExactCsv legal file (files.finalCsv i j)
  path : ∀ aSet i, (aSet, i) ∈ f.reachableSets.zipIdx →
    ∃ out, ConstructPaths.genSet pkg slv f files i aSet = some out ∧
      ∀ j comb k c, ((j, comb), (k, c)) ∈ out →
        ExactCsv legal (ConstructPaths.comFile f aSet (comb ++ c)) (pathCsv i j k)

section SetR

variable {legal : Set (Wave PL)} {f : Facts PL IID} {aSet : List PL} {tr : Wave PL}

omit [DecidableEq IID] in
theorem setAssumes_hold : AllHold (observe tr) (f.setAssumes aSet) ↔
    ∀ p ∈ f.cvPerflocs, Visits tr p → p ∈ aSet := by
  simp only [Facts.setAssumes, allHold_map, List.mem_filter, decide_eq_true_eq, and_imp,
    CoverAPerfloc.noS1T_holds]
  exact forall₂_congr fun p _ => not_imp_not

omit [DecidableEq IID] in
theorem eval_setR {t : Nat} : (f.setR aSet).eval (observe tr) t = true ↔
    ∀ p ∈ f.cvPerflocs, p ∈ aSet → hpn tr p t = true := by
  rw [Facts.setR, eval_all, List.forall_mem_map]
  simp only [List.mem_filter, decide_eq_true_eq, and_imp, eval_sig, observe_hpn]

omit [DecidableEq PL] in
/-- The registers stay set, so a late enough tick has them all. -/
theorem exists_hpn (ps : List PL) (hps : ∀ p ∈ ps, Visits tr p) (n : Nat) :
    ∃ t, n ≤ t ∧ ∀ p ∈ ps, hpn tr p t = true := by
  induction ps with
  | nil => exact ⟨n, le_rfl, by simp⟩
  | cons p ps ih =>
    obtain ⟨t, hn, ht⟩ := ih fun q hq => hps q (by simp [hq])
    obtain ⟨k, hk⟩ := hps p (by simp)
    refine ⟨max t (k + 1), by omega, ?_⟩
    intro q hq
    rw [hpn_eq_true_iff]
    rcases List.mem_cons.mp hq with rfl | hq
    · exact ⟨k, by omega, hk⟩
    · obtain ⟨j, hj, hact⟩ := (hpn_eq_true_iff tr q t).mp (ht q hq)
      exact ⟨j, by omega, hact⟩

omit [DecidableEq IID] in
theorem holdsFrom_setR (hvis : ∀ p ∈ aSet, Visits tr p) (n : Nat) :
    HoldsFrom tr (f.setR aSet) n := by
  obtain ⟨t, hn, ht⟩ := exists_hpn aSet hvis n
  exact ⟨t, hn, eval_setR.mpr fun p _ hp => ht p hp⟩

omit [DecidableEq IID] in
theorem setR_covered (hvis : ∀ p ∈ aSet, Visits tr p) :
    (Seq.bool (f.setR aSet)).Covered (observe tr) := by
  obtain ⟨t, _, ht⟩ := holdsFrom_setR hvis 0
  exact (covered_bool _ _).mpr ⟨t, ht⟩

/-- Some legal run visits exactly the set and meets every assumption of the orders. -/
def OrdersRealised (legal : Set (Wave PL)) (aSet : List PL) (orders : Comb PL) : Prop :=
  ∃ tr ∈ legal, VisitsExactly tr aSet ∧ AllHold (observe tr) (orders.flatMap assumeOrder)

omit [DecidableEq IID] in
/-- The cover of `set_r` under the assumptions of a combination. -/
theorem reached_setR_iff (hcv : CoversVisited legal f.cvPerflocs)
    (hset : ∀ p ∈ aSet, p ∈ f.cvPerflocs) {orders : Comb PL} :
    Reached legal (f.setAssumes aSet ++ orders.flatMap assumeOrder) (.bool (f.setR aSet)) ↔
      OrdersRealised legal aSet orders := by
  refine exists_congr fun tr => and_congr_right fun htr => ?_
  rw [allHold_append, setAssumes_hold, covered_bool]
  simp only [eval_setR]
  constructor
  · intro h
    obtain ⟨⟨hout, horders⟩, t, ht⟩ := h
    refine ⟨fun p => ⟨fun hp => ?_, fun hv => ?_⟩, horders⟩
    · obtain ⟨k, _, hk⟩ := (hpn_eq_true_iff tr p t).mp (ht p (hset p hp) hp)
      exact ⟨k, hk⟩
    · exact hout p (hcv.complete p tr htr hv) hv
  · intro h
    obtain ⟨hexact, horders⟩ := h
    obtain ⟨t, _, ht⟩ := exists_hpn aSet (fun p hp => (hexact p).mp hp) 0
    exact ⟨⟨fun p _ hv => (hexact p).mpr hv, horders⟩, t, fun p _ hp => ht p hp⟩

end SetR

section Own

variable {f : Facts PL IID} {aSet : List PL} {tr : Wave PL} {enter final : PL → Nat}
  (hvisit : ∀ p ∈ aSet, Visit tr p (enter p) (final p)) {u v : Node PL} (hu : u.loc ∈ aSet)
  (hv : v.loc ∈ aSet)
include hvisit hu hv

omit [DecidableEq IID] in
/-- An order of the run matches its cover, except that a location entered right after
another is left escapes it. -/
theorem coverBefore_covered (hstarted : ∀ p q, u = .enter p → v = .final q → 0 < enter p)
    (hapart : ∀ p q, u = .final p → v = .enter q → enter q ≠ final p + 1)
    (hlt : nodeCycle enter final u < nodeCycle enter final v) :
    (coverBefore (f.setR aSet) u v).Covered (observe tr) := by
  have hset (n : Nat) : HoldsFrom tr (f.setR aSet) n :=
    holdsFrom_setR (fun p hp => (hvisit p hp).firstEntry.visits) n
  cases u with
  | enter p =>
    cases v with
    | enter q =>
      exact (cHbProp_covered (hvisit p hu).firstEntry (hvisit q hv).firstEntry (hset _)).mpr
        (Int.ofNat_lt.mp hlt)
    | final q =>
      exact (cEnterHbFinal_covered (hvisit q hv) (hvisit p hu) (hstarted p q rfl rfl) (hset _)).mpr
        (Int.ofNat_lt.mp hlt)
  | final p =>
    cases v with
    | enter q =>
      have hne := hapart p q rfl rfl
      have hlt' : final p < enter q := Int.ofNat_lt.mp hlt
      exact (cFinalHbEnter_covered (hvisit p hu) (hvisit q hv) (hset _)).mpr (by omega)
    | final q =>
      exact (cFinalHbFinal_covered (hvisit p hu) (hvisit q hv) (hset _)).mpr (Int.ofNat_lt.mp hlt)

omit [DecidableEq IID] in
theorem coverTogether_covered (heq : nodeCycle enter final u = nodeCycle enter final v) :
    (coverTogether (f.setR aSet) u v).Covered (observe tr) := by
  have hset (n : Nat) : HoldsFrom tr (f.setR aSet) n :=
    holdsFrom_setR (fun p hp => (hvisit p hp).firstEntry.visits) n
  cases u with
  | enter p =>
    cases v with
    | enter q =>
      exact (cConcurProp_covered (hvisit p hu).firstEntry (hvisit q hv).firstEntry (hset _)).mpr
        (Int.ofNat_inj.mp heq)
    | final q =>
      exact (cEnterConcurFinal_covered (hvisit q hv) (hvisit p hu) (hset _)).mpr
        (Int.ofNat_inj.mp heq)
  | final p =>
    cases v with
    | enter q =>
      exact (cFinalConcurEnter_covered (hvisit p hu) (hvisit q hv) (hset _)).mpr
        (Int.ofNat_inj.mp heq)
    | final q =>
      exact (cFinalConcurFinal_covered (hvisit p hu) (hvisit q hv) (hset _)).mpr
        (Int.ofNat_inj.mp heq)

omit [DecidableEq PL] hu hv in
/-- A run meets the assumptions of its own entering orders ... -/
theorem assumeEnter_holds {p q : PL} (hp : p ∈ aSet) (hq : q ∈ aSet) {t : HbType}
    (hold : OrderHolds (nodeCycle enter final) ((.enter p, .enter q), t)) :
    AllHold (observe tr) (assumeOrder ((.enter p, .enter q), t)) := by
  have hp' := (hvisit p hp).firstEntry
  have hq' := (hvisit q hq).firstEntry
  cases t with
  | gt =>
    simp only [assumeOrder, assumeBefore, allHold_cons, allHold_nil, and_true]
    exact (aEnterHbEnter_holds hp' hq').mpr (Int.ofNat_lt.mp hold)
  | lt =>
    simp only [assumeOrder, assumeBefore, allHold_cons, allHold_nil, and_true]
    exact (aEnterHbEnter_holds hq' hp').mpr (Int.ofNat_lt.mp hold)
  | eq => exact (aEnterConcurEnter_holds hp' hq').mpr (Int.ofNat_inj.mp hold)

end Own

omit [DecidableEq IID] in
/-- ... and matches their covers. -/
theorem enterCover_of_holds {f : Facts PL IID} {aSet : List PL} {tr : Wave PL}
    {enter final : PL → Nat} (hfirst : ∀ p ∈ aSet, FirstEntry tr p (enter p)) {p q : PL}
    (hp : p ∈ aSet) (hq : q ∈ aSet) {t : HbType}
    (hold : OrderHolds (nodeCycle enter final) ((.enter p, .enter q), t)) :
    ((enterCoverName (.enter p, .enter q) t).seq (f.setR aSet)).Covered (observe tr) := by
  have hp' := hfirst p hp
  have hq' := hfirst q hq
  have hset (n : Nat) : HoldsFrom tr (f.setR aSet) n :=
    holdsFrom_setR (fun p hp => (hfirst p hp).visits) n
  cases t with
  | gt => exact (cHbProp_covered hp' hq' (hset _)).mpr (Int.ofNat_lt.mp hold)
  | lt => exact (cHbProp_covered hq' hp' (hset _)).mpr (Int.ofNat_lt.mp hold)
  | eq => exact (cConcurProp_covered hq' hp' (hset _)).mpr (Int.ofNat_inj.mp hold).symm

namespace Overlap

/-- Two locations of different identifiers that may both stay, the first entered first. -/
def facts : Facts (Fin 2) (Fin 2) where
  name := !["issue_s1", "mult_s1"]
  cvPerflocs := [0, 1]
  edge := [(0, 1)]
  iidMap := id
  hbEdge := [(0, 1)]
  whbEdge := []
  enterConcurrentPairs := []
  reachableSets := [[0, 1]]
  maxCycPerPl := fun _ => 4
  cycCntGt1PerSet := fun _ => [0, 1]
  leavingHbProvenResPairs := []
  awsConcurLeavingPairs := []

/-- The second location is entered after the first is left, when it is left, or before. -/
def enter : Fin 3 → Fin 2 → Nat := ![![1, 4], ![1, 3], ![1, 2]]

def final : Fin 3 → Fin 2 → Nat := ![![2, 5], ![3, 3], ![4, 3]]

def run (r : Fin 3) : Wave (Fin 2) := ofSpans (CollectReEval.spans (enter r) (final r))

def legal : Set (Wave (Fin 2)) := Set.range run

theorem visit (r : Fin 3) (p : Fin 2) : Visit (run r) p (enter r p) (final r p) := by
  refine CollectReEval.spans_visit ?_ p
  revert r
  decide

theorem visitsExactly (r : Fin 3) : VisitsExactly (run r) [0, 1] := by
  intro p
  have hvisit := (visit r p).firstEntry.visits
  fin_cases p <;> simpa using hvisit

theorem coversVisited : CoversVisited legal facts.cvPerflocs := by
  refine ⟨by decide, ?_, ?_⟩
  · intro p _
    exact ⟨run 0, ⟨0, rfl⟩, (visit 0 p).firstEntry.visits⟩
  · intro p tr _ _
    fin_cases p <;> decide

theorem factsTrue : FactsTrue legal facts := by
  refine ⟨?_, by simp [facts], by simp [facts], by simp [facts]⟩
  intro tr htr
  obtain ⟨r, rfl⟩ := htr
  refine ⟨?_, by simp [Facts.enterOutput, facts], by simp [Facts.enterOutput, facts]⟩
  intro u v m n he hu hv
  obtain ⟨rfl, rfl⟩ : u = 0 ∧ v = 1 := by simpa [Facts.enterOutput, facts] using he
  have hlt : ∀ r, enter r 0 < enter r 1 := by decide
  rw [hu.unique (visit r 0).firstEntry, hv.unique (visit r 1).firstEntry]
  exact hlt r

theorem setRun (r : Fin 3) : SetRun legal facts [0, 1] (run r) (enter r) (final r) := by
  refine ⟨⟨r, rfl⟩, fun p _ => visit r p, ?_⟩
  revert r
  decide

/-- Edges within a location are stays. -/
theorem iidSpans {g : DiGraph (Node (Fin 2))} (same : SameIid) (val : Node (Fin 2) → Int)
    (hg : ∀ e ∈ g.edges, e.1.loc = e.2.loc → e = (.enter e.1.loc, .final e.1.loc)) :
    IidSpans facts 0 [0, 1] same g val := by
  intro u v hred hstay hiid
  have hloc : u.loc = v.loc := hiid
  obtain ⟨hu, hv⟩ := Prod.mk.inj (hg _ hred.1 hloc)
  refine absurd ⟨u.loc, ?_, hu, hv⟩ hstay
  generalize u.loc = p
  fin_cases p <;> exact ⟨by decide, by decide⟩

theorem admissible (r : Fin 3) : CollectReEval.Admissible facts 0 [0, 1] (enter r) (final r) := by
  refine ⟨by simp [facts], by simp [facts], by simp [facts, Facts.concurrentPairs], ?_,
    iidSpans _ _ (by decide +kernel)⟩
  intro p q he _ _ _ hiid
  obtain ⟨rfl, rfl⟩ : p = 0 ∧ q = 1 := by simpa [facts] using he
  cases hiid

theorem fits (r : Fin 3) : LeaveOrder.Fits facts 0 [0, 1] [] (enter r) (final r) :=
  ⟨by simp [orderEdges], by simp [concurInComb], iidSpans _ _ (by decide +kernel)⟩

theorem enterTodo (slv : Solver (Var (Node (Fin 2)))) :
    CollectReEval.gen Warshall.package slv facts 0 [0, 1] = some [] := by
  obtain ⟨st, hst, _⟩ : CollectReEval.Allowed Warshall.package slv facts 0 [0, 1] (enter 0)
      (final 0) :=
    CollectReEval.allowed_of_admissible (by decide) factsTrue (setRun 0) (admissible 0)
  have hmem : ((.enter 0, .enter 1) : Node (Fin 2) × Node (Fin 2)) ∈
      (Warshall.package.transitiveClosure (CollectReEval.orderGraph facts 0 [0, 1])).edges := by
    decide +kernel
  exact CollectReEval.gen_eq_nil hst (List.forall_mem_singleton.mpr hmem)

def todo : TodoFile (Fin 2) :=
  [((.final 0, .enter 1), [.gt, .eq]), ((.final 0, .final 1), [.gt, .eq])]

theorem setupSolver (slv : Solver (Var (Node (Fin 2)))) :
    ∃ st, LeaveOrder.setupSolver Warshall.package slv facts 0 [0, 1] [] = some st ∧
      ∀ r, MySolver.Extends (nodeCycle (enter r) (final r)) st := by
  have hrun (r : Fin 3) := (LeaveOrder.setupSolver_extends Warshall.package slv (by decide) factsTrue
    (setRun r) (admissible r) (by simp) (by simp) (fits r)).2
  obtain ⟨st, hst, _⟩ := hrun 0
  refine ⟨st, hst, fun r => ?_⟩
  obtain ⟨st', hst', hext⟩ := hrun r
  obtain rfl : st = st' := Option.some.inj (hst.symm.trans hst')
  exact hext

theorem finalTodo (slv : Solver (Var (Node (Fin 2)))) :
    LeaveOrder.gen Warshall.package slv facts 0 [0, 1] [] = some (some todo) := by
  obtain ⟨st, hst, hext⟩ := setupSolver slv
  let tc := Warshall.package.transitiveClosure (LeaveOrder.orderGraph facts 0 [0, 1] [])
  have hacyclic : (LeaveOrder.orderGraph facts 0 [0, 1] []).Acyclic :=
    (Warshall.onCycle_eq_nil _).mp (by decide +kernel)
  have hpairs : (facts.edge.filter fun e => decide (e.1 ∈ [(0 : Fin 2), 1]) &&
      decide (e.2 ∈ [(0 : Fin 2), 1]) && !decide (facts.iidMap e.1 = facts.iidMap e.2)).flatMap
      (LeaveOrder.ePrimes tc.nodes) =
      [(.final 0, .enter 1), (.enter 0, .final 1), (.final 0, .final 1)] := by decide +kernel
  have hfirst : facts.toAsk slv tc st (.final 0, .enter 1) = true :=
    Facts.toAsk_of_extends _ (by decide +kernel) (by decide) (hext 0) (by decide) (hext 1) (by decide)
  have hmid : facts.toAsk slv tc st (.enter 0, .final 1) = false := by
    have hmem : ((.enter 0, .final 1) : Node (Fin 2) × Node (Fin 2)) ∈ tc.edges := by decide +kernel
    simp [Facts.toAsk, hmem]
  have hlast : facts.toAsk slv tc st (.final 0, .final 1) = true :=
    Facts.toAsk_of_extends _ (by decide +kernel) (by decide) (hext 0) (by decide) (hext 1) (by decide)
  have hask : [(.final 0, .enter 1), (.enter 0, .final 1), (.final 0, .final 1)].filter
      (facts.toAsk slv tc st) = [(.final 0, .enter 1), (.final 0, .final 1)] := by
    simp [hfirst, hmid, hlast]
  refine LeaveOrder.gen_eq_some.mpr ⟨hacyclic, st, hst, ?_⟩
  rw [LeaveOrder.pairsFinal, hpairs, hask]
  decide +kernel

def files : OrderFiles (Fin 2) where
  enterTodo := fun _ => []
  enterCsv := fun _ _ => .covered
  finalTodo := fun _ _ => some todo
  finalCsv := fun _ _ _ => .covered

/-- Only the first and the last of the four combinations are taken by a run. -/
def pathCsv (_ _ k : Nat) : Csv (Fin 2) := fun _ => if k = 0 ∨ k = 3 then .covered else .unreachable

/-- Two chosen leaving orders. -/
def leaving (t t' : HbType) : Comb (Fin 2) :=
  [((.final 0, .enter 1), t), ((.final 0, .final 1), t')]

def combs : List (Comb (Fin 2)) :=
  [leaving .gt .gt, leaving .gt .eq, leaving .eq .gt, leaving .eq .eq]

theorem mem_set (p : Fin 2) : p ∈ [(0 : Fin 2), 1] := by
  revert p
  decide

theorem before_reached (r : Fin 3) (u v : Node (Fin 2))
    (hlt : nodeCycle (enter r) (final r) u < nodeCycle (enter r) (final r) v)
    (hapart : ∀ p q, u = .final p → v = .enter q → enter r q ≠ final r p + 1) :
    Reached legal [] (coverBefore (facts.setR [0, 1]) u v) := by
  have hstarted : ∀ r p, 0 < enter r p := by decide
  exact ⟨run r, ⟨r, rfl⟩, allHold_nil _,
    coverBefore_covered (fun p _ => visit r p) (mem_set _) (mem_set _)
      (fun p _ _ _ => hstarted r p) hapart hlt⟩

theorem together_reached (r : Fin 3) (u v : Node (Fin 2))
    (heq : nodeCycle (enter r) (final r) u = nodeCycle (enter r) (final r) v) :
    Reached legal [] (coverTogether (facts.setR [0, 1]) u v) :=
  ⟨run r, ⟨r, rfl⟩, allHold_nil _,
    coverTogether_covered (fun p _ => visit r p) (mem_set _) (mem_set _) heq⟩

theorem reached_iff (orders : Comb (Fin 2)) :
    Reached legal (facts.setAssumes [0, 1] ++ orders.flatMap assumeOrder)
      (.bool (facts.setR [0, 1])) ↔ OrdersRealised legal [0, 1] orders :=
  reached_setR_iff coversVisited fun _ hp => hp

theorem finalCsv_exact :
    ExactCsv legal (LeaveOrder.comFile facts [0, 1] [] todo) (files.finalCsv 0 0) := by
  have hcovers : (LeaveOrder.comFile facts [0, 1] [] todo).covers =
      [(.hb (.final 0) (.enter 1), coverBefore (facts.setR [0, 1]) (.final 0) (.enter 1)),
        (.concur (.final 0) (.enter 1), coverTogether (facts.setR [0, 1]) (.final 0) (.enter 1)),
        (.hb (.final 0) (.final 1), coverBefore (facts.setR [0, 1]) (.final 0) (.final 1)),
        (.concur (.final 0) (.final 1), coverTogether (facts.setR [0, 1]) (.final 0) (.final 1)),
        (.setR, .bool (facts.setR [0, 1]))] := rfl
  intro c hc
  refine exactCover_of_reached ?_
  rw [hcovers] at hc
  simp only [List.mem_cons, List.not_mem_nil, or_false] at hc
  rcases hc with rfl | rfl | rfl | rfl | rfl
  · exact before_reached 0 (.final 0) (.enter 1) (by decide) (by decide)
  · exact together_reached 1 (.final 0) (.enter 1) (by decide)
  · exact before_reached 0 (.final 0) (.final 1) (by decide) (by decide)
  · exact together_reached 1 (.final 0) (.final 1) (by decide)
  · exact (reached_iff []).mpr ⟨run 0, ⟨0, rfl⟩, visitsExactly 0, allHold_nil _⟩

theorem leaving_assumed (r : Fin 3) {t t' : HbType} (ht : t ≠ .lt) (ht' : t' ≠ .lt) :
    AllHold (observe (run r)) ((leaving t t').flatMap assumeOrder) ↔
      ∀ x ∈ leaving t t', OrderHolds (nodeCycle (enter r) (final r)) x := by
  have hfirst : AllHold (observe (run r)) (assumeOrder ((.final 0, .enter 1), t)) ↔
      OrderHolds (nodeCycle (enter r) (final r)) ((.final 0, .enter 1), t) := by
    cases t with
    | gt =>
      simp only [assumeOrder, assumeBefore, allHold_cons, allHold_nil, and_true, OrderHolds,
        aFinalHbEnter_holds (visit r 0) (visit r 1), nodeCycle_final, nodeCycle_enter, Int.ofNat_lt]
    | eq =>
      simp only [assumeOrder, assumeTogether, allHold_cons, allHold_nil, and_true, OrderHolds,
        aFinalConcurEnter_holds (visit r 0) (visit r 1), nodeCycle_final, nodeCycle_enter,
        Int.ofNat_inj]
    | lt => exact absurd rfl ht
  have hlast : AllHold (observe (run r)) (assumeOrder ((.final 0, .final 1), t')) ↔
      OrderHolds (nodeCycle (enter r) (final r)) ((.final 0, .final 1), t') := by
    cases t' with
    | gt =>
      simp only [assumeOrder, assumeBefore, allHold_cons, allHold_nil, and_true, OrderHolds,
        aFinalHbFinal_holds (visit r 0) (visit r 1), nodeCycle_final, Int.ofNat_lt]
    | eq =>
      simp only [assumeOrder, assumeTogether, allHold_cons, allHold_nil, and_true, OrderHolds,
        aFinalConcurFinal_holds (visit r 0) (visit r 1), nodeCycle_final, Int.ofNat_inj]
    | lt => exact absurd rfl ht'
  simp only [leaving, List.flatMap_cons, List.flatMap_nil, List.append_nil, allHold_append, hfirst,
    hlast, List.forall_mem_cons, List.not_mem_nil, false_imp_iff, implies_true, and_true]

theorem leaving_realised {t t' : HbType} (ht : t ≠ .lt) (ht' : t' ≠ .lt) :
    OrdersRealised legal [0, 1] (leaving t t') ↔
      ∃ r, ∀ x ∈ leaving t t', OrderHolds (nodeCycle (enter r) (final r)) x := by
  constructor
  · intro h
    obtain ⟨_, ⟨r, rfl⟩, _, hassume⟩ := h
    exact ⟨r, (leaving_assumed r ht ht').mp hassume⟩
  · intro h
    obtain ⟨r, hr⟩ := h
    exact ⟨run r, ⟨r, rfl⟩, visitsExactly r, (leaving_assumed r ht ht').mpr hr⟩

theorem pathCsv_exact {k : Nat} {c : Comb (Fin 2)} (hc : (c, k) ∈ combs.zipIdx) :
    ExactCsv legal (ConstructPaths.comFile facts [0, 1] ([] ++ c)) (pathCsv 0 0 k) := by
  intro x hx
  obtain rfl := List.mem_singleton.mp hx
  have hreached : Reached legal (ConstructPaths.comFile facts [0, 1] ([] ++ c)).assumes
      (.bool (facts.setR [0, 1])) ↔ OrdersRealised legal [0, 1] c := reached_iff c
  unfold ExactCover
  rw [hreached]
  simp only [combs, List.zipIdx_cons, List.zipIdx_nil, List.mem_cons, Prod.mk.injEq,
    List.not_mem_nil, or_false] at hc
  rcases hc with ⟨rfl, rfl⟩ | ⟨rfl, rfl⟩ | ⟨rfl, rfl⟩ | ⟨rfl, rfl⟩
  · rw [leaving_realised (by simp) (by simp)]
    decide
  · rw [leaving_realised (by simp) (by simp)]
    decide
  · rw [leaving_realised (by simp) (by simp)]
    decide
  · rw [leaving_realised (by simp) (by simp)]
    decide

/-- Any cycles with the proven order and the chosen ones make the graph of a path feasible. -/
theorem feasible (slv : Solver (Var (Node (Fin 2)))) {c : Comb (Fin 2)}
    (hc : ∀ e ∈ orderEdges c, ∃ p, e.1 = .final p) (cyc : Fin 2 → Nat × Nat)
    (h01 : (cyc 0).1 < (cyc 1).1)
    (hstay : ∀ p ∈ [(0 : Fin 2), 1], (cyc p).1 ≤ (cyc p).2 ∧ (cyc p).2 < (cyc p).1 + 4)
    (hold : ∀ x ∈ c, OrderHolds (nodeCycle (fun p => (cyc p).1) fun p => (cyc p).2) x) :
    ∃ red, Warshall.package.transitiveReduction (pathGraph facts 0 [0, 1] c) = some red ∧
      (pathSolver facts 0 [0, 1] c red).Satisfied .before
        (nodeCycle (fun p => (cyc p).1) fun p => (cyc p).2) ∧
      checkPath Warshall.package slv facts 0 [0, 1] c = some (some (red, true)) := by
  have hin (x : Node (Fin 2)) : facts.InGraph 0 [0, 1] x := by
    cases x with
    | enter p => exact mem_set p
    | final p => exact ⟨mem_set p, mem_set p⟩
  have hbase : Agrees facts 0 [0, 1] .node (facts.hbInside [0, 1]) facts.concurrentPairs
      (nodeCycle (fun p => (cyc p).1) fun p => (cyc p).2) := by
    refine ⟨?_, ?_, ?_, by simp [facts], by simp [facts, Facts.concurrentPairs],
      by simp [facts, Facts.concurrentPairs]⟩
    · intro e he
      obtain ⟨p, q, hpq, _, _, rfl⟩ := CollectReEval.mem_hbInside.mp he
      obtain ⟨rfl, rfl⟩ : p = 0 ∧ q = 1 := by simpa [facts] using hpq
      exact Int.ofNat_lt.mpr h01
    · intro p hp
      cases hp.1
    · intro p _ _ y hy hiid
      obtain ⟨p', q, hpq, _, _, heq⟩ := CollectReEval.mem_hbInside.mp hy
      obtain ⟨rfl, rfl⟩ : p' = 0 ∧ q = 1 := by simpa [facts] using hpq
      cases heq
      cases hiid
  refine checkPath_of_agrees _ slv (by decide) (fun x _ => ⟨hin _, hin _⟩)
    (LeaveOrder.agrees_choose hbase hold ?_ ?_) ?_ (by simp [facts])
  · intro p _ _ y hy _
    obtain ⟨q, hq⟩ := hc _ hy
    cases hq
  · intro e _ _ p hp
    cases hp.1
  · intro p hp
    have h := hstay p hp
    simp only [nodeCycle_enter, nodeCycle_final, facts]
    omega

theorem weighted (e : Node (Fin 2) × Node (Fin 2)) : facts.edgeWeight 0 [0, 1] e ≠ some [] :=
  facts.edgeWeight_ne_nil (fun _ _ => Nat.zero_lt_succ 3) e

/-- Left together with the second location, the first is not left before that is entered. -/
theorem infeasible (slv : Solver (Var (Node (Fin 2)))) :
    checkPath Warshall.package slv facts 0 [0, 1] (leaving .gt .eq) =
      some (some (Warshall.reduce (pathGraph facts 0 [0, 1] (leaving .gt .eq)), false)) := by
  have hred : Warshall.package.transitiveReduction (pathGraph facts 0 [0, 1] (leaving .gt .eq)) =
      some (Warshall.reduce (pathGraph facts 0 [0, 1] (leaving .gt .eq))) :=
    Warshall.transitiveReduction_eq (by decide +kernel)
  refine checkPath_eq hred weighted (iff_of_false (by simp) ?_)
  intro hsat
  obtain ⟨val, hsat⟩ := hsat
  have hedge := hsat.edges (.final 1, .enter 1) (by decide +kernel)
  have hlt : val (.final 1) < val (.enter 1) := hedge
  have hle : val (.enter 1) ≤ val (.final 1) :=
    hsat.whb (.enter 1, .final 1) (by decide) (by decide +kernel) (by decide +kernel)
  omega

theorem checkPath_feasible (slv : Solver (Var (Node (Fin 2)))) {c : Comb (Fin 2)}
    (hc : ∀ e ∈ orderEdges c, ∃ p, e.1 = .final p) (cyc : Fin 2 → Nat × Nat)
    (h01 : (cyc 0).1 < (cyc 1).1)
    (hstay : ∀ p ∈ [(0 : Fin 2), 1], (cyc p).1 ≤ (cyc p).2 ∧ (cyc p).2 < (cyc p).1 + 4)
    (hold : ∀ x ∈ c, OrderHolds (nodeCycle (fun p => (cyc p).1) fun p => (cyc p).2) x) :
    checkPath Warshall.package slv facts 0 [0, 1] c =
      some (some (Warshall.reduce (pathGraph facts 0 [0, 1] c), true)) := by
  obtain ⟨red, hred, _, hcheck⟩ := feasible slv hc cyc h01 hstay hold
  rw [hcheck, Warshall.eq_reduce hred]

theorem checkPath_combs (slv : Solver (Var (Node (Fin 2)))) (c : Comb (Fin 2)) (hc : c ∈ combs) :
    checkPath Warshall.package slv facts 0 [0, 1] c =
      some (some (Warshall.reduce (pathGraph facts 0 [0, 1] c), decide (c ≠ leaving .gt .eq))) := by
  simp only [combs, List.mem_cons, List.not_mem_nil, or_false] at hc
  rcases hc with rfl | rfl | rfl | rfl
  · exact checkPath_feasible slv (by decide) ![(1, 2), (4, 5)] (by decide) (by decide) (by decide)
  · exact infeasible slv
  · exact checkPath_feasible slv (by decide) ![(1, 2), (2, 3)] (by decide) (by decide) (by decide)
  · exact checkPath_feasible slv (by decide) ![(1, 3), (3, 3)] (by decide) (by decide) (by decide)

theorem combEdgesFinal : ConstructPaths.combEdgesFinal todo (files.finalCsv 0 0) = some combs := by
  decide

theorem eq_of_mem_combEdges {cs : List (Comb (Fin 2))} {comb : Comb (Fin 2)} {j : Nat}
    (hcs : LeaveOrder.combEdges (files.enterTodo 0) (files.enterCsv 0) = some cs)
    (h : (comb, j) ∈ cs.zipIdx) : comb = [] ∧ j = 0 := by
  obtain rfl : cs = [[]] := (Option.some.inj hcs).symm
  exact Prod.mk.inj (List.mem_singleton.mp h)

theorem pipeline (slv : Solver (Var (Node (Fin 2)))) :
    Pipeline legal Warshall.package slv facts files pathCsv := by
  have hset {aSet : List (Fin 2)} {i : Nat} (h : (aSet, i) ∈ facts.reachableSets.zipIdx) :
      aSet = [0, 1] ∧ i = 0 := Prod.mk.inj (List.mem_singleton.mp h)
  refine ⟨?_, ?_, ?_, ?_, ?_⟩
  · intro aSet i h
    obtain ⟨rfl, rfl⟩ := hset h
    exact enterTodo slv
  · intro aSet i _ hne
    exact absurd rfl hne
  · intro aSet i h cs hcs comb j hj
    obtain ⟨rfl, rfl⟩ := hset h
    obtain ⟨rfl, rfl⟩ := eq_of_mem_combEdges hcs hj
    exact finalTodo slv
  · intro aSet i h cs hcs comb j hj todo' htodo file hfile
    obtain ⟨rfl, rfl⟩ := hset h
    obtain ⟨rfl, rfl⟩ := eq_of_mem_combEdges hcs hj
    obtain rfl : todo = todo' := Option.some.inj htodo
    obtain rfl := Option.some.inj hfile
    exact finalCsv_exact
  · intro aSet i h
    obtain ⟨rfl, rfl⟩ := hset h
    obtain ⟨out, hout⟩ : ∃ out,
        ConstructPaths.genSet Warshall.package slv facts files 0 [0, 1] = some out := by
      have hcs : LeaveOrder.combEdges (files.enterTodo 0) (files.enterCsv 0) = some [[]] := rfl
      refine ConstructPaths.exists_genSet hcs fun x hx => ?_
      obtain rfl := List.mem_singleton.mp hx
      exact ConstructPaths.exists_genComb rfl combEdgesFinal fun c hc =>
        ⟨_, checkPath_combs slv c hc⟩
    refine ⟨out, hout, fun j comb k c hfile => ?_⟩
    obtain ⟨cs, todo', cs', _, hcs, hj, _, htodo, hcs', hc, _⟩ :=
      (ConstructPaths.mem_genSet hout).mp hfile
    obtain ⟨rfl, rfl⟩ := eq_of_mem_combEdges hcs hj
    obtain rfl : todo = todo' := Option.some.inj htodo
    obtain rfl : combs = cs' := Option.some.inj (combEdgesFinal.symm.trans hcs')
    exact pathCsv_exact hc

end Overlap
end SynthLC
