import SynthLC.HBPerf
import SynthLC.Leaving
import SynthLC.Orders
import SynthLC.OrderTiming
import SynthLC.Warshall
import Mathlib.Data.Fin.VecNotation
import Mathlib.Tactic.FinCases

/-! `xCollectReEval`: the order graph of a reachable set from the proven facts alone, its
solver, and the entering orders that are left to ask about. -/
namespace SynthLC

open Sva Graph Smt Leaving
open scoped Loop

variable {PL IID : Type}

/-- The entering facts as `xHBPerf` writes them. -/
def Facts.enterOutput (f : Facts PL IID) : HBPerf.Output PL where
  hbProven := f.hbEdge
  awsConcurrent := f.enterConcurrentPairs
  whbProven := f.whbEdge

/-- The fact files are true of the legal runs. -/
structure FactsTrue (legal : Set (Wave PL)) (f : Facts PL IID) : Prop where
  enter : ∀ tr ∈ legal, HBPerf.EnterFacts tr f.enterOutput
  leaving : LeavingFacts f legal

/-- A legal run with one visit of each location of the set, within the bound. -/
structure SetRun (legal : Set (Wave PL)) (f : Facts PL IID) (aSet : List PL) (tr : Wave PL)
    (enter final : PL → Nat) : Prop where
  legal : tr ∈ legal
  visit : ∀ p ∈ aSet, Visit tr p (enter p) (final p)
  bound : ∀ p ∈ aSet, final p < enter p + f.maxCycPerPl p

section Run

variable {legal : Set (Wave PL)} {f : Facts PL IID} {setIdx : Nat} {aSet : List PL} {tr : Wave PL}
  {enter final : PL → Nat}

theorem SetRun.visit_loc (hrun : SetRun legal f aSet tr enter final) {x : Node PL}
    (hx : f.InGraph setIdx aSet x) : Visit tr x.loc (enter x.loc) (final x.loc) :=
  hrun.visit x.loc hx.loc_mem

theorem SetRun.stay (hrun : SetRun legal f aSet tr enter final) {p : PL} (hp : p ∈ aSet) :
    nodeCycle enter final (.enter p) ≤ nodeCycle enter final (.final p) ∧
      nodeCycle enter final (.final p) < nodeCycle enter final (.enter p) + f.maxCycPerPl p := by
  have hle := (hrun.visit p hp).le
  have hbound := hrun.bound p hp
  simp only [nodeCycle_final, nodeCycle_enter]
  omega

theorem SetRun.concur_eq (hfacts : FactsTrue legal f) (hrun : SetRun legal f aSet tr enter final)
    {p q : PL} (he : (p, q) ∈ f.enterConcurrentPairs) (hp : p ∈ aSet) (hq : q ∈ aSet) :
    enter p = enter q :=
  (hfacts.enter tr hrun.legal).concur p q _ _ he (hrun.visit p hp).firstEntry
    (hrun.visit q hq).firstEntry

theorem SetRun.hb_lt (hfacts : FactsTrue legal f) (hrun : SetRun legal f aSet tr enter final)
    {p q : PL} (he : (p, q) ∈ f.hbEdge) (hp : p ∈ aSet) (hq : q ∈ aSet) : enter p < enter q :=
  (hfacts.enter tr hrun.legal).hb p q _ _ he (hrun.visit p hp).firstEntry
    (hrun.visit q hq).firstEntry

theorem SetRun.whb_le (hfacts : FactsTrue legal f) (hrun : SetRun legal f aSet tr enter final)
    {e : Node PL × Node PL} (he : e ∈ f.whbEdge.map enterPair) (h1 : f.InGraph setIdx aSet e.1)
    (h2 : f.InGraph setIdx aSet e.2) : nodeCycle enter final e.1 ≤ nodeCycle enter final e.2 := by
  obtain ⟨⟨p, q⟩, hmem, rfl⟩ := List.mem_map.mp he
  exact Int.ofNat_le.mpr ((hfacts.enter tr hrun.legal).whb p q _ _ hmem
    (hrun.visit p h1).firstEntry (hrun.visit q h2).firstEntry)

end Run

variable [DecidableEq PL] [DecidableEq IID]

namespace CollectReEval

section Gen

variable (pkg : Package (Node PL)) (slv : Solver (Var (Node PL))) (f : Facts PL IID)
  (setIdx : Nat) (aSet : List PL)

def building : Building PL :=
  aSet.foldl (nodeAndFinalStep f setIdx)
    { dg := DiGraph.empty.addEdges (f.hbInside aSet), implied := [] }

def orderGraph : DiGraph (Node PL) := finish f (building f setIdx aSet) f.concurrentPairs

/-- A cycle stops the script, and so does `assert(r == sat)`. -/
def setupSolver : Option (SolverState (Node PL)) := do
  let tr ← pkg.transitiveReduction (orderGraph f setIdx aSet)
  let (r, st) ← (f.solver setIdx aSet tr (building f setIdx aSet).implied f.concurrentPairs
    []).addConstraints .oneCycle slv {}
  if r = .sat then pure st else none

def pairsTodo (st : SolverState (Node PL)) : TodoFile PL :=
  ((f.edge.filter fun e => decide (e.1 ∈ aSet) && decide (e.2 ∈ aSet)).map enterPair |>.filter
    (f.toAsk slv (pkg.transitiveClosure (orderGraph f setIdx aSet)) st)).foldl f.addPair []

/-- `{set_idx}_edge_todo_per_set.txt` -/
def gen : Option (TodoFile PL) :=
  (setupSolver pkg slv f setIdx aSet).map (pairsTodo pkg slv f setIdx aSet)

/-- `com_{set_idx}.sv`, written if there is something to ask. -/
def comFile (todo : TodoFile PL) : SvFile PL where
  assumes := f.setAssumes aSet
  covers := f.todoCovers enterCoverName aSet todo

end Gen

section Allowed

variable (pkg : Package (Node PL)) (slv : Solver (Var (Node PL))) (f : Facts PL IID)
  (setIdx : Nat) (aSet : List PL) (enter final : PL → Nat)

/-- The script gets past its assertion, the cycles of the run satisfy every constraint, and
every order of the run counts as possible. -/
def Allowed : Prop :=
  ∃ st, setupSolver pkg slv f setIdx aSet = some st ∧
    MySolver.Extends (nodeCycle enter final) st ∧
    ∀ u v, f.InGraph setIdx aSet u → f.InGraph setIdx aSet v →
      nodeCycle enter final u < nodeCycle enter final v →
      MySolver.checkHbPossibility slv st (u, v) = true

/-- What the constraints ask of a run beyond what the proven facts say about it. -/
structure Admissible : Prop where
  /-- A leaving order holds also where its property is not triggered. -/
  leaving : ∀ e ∈ f.leavingHbProvenResPairs, f.InGraph setIdx aSet e.1 →
    f.InGraph setIdx aSet e.2 → ¬HbDecided f enter final e.1 e.2 →
    nodeCycle enter final e.1 < nodeCycle enter final e.2
  concur : ∀ e ∈ f.awsConcurLeavingPairs, f.InGraph setIdx aSet e.1 →
    f.InGraph setIdx aSet e.2 → ¬ConcurDecided enter final e.1 e.2 →
    nodeCycle enter final e.1 = nodeCycle enter final e.2
  /-- A marked location in a simultaneous pair stays for more than one cycle. -/
  moves : ∀ e ∈ f.concurrentPairs, f.InGraph setIdx aSet e.1 → f.InGraph setIdx aSet e.2 →
    e.1 ≠ e.2 → ∀ p ∈ aSet, p ∈ f.cycCntGt1PerSet setIdx → e.1.loc = p ∨ e.2.loc = p →
    enter p < final p
  /-- A marked location is left before a later one of its identifier is entered. -/
  left : ∀ p q, (p, q) ∈ f.hbEdge → p ∈ aSet → q ∈ aSet → p ∈ f.cycCntGt1PerSet setIdx →
    f.iidMap p = f.iidMap q → final p < enter q
  /-- Neighbours of one identifier follow each other without a gap. -/
  span : IidSpans f setIdx aSet .oneCycle (orderGraph f setIdx aSet) (nodeCycle enter final)

end Allowed

section Graph

variable {f : Facts PL IID} {setIdx : Nat} {aSet : List PL}

theorem building_built (hnd : aSet.Nodup) :
    Built f setIdx .edge (f.hbInside aSet) aSet aSet (building f setIdx aSet) := by
  have hstart : Built f setIdx .edge (f.hbInside aSet) [] []
      { dg := DiGraph.empty.addEdges (f.hbInside aSet), implied := [] } := built_start
  have hrun := built_nodeAndFinals hstart aSet (by simpa using hnd)
  simpa [building] using hrun

omit [DecidableEq IID] in
theorem mem_hbInside {e : Node PL × Node PL} : e ∈ f.hbInside aSet ↔
    ∃ p q, (p, q) ∈ f.hbEdge ∧ p ∈ aSet ∧ q ∈ aSet ∧ e = (.enter p, .enter q) := by
  simp only [Facts.hbInside, List.mem_map, List.mem_filter, Bool.and_eq_true, decide_eq_true_eq,
    Prod.exists, enterPair]
  constructor
  · intro h
    obtain ⟨p, q, ⟨hmem, hp, hq⟩, rfl⟩ := h
    exact ⟨p, q, hmem, hp, hq, rfl⟩
  · intro h
    obtain ⟨p, q, hmem, hp, hq, rfl⟩ := h
    exact ⟨p, q, ⟨hmem, hp, hq⟩, rfl⟩

omit [DecidableEq IID] in
theorem hbInside_inGraph (e : Node PL × Node PL) (he : e ∈ f.hbInside aSet) :
    f.InGraph setIdx aSet e.1 ∧ f.InGraph setIdx aSet e.2 := by
  obtain ⟨p, q, _, hp, hq, rfl⟩ := mem_hbInside.mp he
  exact ⟨hp, hq⟩

end Graph

section Run

variable {legal : Set (Wave PL)} {f : Facts PL IID} {setIdx : Nat} {aSet : List PL} {tr : Wave PL}
  {enter final : PL → Nat}

/-- The residual conditions and the facts together are what the graph asks. -/
theorem agrees_of_admissible (hfacts : FactsTrue legal f)
    (hrun : SetRun legal f aSet tr enter final) (h : Admissible f setIdx aSet enter final) :
    Agrees f setIdx aSet .edge (f.hbInside aSet) f.concurrentPairs (nodeCycle enter final) := by
  refine ⟨?_, ?_, ?_, ?_, ?_, ?_⟩
  · intro e he
    obtain ⟨p, q, hmem, hp, hq, rfl⟩ := mem_hbInside.mp he
    exact Int.ofNat_lt.mpr (hrun.hb_lt hfacts hmem hp hq)
  · intro p hp
    exact Int.ofNat_le.mpr (hrun.visit p hp.2.1).le
  · intro p _ hmark y hy hiid
    obtain ⟨p', q, hmem, hp', hq, heq⟩ := mem_hbInside.mp hy
    cases heq
    exact Int.ofNat_lt.mpr (h.left p q hmem hp' hq hmark hiid)
  · intro e he h1 h2
    by_cases hdec : HbDecided f enter final e.1 e.2
    · exact hfacts.leaving.lt hrun.legal he (hrun.visit_loc h1) (hrun.visit_loc h2) hdec
    · exact h.leaving e he h1 h2 hdec
  · intro e he h1 h2
    rcases List.mem_append.mp he with hent | hleave
    · obtain ⟨⟨p, q⟩, hmem, rfl⟩ := List.mem_map.mp hent
      exact congrArg Int.ofNat (hrun.concur_eq hfacts hmem h1 h2)
    · by_cases hdec : ConcurDecided enter final e.1 e.2
      · exact hfacts.leaving.eq hrun.legal hleave (hrun.visit_loc h1) (hrun.visit_loc h2) hdec
      · exact h.concur e hleave h1 h2 hdec
  · intro e he h1 h2 hne p hp hloc
    exact Int.ofNat_lt.mpr (h.moves e he h1 h2 hne p hp.2.1 hp.2.2 hloc)

theorem admissible_of_agrees
    (h : Agrees f setIdx aSet .edge (f.hbInside aSet) f.concurrentPairs (nodeCycle enter final))
    (hspan : IidSpans f setIdx aSet .oneCycle (orderGraph f setIdx aSet) (nodeCycle enter final)) :
    Admissible f setIdx aSet enter final := by
  refine ⟨?_, ?_, ?_, ?_, hspan⟩
  · intro e he h1 h2 _
    exact h.leaving_lt e he h1 h2
  · intro e he h1 h2 _
    exact h.pair_eq e (List.mem_append_right _ he) h1 h2
  · intro e he h1 h2 hne p hp hmark hloc
    exact Int.ofNat_lt.mp (h.pair_moves e he h1 h2 hne p ⟨rfl, hp, hmark⟩ hloc)
  · intro p q hmem hp hq hmark hiid
    have hord : (Node.enter p, Node.enter q) ∈ f.hbInside aSet :=
      mem_hbInside.mpr ⟨p, q, hmem, hp, hq, rfl⟩
    exact Int.ofNat_lt.mp (h.implied_lt p hp hmark _ hord hiid)

end Run

section Solver

variable {pkg : Package (Node PL)} {slv : Solver (Var (Node PL))} {f : Facts PL IID}
  {setIdx : Nat} {aSet : List PL} {st : SolverState (Node PL)}

theorem setupSolver_eq_some : setupSolver pkg slv f setIdx aSet = some st ↔
    ∃ tr, pkg.transitiveReduction (orderGraph f setIdx aSet) = some tr ∧
      (f.solver setIdx aSet tr (building f setIdx aSet).implied f.concurrentPairs []).assertAll
        .oneCycle {} = some st ∧ slv.check st.assertions = .sat := by
  refine Option.bind_eq_some_iff.trans (exists_congr fun tr => and_congr_right fun _ => ?_)
  exact MySolver.addConstraints_sat

/-- The file of a set whose edges `es` are all asked about. -/
theorem gen_eq_some (es : List (Node PL × Node PL))
    (hst : setupSolver pkg slv f setIdx aSet = some st)
    (hes : (f.edge.filter fun e => decide (e.1 ∈ aSet) && decide (e.2 ∈ aSet)).map enterPair = es)
    (hask : ∀ e ∈ es,
      f.toAsk slv (pkg.transitiveClosure (orderGraph f setIdx aSet)) st e = true) :
    gen pkg slv f setIdx aSet = some (es.foldl f.addPair []) := by
  rw [gen, hst, Option.map_some, pairsTodo, hes, List.filter_eq_self.mpr hask]

/-- Nothing is asked about edges that the closure orders. -/
theorem gen_eq_nil (hst : setupSolver pkg slv f setIdx aSet = some st)
    (hmem : ∀ e ∈ (f.edge.filter fun e => decide (e.1 ∈ aSet) && decide (e.2 ∈ aSet)).map enterPair,
      e ∈ (pkg.transitiveClosure (orderGraph f setIdx aSet)).edges) :
    gen pkg slv f setIdx aSet = some [] := by
  rw [gen, hst, Option.map_some, pairsTodo, List.filter_eq_nil_iff.mpr]
  · rfl
  · intro e he
    simp [Facts.toAsk, hmem e he]

variable {legal : Set (Wave PL)} {tr : Wave PL} {enter final : PL → Nat}

/-- Runs that are allowed solve the same constraints. -/
theorem Allowed.extends (h : Allowed pkg slv f setIdx aSet enter final)
    (hst : setupSolver pkg slv f setIdx aSet = some st) :
    MySolver.Extends (nodeCycle enter final) st := by
  obtain ⟨st', hst', hext, _⟩ := h
  obtain rfl : st = st' := Option.some.inj (hst.symm.trans hst')
  exact hext

theorem admissible_of_allowed (hnd : aSet.Nodup) (hfacts : FactsTrue legal f)
    (hrun : SetRun legal f aSet tr enter final)
    (h : Allowed pkg slv f setIdx aSet enter final) : Admissible f setIdx aSet enter final := by
  obtain ⟨st, hsetup, hext, _⟩ := h
  obtain ⟨red, hred, hassert, _⟩ := setupSolver_eq_some.mp hsetup
  have hbuilt : Built f setIdx .edge (f.hbInside aSet) aSet aSet (building f setIdx aSet) :=
    building_built hnd
  have hsat := (((MySolver.assertAll_spec MySolver.fresh_start hassert).2 _).mp hext).2
  have hnode (x : Node PL) : x ∈ red.nodes ↔ f.InGraph setIdx aSet x := by
    rw [pkg.reduction_nodes _ _ hred]
    exact hbuilt.mem_nodes_finish hbInside_inGraph
  have hdiff (e : Node PL × Node PL) (he : e ∈ f.hbInside aSet ++ f.leavingHbProvenResPairs) :
      e.1.loc ≠ e.2.loc := by
    intro hloc
    rcases List.mem_append.mp he with hhb | hleave
    · obtain ⟨p, q, hmem, hp, hq, rfl⟩ := mem_hbInside.mp hhb
      obtain rfl : p = q := hloc
      exact lt_irrefl _ (hrun.hb_lt hfacts hmem hp hq)
    · exact hfacts.leaving.iid_ne e (List.mem_append_left _ hleave) (congrArg f.iidMap hloc)
  have hagrees := agrees_of_inTime hbuilt hbInside_inGraph hdiff (inTime_of_satisfied hbuilt hred hsat)
    fun e he h1 h2 => hsat.concurrent e he ((hnode _).mpr h1) ((hnode _).mpr h2)
  exact admissible_of_agrees hagrees (iidSpans_of_satisfied hbuilt hred hsat)

theorem allowed_of_admissible (hnd : aSet.Nodup) (hfacts : FactsTrue legal f)
    (hrun : SetRun legal f aSet tr enter final)
    (h : Admissible f setIdx aSet enter final) : Allowed pkg slv f setIdx aSet enter final := by
  have hbuilt : Built f setIdx .edge (f.hbInside aSet) aSet aSet (building f setIdx aSet) :=
    building_built hnd
  have hagrees := agrees_of_admissible hfacts hrun h
  obtain ⟨red, hred, hsat, hweight⟩ := satisfied_of_agrees f.concurrentPairs [] hbuilt
    hbInside_inGraph hagrees (fun p hp => hrun.stay hp.1) h.span
    (fun e he h1 h2 => hrun.whb_le hfacts (by simpa using he) h1 h2) hagrees.pair_eq
  obtain ⟨st, hassert, _, hext⟩ := MySolver.extends_of_satisfied MySolver.fresh_start
    (MySolver.extends_start _) (fun e _ => hweight e) hsat
  refine ⟨st, ?_, hext, ?_⟩
  · exact setupSolver_eq_some.mpr ⟨red, hred, hassert, MySolver.check_of_extends hext⟩
  · intro u v _ _ hlt
    exact MySolver.checkHbPossibility_of_extends hext hlt

/-- The constraints exclude no legal run of the set exactly if the run meets the residual
conditions: the facts themselves guarantee everything else. -/
theorem run_allowed_iff_admissible (pkg : Package (Node PL)) (slv : Solver (Var (Node PL)))
    (legal : Set (Wave PL)) (f : Facts PL IID) (hfacts : FactsTrue legal f) (setIdx : Nat)
    (aSet : List PL) (hnd : aSet.Nodup) (tr : Wave PL) (enter final : PL → Nat)
    (hrun : SetRun legal f aSet tr enter final) :
    Allowed pkg slv f setIdx aSet enter final ↔ Admissible f setIdx aSet enter final :=
  ⟨admissible_of_allowed hnd hfacts hrun, allowed_of_admissible hnd hfacts hrun⟩

end Solver

section Gap

/-- Two locations of one identifier, the first entered before the second. -/
def pairFacts (maxCyc : Nat) (marked : List (Fin 2)) : Facts (Fin 2) Unit where
  name := !["issue_s1", "mult_s1"]
  cvPerflocs := [0, 1]
  edge := [(0, 1)]
  iidMap := fun _ => ()
  hbEdge := [(0, 1)]
  whbEdge := []
  enterConcurrentPairs := []
  reachableSets := [[0, 1]]
  maxCycPerPl := fun _ => maxCyc
  cycCntGt1PerSet := fun _ => marked
  leavingHbProvenResPairs := []
  awsConcurLeavingPairs := []

def spans (enter final : Fin 2 → Nat) (p : Fin 2) : Option (Nat × Nat) := some (enter p, final p)

theorem spans_visit {enter final : Fin 2 → Nat} (hle : ∀ p, enter p ≤ final p) (p : Fin 2) :
    Visit (ofSpans (spans enter final)) p (enter p) (final p) :=
  ofSpans_visit (v := spans enter final) rfl (hle p)

theorem pairFacts_true {maxCyc : Nat} {marked : List (Fin 2)} {enter final : Fin 2 → Nat}
    (hle : ∀ p, enter p ≤ final p) (hlt : enter 0 < enter 1) :
    FactsTrue {ofSpans (spans enter final)} (pairFacts maxCyc marked) := by
  refine ⟨?_, by simp [pairFacts], by simp [pairFacts], by simp [pairFacts]⟩
  intro tr htr
  rw [Set.mem_singleton_iff.mp htr]
  refine ⟨?_, by simp [Facts.enterOutput, pairFacts], by simp [Facts.enterOutput, pairFacts]⟩
  intro u v m n he hu hv
  obtain ⟨rfl, rfl⟩ : u = 0 ∧ v = 1 := by simpa [Facts.enterOutput, pairFacts] using he
  have hm := hu.unique (spans_visit hle 0).firstEntry
  have hn := hv.unique (spans_visit hle 1).firstEntry
  omega

theorem pairFacts_run {maxCyc : Nat} {marked : List (Fin 2)} {enter final : Fin 2 → Nat}
    (hle : ∀ p, enter p ≤ final p) (hmax : ∀ p, final p < enter p + maxCyc) :
    SetRun {ofSpans (spans enter final)} (pairFacts maxCyc marked) [0, 1]
      (ofSpans (spans enter final)) enter final :=
  ⟨rfl, fun p _ => spans_visit hle p, fun p _ => hmax p⟩

/-- A marked location that is left right before the next one of its identifier is entered. -/
theorem pair_iidSpans {f : Facts (Fin 2) Unit} {g : DiGraph (Node (Fin 2))}
    (hedges : ∀ e, e ∈ g.edges ↔
      e ∈ [(.enter 0, .enter 1), (.enter 0, .final 0), (.final 0, .enter 1)])
    (hmark : 0 ∈ f.cycCntGt1PerSet 0) :
    IidSpans f 0 [0, 1] .oneCycle g (nodeCycle ![1, 3] ![2, 3]) := by
  intro u v hred hstay _
  have hmem := (hedges _).mp hred.1
  simp only [List.mem_cons, Prod.mk.injEq, List.not_mem_nil, or_false] at hmem
  rcases hmem with ⟨rfl, rfl⟩ | ⟨rfl, rfl⟩ | ⟨rfl, rfl⟩
  · refine absurd ⟨.final 0, .single ?_, .single ?_⟩ hred.2
    · simp [hedges]
    · simp [hedges]
  · exact absurd ⟨0, ⟨by simp, hmark⟩, rfl, rfl⟩ hstay
  · decide

theorem pair_admissible : Admissible (pairFacts 2 [0]) 0 [0, 1] ![1, 3] ![2, 3] := by
  have hedges : (orderGraph (pairFacts 2 [0]) 0 [0, 1]).edges =
      [(.enter 0, .enter 1), (.enter 0, .final 0), (.final 0, .enter 1)] := by decide
  refine ⟨by simp [pairFacts], by simp [pairFacts],
    by simp [pairFacts, Facts.concurrentPairs], ?_, ?_⟩
  · intro p q he _ _ _ _
    obtain ⟨rfl, rfl⟩ : p = 0 ∧ q = 1 := by simpa [pairFacts] using he
    decide
  · exact pair_iidSpans (by simp [hedges]) (by simp [pairFacts])

theorem pair_run_allowed :
    Allowed Warshall.package Solver.classical (pairFacts 2 [0]) 0 [0, 1] ![1, 3] ![2, 3] :=
  (run_allowed_iff_admissible _ _ {ofSpans (spans ![1, 3] ![2, 3])} _
    (pairFacts_true (by decide) (by decide)) 0 [0, 1] (by decide) _ ![1, 3] ![2, 3]
    (pairFacts_run (by decide) (by decide))).mpr pair_admissible

/-- The second location is entered one cycle late: the facts hold, `+ 1 ==` does not. -/
theorem gap_run_excluded :
    FactsTrue {ofSpans (spans ![1, 3] ![1, 3])} (pairFacts 1 []) ∧
    SetRun {ofSpans (spans ![1, 3] ![1, 3])} (pairFacts 1 []) [0, 1]
      (ofSpans (spans ![1, 3] ![1, 3])) ![1, 3] ![1, 3] ∧
    VisitsExactly (ofSpans (spans ![1, 3] ![1, 3])) [0, 1] ∧
    ¬Allowed Warshall.package Solver.classical (pairFacts 1 []) 0 [0, 1] ![1, 3] ![1, 3] := by
  have hfacts : FactsTrue {ofSpans (spans ![1, 3] ![1, 3])} (pairFacts 1 []) :=
    pairFacts_true (by decide) (by decide)
  have hrun : SetRun {ofSpans (spans ![1, 3] ![1, 3])} (pairFacts 1 []) [0, 1]
      (ofSpans (spans ![1, 3] ![1, 3])) ![1, 3] ![1, 3] := pairFacts_run (by decide) (by decide)
  refine ⟨hfacts, hrun, ?_, ?_⟩
  · intro p
    have hvisit := (hrun.visit p (by fin_cases p <;> simp)).firstEntry.visits
    fin_cases p <;> simpa using hvisit
  · intro hallowed
    have hedges : (orderGraph (pairFacts 1 []) 0 [0, 1]).edges = [(.enter 0, .enter 1)] := by decide
    have hred : (orderGraph (pairFacts 1 []) 0 [0, 1]).Reduced (.enter 0) (.enter 1) := by
      refine ⟨by simp [hedges], ?_⟩
      intro hmid
      obtain ⟨w, h1, h2⟩ := hmid
      obtain ⟨x, _, hlast⟩ := Relation.TransGen.tail'_iff.mp h1
      obtain ⟨y, hfirst, _⟩ := Relation.TransGen.head'_iff.mp h2
      have hw1 : w = .enter 1 := by simp [hedges] at hlast; exact hlast.2
      have hw0 : w = .enter 0 := by simp [hedges] at hfirst; exact hfirst.1
      rw [hw0] at hw1
      cases hw1
    have hstay : ¬StayPair ((pairFacts 1 []).Weighted 0 [0, 1]) (.enter 0) (.enter 1) := by
      intro hs
      obtain ⟨p, _, _, hv⟩ := hs
      cases hv
    have hspan := (admissible_of_allowed (by decide) hfacts hrun hallowed).span _ _ hred hstay rfl
    revert hspan
    decide

end Gap

section Free

/-- Two locations about which nothing is proven, each of its own identifier. -/
def freeFacts (name : Fin 2 → String) (edge : List (Fin 2 × Fin 2)) : Facts (Fin 2) (Fin 2) where
  name := name
  cvPerflocs := [0, 1]
  edge := edge
  iidMap := id
  hbEdge := []
  whbEdge := []
  enterConcurrentPairs := []
  reachableSets := [[0, 1]]
  maxCycPerPl := fun _ => 1
  cycCntGt1PerSet := fun _ => []
  leavingHbProvenResPairs := []
  awsConcurLeavingPairs := []

variable (slv : Solver (Var (Node (Fin 2)))) (name : Fin 2 → String) (edge : List (Fin 2 × Fin 2))

theorem free_setupSolver :
    setupSolver Warshall.package slv (freeFacts name edge) 0 [0, 1] = some ⟨[], 0⟩ := by
  have hacyclic : (orderGraph (freeFacts name edge) 0 [0, 1]).Acyclic :=
    DiGraph.acyclic_of_edges_eq_nil rfl
  have hsat : slv.check [] = .sat := (slv.check_sat _).mpr ⟨fun _ => 0, by simp [Models]⟩
  exact setupSolver_eq_some.mpr ⟨_, Warshall.transitiveReduction_eq
    ((Warshall.onCycle_eq_nil _).mpr hacyclic), rfl, hsat⟩

/-- Without constraints both orders of two nodes are open. -/
theorem free_toAsk {tc : DiGraph (Node (Fin 2))} (htc : tc.edges = []) {u v : Node (Fin 2)}
    (hne : u ≠ v) : (freeFacts name edge).toAsk slv tc ⟨[], 0⟩ (u, v) = true := by
  have hstart (val : Node (Fin 2) → Int) : MySolver.Extends val ⟨[], 0⟩ := MySolver.extends_start val
  refine Facts.toAsk_of_extends _ (by simp [htc]) (by simp [freeFacts])
    (hstart fun x => if x = u then 0 else 1) ?_ (hstart fun _ => 0) le_rfl
  simp [Ne.symm hne]

/-- One edge of the data flow graph asks for two orders only. -/
theorem free_gen (hname : name 0 < name 1) :
    gen Warshall.package slv (freeFacts name [(0, 1)]) 0 [0, 1] =
      some [((.enter 0, .enter 1), [.gt, .eq])] := by
  have hask : (freeFacts name [(0, 1)]).toAsk slv (Warshall.package.transitiveClosure
      (orderGraph (freeFacts name [(0, 1)]) 0 [0, 1])) ⟨[], 0⟩ (.enter 0, .enter 1) = true :=
    free_toAsk slv name _ rfl (by decide)
  have hfirst : (freeFacts name [(0, 1)]).nodeName (.enter 0) <
      (freeFacts name [(0, 1)]).nodeName (.enter 1) := hname
  rw [gen_eq_some [(.enter 0, .enter 1)] (free_setupSolver slv name _) rfl (by simpa using hask),
    List.foldl_cons, List.foldl_nil, Facts.addPair, if_pos hfirst, Loop.push]

end Free

end CollectReEval

end SynthLC
