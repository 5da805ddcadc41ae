import SynthLC.LeaveOrder
import SynthLC.Concurrent

/-! `xConstructPaths`: combines the covered leaving orders of each entering combination and
writes a file for every feasible pair of combinations. -/
namespace SynthLC

open Sva Graph Smt Loop

variable {PL IID : Type}

/-- The files and verdicts of the two scripts before: todo file and `com_{i}.csv` of
`xCollectReEval`, todo file and `com_{i}_{j}.csv` of `xCollectReEvalLeaveOrder`. -/
structure OrderFiles (PL : Type) where
  enterTodo : Nat → TodoFile PL
  enterCsv : Nat → Csv PL
  finalTodo : Nat → Nat → Option (TodoFile PL)
  finalCsv : Nat → Nat → Csv PL

variable [DecidableEq PL] [DecidableEq IID]

/-- The graph of a path: chosen orders of first and last cycles, final nodes without an edge
from their first cycle. `xSummarize` builds the same one. -/
def pathBuilding (f : Facts PL IID) (setIdx : Nat) (aSet : List PL) (c : Comb PL) : Building PL :=
  twoLoops f setIdx .node (f.hbInside aSet ++ orderEdges c) aSet

def pathGraph (f : Facts PL IID) (setIdx : Nat) (aSet : List PL) (c : Comb PL) :
    DiGraph (Node PL) :=
  finish f (pathBuilding f setIdx aSet c) (f.concurrentPairs ++ concurInComb c)

theorem pathBuilding_built (f : Facts PL IID) (setIdx : Nat) {aSet : List PL} (c : Comb PL)
    (hnd : aSet.Nodup) : Built f setIdx .node (f.hbInside aSet ++ orderEdges c) aSet aSet
      (pathBuilding f setIdx aSet c) := built_twoLoops hnd

def whbFinals (f : Facts PL IID) (setIdx : Nat) (aSet : List PL) : List (Node PL × Node PL) :=
  (aSet.filter fun p => p ∈ f.cycCntGt1PerSet setIdx).map fun p => (.enter p, .final p)

def pathSolver (f : Facts PL IID) (setIdx : Nat) (aSet : List PL) (c : Comb PL)
    (tr : DiGraph (Node PL)) : MySolver (Node PL) IID :=
  f.solver setIdx aSet tr (pathBuilding f setIdx aSet c).implied (LeaveOrder.solverPairs f c)
    (whbFinals f setIdx aSet)

/-- The reduction of a combination without a cycle, and whether its constraints are
satisfiable; `add_constraints` is called twice on the same solver. -/
def checkPath (pkg : Package (Node PL)) (slv : Solver (Var (Node PL))) (f : Facts PL IID)
    (setIdx : Nat) (aSet : List PL) (c : Comb PL) : Option (Option (DiGraph (Node PL) × Bool)) :=
  if pkg.simpleCycles (pathGraph f setIdx aSet c) = [] then do
    let tr ← pkg.transitiveReduction (pathGraph f setIdx aSet c)
    let (_, st) ← (pathSolver f setIdx aSet c tr).addConstraints .before slv {}
    let (r, _) ← (pathSolver f setIdx aSet c tr).addConstraints .before slv st
    pure (some (tr, decide (r = .sat)))
  else some none

/-- The solver's state after the two calls. -/
def pathState (f : Facts PL IID) (setIdx : Nat) (aSet : List PL) (c : Comb PL)
    (tr : DiGraph (Node PL)) : Option (SolverState (Node PL)) := do
  let st ← (pathSolver f setIdx aSet c tr).assertAll .before {}
  (pathSolver f setIdx aSet c tr).assertAll .before st

/-- The second call repeats the constraints of the first. -/
theorem pathState_spec {f : Facts PL IID} {setIdx : Nat} {aSet : List PL} {c : Comb PL}
    {tr : DiGraph (Node PL)} {st : SolverState (Node PL)}
    (h : pathState f setIdx aSet c tr = some st) (val : Node PL → Int) :
    MySolver.Extends val st ↔ (pathSolver f setIdx aSet c tr).Satisfied .before val := by
  obtain ⟨mid, hmid, hst⟩ := Option.bind_eq_some_iff.mp h
  have hfirst := MySolver.assertAll_spec MySolver.fresh_start hmid
  have hsecond := MySolver.assertAll_spec hfirst.1 hst
  rw [hsecond.2, hfirst.2]
  simp only [MySolver.extends_start, true_and, and_self]

section Run

variable {pkg : Package (Node PL)} {slv : Solver (Var (Node PL))} {f : Facts PL IID}
  {setIdx : Nat} {aSet : List PL} {c : Comb PL} {red : DiGraph (Node PL)} {sat : Bool}

theorem checkPath_eq_some : checkPath pkg slv f setIdx aSet c = some (some (red, sat)) ↔
    pkg.transitiveReduction (pathGraph f setIdx aSet c) = some red ∧
      ∃ st, pathState f setIdx aSet c red = some st ∧
        sat = decide (slv.check st.assertions = .sat) := by
  constructor
  · intro h
    unfold checkPath at h
    split_ifs at h
    · obtain ⟨tr, htr, h⟩ := Option.bind_eq_some_iff.mp h
      obtain ⟨_, hfirst, h⟩ := Option.bind_eq_some_iff.mp h
      obtain ⟨_, hsecond, h⟩ := Option.bind_eq_some_iff.mp h
      obtain ⟨mid, hmid, rfl⟩ := Option.map_eq_some_iff.mp hfirst
      obtain ⟨st, hst, rfl⟩ := Option.map_eq_some_iff.mp hsecond
      obtain ⟨rfl, hsat⟩ := Prod.mk.inj (Option.some.inj (Option.some.inj h))
      exact ⟨htr, st, Option.bind_eq_some_iff.mpr ⟨mid, hmid, hst⟩, hsat.symm⟩
    · cases Option.some.inj h
  · intro h
    obtain ⟨hred, st, hst, rfl⟩ := h
    obtain ⟨mid, hmid, hst⟩ := Option.bind_eq_some_iff.mp hst
    have hcycles : pkg.simpleCycles (pathGraph f setIdx aSet c) = [] := by
      rw [pkg.simpleCycles_eq_nil, ← pkg.reduction_isSome]
      exact Option.isSome_iff_exists.mpr ⟨red, hred⟩
    simp [checkPath, hcycles, hred, MySolver.addConstraints, hmid, hst]

theorem checkPath_reduction (h : checkPath pkg slv f setIdx aSet c = some (some (red, sat))) :
    pkg.transitiveReduction (pathGraph f setIdx aSet c) = some red :=
  (checkPath_eq_some.mp h).1

/-- A feasible path has cycles for its nodes. -/
theorem exists_satisfied_of_checkPath
    (h : checkPath pkg slv f setIdx aSet c = some (some (red, true))) :
    ∃ val, (pathSolver f setIdx aSet c red).Satisfied .before val := by
  obtain ⟨_, st, hst, hsat⟩ := checkPath_eq_some.mp h
  obtain ⟨val, hext⟩ := MySolver.check_sat_iff.mp (of_decide_eq_true hsat.symm)
  exact ⟨val, (pathState_spec hst val).mp hext⟩

/-- Whether the second call finds the constraints satisfiable. -/
theorem checkPath_eq (hred : pkg.transitiveReduction (pathGraph f setIdx aSet c) = some red)
    (hweight : ∀ e, f.edgeWeight setIdx aSet e ≠ some [])
    (hsat : sat = true ↔ ∃ val, (pathSolver f setIdx aSet c red).Satisfied .before val) :
    checkPath pkg slv f setIdx aSet c = some (some (red, sat)) := by
  obtain ⟨mid, hmid⟩ : ∃ st, (pathSolver f setIdx aSet c red).assertAll .before {} = some st :=
    MySolver.assertAll_some fun e _ => hweight e
  obtain ⟨st, hst⟩ : ∃ st, (pathSolver f setIdx aSet c red).assertAll .before mid = some st :=
    MySolver.assertAll_some fun e _ => hweight e
  have hstate : pathState f setIdx aSet c red = some st :=
    Option.bind_eq_some_iff.mpr ⟨mid, hmid, hst⟩
  refine checkPath_eq_some.mpr ⟨hred, st, hstate, ?_⟩
  rw [Bool.eq_iff_iff, decide_eq_true_eq, MySolver.check_sat_iff, hsat]
  simp only [pathState_spec hstate]

/-- Cycles that agree with the graph of a path make it feasible. -/
theorem checkPath_of_agrees (pkg : Package (Node PL)) (slv : Solver (Var (Node PL)))
    {val : Node PL → Int} (hnd : aSet.Nodup)
    (hin : ∀ x ∈ c, f.InGraph setIdx aSet x.1.1 ∧ f.InGraph setIdx aSet x.1.2)
    (hagrees : Agrees f setIdx aSet .node (f.hbInside aSet ++ orderEdges c)
      (f.concurrentPairs ++ concurInComb c) val)
    (hstay : ∀ p ∈ aSet, val (.enter p) ≤ val (.final p) ∧
      val (.final p) < val (.enter p) + f.maxCycPerPl p)
    (hwhb : ∀ e ∈ f.whbEdge.map enterPair, f.InGraph setIdx aSet e.1 → f.InGraph setIdx aSet e.2 →
      val e.1 ≤ val e.2) :
    ∃ red, pkg.transitiveReduction (pathGraph f setIdx aSet c) = some red ∧
      (pathSolver f setIdx aSet c red).Satisfied .before val ∧
      checkPath pkg slv f setIdx aSet c = some (some (red, true)) := by
  have hbuilt := pathBuilding_built f setIdx c hnd
  have hspan : IidSpans f setIdx aSet .before (pathGraph f setIdx aSet c) val :=
    IidSpans.before (finish_inTime hbuilt (LeaveOrder.orders_inGraph hin) hagrees) fun p hp => hp.2
  have hwhb' : ∀ e ∈ f.whbEdge.map enterPair ++ whbFinals f setIdx aSet, f.InGraph setIdx aSet e.1 →
      f.InGraph setIdx aSet e.2 → val e.1 ≤ val e.2 := by
    intro e he h1 h2
    rcases List.mem_append.mp he with he | he
    · exact hwhb e he h1 h2
    · obtain ⟨p, hp, rfl⟩ := List.mem_map.mp he
      exact (hstay p (List.mem_filter.mp hp).1).1
  obtain ⟨red, hred, hsat, hweight⟩ := satisfied_of_agrees (LeaveOrder.solverPairs f c)
    (whbFinals f setIdx aSet) hbuilt (LeaveOrder.orders_inGraph hin) hagrees
    (fun p hp => hstay p hp.1) hspan hwhb'
    (fun e he => hagrees.pair_eq e (LeaveOrder.mem_solverPairs.mp he))
  exact ⟨red, hred, hsat, checkPath_eq hred hweight ⟨fun _ => ⟨_, hsat⟩, fun _ => rfl⟩⟩

/-- The cycles of the nodes satisfy every fact and every chosen order that the graph of a path
is built from. -/
structure PathTimes (f : Facts PL IID) (setIdx : Nat) (aSet : List PL) (c : Comb PL)
    (val : Node PL → Int) : Prop where
  hb : ∀ p q, (p, q) ∈ f.hbEdge → p ∈ aSet → q ∈ aSet → val (.enter p) < val (.enter q)
  order : ∀ x ∈ c, OrderHolds val x
  /-- A marked location is left before one of its identifier that is ordered after it. -/
  sameIid : ∀ p ∈ aSet, p ∈ f.cycCntGt1PerSet setIdx →
    ∀ y, (.enter p, y) ∈ f.hbInside aSet ++ orderEdges c → f.iidMap p = f.iidMapTmp y →
      val (.final p) < val y
  leaving : ∀ e ∈ f.leavingHbProvenResPairs, e.1 ∈ (pathGraph f setIdx aSet c).nodes →
    e.2 ∈ (pathGraph f setIdx aSet c).nodes → val e.1 < val e.2
  concur : ∀ e ∈ f.concurrentPairs, e.1 ∈ (pathGraph f setIdx aSet c).nodes →
    e.2 ∈ (pathGraph f setIdx aSet c).nodes → val e.1 = val e.2

theorem PathTimes.lt {val : Node PL → Int} (h : PathTimes f setIdx aSet c val) (hnd : aSet.Nodup)
    {u v : Node PL} (he : (u, v) ∈ (pathGraph f setIdx aSet c).edges) : val u < val v := by
  have hbuilt := pathBuilding_built f setIdx c hnd
  have hnode (x : Node PL) (hx : x ∈ (withLeaving f (pathBuilding f setIdx aSet c)).nodes) :
      x ∈ (pathGraph f setIdx aSet c).nodes := mem_nodes_merges.mpr hx
  refine merges_lt ?_ ?_ he
  · intro u v he
    rw [withLeaving, mem_edges_leavings, DiGraph.mem_edges_addEdges, hbuilt.edges,
      hbuilt.implied] at he
    rcases he with ((he | ⟨hm, _⟩) | ⟨p, hp, hmark, y, hy, hiid, heq⟩) | ⟨he, h1, h2⟩
    · rcases List.mem_append.mp he with he | he
      · obtain ⟨p, q, hmem, hp, hq, heq⟩ := CollectReEval.mem_hbInside.mp he
        cases heq
        exact h.hb p q hmem hp hq
      · exact orderEdges_lt h.order he
    · cases hm
    · cases heq
      exact h.sameIid p hp hmark _ hy hiid
    · exact h.leaving _ he (hnode _ (mem_nodes_leavings.mpr h1))
        (hnode _ (mem_nodes_leavings.mpr h2))
  · intro e he h1 h2
    rcases List.mem_append.mp he with he | he
    · exact h.concur e he (hnode _ h1) (hnode _ h2)
    · exact concurInComb_eq h.order he

theorem PathTimes.acyclic {val : Node PL → Int} (h : PathTimes f setIdx aSet c val)
    (hnd : aSet.Nodup) : (pathGraph f setIdx aSet c).Acyclic := by
  have htime (u v : Node PL) (he : (u, v) ∈ (pathGraph f setIdx aSet c).edges) :
      InTime (fun _ => False) val u v := .of_lt (h.lt hnd he)
  exact acyclic_of_inTime htime

/-- The first of two locations of one identifier may stay. -/
def stayFacts : Facts (Fin 2) Unit := CollectReEval.pairFacts 2 [0]

/-- It is left before the second is entered. -/
theorem pair_pathTimes : PathTimes stayFacts 0 [0, 1] [] (nodeCycle ![1, 3] ![2, 3]) := by
  have horder : ∀ y, (Node.enter 0, y) ∈ stayFacts.hbInside [0, 1] ++ orderEdges [] →
      y = .enter 1 := by
    intro y hy
    simpa [Facts.hbInside, stayFacts, CollectReEval.pairFacts, enterPair, orderEdges] using hy
  refine ⟨?_, by simp, ?_, by simp [stayFacts, CollectReEval.pairFacts],
    by simp [stayFacts, CollectReEval.pairFacts, Facts.concurrentPairs]⟩
  · intro p q he _ _
    obtain ⟨rfl, rfl⟩ : p = 0 ∧ q = 1 := by simpa [stayFacts, CollectReEval.pairFacts] using he
    decide
  · intro p _ hmark y hy _
    obtain rfl : p = 0 := by simpa [stayFacts, CollectReEval.pairFacts] using hmark
    rw [horder y hy]
    decide

/-- So the two are a feasible path. -/
theorem pair_checkPath (slv : Solver (Var (Node (Fin 2)))) :
    ∃ red, (pathSolver stayFacts 0 [0, 1] [] red).Satisfied .before (nodeCycle ![1, 3] ![2, 3]) ∧
      checkPath Warshall.package slv stayFacts 0 [0, 1] [] = some (some (red, true)) := by
  have hpairs : stayFacts.concurrentPairs ++ concurInComb [] = [] := rfl
  have hagrees : Agrees stayFacts 0 [0, 1] .node (stayFacts.hbInside [0, 1] ++ orderEdges [])
      (stayFacts.concurrentPairs ++ concurInComb []) (nodeCycle ![1, 3] ![2, 3]) := by
    refine ⟨by decide, ?_, pair_pathTimes.sameIid, ?_, by simp [hpairs], by simp [hpairs]⟩
    · intro p hp
      cases hp.1
    · simp [stayFacts, CollectReEval.pairFacts]
  obtain ⟨red, _, hsat, hcheck⟩ := checkPath_of_agrees Warshall.package slv (by decide) (by simp)
    hagrees (by decide) (by simp [stayFacts, CollectReEval.pairFacts])
  exact ⟨red, hsat, hcheck⟩

/-- The loop over simultaneous pairs adds only orders that every such assignment of times has;
so a path whose facts and orders some cycles satisfy is not skipped as cyclic. -/
theorem merges_keep_times (pkg : Package (Node PL)) :
    (∀ (g : DiGraph (Node PL)) (es : List (Node PL × Node PL)) (val : Node PL → Int),
      (∀ u v, (u, v) ∈ g.edges → val u < val v) → (∀ e ∈ es, val e.1 = val e.2) →
      ∀ u v, (u, v) ∈ (es.foldl mergeConcurrent g).edges → val u < val v) ∧
    ∀ (f : Facts PL IID) (setIdx : Nat) (aSet : List PL) (c : Comb PL) (val : Node PL → Int),
      aSet.Nodup → PathTimes f setIdx aSet c val →
        pkg.simpleCycles (pathGraph f setIdx aSet c) = [] := by
  refine ⟨?_, ?_⟩
  · intro g es val hg hes u v he
    exact merges_lt hg (fun e he _ _ => hes e he) he
  · intro f setIdx aSet c val hnd htimes
    exact (pkg.simpleCycles_eq_nil _).mpr (htimes.acyclic hnd)

/-- Two locations entered together before a third, and the two of one identifier. -/
theorem pair_keeps_times :
    (∀ u v, (u, v) ∈ ([(.enter 0, .enter 1)].foldl mergeConcurrent
        ((DiGraph.empty.addEdge (.enter (0 : Fin 3)) (.enter 2)).addNode (.enter 1))).edges →
      nodeCycle ![1, 1, 2] ![1, 1, 2] u < nodeCycle ![1, 1, 2] ![1, 1, 2] v) ∧
    PathTimes stayFacts 0 [0, 1] [] (nodeCycle ![1, 3] ![2, 3]) ∧
      Warshall.package.simpleCycles (pathGraph stayFacts 0 [0, 1] []) = [] := by
  have hkeeps := @merges_keep_times (Fin 3) Unit _ _ Warshall.package
  have hpair := hkeeps.1
    ((DiGraph.empty.addEdge (.enter (0 : Fin 3)) (.enter 2)).addNode (.enter 1))
    [(.enter 0, .enter 1)] (nodeCycle ![1, 1, 2] ![1, 1, 2]) (by simp) (by decide)
  exact ⟨hpair, pair_pathTimes, (merges_keep_times Warshall.package).2 _ 0 [0, 1] [] _ (by decide)
    pair_pathTimes⟩

/-- Both nodes of a marked location are in the graph. -/
theorem mem_nodes_whbFinals (hnd : aSet.Nodup) {e : Node PL × Node PL}
    (he : e ∈ whbFinals f setIdx aSet) : e.1 ∈ (pathGraph f setIdx aSet c).nodes ∧
      e.2 ∈ (pathGraph f setIdx aSet c).nodes := by
  obtain ⟨p, hp, rfl⟩ := List.mem_map.mp he
  obtain ⟨hp, hmark⟩ : p ∈ aSet ∧ p ∈ f.cycCntGt1PerSet setIdx := by simpa using hp
  have hbuilt := pathBuilding_built f setIdx c hnd
  have hkeep (x : Node PL) (hx : x ∈ (pathBuilding f setIdx aSet c).dg.nodes) :
      x ∈ (pathGraph f setIdx aSet c).nodes := by
    rw [pathGraph, finish, mem_nodes_merges, withLeaving, mem_nodes_leavings,
      DiGraph.mem_nodes_addEdges]
    exact .inl hx
  exact ⟨hkeep _ ((hbuilt.nodes _).mpr (.inr (.inl ⟨p, hp, rfl⟩))),
    hkeep _ ((hbuilt.nodes _).mpr (.inr (.inr ⟨p, hp, hmark, rfl⟩)))⟩

/-- The constraints of the reduced edges keep every edge of an acyclic graph: other than from a
first to its last cycle it takes time, and these two never go backwards. -/
theorem reduction_keeps_constraints (pkg : Package (Node PL)) (f : Facts PL IID) (setIdx : Nat)
    (aSet : List PL) (hnd : aSet.Nodup) (c : Comb PL)
    (hacyclic : (pathGraph f setIdx aSet c).Acyclic) :
    ∃ tr, pkg.transitiveReduction (pathGraph f setIdx aSet c) = some tr ∧
      ∀ st, (pathSolver f setIdx aSet c tr).assertAll .before {} = some st →
        ∀ σ : Var (Node PL) → Int, Models σ st.assertions →
          (∀ u v, (u, v) ∈ (pathGraph f setIdx aSet c).edges →
            (∀ p, (u, v) ≠ (.enter p, .final p)) → σ (.node u) < σ (.node v)) ∧
          (∀ p, (.enter p, .final p) ∈ (pathGraph f setIdx aSet c).edges →
            σ (.node (.enter p)) ≤ σ (.node (.final p))) ∧
          ∀ e ∈ whbFinals f setIdx aSet, σ (.node e.1) ≤ σ (.node e.2) := by
  obtain ⟨tr, htr⟩ := Option.isSome_iff_exists.mp ((pkg.reduction_isSome _).mpr hacyclic)
  refine ⟨tr, htr, ?_⟩
  intro st hst σ hσ
  have hsat : (pathSolver f setIdx aSet c tr).Satisfied .before fun v => σ (.node v) := by
    have hspec := (MySolver.assertAll_spec MySolver.fresh_start hst).2 fun v => σ (.node v)
    exact (hspec.mp ⟨σ, fun _ => rfl, hσ⟩).2
  have htime := weighted_inTime htr twoLoops_implied_iid hsat
  refine ⟨?_, ?_, ?_⟩
  · intro u v he hother
    refine (htime u v he).lt fun hs => ?_
    obtain ⟨p, _, rfl, rfl⟩ := hs
    exact hother p rfl
  · intro p he
    exact (htime _ _ he).le
  · intro e he
    have hnodes := mem_nodes_whbFinals (c := c) hnd he
    rw [← pkg.reduction_nodes _ _ htr] at hnodes
    exact hsat.whb e (List.mem_append_right _ he) hnodes.1 hnodes.2

/-- The pair has a solution, and in each the first location is left before the second is
entered. -/
theorem pair_keeps_constraints :
    (pathGraph stayFacts 0 [0, 1] []).Acyclic ∧
    ∃ tr st σ, Warshall.package.transitiveReduction (pathGraph stayFacts 0 [0, 1] []) = some tr ∧
      (pathSolver stayFacts 0 [0, 1] [] tr).assertAll .before {} = some st ∧
      Models σ st.assertions ∧ σ (.node (.final 0)) < σ (.node (.enter 1)) ∧
      σ (.node (.enter 0)) ≤ σ (.node (.final 0)) := by
  have hacyclic := pair_pathTimes.acyclic (by decide)
  obtain ⟨tr, htr, hkeeps⟩ := reduction_keeps_constraints Warshall.package stayFacts 0 [0, 1]
    (by decide) [] hacyclic
  obtain ⟨red, hsat, hcheck⟩ := pair_checkPath Solver.classical
  obtain rfl : tr = red := Option.some.inj (htr.symm.trans (checkPath_reduction hcheck))
  have hweight (e : Node (Fin 2) × Node (Fin 2)) : stayFacts.edgeWeight 0 [0, 1] e ≠ some [] :=
    Facts.edgeWeight_ne_nil _ (fun _ _ => Nat.zero_lt_two) e
  obtain ⟨st, hst, _, σ, _, hσ⟩ := MySolver.extends_of_satisfied MySolver.fresh_start
    (MySolver.extends_start _) (fun e _ => hweight e) hsat
  obtain ⟨hlt, _, hle⟩ := hkeeps st hst σ hσ
  refine ⟨hacyclic, tr, st, σ, htr, hst, hσ, ?_, ?_⟩
  · exact hlt _ _ (by decide) (by simp)
  · exact hle (.enter 0, .final 0) (by decide)

end Run

namespace ConstructPaths

/-- `comb_edges` -/
def combEdges (todo : TodoFile PL) (csv : Csv PL) : Option (List (Comb PL)) :=
  (readTodo (enterQuery csv) todo).map choices

/-- `comb_edges_final`, nothing if the set is not covered under the entering combination. -/
def combEdgesFinal (todo : TodoFile PL) (csv : Csv PL) : Option (List (Comb PL)) := do
  let d ← readTodo (finalQuery csv) todo
  let res ← dfQuery (csv .setR)
  if res = .covered then
    if ∀ e ∈ d, e.2.Nodup then some (choices d) else none
  else some []

section Gen

variable (pkg : Package (Node PL)) (slv : Solver (Var (Node PL))) (f : Facts PL IID)
  (files : OrderFiles PL)

/-- The leaving combinations of one entering combination that get a file, with their numbers. -/
def genComb (setIdx : Nat) (aSet : List PL) (comb : Comb PL) (combidx : Nat) :
    Option (List (Nat × Comb PL)) :=
  match files.finalTodo setIdx combidx with
  | none => some []
  | some [] => some []
  | some todo => do
    let combs ← combEdgesFinal todo (files.finalCsv setIdx combidx)
    let keep ← combs.zipIdx.mapM fun (c, i) => do
      match ← checkPath pkg slv f setIdx aSet (comb ++ c) with
      | some (_, true) => pure [(i, c)]
      | _ => pure []
    pure keep.flatten

/-- Numbers of the files `com_{i}_{j}_{k}.sv` of a set, with their two combinations. -/
def genSet (setIdx : Nat) (aSet : List PL) : Option (List ((Nat × Comb PL) × (Nat × Comb PL))) := do
  let combs ← combEdges (files.enterTodo setIdx) (files.enterCsv setIdx)
  let out ← combs.zipIdx.mapM fun (comb, j) => do
    let ks ← genComb pkg slv f files setIdx aSet comb j
    pure (ks.map fun k => ((j, comb), k))
  pure out.flatten

/-- `com_{i}_{j}_{k}.sv` -/
def comFile (aSet : List PL) (c : Comb PL) : SvFile PL where
  assumes := f.setAssumes aSet ++ c.flatMap assumeOrder
  covers := [(.cSetr, .bool (f.setR aSet))]

end Gen

section Files

variable {pkg : Package (Node PL)} {slv : Solver (Var (Node PL))} {f : Facts PL IID}
  {files : OrderFiles PL} {setIdx : Nat} {aSet : List PL}

/-- A leaving combination gets a file if it is among the covered ones and feasible. -/
theorem mem_genComb {comb : Comb PL} {combidx : Nat} {ks : List (Nat × Comb PL)}
    (h : genComb pkg slv f files setIdx aSet comb combidx = some ks) {k : Nat} {c : Comb PL} :
    (k, c) ∈ ks ↔ ∃ todo cs red, todo ≠ [] ∧ files.finalTodo setIdx combidx = some todo ∧
      combEdgesFinal todo (files.finalCsv setIdx combidx) = some cs ∧ (c, k) ∈ cs.zipIdx ∧
      checkPath pkg slv f setIdx aSet (comb ++ c) = some (some (red, true)) := by
  unfold genComb at h
  split at h
  · rename_i hnone
    obtain rfl := Option.some.inj h
    simp [hnone]
  · rename_i hnil
    obtain rfl := Option.some.inj h
    simp only [List.not_mem_nil, false_iff]
    intro hex
    obtain ⟨todo, _, _, hne, htodo, _⟩ := hex
    exact hne (Option.some.inj (htodo.symm.trans hnil))
  · rename_i todo hne htodo
    obtain ⟨cs, hcs, h⟩ := Option.bind_eq_some_iff.mp h
    obtain ⟨keep, hkeep, h⟩ := Option.bind_eq_some_iff.mp h
    obtain rfl := Option.some.inj h
    simp only [List.mem_flatten, mem_mapM hkeep]
    constructor
    · intro hmem
      obtain ⟨l, ⟨⟨c', k'⟩, hzip, hl⟩, hin⟩ := hmem
      obtain ⟨res, hres, hl⟩ := Option.bind_eq_some_iff.mp hl
      split at hl
      · rename_i red
        obtain rfl := Option.some.inj hl
        obtain ⟨rfl, rfl⟩ := Prod.mk.inj (List.mem_singleton.mp hin)
        exact ⟨todo, cs, red, hne, htodo, hcs, hzip, hres⟩
      · obtain rfl := Option.some.inj hl
        cases hin
    · intro hex
      obtain ⟨todo', cs', red, _, htodo', hcs', hzip, hres⟩ := hex
      obtain rfl : todo = todo' := Option.some.inj (htodo.symm.trans htodo')
      obtain rfl : cs = cs' := Option.some.inj (hcs.symm.trans hcs')
      exact ⟨[(k, c)], ⟨(c, k), hzip, by simp only [hres]; rfl⟩, List.mem_singleton.mpr rfl⟩

/-- The script gets through a combination if every graph of it can be checked. -/
theorem exists_genComb {comb : Comb PL} {combidx : Nat} {todo : TodoFile PL} {cs : List (Comb PL)}
    (htodo : files.finalTodo setIdx combidx = some todo)
    (hcs : combEdgesFinal todo (files.finalCsv setIdx combidx) = some cs)
    (hcheck : ∀ c ∈ cs, ∃ r, checkPath pkg slv f setIdx aSet (comb ++ c) = some r) :
    ∃ ks, genComb pkg slv f files setIdx aSet comb combidx = some ks := by
  unfold genComb
  split
  · exact ⟨_, rfl⟩
  · exact ⟨_, rfl⟩
  · rename_i todo' _ htodo'
    obtain rfl : todo = todo' := Option.some.inj (htodo.symm.trans htodo')
    rw [hcs]
    refine exists_mapM_bind fun x hx => ?_
    obtain ⟨r, hr⟩ := hcheck x.1 (List.fst_mem_of_mem_zipIdx hx)
    simp only [hr, Option.bind_eq_bind, Option.bind_some]
    split
    · exact ⟨_, rfl⟩
    · exact ⟨_, rfl⟩

/-- A script that gets through a set has read the leaving orders of every combination. -/
theorem exists_combEdgesFinal {out : List ((Nat × Comb PL) × (Nat × Comb PL))}
    (h : genSet pkg slv f files setIdx aSet = some out) {combs : List (Comb PL)}
    (hcombs : combEdges (files.enterTodo setIdx) (files.enterCsv setIdx) = some combs)
    {comb : Comb PL} {j : Nat} (hj : (comb, j) ∈ combs.zipIdx) {todo : TodoFile PL} (hne : todo ≠ [])
    (htodo : files.finalTodo setIdx j = some todo) :
    ∃ cs, combEdgesFinal todo (files.finalCsv setIdx j) = some cs := by
  obtain ⟨combs', hcombs', h⟩ := Option.bind_eq_some_iff.mp h
  obtain rfl : combs = combs' := Option.some.inj (hcombs.symm.trans hcombs')
  obtain ⟨outs, houts, _⟩ := Option.bind_eq_some_iff.mp h
  obtain ⟨l, hl⟩ := exists_mapM.mp ⟨outs, houts⟩ _ hj
  obtain ⟨ks, hks, _⟩ := Option.bind_eq_some_iff.mp hl
  unfold genComb at hks
  split at hks
  · rename_i hnone
    cases htodo.symm.trans hnone
  · rename_i hnil
    exact absurd (Option.some.inj (htodo.symm.trans hnil)) hne
  · rename_i todo' _ htodo'
    obtain rfl : todo = todo' := Option.some.inj (htodo.symm.trans htodo')
    obtain ⟨cs, hcs, _⟩ := Option.bind_eq_some_iff.mp hks
    exact ⟨cs, hcs⟩

omit [DecidableEq IID] in
theorem combEdgesFinal_eq_choices {todo d : TodoFile PL} {csv : Csv PL} {cs : List (Comb PL)}
    (hcs : combEdgesFinal todo csv = some cs) (hd : readTodo (finalQuery csv) todo = some d)
    (hset : csv .setR = .covered) : cs = choices d := by
  obtain ⟨d', hd', hcs⟩ := Option.bind_eq_some_iff.mp hcs
  obtain rfl : d = d' := Option.some.inj (hd.symm.trans hd')
  rw [dfQuery_covered.mpr hset] at hcs
  simp only [Option.bind_eq_bind, Option.bind_some, if_true] at hcs
  split_ifs at hcs
  exact (Option.some.inj hcs).symm

theorem exists_genSet {combs : List (Comb PL)}
    (hcombs : combEdges (files.enterTodo setIdx) (files.enterCsv setIdx) = some combs)
    (hcomb : ∀ x ∈ combs.zipIdx, ∃ ks, genComb pkg slv f files setIdx aSet x.1 x.2 = some ks) :
    ∃ out, genSet pkg slv f files setIdx aSet = some out := by
  rw [genSet, hcombs]
  refine exists_mapM_bind fun x hx => ?_
  obtain ⟨ks, hks⟩ := hcomb x hx
  exact ⟨_, by simp only [hks]; rfl⟩

/-- The files of a set are those of its entering combinations. -/
theorem mem_genSet {out : List ((Nat × Comb PL) × (Nat × Comb PL))}
    (h : genSet pkg slv f files setIdx aSet = some out) {j k : Nat} {comb c : Comb PL} :
    ((j, comb), (k, c)) ∈ out ↔ ∃ combs todo cs red,
      combEdges (files.enterTodo setIdx) (files.enterCsv setIdx) = some combs ∧
      (comb, j) ∈ combs.zipIdx ∧ todo ≠ [] ∧ files.finalTodo setIdx j = some todo ∧
      combEdgesFinal todo (files.finalCsv setIdx j) = some cs ∧ (c, k) ∈ cs.zipIdx ∧
      checkPath pkg slv f setIdx aSet (comb ++ c) = some (some (red, true)) := by
  obtain ⟨combs, hcombs, h⟩ := Option.bind_eq_some_iff.mp h
  obtain ⟨outs, houts, h⟩ := Option.bind_eq_some_iff.mp h
  obtain rfl := Option.some.inj h
  simp only [List.mem_flatten, mem_mapM houts]
  constructor
  · intro hmem
    obtain ⟨l, ⟨⟨comb', j'⟩, hzip, hl⟩, hin⟩ := hmem
    obtain ⟨ks, hks, hl⟩ := Option.bind_eq_some_iff.mp hl
    obtain rfl := Option.some.inj hl
    obtain ⟨x, hx, heq⟩ := List.mem_map.mp hin
    cases heq
    obtain ⟨todo, cs, red, hfile⟩ := (mem_genComb hks).mp hx
    exact ⟨combs, todo, cs, red, hcombs, hzip, hfile⟩
  · intro hex
    obtain ⟨combs', todo, cs, red, hcombs', hzip, hfile⟩ := hex
    obtain rfl : combs = combs' := Option.some.inj (hcombs.symm.trans hcombs')
    obtain ⟨l, hl⟩ := exists_mapM.mp ⟨outs, houts⟩ _ hzip
    obtain ⟨ks, hks, heq⟩ := Option.bind_eq_some_iff.mp hl
    obtain rfl := Option.some.inj heq
    exact ⟨_, ⟨(comb, j), hzip, hl⟩,
      List.mem_map.mpr ⟨(k, c), (mem_genComb hks).mpr ⟨todo, cs, red, hfile⟩, rfl⟩⟩

end Files

end ConstructPaths

end SynthLC
