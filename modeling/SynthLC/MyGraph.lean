import SynthLC.ConstructPaths

/-! `MYGRAPH.py`: the graph that a feasible path is drawn from. It is built again from the
facts and orders of the path, and a weak order is drawn as an edge wherever the solver does not
take its two nodes for simultaneous. -/
namespace SynthLC.MyGraph

open Sva Graph Smt
open scoped Loop

variable {PL IID : Type} [DecidableEq PL] [DecidableEq IID]

section Drawing

variable (slv : Solver (Var (Node PL))) (f : Facts PL IID) (setIdx : Nat) (aSet : List PL)
  (c : Comb PL) (st : SolverState (Node PL))

/-- Body of the loop over `whb_finals + whb_edge`; `st` is what the solver of the path holds. -/
def addWeak (g : DiGraph (Node PL)) (itm : Node PL × Node PL) : DiGraph (Node PL) :=
  if itm.1 ∈ g.nodes ∧ itm.2 ∈ g.nodes then
    if MySolver.checkImpConcur slv st itm then g else g.addEdge itm.1 itm.2
  else g

/-- The graph before simultaneous nodes take over each other's edges. -/
def withWeak : DiGraph (Node PL) :=
  (whbFinals f setIdx aSet ++ f.whbEdge.map enterPair).foldl (addWeak slv st)
    (withLeaving f (pathBuilding f setIdx aSet c))

def drawnGraph : DiGraph (Node PL) :=
  (f.concurrentPairs ++ concurInComb c).foldl mergeConcurrent (withWeak slv f setIdx aSet c st)

/-- The reduction whose edges are drawn; nodes are drawn from the graph itself. -/
def myGraphing (pkg : Package (Node PL)) : Option (DiGraph (Node PL)) :=
  pkg.transitiveReduction (drawnGraph slv f setIdx aSet c st)

end Drawing

section Weak

variable {slv : Solver (Var (Node PL))} {st : SolverState (Node PL)} {g : DiGraph (Node PL)}
  {es : List (Node PL × Node PL)} {e : Node PL × Node PL} {x : Node PL}

theorem mem_nodes_addWeak : x ∈ (addWeak slv st g e).nodes ↔ x ∈ g.nodes := by
  unfold addWeak
  split_ifs with hin
  · exact Iff.rfl
  · rw [DiGraph.nodes_addEdge_of_mem hin.1 hin.2]
  · exact Iff.rfl

theorem mem_edges_addWeak {d : Node PL × Node PL} (h : d ∈ (addWeak slv st g e).edges) :
    d ∈ g.edges ∨ d = e ∧ e.1 ∈ g.nodes ∧ e.2 ∈ g.nodes ∧
      MySolver.checkImpConcur slv st e = false := by
  unfold addWeak at h
  split_ifs at h with hin hconcur
  · exact .inl h
  · rcases DiGraph.mem_edges_addEdge.mp h with h | h
    · exact .inl h
    · exact .inr ⟨h, hin.1, hin.2, Bool.eq_false_iff.mpr hconcur⟩
  · exact .inl h

theorem mem_nodes_weak : x ∈ (es.foldl (addWeak slv st) g).nodes ↔ x ∈ g.nodes := by
  induction es generalizing g with
  | nil => exact Iff.rfl
  | cons e es ih => rw [List.foldl_cons, ih, mem_nodes_addWeak]

/-- A drawn edge was there or is a weak order whose nodes need not be simultaneous. -/
theorem mem_edges_weak {d : Node PL × Node PL} (h : d ∈ (es.foldl (addWeak slv st) g).edges) :
    d ∈ g.edges ∨ d ∈ es ∧ d.1 ∈ g.nodes ∧ d.2 ∈ g.nodes ∧
      MySolver.checkImpConcur slv st d = false := by
  induction es generalizing g with
  | nil => exact .inl h
  | cons e es ih =>
    rcases ih h with h | ⟨hmem, h1, h2, hconcur⟩
    · rcases mem_edges_addWeak h with h | ⟨rfl, h1, h2, hconcur⟩
      · exact .inl h
      · exact .inr ⟨by simp, h1, h2, hconcur⟩
    · rw [mem_nodes_addWeak] at h1 h2
      exact .inr ⟨by simp [hmem], h1, h2, hconcur⟩

end Weak

section Feasible

variable {pkg : Package (Node PL)} {slv : Solver (Var (Node PL))} {f : Facts PL IID}
  {setIdx : Nat} {aSet : List PL} {c : Comb PL} {red : DiGraph (Node PL)}
  {st : SolverState (Node PL)} {val : Node PL → Int} {u v : Node PL}

theorem mem_nodes_withWeak :
    u ∈ (withWeak slv f setIdx aSet c st).nodes ↔ u ∈ (pathGraph f setIdx aSet c).nodes := by
  rw [withWeak, mem_nodes_weak, pathGraph, finish, mem_nodes_merges]

/-- The pairs that both graphs are merged along. -/
theorem pairsIn_withWeak (es : List (Node PL × Node PL)) :
    pairsIn (withWeak slv f setIdx aSet c st).nodes es =
      pairsIn (withLeaving f (pathBuilding f setIdx aSet c)).nodes es :=
  pairsIn_congr fun _ => mem_nodes_weak

/-- Simultaneous nodes have one value in every solution. -/
theorem eq_of_handOn (hred : pkg.transitiveReduction (pathGraph f setIdx aSet c) = some red)
    (hsat : (pathSolver f setIdx aSet c red).Satisfied .before val)
    (h : v ∈ handOn (pairsIn (withWeak slv f setIdx aSet c st).nodes
      (f.concurrentPairs ++ concurInComb c)) u) : val u = val v := by
  refine (simultaneous_of_mem_handOn h).eq fun e he => ?_
  obtain ⟨hmem, h1, h2⟩ := mem_pairsIn.mp he
  rw [mem_nodes_withWeak, ← pkg.reduction_nodes _ _ hred] at h1 h2
  exact hsat.concurrent e (LeaveOrder.mem_solverPairs.mpr hmem) h1 h2

/-- A drawn edge is one of the path's graph, or a weak order that some solution is strict on;
no solution goes backwards on it. -/
theorem drawn_edge (hred : pkg.transitiveReduction (pathGraph f setIdx aSet c) = some red)
    (hst : pathState f setIdx aSet c red = some st)
    (h : (u, v) ∈ (drawnGraph slv f setIdx aSet c st).edges) :
    (∀ val, MySolver.Extends val st → val u ≤ val v) ∧
      ((u, v) ∈ (pathGraph f setIdx aSet c).edges ∨
        ∃ val, MySolver.Extends val st ∧ val u < val v) := by
  have hsat (val : Node PL → Int) (hval : MySolver.Extends val st) :
      (pathSolver f setIdx aSet c red).Satisfied .before val := (pathState_spec hst val).mp hval
  obtain ⟨u', v', hedge, hu, hv⟩ := mem_merges_iff.mp h
  have heq (val : Node PL → Int) (hval : MySolver.Extends val st) :
      val u' = val u ∧ val v' = val v :=
    ⟨eq_of_handOn hred (hsat val hval) hu, eq_of_handOn hred (hsat val hval) hv⟩
  rcases mem_edges_weak hedge with hstrict | ⟨hweak, h1, h2, hconcur⟩
  · -- the loop over simultaneous pairs hands it on in the path's graph as well
    have hpath : (u, v) ∈ (pathGraph f setIdx aSet c).edges := by
      rw [pairsIn_withWeak] at hu hv
      exact mem_merges_iff.mpr ⟨u', v', hstrict, hu, hv⟩
    refine ⟨fun val hval => ?_, .inl hpath⟩
    exact (weighted_inTime hred twoLoops_implied_iid (hsat val hval) u v hpath).le
  · have hle (val : Node PL → Int) (hval : MySolver.Extends val st) : val u' ≤ val v' := by
      have hnode (x : Node PL) (hx : x ∈ (withLeaving f (pathBuilding f setIdx aSet c)).nodes) :
          x ∈ red.nodes := by
        rw [pkg.reduction_nodes _ _ hred]
        exact mem_nodes_merges.mpr hx
      exact (hsat val hval).whb _ (List.mem_append.mpr (List.mem_append.mp hweak).symm)
        (hnode _ h1) (hnode _ h2)
    obtain ⟨val, hval, hne⟩ := MySolver.exists_extends_of_not_concur hconcur
    refine ⟨fun val hval => ?_, .inr ⟨val, hval, ?_⟩⟩
    · rw [← (heq val hval).1, ← (heq val hval).2]
      exact hle val hval
    · rw [← (heq val hval).1, ← (heq val hval).2]
      exact lt_of_le_of_ne (hle val hval) hne

/-- The drawing of a feasible path has no cycle: its weak edges are strict in one solution each,
and all solutions are equal along a cycle. -/
theorem drawing_succeeds (pkg : Package (Node PL)) (slv : Solver (Var (Node PL)))
    (f : Facts PL IID) (setIdx : Nat) (aSet : List PL) (c : Comb PL) (red : DiGraph (Node PL))
    (h : checkPath pkg slv f setIdx aSet c = some (some (red, true))) :
    ∃ st, pathState f setIdx aSet c red = some st ∧
      (drawnGraph slv f setIdx aSet c st).Acyclic ∧
      ∃ tr, myGraphing slv f setIdx aSet c st pkg = some tr := by
  obtain ⟨hred, st, hst, _⟩ := checkPath_eq_some.mp h
  have hpath : (pathGraph f setIdx aSet c).Acyclic :=
    (pkg.reduction_isSome _).mp (Option.isSome_iff_exists.mpr ⟨red, hred⟩)
  have hacyclic : (drawnGraph slv f setIdx aSet c st).Acyclic :=
    hpath.of_le (fun u v he => (drawn_edge hred hst he).1) fun u v he => (drawn_edge hred hst he).2
  exact ⟨st, hst, hacyclic, Option.isSome_iff_exists.mp ((pkg.reduction_isSome _).mpr hacyclic)⟩

theorem pair_drawing_succeeds : ∃ red,
    checkPath Warshall.package Solver.classical stayFacts 0 [0, 1] [] = some (some (red, true)) ∧
    ∃ st, pathState stayFacts 0 [0, 1] [] red = some st ∧
      (drawnGraph Solver.classical stayFacts 0 [0, 1] [] st).Acyclic ∧
      ∃ tr, myGraphing Solver.classical stayFacts 0 [0, 1] [] st Warshall.package = some tr := by
  obtain ⟨red, _, hcheck⟩ := pair_checkPath Solver.classical
  exact ⟨red, hcheck, drawing_succeeds _ _ _ 0 [0, 1] [] red hcheck⟩

end Feasible

end SynthLC.MyGraph
