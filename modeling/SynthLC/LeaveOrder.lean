import SynthLC.CollectReEval

/-! `xCollectReEvalLeaveOrder`: combines the covered entering orders of a set and asks, for
each combination, which orders its leaving nodes can have. -/
namespace SynthLC.LeaveOrder

open Sva Graph Smt Loop

variable {PL IID : Type} [DecidableEq PL] [DecidableEq IID]

/-- `comb_edges` -/
def combEdges (todo : TodoFile PL) (csv : Csv PL) : Option (List (Comb PL)) :=
  (readTodo (enterQuery csv) todo).map choices

section Gen

variable (pkg : Package (Node PL)) (slv : Solver (Var (Node PL))) (f : Facts PL IID)
  (setIdx : Nat) (aSet : List PL) (comb : Comb PL)

def building : Building PL :=
  twoLoops f setIdx .edge (f.hbInside aSet ++ orderEdges comb) aSet

def orderGraph : DiGraph (Node PL) :=
  finish f (building f setIdx aSet comb) (f.concurrentPairs ++ concurInComb comb)

/-- The solver gets the simultaneous pairs in another order than the graph. -/
def solverPairs : List (Node PL × Node PL) :=
  f.enterConcurrentPairs.map enterPair ++ concurInComb comb ++ f.awsConcurLeavingPairs

def setupSolver : Option (SolverState (Node PL)) := do
  let tr ← pkg.transitiveReduction (orderGraph f setIdx aSet comb)
  let (r, st) ← (f.solver setIdx aSet tr (building f setIdx aSet comb).implied
    (solverPairs f comb) []).addConstraints .oneCycle slv {}
  if r = .sat then pure st else none

/-- Pairs of an edge with at least one final node. -/
def ePrimes (nodes : List (Node PL)) (eorg : PL × PL) : List (Node PL × Node PL) :=
  (if .final eorg.1 ∈ nodes then [(.final eorg.1, .enter eorg.2)] else []) ++
  (if .final eorg.2 ∈ nodes then [(.enter eorg.1, .final eorg.2)] else []) ++
  (if .final eorg.2 ∈ nodes ∧ .final eorg.1 ∈ nodes then
    [(.final eorg.1, .final eorg.2)] else [])

def pairsFinal (st : SolverState (Node PL)) : TodoFile PL :=
  let tc := pkg.transitiveClosure (orderGraph f setIdx aSet comb)
  let edges := f.edge.filter fun e => decide (e.1 ∈ aSet) && decide (e.2 ∈ aSet) &&
    !decide (f.iidMap e.1 = f.iidMap e.2)
  ((edges.flatMap (ePrimes tc.nodes)).filter (f.toAsk slv tc st)).foldl f.addPair []

/-- `{set_idx}_{combidx}_final_edge_todo_per_set.txt`; a cyclic combination gets no file. -/
def gen : Option (Option (TodoFile PL)) :=
  if pkg.simpleCycles (orderGraph f setIdx aSet comb) = [] then
    (setupSolver pkg slv f setIdx aSet comb).map fun st =>
      some (pairsFinal pkg slv f setIdx aSet comb st)
  else some none

/-- The files of all combinations of a set. -/
def genSet (combs : List (Comb PL)) : Option (List (Option (TodoFile PL))) :=
  combs.mapM (gen pkg slv f setIdx aSet)

/-- `com_{set_idx}_{combidx}.sv` for a combination with open leaving orders. -/
def comFile (todo : TodoFile PL) : SvFile PL where
  assumes := f.setAssumes aSet ++ comb.flatMap assumeOrder
  covers := f.todoCovers finalCoverName aSet todo

/-- The file of a combination with fixed leaving orders. -/
def setcoverFile : SvFile PL where
  assumes := f.setAssumes aSet ++ comb.flatMap assumeOrder
  covers := [(.cSetr, .bool (f.setR aSet))]

/-- What is written with a todo file: nothing is asked for a combination without orders whose
leaving orders are fixed. -/
def svFile (todo : TodoFile PL) : Option (SvFile PL) :=
  if todo = [] then
    if comb = [] then none else some (setcoverFile f aSet comb)
  else some (comFile f aSet comb todo)

end Gen

variable {pkg : Package (Node PL)} {slv : Solver (Var (Node PL))} {f : Facts PL IID}
  {setIdx : Nat} {aSet : List PL} {comb : Comb PL} {st : SolverState (Node PL)}

theorem setupSolver_eq_some : setupSolver pkg slv f setIdx aSet comb = some st ↔
    ∃ tr, pkg.transitiveReduction (orderGraph f setIdx aSet comb) = some tr ∧
      (f.solver setIdx aSet tr (building f setIdx aSet comb).implied (solverPairs f comb)
        []).assertAll .oneCycle {} = some st ∧ slv.check st.assertions = .sat := by
  refine Option.bind_eq_some_iff.trans (exists_congr fun tr => and_congr_right fun _ => ?_)
  exact MySolver.addConstraints_sat

theorem building_built (f : Facts PL IID) (setIdx : Nat) (comb : Comb PL) (hnd : aSet.Nodup) :
    Built f setIdx .edge (f.hbInside aSet ++ orderEdges comb) aSet aSet
      (building f setIdx aSet comb) := built_twoLoops hnd

/-- A combination gets a file if it is acyclic and its constraints have a solution. -/
theorem gen_eq_some {todo : TodoFile PL} : gen pkg slv f setIdx aSet comb = some (some todo) ↔
    (orderGraph f setIdx aSet comb).Acyclic ∧
      ∃ st, setupSolver pkg slv f setIdx aSet comb = some st ∧
      pairsFinal pkg slv f setIdx aSet comb st = todo := by
  rw [gen, ← pkg.simpleCycles_eq_nil]
  split_ifs with hcycles
  · simp [hcycles]
  · simp [hcycles]

omit [DecidableEq PL] [DecidableEq IID] in
theorem mem_solverPairs {e : Node PL × Node PL} :
    e ∈ solverPairs f comb ↔ e ∈ f.concurrentPairs ++ concurInComb comb := by
  simp only [solverPairs, Facts.concurrentPairs, List.mem_append, or_comm, or_left_comm]

section Run

variable {legal : Set (Wave PL)} {tr : Wave PL} {enter final : PL → Nat} {m : FinalNode}

/-- What the graph of a combination asks of a run that has its orders, beyond what the graph of
the facts asks. -/
structure Fits (f : Facts PL IID) (setIdx : Nat) (aSet : List PL) (comb : Comb PL)
    (enter final : PL → Nat) : Prop where
  /-- A marked location is left before one of its identifier that is ordered after it. -/
  left : ∀ p ∈ aSet, p ∈ f.cycCntGt1PerSet setIdx → ∀ y, (.enter p, y) ∈ orderEdges comb →
    f.iidMap p = f.iidMapTmp y → (final p : Int) < nodeCycle enter final y
  /-- A marked location that is entered together with another stays for more than one cycle. -/
  moves : ∀ e ∈ concurInComb comb, e.1 ≠ e.2 → ∀ p ∈ aSet, p ∈ f.cycCntGt1PerSet setIdx →
    e.1.loc = p ∨ e.2.loc = p → enter p < final p
  /-- Neighbours of one identifier follow each other without a gap. -/
  span : IidSpans f setIdx aSet .oneCycle (orderGraph f setIdx aSet comb) (nodeCycle enter final)

omit [DecidableEq PL] [DecidableEq IID] in
/-- Orders that hold, chosen on top of the facts. -/
theorem agrees_choose {val : Node PL → Int} {orders pairs : List (Node PL × Node PL)}
    (h : Agrees f setIdx aSet m orders pairs val) (hold : ∀ x ∈ comb, OrderHolds val x)
    (hleft : ∀ p ∈ aSet, p ∈ f.cycCntGt1PerSet setIdx → ∀ y, (.enter p, y) ∈ orderEdges comb →
      f.iidMap p = f.iidMapTmp y → val (.final p) < val y)
    (hmoves : ∀ e ∈ concurInComb comb, e.1 ≠ e.2 → ∀ p, f.StayEdge setIdx aSet m p →
      e.1.loc = p ∨ e.2.loc = p → val (.enter p) < val (.final p)) :
    Agrees f setIdx aSet m (orders ++ orderEdges comb) (pairs ++ concurInComb comb) val := by
  refine ⟨?_, h.stay_le, ?_, h.leaving_lt, ?_, ?_⟩
  · intro e he
    rcases List.mem_append.mp he with he | he
    · exact h.order_lt e he
    · exact orderEdges_lt hold he
  · intro p hp hmark y hy hiid
    rcases List.mem_append.mp hy with hy | hy
    · exact h.implied_lt p hp hmark y hy hiid
    · exact hleft p hp hmark y hy hiid
  · intro e he h1 h2
    rcases List.mem_append.mp he with he | he
    · exact h.pair_eq e he h1 h2
    · exact concurInComb_eq hold he
  · intro e he h1 h2 hne p hp hloc
    rcases List.mem_append.mp he with he | he
    · exact h.pair_moves e he h1 h2 hne p hp hloc
    · exact hmoves e he hne p hp hloc

omit [DecidableEq IID] in
theorem orders_inGraph (hin : ∀ x ∈ comb, f.InGraph setIdx aSet x.1.1 ∧ f.InGraph setIdx aSet x.1.2)
    (e : Node PL × Node PL) (he : e ∈ f.hbInside aSet ++ orderEdges comb) :
    f.InGraph setIdx aSet e.1 ∧ f.InGraph setIdx aSet e.2 := by
  rcases List.mem_append.mp he with he | he
  · exact CollectReEval.hbInside_inGraph e he
  · rcases mem_orderEdges.mp he with he | he
    · exact hin _ he
    · exact (hin _ he).symm

theorem mem_nodes_orderGraph (hnd : aSet.Nodup)
    (hin : ∀ x ∈ comb, f.InGraph setIdx aSet x.1.1 ∧ f.InGraph setIdx aSet x.1.2) {x : Node PL} :
    x ∈ (orderGraph f setIdx aSet comb).nodes ↔ f.InGraph setIdx aSet x :=
  (building_built f setIdx comb hnd).mem_nodes_finish (orders_inGraph hin)

/-- A run that fits a combination of its own orders is a solution of its constraints. -/
theorem setupSolver_extends (pkg : Package (Node PL)) (slv : Solver (Var (Node PL)))
    (hnd : aSet.Nodup) (hfacts : FactsTrue legal f) (hrun : SetRun legal f aSet tr enter final)
    (hadm : CollectReEval.Admissible f setIdx aSet enter final)
    (hin : ∀ x ∈ comb, f.InGraph setIdx aSet x.1.1 ∧ f.InGraph setIdx aSet x.1.2)
    (hold : ∀ x ∈ comb, OrderHolds (nodeCycle enter final) x)
    (hfits : Fits f setIdx aSet comb enter final) :
    (orderGraph f setIdx aSet comb).Acyclic ∧
      ∃ st, setupSolver pkg slv f setIdx aSet comb = some st ∧
        MySolver.Extends (nodeCycle enter final) st := by
  have hbuilt := building_built f setIdx comb hnd
  have hagrees := agrees_choose (CollectReEval.agrees_of_admissible hfacts hrun hadm) hold
    hfits.left fun e he hne p hp hloc => Int.ofNat_lt.mpr (hfits.moves e he hne p hp.2.1 hp.2.2 hloc)
  obtain ⟨red, hred, hsat, hweight⟩ := satisfied_of_agrees (solverPairs f comb) [] hbuilt
    (orders_inGraph hin) hagrees (fun p hp => hrun.stay hp.1) hfits.span
    (fun e he h1 h2 => hrun.whb_le hfacts (by simpa using he) h1 h2)
    (fun e he => hagrees.pair_eq e (mem_solverPairs.mp he))
  obtain ⟨st, hassert, _, hext⟩ := MySolver.extends_of_satisfied MySolver.fresh_start
    (MySolver.extends_start _) (fun e _ => hweight e) hsat
  refine ⟨?_, st, setupSolver_eq_some.mpr ⟨red, hred, hassert, MySolver.check_of_extends hext⟩, hext⟩
  exact (pkg.reduction_isSome _).mp (Option.isSome_iff_exists.mpr ⟨red, hred⟩)

end Run

end SynthLC.LeaveOrder
