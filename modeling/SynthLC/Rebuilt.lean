import SynthLC.Concurrent
import SynthLC.Followers

/-! The graph that `xSummarize` rebuilds for an entering combination with fixed leaving orders,
against the one in which `xCollectReEvalLeaveOrder` found them fixed. -/
namespace SynthLC.Summarize

open Sva Graph Smt Loop

variable {PL IID : Type} [DecidableEq PL] [DecidableEq IID]

/-- A relation handed on at both ends along simultaneous pairs. -/
def HandedOn (ps : List (Node PL × Node PL)) (R : Node PL → Node PL → Prop) (u v : Node PL) :
    Prop :=
  ∃ a b, R a b ∧ u ∈ handOn ps a ∧ v ∈ handOn ps b

section Edges

variable (f : Facts PL IID) (setIdx : Nat) (aSet : List PL) (comb : Comb PL)

/-- The nodes of a set, whatever the graph. -/
def setNodes : List (Node PL) :=
  aSet.map .enter ++ (aSet.filter fun p => decide (p ∈ f.cycCntGt1PerSet setIdx)).map .final

/-- The simultaneous pairs both scripts go through, as far as they are about the set. -/
def setPairs : List (Node PL × Node PL) :=
  pairsIn (setNodes f setIdx aSet) (f.concurrentPairs ++ concurInComb comb)

/-- What the rebuilt graph starts from: only a proven order implies that a location is left
before the next one of its identifier. -/
inductive Direct : Node PL → Node PL → Prop where
  | order {u v : Node PL} : (u, v) ∈ f.hbInside aSet ++ orderEdges comb → Direct u v
  | implied {p : PL} {y : Node PL} : f.Weighted setIdx aSet p → (.enter p, y) ∈ f.hbInside aSet →
      f.iidMap p = f.iidMapTmp y → Direct (.final p) y
  | leaving {u v : Node PL} : (u, v) ∈ f.leavingHbProvenResPairs → f.InGraph setIdx aSet u →
      f.InGraph setIdx aSet v → Direct u v

/-- What the graph of `xCollectReEvalLeaveOrder` has on top of it: the stays, and what the chosen
orders imply. -/
inductive LeaveOnly : Node PL → Node PL → Prop where
  | stay {p : PL} : f.Weighted setIdx aSet p → LeaveOnly (.enter p) (.final p)
  | implied {p : PL} {y : Node PL} : f.Weighted setIdx aSet p → (.enter p, y) ∈ orderEdges comb →
      f.iidMap p = f.iidMapTmp y → LeaveOnly (.final p) y

/-- The steps of the rebuilt graph: stays are added at the end and not handed on. -/
def Rebuilt (u v : Node PL) : Prop :=
  HandedOn (setPairs f setIdx aSet comb) (Direct f setIdx aSet comb) u v ∨
    StayPair (f.Weighted setIdx aSet) u v

end Edges

variable {f : Facts PL IID} {setIdx : Nat} {aSet : List PL} {comb : Comb PL} {u v x : Node PL}

omit [DecidableEq IID] in
theorem mem_setNodes : x ∈ setNodes f setIdx aSet ↔ f.InGraph setIdx aSet x := by
  cases x with
  | enter p => simp [setNodes, Facts.InGraph]
  | final p => simp [setNodes, Facts.InGraph]

omit [DecidableEq IID] in
/-- The edges of a finished graph are those it had before the merging, handed on. -/
theorem mem_edges_finish {b : Building PL} {R : Node PL → Node PL → Prop}
    (hnodes : ∀ x, x ∈ (withLeaving f b).nodes ↔ f.InGraph setIdx aSet x)
    (hedges : ∀ u v, (u, v) ∈ (withLeaving f b).edges ↔ R u v) :
    (u, v) ∈ (finish f b (f.concurrentPairs ++ concurInComb comb)).edges ↔
      HandedOn (setPairs f setIdx aSet comb) R u v := by
  have hpairs : setPairs f setIdx aSet comb =
      pairsIn (withLeaving f b).nodes (f.concurrentPairs ++ concurInComb comb) :=
    pairsIn_congr fun x => by rw [mem_setNodes, hnodes]
  rw [finish, mem_merges_iff, HandedOn, hpairs]
  simp only [hedges]

section Graphs

variable (hnd : aSet.Nodup)
  (hin : ∀ x ∈ comb, f.InGraph setIdx aSet x.1.1 ∧ f.InGraph setIdx aSet x.1.2)

include hnd hin

theorem mem_nodes_fixed : x ∈ ((fixedBuilding f setIdx aSet comb).dg.addEdges
    (fixedBuilding f setIdx aSet comb).implied).nodes ↔ f.InGraph setIdx aSet x := by
  have hbuilt : Built f setIdx .node (f.hbInside aSet) aSet aSet
      (twoLoops f setIdx .node (f.hbInside aSet) aSet) := built_twoLoops hnd
  have hnode (x : Node PL) := hbuilt.mem_nodes (x := x) CollectReEval.hbInside_inGraph
  have hchosen (x : Node PL) :
      x ∈ (fixedBuilding f setIdx aSet comb).dg.nodes ↔ f.InGraph setIdx aSet x := by
    rw [fixedBuilding, DiGraph.mem_nodes_addEdges_of_subset, hnode]
    intro e he
    rw [hnode, hnode]
    exact LeaveOrder.orders_inGraph hin e (List.mem_append_right _ he)
  rw [DiGraph.mem_nodes_addEdges_of_subset, hchosen]
  intro e he
  obtain ⟨p, hp, hmark, y, hy, _, rfl⟩ := (hbuilt.implied e).mp he
  rw [hchosen, hchosen]
  exact ⟨⟨hp, hmark⟩, (CollectReEval.hbInside_inGraph _ hy).2⟩

theorem mem_withLeaving_fixed :
    (u, v) ∈ (withLeaving f (fixedBuilding f setIdx aSet comb)).edges ↔
      Direct f setIdx aSet comb u v := by
  have hbuilt : Built f setIdx .node (f.hbInside aSet) aSet aSet
      (twoLoops f setIdx .node (f.hbInside aSet) aSet) := built_twoLoops hnd
  have hedges : (u, v) ∈ (fixedBuilding f setIdx aSet comb).dg.edges ↔
      (u, v) ∈ f.hbInside aSet ++ orderEdges comb := by
    rw [fixedBuilding, DiGraph.mem_edges_addEdges, hbuilt.edges, List.mem_append]
    simp
  have himplied : (u, v) ∈ (fixedBuilding f setIdx aSet comb).implied ↔ _ := hbuilt.implied (u, v)
  rw [withLeaving, mem_edges_leavings, DiGraph.mem_edges_addEdges, hedges, himplied,
    mem_nodes_fixed hnd hin, mem_nodes_fixed hnd hin]
  constructor
  · intro h
    rcases h with (h | ⟨p, hp, hmark, y, hy, hiid, heq⟩) | ⟨h, hu, hv⟩
    · exact .order h
    · obtain ⟨rfl, rfl⟩ := Prod.mk.inj heq
      exact .implied ⟨hp, hmark⟩ hy hiid
    · exact .leaving h hu hv
  · intro h
    cases h with
    | order h => exact .inl (.inl h)
    | implied hp hy hiid => exact .inl (.inr ⟨_, hp.1, hp.2, _, hy, hiid, rfl⟩)
    | leaving h hu hv => exact .inr ⟨h, hu, hv⟩

theorem mem_withLeaving_leaveOrder :
    (u, v) ∈ (withLeaving f (LeaveOrder.building f setIdx aSet comb)).edges ↔
      Direct f setIdx aSet comb u v ∨ LeaveOnly f setIdx aSet comb u v := by
  have hbuilt := LeaveOrder.building_built f setIdx comb hnd
  rw [hbuilt.mem_edges_withLeaving (LeaveOrder.orders_inGraph hin)]
  constructor
  · intro h
    rcases h with h | ⟨p, hp, heq⟩ | ⟨p, hp, hmark, y, hy, hiid, heq⟩ | ⟨h, hu, hv⟩
    · exact .inl (.order h)
    · obtain ⟨rfl, rfl⟩ := Prod.mk.inj heq
      exact .inr (.stay hp.2)
    · obtain ⟨rfl, rfl⟩ := Prod.mk.inj heq
      rcases List.mem_append.mp hy with hy | hy
      · exact .inl (.implied ⟨hp, hmark⟩ hy hiid)
      · exact .inr (.implied ⟨hp, hmark⟩ hy hiid)
    · exact .inl (.leaving h hu hv)
  · intro h
    rcases h with h | h
    · cases h with
      | order h => exact .inl h
      | implied hp hy hiid =>
        exact .inr (.inr (.inl ⟨_, hp.1, hp.2, _, List.mem_append_left _ hy, hiid, rfl⟩))
      | leaving h hu hv => exact .inr (.inr (.inr ⟨h, hu, hv⟩))
    · cases h with
      | stay hp => exact .inr (.inl ⟨_, ⟨rfl, hp⟩, rfl⟩)
      | implied hp hy hiid =>
        exact .inr (.inr (.inl ⟨_, hp.1, hp.2, _, List.mem_append_right _ hy, hiid, rfl⟩))

theorem mem_nodes_fixedGraph :
    x ∈ (fixedGraph f setIdx aSet comb).nodes ↔ f.InGraph setIdx aSet x := by
  rw [fixedGraph, finish, mem_nodes_merges, withLeaving, mem_nodes_leavings,
    mem_nodes_fixed hnd hin]

theorem mem_edges_fixedGraph : (u, v) ∈ (fixedGraph f setIdx aSet comb).edges ↔
    HandedOn (setPairs f setIdx aSet comb) (Direct f setIdx aSet comb) u v := by
  refine mem_edges_finish (fun x => ?_) fun u v => mem_withLeaving_fixed hnd hin
  rw [withLeaving, mem_nodes_leavings, mem_nodes_fixed hnd hin]

theorem mem_edges_leaveOrder : (u, v) ∈ (LeaveOrder.orderGraph f setIdx aSet comb).edges ↔
    HandedOn (setPairs f setIdx aSet comb) (Direct f setIdx aSet comb) u v ∨
      HandedOn (setPairs f setIdx aSet comb) (LeaveOnly f setIdx aSet comb) u v := by
  have hbuilt := LeaveOrder.building_built f setIdx comb hnd
  have hedges : (u, v) ∈ (LeaveOrder.orderGraph f setIdx aSet comb).edges ↔
      HandedOn (setPairs f setIdx aSet comb)
        (fun u v => Direct f setIdx aSet comb u v ∨ LeaveOnly f setIdx aSet comb u v) u v :=
    mem_edges_finish (fun x => hbuilt.mem_nodes_withLeaving (LeaveOrder.orders_inGraph hin))
      (fun u v => mem_withLeaving_leaveOrder hnd hin)
  rw [hedges]
  simp only [HandedOn, or_and_right, exists_or]

theorem path_fixed_iff :
    (withStays (fixedGraph f setIdx aSet comb)).Path u v ↔
      Relation.TransGen (Rebuilt f setIdx aSet comb) u v := by
  have hstep (u v : Node PL) : (u, v) ∈ (withStays (fixedGraph f setIdx aSet comb)).edges ↔
      Rebuilt f setIdx aSet comb u v := by
    rw [mem_edges_withStays, mem_edges_fixedGraph hnd hin]
    apply or_congr_right
    simp only [mem_nodes_fixedGraph hnd hin, Prod.mk.injEq]
    constructor
    · intro h
      obtain ⟨p, _, hfinal, hu, hv⟩ := h
      exact ⟨p, hfinal, hu, hv⟩
    · intro h
      obtain ⟨p, hp, hu, hv⟩ := h
      exact ⟨p, hp.1, hp, hu, hv⟩
  rw [DiGraph.Path]
  simp only [hstep]

/-- Nothing is rebuilt that was not there before. -/
theorem Rebuilt.mem_leaveOrder (h : Rebuilt f setIdx aSet comb u v) :
    (u, v) ∈ (LeaveOrder.orderGraph f setIdx aSet comb).edges := by
  rcases h with h | ⟨p, hp, rfl, rfl⟩
  · exact (mem_edges_leaveOrder hnd hin).mpr (.inl h)
  · exact mem_merges_of_mem ((mem_withLeaving_leaveOrder hnd hin).mpr (.inr (.stay hp)))

theorem fixedGraph_acyclic (h : (LeaveOrder.orderGraph f setIdx aSet comb).Acyclic) :
    (fixedGraph f setIdx aSet comb).Acyclic := by
  intro n hn
  refine h n (Relation.TransGen.mono (fun u v he => ?_) _ _ hn)
  exact (mem_edges_leaveOrder hnd hin).mpr (.inl ((mem_edges_fixedGraph hnd hin).mp he))

end Graphs

/-- With its stays, the graph `xSummarize` rebuilds has the closure of the one in which no leaving
order was open exactly if it already connects what the edges it leaves out are handed on to. -/
theorem rebuilt_closure_iff (pkg : Package (Node PL)) (slv : Solver (Var (Node PL)))
    (f : Facts PL IID) (setIdx : Nat) (aSet : List PL) (hnd : aSet.Nodup) (todo : TodoFile PL)
    (hgen : CollectReEval.gen pkg slv f setIdx aSet = some todo) (csv : Csv PL)
    (combs : List (Comb PL)) (hcombs : LeaveOrder.combEdges todo csv = some combs) (comb : Comb PL)
    (hcomb : comb ∈ combs) (hfinal : LeaveOrder.gen pkg slv f setIdx aSet comb = some (some [])) :
    ∃ red, pkg.transitiveReduction (fixedGraph f setIdx aSet comb) = some red ∧
      (∀ n, n ∈ (withStays red).nodes ↔ n ∈ (LeaveOrder.orderGraph f setIdx aSet comb).nodes) ∧
      ((∀ u v, (withStays red).Path u v ↔ (LeaveOrder.orderGraph f setIdx aSet comb).Path u v) ↔
        ∀ u v, HandedOn (setPairs f setIdx aSet comb) (LeaveOnly f setIdx aSet comb) u v →
          Relation.TransGen (Rebuilt f setIdx aSet comb) u v) := by
  obtain ⟨d, hd, rfl⟩ := Option.map_eq_some_iff.mp hcombs
  have hin := enter_inGraph hgen hd hcomb
  have hacyclic := fixedGraph_acyclic hnd hin (LeaveOrder.gen_eq_some.mp hfinal).1
  obtain ⟨red, hred⟩ := Option.isSome_iff_exists.mp ((pkg.reduction_isSome _).mpr hacyclic)
  have hpath (u v : Node PL) : (withStays red).Path u v ↔
      Relation.TransGen (Rebuilt f setIdx aSet comb) u v := by
    rw [path_withStays_reduction hred, path_fixed_iff hnd hin]
  refine ⟨red, hred, ?_, ?_⟩
  · intro n
    rw [nodes_withStays, pkg.reduction_nodes _ _ hred, mem_nodes_fixedGraph hnd hin,
      LeaveOrder.mem_nodes_orderGraph hnd hin]
  · constructor
    · intro hsame u v h
      rw [← hpath, hsame]
      exact .single ((mem_edges_leaveOrder hnd hin).mpr (.inr h))
    · intro hconn u v
      rw [hpath]
      constructor
      · intro h
        exact Relation.TransGen.mono (fun u v => Rebuilt.mem_leaveOrder hnd hin) _ _ h
      · intro h
        refine Relation.TransGen.closed (fun u v he => ?_) _ _ h
        rcases (mem_edges_leaveOrder hnd hin).mp he with he | he
        · exact .single (.inl he)
        · exact hconn u v he

/-- Locations of one identifier are not asked about again. -/
theorem pairsFinal_eq_nil {pkg : Package (Node PL)} {slv : Solver (Var (Node PL))}
    {st : SolverState (Node PL)} (h : ∀ e ∈ f.edge, f.iidMap e.1 = f.iidMap e.2) :
    LeaveOrder.pairsFinal pkg slv f setIdx aSet comb st = [] := by
  have hedges : f.edge.filter (fun e => decide (e.1 ∈ aSet) && decide (e.2 ∈ aSet) &&
      !decide (f.iidMap e.1 = f.iidMap e.2)) = [] := by
    rw [List.filter_eq_nil_iff]
    intro e he
    simp [h e he]
  rw [LeaveOrder.pairsFinal, hedges]
  rfl

/-- Two locations of one identifier in an order that is not proven, one of them marked. -/
def openFacts (marked : Fin 2) : Facts (Fin 2) Unit :=
  { CollectReEval.pairFacts 2 [marked] with hbEdge := [] }

theorem open_edges : ∀ marked, (CollectReEval.orderGraph (openFacts marked) 0 [0, 1]).edges =
    [(.enter marked, .final marked)] := by
  decide

theorem open_closure : ∀ marked, ¬(((.enter 0, .enter 1) : Node (Fin 2) × Node (Fin 2)) ∈
    (Warshall.package.transitiveClosure
      (CollectReEval.orderGraph (openFacts marked) 0 [0, 1])).edges ∨
    (.enter 1, .enter 0) ∈ (Warshall.package.transitiveClosure
      (CollectReEval.orderGraph (openFacts marked) 0 [0, 1])).edges) := by
  decide +kernel

section Open

variable {marked : Fin 2}

theorem open_admissible (enter final : Fin 2 → Nat) :
    CollectReEval.Admissible (openFacts marked) 0 [0, 1] enter final := by
  refine ⟨by simp [openFacts, CollectReEval.pairFacts],
    by simp [openFacts, CollectReEval.pairFacts],
    by simp [openFacts, CollectReEval.pairFacts, Facts.concurrentPairs], by simp [openFacts], ?_⟩
  intro u v hred hstay _
  have hmem := hred.1
  rw [open_edges] at hmem
  obtain ⟨rfl, rfl⟩ := Prod.mk.inj (List.mem_singleton.mp hmem)
  have hset : ∀ p : Fin 2, p ∈ [0, 1] := by decide
  exact absurd ⟨marked, ⟨hset _, by simp [openFacts, CollectReEval.pairFacts]⟩, rfl, rfl⟩ hstay

theorem open_factsTrue : FactsTrue Set.univ (openFacts marked) := by
  refine ⟨?_, by simp [openFacts, CollectReEval.pairFacts],
    by simp [openFacts, CollectReEval.pairFacts], by simp [openFacts, CollectReEval.pairFacts]⟩
  intro tr _
  exact ⟨by simp [Facts.enterOutput, openFacts],
    by simp [Facts.enterOutput, openFacts, CollectReEval.pairFacts],
    by simp [Facts.enterOutput, openFacts, CollectReEval.pairFacts]⟩

theorem open_setRun {enter final : Fin 2 → Nat} (hle : ∀ p, enter p ≤ final p)
    (hmax : ∀ p, final p < enter p + 2) : SetRun Set.univ (openFacts marked) [0, 1]
      (ofSpans (CollectReEval.spans enter final)) enter final :=
  ⟨Set.mem_univ _, fun p _ => CollectReEval.spans_visit hle p, fun p _ => hmax p⟩

theorem open_enterTodo (marked : Fin 2) (slv : Solver (Var (Node (Fin 2)))) :
    CollectReEval.gen Warshall.package slv (openFacts marked) 0 [0, 1] =
      some [((.enter 0, .enter 1), [.gt, .eq])] := by
  have hrun {enter final : Fin 2 → Nat} (hle : ∀ p, enter p ≤ final p)
      (hmax : ∀ p, final p < enter p + 2) :
      CollectReEval.Allowed Warshall.package slv (openFacts marked) 0 [0, 1] enter final :=
    CollectReEval.allowed_of_admissible (by decide) open_factsTrue (open_setRun hle hmax)
      (open_admissible _ _)
  have hbefore : CollectReEval.Allowed Warshall.package slv (openFacts marked) 0 [0, 1] ![1, 3]
      ![2, 3] := hrun (by decide) (by decide)
  have htogether : CollectReEval.Allowed Warshall.package slv (openFacts marked) 0 [0, 1] ![1, 1]
      ![1, 1] := hrun (by decide) (by decide)
  obtain ⟨st, hst, hext, _⟩ := hbefore
  have hask : (openFacts marked).toAsk slv (Warshall.package.transitiveClosure
      (CollectReEval.orderGraph (openFacts marked) 0 [0, 1])) st (.enter 0, .enter 1) = true :=
    Facts.toAsk_of_extends _ (open_closure marked)
      (by simp [openFacts, CollectReEval.pairFacts]) hext (by decide) (htogether.extends hst)
      (by decide)
  have hadd : ∀ marked, List.foldl (openFacts marked).addPair [] [(.enter 0, .enter 1)] =
      [((.enter 0, .enter 1), [.gt, .eq])] := by decide +kernel
  rw [CollectReEval.gen_eq_some [(.enter 0, .enter 1)] hst rfl (by simpa using hask), hadd]

/-- With a run that fits the chosen order, nothing is left to ask. -/
theorem open_finalTodo (slv : Solver (Var (Node (Fin 2)))) {comb : Comb (Fin 2)}
    {enter final : Fin 2 → Nat} (hle : ∀ p, enter p ≤ final p) (hmax : ∀ p, final p < enter p + 2)
    (hin : ∀ x ∈ comb, (openFacts marked).InGraph 0 [0, 1] x.1.1 ∧
      (openFacts marked).InGraph 0 [0, 1] x.1.2)
    (hold : ∀ x ∈ comb, OrderHolds (nodeCycle enter final) x)
    (hfits : LeaveOrder.Fits (openFacts marked) 0 [0, 1] comb enter final) :
    LeaveOrder.gen Warshall.package slv (openFacts marked) 0 [0, 1] comb = some (some []) := by
  obtain ⟨hacyclic, st, hst, _⟩ := LeaveOrder.setupSolver_extends Warshall.package slv (by decide)
    open_factsTrue (open_setRun hle hmax) (open_admissible _ _) hin hold hfits
  exact LeaveOrder.gen_eq_some.mpr ⟨hacyclic, st, hst, pairsFinal_eq_nil (by simp)⟩

end Open

theorem open_combEdges : LeaveOrder.combEdges [((.enter 0, .enter 1), [.gt, .eq])]
    (fun _ => .covered) =
      some [[((.enter (0 : Fin 2), .enter 1), .gt)], [((.enter 0, .enter 1), .eq)]] := by
  decide

theorem stay_edges : (LeaveOrder.orderGraph (openFacts 1) 0 [0, 1]
    [((.enter 0, .enter 1), .gt)]).edges = [(.enter 0, .enter 1), (.enter 1, .final 1)] := by
  decide

theorem stay_finalTodo (slv : Solver (Var (Node (Fin 2)))) :
    LeaveOrder.gen Warshall.package slv (openFacts 1) 0 [0, 1] [((.enter 0, .enter 1), .gt)] =
      some (some []) := by
  have hfits : LeaveOrder.Fits (openFacts 1) 0 [0, 1] [((.enter 0, .enter 1), .gt)] ![1, 2]
      ![1, 3] := by
    refine ⟨?_, by simp [concurInComb], ?_⟩
    · intro p _ hp y hy _
      obtain rfl : p = 1 := by simpa [openFacts, CollectReEval.pairFacts] using hp
      simp [orderEdges, orderEdge] at hy
    · intro u v hred hstay _
      have hmem := hred.1
      simp only [stay_edges, List.mem_cons, List.not_mem_nil, or_false, Prod.mk.injEq] at hmem
      rcases hmem with ⟨rfl, rfl⟩ | ⟨rfl, rfl⟩
      · decide
      · exact absurd ⟨1, ⟨by simp, by simp [openFacts, CollectReEval.pairFacts]⟩, rfl, rfl⟩ hstay
  exact open_finalTodo slv (by decide) (by decide) (by simp [Facts.InGraph]) (by decide) hfits

/-- With the first location chosen before the second, which stays, the stay is all that is left
out, and it is added again. -/
theorem stay_closure :
    CollectReEval.gen Warshall.package Solver.classical (openFacts 1) 0 [0, 1] =
      some [((.enter 0, .enter 1), [.gt, .eq])] ∧
    LeaveOrder.gen Warshall.package Solver.classical (openFacts 1) 0 [0, 1]
      [((.enter 0, .enter 1), .gt)] = some (some []) ∧
    ∃ red, Warshall.package.transitiveReduction
        (fixedGraph (openFacts 1) 0 [0, 1] [((.enter 0, .enter 1), .gt)]) = some red ∧
      (∀ u v, (withStays red).Path u v ↔
        (LeaveOrder.orderGraph (openFacts 1) 0 [0, 1] [((.enter 0, .enter 1), .gt)]).Path u v) ∧
      (withStays red).Path (.enter 0) (.final 1) := by
  have henter := open_enterTodo 1 Solver.classical
  have hfinal := stay_finalTodo Solver.classical
  obtain ⟨red, hred, _, hiff⟩ := rebuilt_closure_iff _ _ (openFacts 1) 0 [0, 1] (by decide) _ henter
    _ _ open_combEdges [((.enter 0, .enter 1), .gt)] (by simp) hfinal
  have hpath : ∀ u v, (withStays red).Path u v ↔
      (LeaveOrder.orderGraph (openFacts 1) 0 [0, 1] [((.enter 0, .enter 1), .gt)]).Path u v := by
    rw [hiff]
    intro u v h
    obtain ⟨a, b, hab, hu, hv⟩ := h
    have hpairs : setPairs (openFacts 1) 0 [0, 1] [((.enter 0, .enter 1), .gt)] = [] := rfl
    rw [hpairs] at hu hv
    obtain rfl := List.mem_singleton.mp hu
    obtain rfl := List.mem_singleton.mp hv
    cases hab with
    | stay hp => exact .single (.inr ⟨_, hp, rfl, rfl⟩)
    | @implied p y hp hy _ =>
      obtain ⟨rfl, _⟩ : p = 0 ∧ v = .enter 1 := by simpa [orderEdges, orderEdge] using hy
      exact absurd hp.2 (by decide)
  refine ⟨henter, hfinal, red, hred, hpath, (hpath _ _).mpr ?_⟩
  have hchosen : (LeaveOrder.orderGraph (openFacts 1) 0 [0, 1] [((.enter 0, .enter 1), .gt)]).Path
      (.enter 0) (.enter 1) := .single (by simp [stay_edges])
  exact hchosen.tail (by simp [stay_edges])

/-- The same two locations with the first marked. -/
def askedFacts : Facts (Fin 2) Unit := openFacts 0

theorem asked_finalTodo (slv : Solver (Var (Node (Fin 2)))) :
    LeaveOrder.gen Warshall.package slv askedFacts 0 [0, 1] [((.enter 0, .enter 1), .gt)] =
      some (some []) := by
  have hedges : (LeaveOrder.orderGraph askedFacts 0 [0, 1] [((.enter 0, .enter 1), .gt)]).edges =
      [(.enter 0, .enter 1), (.enter 0, .final 0), (.final 0, .enter 1)] := by decide
  have hfits : LeaveOrder.Fits askedFacts 0 [0, 1] [((.enter 0, .enter 1), .gt)] ![1, 3]
      ![2, 3] := by
    refine ⟨?_, by simp [concurInComb], CollectReEval.pair_iidSpans (by simp [hedges]) ?_⟩
    · intro p _ _ y hy _
      obtain ⟨rfl, rfl⟩ : p = 0 ∧ y = .enter 1 := by simpa [orderEdges, orderEdge] using hy
      decide
    · simp [askedFacts, openFacts, CollectReEval.pairFacts]
  exact open_finalTodo slv (by decide) (by decide) (by simp [Facts.InGraph]) (by decide) hfits

/-- Where it is chosen, the first location is left before the second is entered, but not in the
rebuilt graph. -/
theorem asked_closure_differs :
    CollectReEval.gen Warshall.package Solver.classical askedFacts 0 [0, 1] =
      some [((.enter 0, .enter 1), [.gt, .eq])] ∧
    LeaveOrder.combEdges [((.enter 0, .enter 1), [.gt, .eq])] (fun _ => .covered) =
      some [[((.enter (0 : Fin 2), .enter 1), .gt)], [((.enter 0, .enter 1), .eq)]] ∧
    LeaveOrder.gen Warshall.package Solver.classical askedFacts 0 [0, 1]
      [((.enter 0, .enter 1), .gt)] = some (some []) ∧
    ∃ red, Warshall.package.transitiveReduction
        (fixedGraph askedFacts 0 [0, 1] [((.enter 0, .enter 1), .gt)]) = some red ∧
      (LeaveOrder.orderGraph askedFacts 0 [0, 1] [((.enter 0, .enter 1), .gt)]).Path
        (.final 0) (.enter 1) ∧
      ¬(withStays red).Path (.final 0) (.enter 1) := by
  have hedges : (fixedGraph askedFacts 0 [0, 1] [((.enter 0, .enter 1), .gt)]).edges =
      [(.enter 0, .enter 1)] := by decide
  refine ⟨open_enterTodo _ _, open_combEdges, asked_finalTodo _, _,
    Warshall.transitiveReduction_eq (by decide +kernel), .single (by decide), ?_⟩
  intro hpath
  obtain ⟨w, hw, _⟩ := Relation.TransGen.head'_iff.mp hpath
  rcases mem_edges_withStays.mp hw with hw | ⟨p, _, _, heq⟩
  · have hedge := ((Warshall.mem_reduce _).mp hw).1
    rw [hedges] at hedge
    cases List.mem_singleton.mp hedge
  · cases heq

end SynthLC.Summarize
