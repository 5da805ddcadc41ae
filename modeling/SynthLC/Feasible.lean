import SynthLC.Difference
import SynthLC.Pipeline

/-! Whether `xCollectReEvalLeaveOrder` gets through the entering combinations of a set. A cyclic
combination is skipped, but the constraints of the others are asserted to be satisfiable; they
are a system of difference bounds between the cycles of the nodes. -/
namespace SynthLC.LeaveOrder

open Sva Graph Smt Loop Difference

variable {PL IID : Type} [DecidableEq PL] [DecidableEq IID]

/-- What the facts and orders of a combination ask for: at least `d` cycles from one node to
another. -/
inductive Requires (f : Facts PL IID) (setIdx : Nat) (aSet : List PL) (comb : Comb PL) :
    Node PL → Node PL → Int → Prop
  /-- An edge of the reduced graph takes a cycle, ... -/
  | order {u v : Node PL} (hred : (orderGraph f setIdx aSet comb).Reduced u v)
      (hstay : ¬StayPair (f.Weighted setIdx aSet) u v) : Requires f setIdx aSet comb u v 1
  /-- ... and between nodes of one identifier no more than that. -/
  | next {u v : Node PL} (hred : (orderGraph f setIdx aSet comb).Reduced u v)
      (hstay : ¬StayPair (f.Weighted setIdx aSet) u v) (hiid : f.iidMapTmp u = f.iidMapTmp v) :
      Requires f setIdx aSet comb v u (-1)
  /-- A stay may be over at once, ... -/
  | stay {p : PL} (hp : f.Weighted setIdx aSet p)
      (hred : (orderGraph f setIdx aSet comb).Reduced (.enter p) (.final p)) :
      Requires f setIdx aSet comb (.enter p) (.final p) 0
  /-- ... and has a bound. -/
  | bound {p : PL} (hp : f.Weighted setIdx aSet p)
      (hred : (orderGraph f setIdx aSet comb).Reduced (.enter p) (.final p)) :
      Requires f setIdx aSet comb (.final p) (.enter p) (1 - f.maxCycPerPl p)
  | weak {e : Node PL × Node PL} (he : e ∈ f.whbEdge.map enterPair)
      (h1 : e.1 ∈ (orderGraph f setIdx aSet comb).nodes)
      (h2 : e.2 ∈ (orderGraph f setIdx aSet comb).nodes) : Requires f setIdx aSet comb e.1 e.2 0
  | together {e : Node PL × Node PL} (he : e ∈ f.concurrentPairs ++ concurInComb comb)
      (h1 : e.1 ∈ (orderGraph f setIdx aSet comb).nodes)
      (h2 : e.2 ∈ (orderGraph f setIdx aSet comb).nodes) : Requires f setIdx aSet comb e.1 e.2 0
  | together' {e : Node PL × Node PL} (he : e ∈ f.concurrentPairs ++ concurInComb comb)
      (h1 : e.1 ∈ (orderGraph f setIdx aSet comb).nodes)
      (h2 : e.2 ∈ (orderGraph f setIdx aSet comb).nodes) : Requires f setIdx aSet comb e.2 e.1 0

section Solve

variable {pkg : Package (Node PL)} {slv : Solver (Var (Node PL))} {f : Facts PL IID}
  {setIdx : Nat} {aSet : List PL} {comb : Comb PL} {tr : DiGraph (Node PL)} {val : Node PL → Int}

theorem building_implied_iid (u v : Node PL)
    (h : (u, v) ∈ (building f setIdx aSet comb).implied) : f.iidMapTmp u = f.iidMapTmp v :=
  twoLoops_implied_iid u v h

/-- An edge of the reduction and its bounds. -/
theorem edgeHolds_of_solves (h : Solves (Requires f setIdx aSet comb) val) {u v : Node PL}
    (hred : (orderGraph f setIdx aSet comb).Reduced u v) :
    (f.solver setIdx aSet tr (building f setIdx aSet comb).implied (solverPairs f comb)
      []).EdgeHolds .oneCycle val (u, v) := by
  by_cases hstay : StayPair (f.Weighted setIdx aSet) u v
  · obtain ⟨p, hp, rfl, rfl⟩ := hstay
    have hle := h _ _ _ (.stay hp hred)
    have hbound := h _ _ _ (.bound hp hred)
    rw [edgeHolds_stay hp]
    omega
  · have hlt := h _ _ _ (.order hred hstay)
    rw [edgeHolds_iid hstay (building_implied_iid u v)]
    split_ifs with hiid
    · have hnext := h _ _ _ (.next hred hstay hiid)
      change val u + 1 = val v
      omega
    · omega

/-- The constraints of a combination are its bounds. -/
theorem satisfied_iff_solves
    (htr : pkg.transitiveReduction (orderGraph f setIdx aSet comb) = some tr) :
    (f.solver setIdx aSet tr (building f setIdx aSet comb).implied (solverPairs f comb)
      []).Satisfied .oneCycle val ↔ Solves (Requires f setIdx aSet comb) val := by
  have hnodes := pkg.reduction_nodes _ _ htr
  have hedges := pkg.reduction_edges _ _ htr
  constructor
  · intro hsat u v d h
    cases h with
    | order hred hstay =>
      have hedge := hsat.edges _ ((hedges _ _).mpr hred)
      rw [edgeHolds_iid hstay (building_implied_iid _ _)] at hedge
      split_ifs at hedge
      · have hsucc : val u + 1 = val v := hedge
        omega
      · omega
    | next hred hstay hiid =>
      have hedge := hsat.edges _ ((hedges _ _).mpr hred)
      rw [edgeHolds_iid hstay (building_implied_iid _ _), if_pos hiid] at hedge
      have hsucc : val v + 1 = val u := hedge
      omega
    | stay hp hred =>
      have hedge := (edgeHolds_stay hp).mp (hsat.edges _ ((hedges _ _).mpr hred))
      omega
    | bound hp hred =>
      have hedge := (edgeHolds_stay hp).mp (hsat.edges _ ((hedges _ _).mpr hred))
      omega
    | weak he h1 h2 =>
      rw [← hnodes] at h1 h2
      have hle := hsat.whb _ (List.mem_append_left _ he) h1 h2
      omega
    | together he h1 h2 =>
      rw [← hnodes] at h1 h2
      have heq := hsat.concurrent _ (mem_solverPairs.mpr he) h1 h2
      omega
    | together' he h1 h2 =>
      rw [← hnodes] at h1 h2
      have heq := hsat.concurrent _ (mem_solverPairs.mpr he) h1 h2
      omega
  · intro h
    refine ⟨fun e he => edgeHolds_of_solves h ((hedges _ _).mp he), ?_, ?_⟩
    · intro e he h1 h2
      have hnode : e ∈ f.whbEdge.map enterPair := by simpa [Facts.solver] using he
      have hle := h _ _ _ (.weak hnode (hnodes ▸ h1) (hnodes ▸ h2))
      omega
    · intro e he h1 h2
      have hmem := mem_solverPairs.mp he
      have hle := h _ _ _ (.together hmem (hnodes ▸ h1) (hnodes ▸ h2))
      have hge := h _ _ _ (.together' hmem (hnodes ▸ h1) (hnodes ▸ h2))
      omega

/-- The nodes of the graph and a few amounts are all that the bounds speak of. -/
theorem requires_finite {u v : Node PL} {d : Int} (h : Requires f setIdx aSet comb u v d) :
    u ∈ (orderGraph f setIdx aSet comb).nodes ∧ v ∈ (orderGraph f setIdx aSet comb).nodes ∧
      d ∈ [1, -1, 0] ++ aSet.map fun p => (1 : Int) - f.maxCycPerPl p := by
  cases h with
  | order hred _ => exact ⟨(DiGraph.mem_of_edge _ _ hred.1).1, (DiGraph.mem_of_edge _ _ hred.1).2,
      by simp⟩
  | next hred _ _ => exact ⟨(DiGraph.mem_of_edge _ _ hred.1).2, (DiGraph.mem_of_edge _ _ hred.1).1,
      by simp⟩
  | stay _ hred => exact ⟨(DiGraph.mem_of_edge _ _ hred.1).1, (DiGraph.mem_of_edge _ _ hred.1).2,
      by simp⟩
  | bound hp hred => exact ⟨(DiGraph.mem_of_edge _ _ hred.1).2, (DiGraph.mem_of_edge _ _ hred.1).1,
      List.mem_append_right _ (List.mem_map.mpr ⟨_, hp.1, rfl⟩)⟩
  | weak _ h1 h2 => exact ⟨h1, h2, by simp⟩
  | together _ h1 h2 => exact ⟨h1, h2, by simp⟩
  | together' _ h1 h2 => exact ⟨h2, h1, by simp⟩

/-- The assertion in `add_constraints` holds for an acyclic combination whose bounds no closed
walk exceeds. -/
theorem exists_setupSolver_iff : (∃ st, setupSolver pkg slv f setIdx aSet comb = some st) ↔
    (orderGraph f setIdx aSet comb).Acyclic ∧ Gainless (Requires f setIdx aSet comb) := by
  rw [← exists_solves_iff fun _ _ _ => requires_finite]
  constructor
  · intro h
    obtain ⟨st, hst⟩ := h
    obtain ⟨tr, htr, hassert, hsat⟩ := setupSolver_eq_some.mp hst
    obtain ⟨val, hext⟩ := MySolver.check_sat_iff.mp hsat
    have hspec := (MySolver.assertAll_spec MySolver.fresh_start hassert).2 val
    exact ⟨(pkg.reduction_isSome _).mp (Option.isSome_iff_exists.mpr ⟨tr, htr⟩), val,
      (satisfied_iff_solves htr).mp (hspec.mp hext).2⟩
  · intro h
    obtain ⟨hacyclic, val, hval⟩ := h
    obtain ⟨tr, htr⟩ := Option.isSome_iff_exists.mp ((pkg.reduction_isSome _).mpr hacyclic)
    have hsat := (satisfied_iff_solves htr).mpr hval
    -- an edge that holds has a weight to choose
    have hweight : ∀ e ∈ tr.edges, f.edgeWeight setIdx aSet e ≠ some [] := by
      intro e he hnil
      have hedge := hsat.edges e he
      simp only [MySolver.EdgeHolds, Facts.solver, hnil] at hedge
      obtain ⟨r, hr, _⟩ := hedge
      cases hr
    obtain ⟨st, hassert, _, hext⟩ := MySolver.extends_of_satisfied MySolver.fresh_start
      (MySolver.extends_start val) hweight hsat
    exact ⟨st, setupSolver_eq_some.mpr ⟨tr, htr, hassert, MySolver.check_of_extends hext⟩⟩

end Solve

namespace Mixed

/-- Three locations of different identifiers, of which neither of the last two is entered before the
other. -/
def facts : Facts (Fin 3) (Fin 3) where
  name := !["issue_s1", "mult_s1", "scb_0_s12"]
  cvPerflocs := [0, 1, 2]
  edge := [(0, 1), (0, 2), (1, 2), (2, 1)]
  iidMap := id
  hbEdge := []
  whbEdge := [(1, 2), (2, 1)]
  enterConcurrentPairs := []
  reachableSets := [[0, 1, 2]]
  maxCycPerPl := fun _ => 1
  cycCntGt1PerSet := fun _ => []
  leavingHbProvenResPairs := []
  awsConcurLeavingPairs := []

def enter : Fin 2 → Fin 3 → Nat := ![![1, 2, 2], ![1, 1, 1]]

def run (r : Fin 2) : Wave (Fin 3) := ofSpans fun p => some (enter r p, enter r p)

def legal : Set (Wave (Fin 3)) := Set.range run

def todo : TodoFile (Fin 3) :=
  [((.enter 0, .enter 1), [.gt, .eq]), ((.enter 0, .enter 2), [.gt, .eq])]

theorem visit (r : Fin 2) (p : Fin 3) : Visit (run r) p (enter r p) (enter r p) :=
  ofSpans_visit (v := fun p => some (enter r p, enter r p)) rfl le_rfl

theorem visitsExactly (r : Fin 2) : VisitsExactly (run r) [0, 1, 2] := by
  intro p
  have hvisit := (visit r p).firstEntry.visits
  fin_cases p <;> simpa using hvisit

theorem factsTrue : FactsTrue legal facts := by
  refine ⟨?_, by simp [facts], by simp [facts], by simp [facts]⟩
  intro tr htr
  obtain ⟨r, rfl⟩ := htr
  refine ⟨by simp [Facts.enterOutput, facts], ?_, by simp [Facts.enterOutput, facts]⟩
  intro u v m n he hu hv
  have hle : ∀ r, ∀ e ∈ facts.whbEdge, enter r e.1 ≤ enter r e.2 := by decide
  rw [hu.unique (visit r u).firstEntry, hv.unique (visit r v).firstEntry]
  exact hle r (u, v) he

theorem admissible (r : Fin 2) :
    CollectReEval.Admissible facts 0 [0, 1, 2] (enter r) (enter r) := by
  have hedges : (CollectReEval.orderGraph facts 0 [0, 1, 2]).edges = [] := rfl
  refine ⟨by simp [facts], by simp [facts], by simp [facts, Facts.concurrentPairs],
    by simp [facts], ?_⟩
  intro u v hred
  have hmem := hred.1
  rw [hedges] at hmem
  cases hmem

/-- The weak facts leave no order of the last two locations open. -/
theorem toAsk_weak {slv : Solver (Var (Node (Fin 3)))} {st : SolverState (Node (Fin 3))}
    (hst : CollectReEval.setupSolver Warshall.package slv facts 0 [0, 1, 2] = some st)
    (tc : DiGraph (Node (Fin 3))) {p q : Fin 3} (hweak : (q, p) ∈ facts.whbEdge) :
    facts.toAsk slv tc st (.enter p, .enter q) = false := by
  rw [← Bool.not_eq_true, Facts.toAsk_iff]
  intro ⟨_, _, _, val, hext, hlt⟩
  obtain ⟨tr, htr, hassert, _⟩ := CollectReEval.setupSolver_eq_some.mp hst
  have hsat := (((MySolver.assertAll_spec MySolver.fresh_start hassert).2 val).mp hext).2
  have hnode : ∀ p : Fin 3, .enter p ∈ tr.nodes := by
    rw [Warshall.package.reduction_nodes _ _ htr]
    decide +kernel
  have hle : val (.enter q) ≤ val (.enter p) :=
    hsat.whb _ (List.mem_append_left _ (List.mem_map_of_mem hweak)) (hnode q) (hnode p)
  simp only at hlt
  omega

/-- Both orders of the first location are open. -/
theorem enterTodo (slv : Solver (Var (Node (Fin 3)))) :
    CollectReEval.gen Warshall.package slv facts 0 [0, 1, 2] = some todo := by
  have hrun (r : Fin 2) : CollectReEval.Allowed Warshall.package slv facts 0 [0, 1, 2] (enter r)
      (enter r) :=
    CollectReEval.allowed_of_admissible (by decide) factsTrue
      ⟨⟨r, rfl⟩, fun p _ => visit r p, fun p _ => Nat.lt_succ_self _⟩ (admissible r)
  obtain ⟨st, hst, _⟩ := hrun 0
  have hext (r : Fin 2) := (hrun r).extends hst
  let tc := Warshall.package.transitiveClosure (CollectReEval.orderGraph facts 0 [0, 1, 2])
  have hask (q : Fin 3) (hlt : enter 0 0 < enter 0 q) (hle : enter 1 q ≤ enter 1 0) :
      facts.toAsk slv tc st (.enter 0, .enter q) = true := by
    have htc : tc.edges = [] := rfl
    refine facts.toAsk_of_extends (by simp [htc]) (by simp [facts]) (hext 0) ?_ (hext 1) ?_
    · exact Int.ofNat_lt.mpr hlt
    · exact Int.ofNat_le.mpr hle
  have hpairs : ([(.enter 0, .enter 1), (.enter 0, .enter 2), (.enter 1, .enter 2),
      (.enter 2, .enter 1)] : List (Node (Fin 3) × Node (Fin 3))).filter (facts.toAsk slv tc st) =
        [(.enter 0, .enter 1), (.enter 0, .enter 2)] := by
    simp [hask 1 (by decide) (by decide), hask 2 (by decide) (by decide),
      toAsk_weak hst tc (by decide : (2, 1) ∈ facts.whbEdge),
      toAsk_weak hst tc (by decide : (1, 2) ∈ facts.whbEdge)]
  rw [CollectReEval.gen, hst, Option.map_some, CollectReEval.pairsTodo]
  exact congrArg (fun es => some (es.foldl facts.addPair [])) hpairs

/-- Each of the orders is taken by one of the runs. -/
theorem csv_exact :
    ExactCsv legal (CollectReEval.comFile facts [0, 1, 2] todo) fun _ => .covered := by
  have hassume (r : Fin 2) : AllHold (observe (run r)) (facts.setAssumes [0, 1, 2]) :=
    setAssumes_hold.mpr fun p _ hp => (visitsExactly r p).mpr hp
  have hreached (q : Fin 3) (t : HbType) (r : Fin 2) (hq : q ∈ [(0 : Fin 3), 1, 2])
      (hold : OrderHolds (nodeCycle (enter r) (enter r)) ((.enter 0, .enter q), t)) :
      Reached legal (facts.setAssumes [0, 1, 2])
        ((enterCoverName (.enter 0, .enter q) t).seq (facts.setR [0, 1, 2])) :=
    ⟨run r, ⟨r, rfl⟩, hassume r, enterCover_of_holds (fun p _ => (visit r p).firstEntry) (by decide)
      hq hold⟩
  have hsetR : Reached legal (facts.setAssumes [0, 1, 2]) (.bool (facts.setR [0, 1, 2])) :=
    ⟨run 0, ⟨0, rfl⟩, hassume 0, setR_covered fun p _ => (visit 0 p).firstEntry.visits⟩
  intro c hc
  apply exactCover_of_reached
  have hcovers : c = (.setR, .bool (facts.setR [0, 1, 2])) ∨ ∃ q t, q ∈ [(0 : Fin 3), 1, 2] ∧
      c = (enterCoverName (.enter 0, .enter q) t,
        (enterCoverName (.enter 0, .enter q) t).seq (facts.setR [0, 1, 2])) ∧
      ∃ r, OrderHolds (nodeCycle (enter r) (enter r)) ((.enter 0, .enter q), t) := by
    simp only [CollectReEval.comFile, Facts.todoCovers, todo, List.flatMap_cons, List.flatMap_nil,
      List.map_cons, List.map_nil, List.cons_append, List.nil_append, List.append_nil,
      List.mem_cons, List.not_mem_nil, or_false] at hc
    rcases hc with rfl | rfl | rfl | rfl | rfl
    · exact .inr ⟨1, .gt, by decide, rfl, 0, by decide⟩
    · exact .inr ⟨1, .eq, by decide, rfl, 1, by decide⟩
    · exact .inr ⟨2, .gt, by decide, rfl, 0, by decide⟩
    · exact .inr ⟨2, .eq, by decide, rfl, 1, by decide⟩
    · exact .inl rfl
  rcases hcovers with rfl | ⟨q, t, hq, rfl, r, hold⟩
  · exact hsetR
  · exact hreached q t r hq hold

/-- The first location before the second and together with the third: no edge closes a cycle, but
a weak fact takes the second back to the first. -/
def comb : Comb (Fin 3) := [((.enter 0, .enter 1), .gt), ((.enter 0, .enter 2), .eq)]

theorem gen_comb (slv : Solver (Var (Node (Fin 3)))) :
    gen Warshall.package slv facts 0 [0, 1, 2] comb = none := by
  have hcycles : Warshall.package.simpleCycles (orderGraph facts 0 [0, 1, 2] comb) = [] := by
    decide +kernel
  have hsetup : setupSolver Warshall.package slv facts 0 [0, 1, 2] comb = none := by
    rw [Option.eq_none_iff_forall_ne_some]
    intro st hst
    obtain ⟨tr, htr, hassert, hcheck⟩ := setupSolver_eq_some.mp hst
    obtain ⟨val, hext⟩ := MySolver.check_sat_iff.mp hcheck
    have hsat := (((MySolver.assertAll_spec MySolver.fresh_start hassert).2 val).mp hext).2
    have hnode : ∀ p : Fin 3, .enter p ∈ tr.nodes := by
      rw [Warshall.package.reduction_nodes _ _ htr]
      decide +kernel
    have htime := weighted_inTime htr building_implied_iid hsat (.enter 0) (.enter 1)
      (by decide +kernel)
    have hlt : val (.enter 0) < val (.enter 1) := htime.lt fun hs => by
      obtain ⟨p, _, _, hv⟩ := hs
      cases hv
    have hweak : (.enter 1, .enter 2) ∈ facts.whbEdge.map enterPair ++ [] := by decide
    have hpair : (.enter 0, .enter 2) ∈ solverPairs facts comb := by decide
    have hle : val (.enter 1) ≤ val (.enter 2) := hsat.whb _ hweak (hnode 1) (hnode 2)
    have heq : val (.enter 0) = val (.enter 2) := hsat.concurrent _ hpair (hnode 0) (hnode 2)
    omega
  rw [gen, if_pos hcycles, hsetup]
  rfl

end Mixed

end SynthLC.LeaveOrder
