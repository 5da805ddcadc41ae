import SynthLC.Complete
import SynthLC.Summarize

/-! The follower sets that `xSummarize` collects of a feasible path, against the order that the
path stands for. -/
namespace SynthLC.Summarize

open Sva Graph Smt Loop

variable {PL IID : Type} [DecidableEq PL] [DecidableEq IID]

/-- The todo files of a set are those that the two scripts before write. -/
structure Written (pkg : Package (Node PL)) (slv : Solver (Var (Node PL))) (f : Facts PL IID)
    (files : OrderFiles PL) (setIdx : Nat) (aSet : List PL) : Prop where
  enter : CollectReEval.gen pkg slv f setIdx aSet = some (files.enterTodo setIdx)
  final : ∀ j todo, files.finalTodo setIdx j = some todo → ∃ combs comb,
    LeaveOrder.combEdges (files.enterTodo setIdx) (files.enterCsv setIdx) = some combs ∧
    (comb, j) ∈ combs.zipIdx ∧ LeaveOrder.gen pkg slv f setIdx aSet comb = some (some todo)

/-- An entering combination and a leaving one that the loops of `xSummarize` put together. -/
def ReadBack (f : Facts PL IID) (files : OrderFiles PL) (setIdx : Nat) (comb c : Comb PL) : Prop :=
  ∃ combs j todo cs, combEdges f (files.enterTodo setIdx) (files.enterCsv setIdx) = some combs ∧
    (comb, j) ∈ combs.zipIdx ∧ files.finalTodo setIdx j = some todo ∧
    combEdgesFinal todo (files.finalCsv setIdx j) = some cs ∧ c ∈ cs

/-- The order of a path: the edges of its graph, and the first cycle of a location before its
last one. -/
def PathOrder (f : Facts PL IID) (setIdx : Nat) (aSet : List PL) (c : Comb PL) :
    Node PL → Node PL → Prop :=
  Relation.TransGen fun u v => (u, v) ∈ (pathGraph f setIdx aSet c).edges ∨
    ∃ p, .enter p ∈ (pathGraph f setIdx aSet c).nodes ∧
      .final p ∈ (pathGraph f setIdx aSet c).nodes ∧ (u, v) = (.enter p, .final p)

section Read

variable {pkg : Package (Node PL)} {slv : Solver (Var (Node PL))} {f : Facts PL IID}
  {files : OrderFiles PL} {setIdx : Nat} {aSet : List PL} {comb c : Comb PL}

omit [DecidableEq IID] in
theorem exists_mem_choices_enter {todo : TodoFile PL} {csv : Csv PL} {combs : List (Comb PL)}
    (h : combEdges f todo csv = some combs) (hc : comb ∈ combs) :
    ∃ d, readTodo (query f csv) todo = some d ∧ comb ∈ choices d := by
  obtain ⟨d, hd, h⟩ := Option.bind_eq_some_iff.mp h
  split_ifs at h
  obtain rfl := Option.some.inj h
  exact ⟨d, hd, hc⟩

omit [DecidableEq IID] in
theorem exists_mem_choices_final {todo : TodoFile PL} {csv : Csv PL} {cs : List (Comb PL)}
    (h : combEdgesFinal todo csv = some cs) (hc : c ∈ cs) :
    ∃ d, readTodo (finalQuery csv) todo = some d ∧ c ∈ choices d := by
  obtain ⟨d, hd, h⟩ := Option.bind_eq_some_iff.mp h
  refine ⟨d, hd, ?_⟩
  split_ifs at h
  · obtain ⟨res, _, h⟩ := Option.bind_eq_some_iff.mp h
    split_ifs at h
    · obtain rfl := Option.some.inj h
      exact hc
    · obtain rfl := Option.some.inj h
      cases hc
  · obtain ⟨_, _, h⟩ := Option.bind_eq_some_iff.mp h
    cases h

/-- What is read back are orders between nodes of the set, even where a leaving combination
belongs to another entering one. -/
theorem ReadBack.inGraph (h : ReadBack f files setIdx comb c) (hnd : aSet.Nodup)
    (hw : Written pkg slv f files setIdx aSet) :
    ∀ x ∈ comb ++ c, f.InGraph setIdx aSet x.1.1 ∧ f.InGraph setIdx aSet x.1.2 := by
  obtain ⟨combs, j, todo, cs, hcombs, hj, htodo, hcs, hc⟩ := h
  obtain ⟨d, hd, hcomb⟩ := exists_mem_choices_enter hcombs (List.fst_mem_of_mem_zipIdx hj)
  obtain ⟨d', hd', hc⟩ := exists_mem_choices_final hcs hc
  obtain ⟨combs', comb', hcombs', hj', hgen⟩ := hw.final j todo htodo
  obtain ⟨e, he, rfl⟩ := Option.map_eq_some_iff.mp hcombs'
  have hin := enter_inGraph hw.enter he (List.fst_mem_of_mem_zipIdx hj')
  intro x hx
  rcases List.mem_append.mp hx with hx | hx
  · exact enter_inGraph hw.enter hd hcomb x hx
  · exact leave_inGraph hnd hin hgen hd' hc x hx

end Read

section Stays

variable {pkg : Package (Node PL)} {slv : Solver (Var (Node PL))} {f : Facts PL IID}
  {setIdx : Nat} {aSet : List PL} {c : Comb PL} {g red : DiGraph (Node PL)} {u v : Node PL}

omit [DecidableEq IID] in
theorem nodes_withStays : (withStays g).nodes = g.nodes := (foldl_addStay g.nodes fun _ hn => hn).1

omit [DecidableEq IID] in
theorem mem_edges_withStays {e : Node PL × Node PL} : e ∈ (withStays g).edges ↔
    e ∈ g.edges ∨ ∃ p, .enter p ∈ g.nodes ∧ .final p ∈ g.nodes ∧ e = (.enter p, .final p) :=
  (foldl_addStay g.nodes fun _ hn => hn).2 e

/-- A solution of the constraints of a path has every stay in time as well: a last cycle is a
node only of a marked location. -/
theorem withStays_acyclic (hnd : aSet.Nodup)
    (hin : ∀ x ∈ c, f.InGraph setIdx aSet x.1.1 ∧ f.InGraph setIdx aSet x.1.2)
    (hred : pkg.transitiveReduction (pathGraph f setIdx aSet c) = some red)
    {val : Node PL → Int} (hsat : (pathSolver f setIdx aSet c red).Satisfied .before val) :
    (withStays red).Acyclic := by
  have hbuilt := pathBuilding_built f setIdx c hnd
  have htime (u v : Node PL) (he : (u, v) ∈ (withStays red).edges) :
      InTime (f.Weighted setIdx aSet) val u v := by
    rcases mem_edges_withStays.mp he with he | ⟨p, hp, hfinal, heq⟩
    · have hedge := (pkg.reduction_edges _ _ hred u v).mp he
      exact weighted_inTime hred twoLoops_implied_iid hsat u v hedge.1
    · obtain ⟨rfl, rfl⟩ := Prod.mk.inj heq
      have hmark : f.InGraph setIdx aSet (.final p) := by
        rw [pkg.reduction_nodes _ _ hred] at hfinal
        exact (hbuilt.mem_nodes_finish (LeaveOrder.orders_inGraph hin)).mp hfinal
      have hmem : (Node.enter p, Node.final p) ∈ whbFinals f setIdx aSet :=
        List.mem_map.mpr ⟨p, List.mem_filter.mpr ⟨hmark.1, decide_eq_true hmark.2⟩, rfl⟩
      refine ⟨hsat.whb _ (List.mem_append_right _ hmem) hp hfinal, fun hn => ?_⟩
      exact absurd ⟨p, hmark, rfl, rfl⟩ hn
  exact acyclic_of_inTime htime

omit [DecidableEq IID] in
/-- Reducing before the stays are added loses nothing of the order. -/
theorem path_withStays_reduction (hred : pkg.transitiveReduction g = some red) :
    (withStays red).Path u v ↔ (withStays g).Path u v := by
  have hacyclic : g.Acyclic :=
    (pkg.reduction_isSome _).mp (Option.isSome_iff_exists.mpr ⟨red, hred⟩)
  have hnodes := pkg.reduction_nodes _ _ hred
  constructor
  · intro h
    refine Relation.TransGen.mono (fun u v he => ?_) _ _ h
    rw [mem_edges_withStays, hnodes] at he
    rw [mem_edges_withStays]
    exact he.imp_left fun he => ((pkg.reduction_edges _ _ hred u v).mp he).1
  · intro h
    refine Relation.TransGen.closed (fun u v he => ?_) _ _ h
    rcases mem_edges_withStays.mp he with he | hstay
    · have hpath : red.Path u v :=
        hacyclic.reduced_path (fun u v => (pkg.reduction_edges _ _ hred u v).mpr) (.single he)
      exact Relation.TransGen.mono (fun u v he => mem_edges_withStays.mpr (.inl he)) _ _ hpath
    · rw [← hnodes] at hstay
      exact .single (mem_edges_withStays.mpr (.inr hstay))

theorem path_withStays_iff (hred : pkg.transitiveReduction (pathGraph f setIdx aSet c) = some red) :
    (withStays red).Path u v ↔ PathOrder f setIdx aSet c u v := by
  rw [path_withStays_reduction hred, DiGraph.Path, PathOrder]
  simp only [mem_edges_withStays]

omit [DecidableEq IID] in
/-- The second reduction leaves the immediate steps of the path order. -/
theorem followerSets_spec (pkg : Package (Node PL)) (hacyclic : (withStays g).Acyclic) :
    ∃ tr fs, followerSets pkg g = some (tr, fs) ∧ fs.map Prod.fst = g.nodes ∧
      ∀ n s, (n, s) ∈ fs → ∀ m, m ∈ s ↔
        (withStays g).Path n m ∧ ¬∃ w, (withStays g).Path n w ∧ (withStays g).Path w m := by
  obtain ⟨tr, htr⟩ := Option.isSome_iff_exists.mp ((pkg.reduction_isSome _).mpr hacyclic)
  refine ⟨tr, _, congrArg (Option.map _) htr, ?_, ?_⟩
  · rw [List.map_map, pkg.reduction_nodes _ _ htr, nodes_withStays]
    exact List.map_id _
  · intro n s hmem m
    obtain ⟨n', _, heq⟩ := List.mem_map.mp hmem
    obtain ⟨rfl, rfl⟩ := Prod.mk.inj heq
    rw [List.mem_toFinset, DiGraph.mem_successors, pkg.reduction_edges _ _ htr,
      DiGraph.reduced_iff_path]

end Stays

/-- The follower sets of a feasible path are the immediate successors in its order. -/
theorem followers_immediate (pkg : Package (Node PL)) (slv : Solver (Var (Node PL)))
    (f : Facts PL IID) (files : OrderFiles PL) (setIdx : Nat) (aSet : List PL) (hnd : aSet.Nodup)
    (hw : Written pkg slv f files setIdx aSet) (comb c : Comb PL)
    (hread : ReadBack f files setIdx comb c) (red : DiGraph (Node PL))
    (hcheck : checkPath pkg slv f setIdx aSet (comb ++ c) = some (some (red, true))) :
    (withStays red).Acyclic ∧ (∀ n, ¬PathOrder f setIdx aSet (comb ++ c) n n) ∧
    ∃ tr fs, followerSets pkg red = some (tr, fs) ∧
      fs.map Prod.fst = (pathGraph f setIdx aSet (comb ++ c)).nodes ∧
      ∀ n s, (n, s) ∈ fs → ∀ m, m ∈ s ↔ PathOrder f setIdx aSet (comb ++ c) n m ∧
        ¬∃ w, PathOrder f setIdx aSet (comb ++ c) n w ∧
          PathOrder f setIdx aSet (comb ++ c) w m := by
  have hred := checkPath_reduction hcheck
  obtain ⟨val, hsat⟩ := exists_satisfied_of_checkPath hcheck
  have hacyclic := withStays_acyclic hnd (hread.inGraph hnd hw) hred hsat
  obtain ⟨tr, fs, hfs, hkeys, hspec⟩ := followerSets_spec pkg hacyclic
  refine ⟨hacyclic, ?_, tr, fs, hfs, ?_, ?_⟩
  · intro n hn
    exact hacyclic n ((path_withStays_iff hred).mpr hn)
  · rw [hkeys, pkg.reduction_nodes _ _ hred]
  · intro n s hmem m
    simp only [hspec n s hmem m, path_withStays_iff hred]

/-- The files of the overlapping locations, with one entering combination. -/
def overlapFiles : OrderFiles (Fin 2) :=
  { Overlap.files with finalTodo := fun _ j => if j = 0 then some Overlap.todo else none }

theorem overlap_written (slv : Solver (Var (Node (Fin 2)))) :
    Written Warshall.package slv Overlap.facts overlapFiles 0 [0, 1] := by
  refine ⟨Overlap.enterTodo slv, ?_⟩
  intro j todo htodo
  obtain ⟨rfl, htodo⟩ : j = 0 ∧ Overlap.todo = todo := by simpa [overlapFiles] using htodo
  exact ⟨[[]], [], rfl, by simp, htodo ▸ Overlap.finalTodo slv⟩

/-- The first location is left before the second is entered. -/
theorem overlap_followers : ∃ red,
    Written Warshall.package Solver.classical Overlap.facts overlapFiles 0 [0, 1] ∧
    ReadBack Overlap.facts overlapFiles 0 [] (Overlap.leaving .gt .gt) ∧
    checkPath Warshall.package Solver.classical Overlap.facts 0 [0, 1]
      ([] ++ Overlap.leaving .gt .gt) = some (some (red, true)) ∧ (withStays red).Acyclic ∧
    ∃ tr fs, followerSets Warshall.package red = some (tr, fs) ∧ ∀ s, (.enter 0, s) ∈ fs →
      ∀ m, m ∈ s ↔ PathOrder Overlap.facts 0 [0, 1] (Overlap.leaving .gt .gt) (.enter 0) m ∧
        ¬∃ w, PathOrder Overlap.facts 0 [0, 1] (Overlap.leaving .gt .gt) (.enter 0) w ∧
          PathOrder Overlap.facts 0 [0, 1] (Overlap.leaving .gt .gt) w m := by
  have hread : ReadBack Overlap.facts overlapFiles 0 [] (Overlap.leaving .gt .gt) :=
    ⟨[[]], 0, Overlap.todo, Overlap.combs, rfl, by simp, rfl, by decide, by decide⟩
  have hcheck := Overlap.checkPath_combs Solver.classical (Overlap.leaving .gt .gt) (by decide)
  have hresult := followers_immediate _ _ _ _ 0 [0, 1] (by decide)
    (overlap_written Solver.classical) _ _ hread _ hcheck
  obtain ⟨tr, fs, hfs, _, hspec⟩ := hresult.2.2
  exact ⟨_, overlap_written _, hread, hcheck, hresult.1, tr, fs, hfs, hspec (.enter 0)⟩

end SynthLC.Summarize
