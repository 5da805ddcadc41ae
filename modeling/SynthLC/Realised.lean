import SynthLC.Pipeline
import SynthLC.Summarize

/-! Where the kept paths of `xSummarize` come from, and whether a legal run takes them. Last,
the runs behind the files on which two paths are confused. -/
namespace SynthLC.Summarize

open Sva Graph Smt Loop

variable {PL IID : Type} [DecidableEq PL] [DecidableEq IID]

section Origin

variable (pkg : Package (Node PL)) (slv : Solver (Var (Node PL))) (f : Facts PL IID)
  (files : OrderFiles PL)

/-- The combinations of a kept path are read from the files of its set: with fixed leaving
orders the verdict on the set was looked up, with open ones only the graph was checked. -/
structure Path.Origin (p : Path PL) : Prop where
  set : (p.aSet, p.setIdx) ∈ f.reachableSets.zipIdx
  comb : ∃ combs j, combEdges f (files.enterTodo p.setIdx) (files.enterCsv p.setIdx) = some combs ∧
    (p.comb, j) ∈ combs.zipIdx ∧
    match p.final with
    | none => files.finalTodo p.setIdx j = some [] ∧
        doplot (files.finalCsv p.setIdx j) p.comb = some true
    | some c => ∃ todo cs red, todo ≠ [] ∧ files.finalTodo p.setIdx j = some todo ∧
        combEdgesFinal todo (files.finalCsv p.setIdx j) = some cs ∧ c ∈ cs ∧
        checkPath pkg slv f p.setIdx p.aSet (p.comb ++ c) = some (some (red, true))

/-- All kept paths have an origin. -/
def Origins (s : Summary PL) : Prop := ∀ p ∈ s.paths, p.Origin pkg slv f files

variable {pkg slv f files} {s s' : Summary PL} {setIdx : Nat} {aSet : List PL}

theorem Origins.keep {tr : DiGraph (Node PL)} {p : Path PL} (hs : Origins pkg slv f files s)
    (hp : p.Origin pkg slv f files) (hkeep : Summarize.keep pkg s p tr = some s') :
    Origins pkg slv f files s' := by
  obtain ⟨⟨tr2, fs⟩, _, heq⟩ := Option.bind_eq_some_iff.mp hkeep
  obtain rfl := Option.some.inj heq
  intro q hq
  rcases List.mem_append.mp hq with hq | hq
  · exact hs q hq
  · obtain rfl := List.mem_singleton.mp hq
    exact hp

variable {combs : List (Comb PL)} {comb : Comb PL} {combidx : Nat}
  (hset : (aSet, setIdx) ∈ f.reachableSets.zipIdx)
  (hcombs : combEdges f (files.enterTodo setIdx) (files.enterCsv setIdx) = some combs)
  (hcomb : (comb, combidx) ∈ combs.zipIdx)
include hset hcombs hcomb

theorem Origins.openStep {todo : TodoFile PL} {cs : List (Comb PL)} {c : Comb PL}
    (hne : todo ≠ []) (htodo : files.finalTodo setIdx combidx = some todo)
    (hcs : combEdgesFinal todo (files.finalCsv setIdx combidx) = some cs) (hc : c ∈ cs)
    (hs : Origins pkg slv f files s)
    (hstep : openStep pkg slv f setIdx aSet comb s c = some s') : Origins pkg slv f files s' := by
  obtain ⟨res, hres, hstep⟩ := Option.bind_eq_some_iff.mp hstep
  match res, hres, hstep with
  | none, _, hstep =>
    obtain rfl := Option.some.inj hstep
    exact hs
  | some (tr, false), _, hstep =>
    obtain rfl := Option.some.inj hstep
    exact hs
  | some (tr, true), hres, hstep =>
    simp only [keepOpen] at hstep
    split_ifs at hstep
    · obtain rfl := Option.some.inj hstep
      exact hs
    · refine hs.keep ?_ hstep
      exact ⟨hset, combs, combidx, hcombs, hcomb, todo, cs, tr, hne, htodo, hcs, hc, hres⟩

theorem Origins.fixedStep {st st' : State PL} (htodo : files.finalTodo setIdx combidx = some [])
    (hs : Origins pkg slv f files st.toSummary)
    (hstep : fixedStep pkg slv f setIdx aSet (files.finalCsv setIdx combidx) comb st = some st') :
    Origins pkg slv f files st'.toSummary := by
  obtain ⟨plot, hplot, hstep⟩ := Option.bind_eq_some_iff.mp hstep
  split_ifs at hstep with htrue
  · obtain ⟨s', hs', hstep⟩ := Option.bind_eq_some_iff.mp hstep
    obtain rfl := Option.some.inj hstep
    unfold keepFixed at hs'
    dsimp only at hs'
    split_ifs at hs'
    · obtain rfl := Option.some.inj hs'
      exact hs
    · obtain ⟨tr, _, hs'⟩ := Option.bind_eq_some_iff.mp hs'
      obtain ⟨_, _, hs'⟩ := Option.bind_eq_some_iff.mp hs'
      refine hs.keep ?_ hs'
      exact ⟨hset, combs, combidx, hcombs, hcomb, htodo, hplot.trans (congrArg some htrue)⟩
  · obtain rfl := Option.some.inj hstep
    exact hs

theorem Origins.combStep {st st' : State PL} (hs : Origins pkg slv f files st.toSummary)
    (hstep : combStep pkg slv f files setIdx aSet st (comb, combidx) = some st') :
    Origins pkg slv f files st'.toSummary := by
  unfold Summarize.combStep at hstep
  dsimp only at hstep
  split at hstep
  · obtain rfl := Option.some.inj hstep
    exact hs
  · rename_i htodo
    exact hs.fixedStep hset hcombs hcomb htodo hstep
  · rename_i todo hne htodo
    obtain ⟨cs, hcs, hstep⟩ := Option.bind_eq_some_iff.mp hstep
    obtain ⟨s', hs', hstep⟩ := Option.bind_eq_some_iff.mp hstep
    obtain rfl := Option.some.inj hstep
    exact foldlM_inv (P := Origins pkg slv f files)
      (fun _ _ c hc hs h => hs.openStep hset hcombs hcomb hne htodo hcs hc h) hs hs'

omit hcombs hcomb in
theorem Origins.setStep {st st' : State PL} (hs : Origins pkg slv f files st.toSummary)
    (hstep : setStep pkg slv f files st (aSet, setIdx) = some st') :
    Origins pkg slv f files st'.toSummary := by
  obtain ⟨combs, hcombs, hstep⟩ := Option.bind_eq_some_iff.mp hstep
  obtain ⟨⟨tr, sat⟩, _, hstep⟩ := Option.bind_eq_some_iff.mp hstep
  dsimp only at hstep
  split_ifs at hstep
  · have hbase : Origins pkg slv f files { st with tr := tr }.toSummary := hs
    exact foldlM_inv (P := fun st : State PL => Origins pkg slv f files st.toSummary)
      (fun _ _ x hx hs h => hs.combStep hset hcombs hx h) hbase hstep
  · obtain rfl := Option.some.inj hstep
    exact hs

omit hset hcombs hcomb in
/-- Every path kept in a run has an origin. -/
theorem gen_origins {st : State PL} (hrun : gen pkg slv f files = some st) :
    Origins pkg slv f files st.toSummary := by
  have hstart : Origins pkg slv f files (start : State PL).toSummary := by
    intro p hp
    cases hp
  exact foldlM_inv (P := fun st : State PL => Origins pkg slv f files st.toSummary)
    (fun _ _ x hx hs h => hs.setStep hx h) hstart hrun

end Origin

section Realised

variable {pkg : Package (Node PL)} {slv : Solver (Var (Node PL))} {legal : Set (Wave PL)}
  {f : Facts PL IID} {files : OrderFiles PL} {pathCsv : Nat → Nat → Nat → Csv PL}

/-- None of the verdicts that are not looked up is `covered`. -/
def NotOverridden (f : Facts PL IID) (files : OrderFiles PL) : Prop :=
  ∀ aSet i, (aSet, i) ∈ f.reachableSets.zipIdx → ∀ k, (k, HbType.gt) ∈ asked (files.enterTodo i) →
    overridden f k = true → files.enterCsv i (.hb k.1 k.2) ≠ .covered

/-- The combinations have the numbers they have in the scripts before. -/
theorem combEdges_eq (hpipe : Pipeline legal pkg slv f files pathCsv)
    (hover : NotOverridden f files) {aSet : List PL} {i : Nat}
    (hset : (aSet, i) ∈ f.reachableSets.zipIdx) {combs : List (Comb PL)}
    (h : combEdges f (files.enterTodo i) (files.enterCsv i) = some combs) :
    ConstructPaths.combEdges (files.enterTodo i) (files.enterCsv i) = some combs := by
  have hsome : ∀ x ∈ asked (files.enterTodo i),
      (enterQuery (files.enterCsv i) x.1 x.2).isSome := by
    intro x hx
    have hexact := hpipe.enterCsv aSet i hset (ne_nil_of_mem_asked hx) _ (mem_todoCovers hx)
    have herr := hexact.ne_err
    simp [enterQuery, dfQuery, herr]
  obtain ⟨d, hd, h⟩ := Option.bind_eq_some_iff.mp h
  rw [readTodo_query_eq hsome (hover aSet i hset)] at hd
  split_ifs at h
  rw [ConstructPaths.combEdges, hd, ← h]
  rfl

/-- A kept path is taken by a legal run exactly if, where its leaving orders were open, the
cover of its own file is reached; that verdict is never read. -/
theorem path_realised_iff (hpipe : Pipeline legal pkg slv f files pathCsv)
    (hcv : CoversVisited legal f.cvPerflocs)
    (hreach : ∀ aSet ∈ f.reachableSets, ∃ tr ∈ legal, VisitsExactly tr aSet)
    (hover : NotOverridden f files) {st : State PL} (hrun : gen pkg slv f files = some st)
    (p : Path PL) (hp : p ∈ st.paths) :
    OrdersRealised legal p.aSet p.orders ↔ ∀ c, p.final = some c → ∃ out j k,
      ConstructPaths.genSet pkg slv f files p.setIdx p.aSet = some out ∧
      ((j, p.comb), (k, c)) ∈ out ∧ pathCsv p.setIdx j k .cSetr = .covered := by
  obtain ⟨hset, combs, j, hcombs, hcomb, hfinal⟩ := gen_origins hrun p hp
  have hread := combEdges_eq hpipe hover hset hcombs
  have hmem : p.aSet ∈ f.reachableSets := List.fst_mem_of_mem_zipIdx hset
  obtain ⟨tr, htr, hexact⟩ := hreach p.aSet hmem
  have hsub : ∀ q ∈ p.aSet, q ∈ f.cvPerflocs := fun q hq =>
    hcv.complete q tr htr ((hexact q).mp hq)
  cases hopen : p.final with
  | none =>
    rw [hopen] at hfinal
    obtain ⟨htodo, hplot⟩ := hfinal
    have horders : p.orders = p.comb := by simp [Path.orders, hopen]
    rw [horders]
    refine iff_of_true ?_ (by simp)
    by_cases hnil : p.comb = []
    · rw [hnil]
      exact ⟨tr, htr, hexact, by simp [AllHold]⟩
    · rw [doplot, if_neg hnil, Option.map_eq_some_iff] at hplot
      obtain ⟨res, hres, hcov⟩ := hplot
      rw [decide_eq_true_eq.mp hcov] at hres
      have hfile : LeaveOrder.svFile f p.aSet p.comb [] =
          some (LeaveOrder.setcoverFile f p.aSet p.comb) := by
        simp [LeaveOrder.svFile, hnil]
      have hcsv := hpipe.finalCsv p.aSet p.setIdx hset combs hread p.comb j hcomb [] htodo _ hfile
        (.cSetr, .bool (f.setR p.aSet)) (by simp [LeaveOrder.setcoverFile])
      exact (reached_setR_iff hcv hsub).mp (hcsv.covered_iff.mp (dfQuery_covered.mp hres))
  | some c =>
    rw [hopen] at hfinal
    obtain ⟨todo, cs, red, hne, htodo, hcs, hc, hcheck⟩ := hfinal
    have horders : p.orders = p.comb ++ c := by simp [Path.orders, hopen]
    rw [horders]
    obtain ⟨out, hout, hcsv⟩ := hpipe.path p.aSet p.setIdx hset
    have hverdict (j k : Nat) (hfile : ((j, p.comb), (k, c)) ∈ out) :
        pathCsv p.setIdx j k .cSetr = .covered ↔ OrdersRealised legal p.aSet (p.comb ++ c) := by
      have hexact := hcsv j p.comb k c hfile (.cSetr, .bool (f.setR p.aSet))
        (by simp [ConstructPaths.comFile])
      exact hexact.covered_iff.trans (reached_setR_iff hcv hsub)
    constructor
    · intro hreal c' hc'
      obtain rfl := Option.some.inj hc'
      -- the script before wrote a file for the combination
      obtain ⟨k, hk⟩ := exists_mem_zipIdx hc
      have hfile : ((j, p.comb), (k, c)) ∈ out :=
        (ConstructPaths.mem_genSet hout).mpr ⟨combs, todo, cs, red, hread, hcomb, hne, htodo,
          combEdgesFinal_eq hcs, hk, hcheck⟩
      exact ⟨out, j, k, hout, hfile, (hverdict j k hfile).mpr hreal⟩
    · intro h
      obtain ⟨out', j', k, hout', hfile, hcov⟩ := h c rfl
      obtain rfl : out = out' := Option.some.inj (hout.symm.trans hout')
      exact (hverdict j' k hfile).mp hcov

/-- The run of `xSummarize` on the example, its checks evaluated. -/
theorem overlap_gen (slv : Solver (Var (Node (Fin 2)))) :
    gen Warshall.package slv Overlap.facts Overlap.files =
      (Overlap.combs.foldlM (fun s c => keepOpen Warshall.package Overlap.facts 0 [0, 1] [] s c
          (some (Warshall.reduce (pathGraph Overlap.facts 0 [0, 1] c),
            decide (c ≠ Overlap.leaving .gt .eq))))
        { start with tr := Warshall.reduce (pathGraph Overlap.facts 0 [0, 1] []) }.toSummary).map
      fun s => { s with log := [] : State (Fin 2) } := by
  have hrun : gen Warshall.package slv Overlap.facts Overlap.files =
      (setStep Warshall.package slv Overlap.facts Overlap.files start ([0, 1], 0)).bind some := rfl
  have hcombs : combEdges Overlap.facts (Overlap.files.enterTodo 0) (Overlap.files.enterCsv 0) =
      some [[]] := rfl
  have hfinal : combEdgesFinal Overlap.todo (Overlap.files.finalCsv 0 0) = some Overlap.combs := by
    decide
  have hstep (st : State (Fin 2)) :
      [([], 0)].foldlM (combStep Warshall.package slv Overlap.facts Overlap.files 0 [0, 1]) st =
        ((combEdgesFinal Overlap.todo (Overlap.files.finalCsv 0 0)).bind fun cs =>
          (cs.foldlM (openStep Warshall.package slv Overlap.facts 0 [0, 1] []) st.toSummary).bind
            fun s => some { s with log := st.log }).bind some := rfl
  obtain ⟨tr, hred, hsat, _⟩ := Overlap.feasible slv (c := []) (by simp [orderEdges])
    ![(1, 2), (4, 5)] (by decide) (by decide) (by simp)
  obtain rfl := Warshall.eq_reduce hred
  have hbase : baseGraph Warshall.package slv Overlap.facts 0 [0, 1] =
      some (Warshall.reduce (pathGraph Overlap.facts 0 [0, 1] []), true) :=
    baseGraph_of_satisfied hred (fun e _ => Overlap.weighted e) hsat
  have hopen : ∀ s, ∀ c ∈ Overlap.combs,
      openStep Warshall.package slv Overlap.facts 0 [0, 1] [] s c =
        keepOpen Warshall.package Overlap.facts 0 [0, 1] [] s c
          (some (Warshall.reduce (pathGraph Overlap.facts 0 [0, 1] c),
            decide (c ≠ Overlap.leaving .gt .eq))) := by
    intro s c hc
    rw [openStep, List.nil_append, Overlap.checkPath_combs slv c hc]
    rfl
  rw [hrun, setStep_of_baseGraph hcombs hbase, List.zipIdx_singleton, hstep, hfinal,
    Option.bind_some, foldlM_congr hopen, Option.bind_fun_some, Option.bind_fun_some,
    Option.map_eq_bind]
  rfl

theorem overlap_check (slv : Solver (Var (Node (Fin 2)))) :
    (gen Warshall.package slv Overlap.facts Overlap.files).map (fun st => st.paths.any fun p =>
      decide (p.aSet = [0, 1]) && decide (p.orders = Overlap.leaving .eq .gt)) = some true := by
  rw [overlap_gen]
  decide +kernel

theorem overlap_notOverridden : NotOverridden Overlap.facts Overlap.files := by
  intro aSet i _ k hk
  cases hk

theorem overlap_reach : ∀ aSet ∈ Overlap.facts.reachableSets,
    ∃ tr ∈ Overlap.legal, VisitsExactly tr aSet := by
  intro aSet haSet
  obtain rfl := List.mem_singleton.mp haSet
  exact ⟨Overlap.run 0, ⟨0, rfl⟩, Overlap.visitsExactly 0⟩

theorem overlap_realised_iff : ∃ st,
    gen Warshall.package Solver.classical Overlap.facts Overlap.files = some st ∧ st.paths ≠ [] ∧
    ∀ p ∈ st.paths, (OrdersRealised Overlap.legal p.aSet p.orders ↔
      ∀ c, p.final = some c → ∃ out j k,
        ConstructPaths.genSet Warshall.package Solver.classical Overlap.facts Overlap.files p.setIdx
          p.aSet = some out ∧
        ((j, p.comb), (k, c)) ∈ out ∧ Overlap.pathCsv p.setIdx j k .cSetr = .covered) := by
  obtain ⟨st, hst, hcheck⟩ := Option.map_eq_some_iff.mp (overlap_check Solver.classical)
  obtain ⟨p, hp, _⟩ := List.any_eq_true.mp hcheck
  exact ⟨st, hst, List.ne_nil_of_mem hp, path_realised_iff (Overlap.pipeline _)
    Overlap.coversVisited overlap_reach overlap_notOverridden hst⟩

/-- Of the four products of the covered leaving orders, one is feasible and kept though no run
takes it. -/
theorem overlap_unrealised : ∃ st,
    Pipeline Overlap.legal Warshall.package Solver.classical Overlap.facts Overlap.files
      Overlap.pathCsv ∧
    FactsTrue Overlap.legal Overlap.facts ∧ CoversVisited Overlap.legal Overlap.facts.cvPerflocs ∧
    gen Warshall.package Solver.classical Overlap.facts Overlap.files = some st ∧
    ∃ p ∈ st.paths, p.orders = Overlap.leaving .eq .gt ∧
      ¬OrdersRealised Overlap.legal p.aSet p.orders := by
  obtain ⟨st, hst, hcheck⟩ := Option.map_eq_some_iff.mp (overlap_check Solver.classical)
  simp only [List.any_eq_true, Bool.and_eq_true, decide_eq_true_eq] at hcheck
  obtain ⟨p, hp, hset, horders⟩ := hcheck
  refine ⟨st, Overlap.pipeline _, Overlap.factsTrue, Overlap.coversVisited, hst, p, hp, horders, ?_⟩
  rw [hset, horders, Overlap.leaving_realised (by simp) (by simp)]
  decide

end Realised

section Crossed

/-- One run for each order of the two locations, a cycle in each. -/
def crossedEnter : HbType → Fin 2 → Nat
  | .gt => ![1, 2]
  | .eq => ![1, 1]
  | .lt => ![2, 1]

def crossedRun (t : HbType) : Wave (Fin 2) :=
  ofSpans (CollectReEval.spans (crossedEnter t) (crossedEnter t))

def crossedLegal : Set (Wave (Fin 2)) := Set.range crossedRun

theorem crossed_visit (t : HbType) (p : Fin 2) :
    Visit (crossedRun t) p (crossedEnter t p) (crossedEnter t p) :=
  CollectReEval.spans_visit (fun _ => le_rfl) p

theorem crossed_holds (t : HbType) :
    OrderHolds (nodeCycle (crossedEnter t) (crossedEnter t)) ((.enter 0, .enter 1), t) := by
  cases t <;> decide

theorem crossed_factsTrue : FactsTrue crossedLegal crossedFacts := by
  refine ⟨fun tr _ => ⟨?_, ?_, ?_⟩, by simp [crossedFacts, CollectReEval.freeFacts],
    by simp [crossedFacts, CollectReEval.freeFacts], by simp [crossedFacts, CollectReEval.freeFacts]⟩
  all_goals simp [Facts.enterOutput, crossedFacts, CollectReEval.freeFacts]

theorem crossed_setRun (t : HbType) : SetRun crossedLegal crossedFacts [0, 1] (crossedRun t)
    (crossedEnter t) (crossedEnter t) :=
  ⟨⟨t, rfl⟩, fun p _ => crossed_visit t p, fun _ _ => Nat.lt_succ_self _⟩

theorem crossed_assumes (t : HbType) :
    AllHold (observe (crossedRun t)) (crossedFacts.setAssumes [0, 1]) := by
  refine setAssumes_hold.mpr fun p _ _ => ?_
  fin_cases p <;> simp

/-- Edges of the graphs are between the two locations, each of its own identifier. -/
theorem crossed_iidSpans {g : DiGraph (Node (Fin 2))} {val : Node (Fin 2) → Int}
    (hg : ∀ e ∈ g.edges, e.1.loc ≠ e.2.loc) :
    IidSpans crossedFacts 0 [0, 1] .oneCycle g val :=
  fun _ _ hred _ hiid => absurd hiid (hg _ hred.1)

theorem crossed_admissible (t : HbType) : CollectReEval.Admissible crossedFacts 0 [0, 1]
    (crossedEnter t) (crossedEnter t) := by
  refine ⟨?_, ?_, ?_, ?_, crossed_iidSpans (by decide +kernel)⟩
  all_goals simp [crossedFacts, CollectReEval.freeFacts, Facts.concurrentPairs]

theorem crossed_fits (t : HbType) : LeaveOrder.Fits crossedFacts 0 [0, 1]
    [((.enter 0, .enter 1), t)] (crossedEnter t) (crossedEnter t) := by
  refine ⟨?_, ?_, crossed_iidSpans ?_⟩
  · simp [crossedFacts, CollectReEval.freeFacts]
  · simp [crossedFacts, CollectReEval.freeFacts]
  · cases t <;> decide +kernel

theorem crossed_enterTodo (slv : Solver (Var (Node (Fin 2)))) :
    CollectReEval.gen Warshall.package slv crossedFacts 0 [0, 1] =
      some (crossedFiles.enterTodo 0) := by
  have hask {u v : Node (Fin 2)} (hne : u ≠ v) :
      crossedFacts.toAsk slv (Warshall.package.transitiveClosure
        (CollectReEval.orderGraph crossedFacts 0 [0, 1])) ⟨[], 0⟩ (u, v) = true :=
    CollectReEval.free_toAsk slv _ _ rfl hne
  have hsetup : CollectReEval.setupSolver Warshall.package slv crossedFacts 0 [0, 1] =
      some ⟨[], 0⟩ := CollectReEval.free_setupSolver slv _ _
  rw [CollectReEval.gen_eq_some [(.enter 0, .enter 1), (.enter 1, .enter 0)] hsetup rfl
    (by simp [hask])]
  decide +kernel

/-- No location stays, so there is no leaving order to ask about. -/
theorem crossed_finalTodo (slv : Solver (Var (Node (Fin 2)))) (t : HbType) :
    LeaveOrder.gen Warshall.package slv crossedFacts 0 [0, 1] [((.enter 0, .enter 1), t)] =
      some (some []) := by
  obtain ⟨hacyclic, st, hst, _⟩ := LeaveOrder.setupSolver_extends Warshall.package slv (by decide)
    crossed_factsTrue (crossed_setRun t) (crossed_admissible t) (by simp [Facts.InGraph])
    (List.forall_mem_singleton.mpr (crossed_holds t)) (crossed_fits t)
  have hpairs : (crossedFacts.edge.filter fun e => decide (e.1 ∈ [(0 : Fin 2), 1]) &&
      decide (e.2 ∈ [(0 : Fin 2), 1]) &&
      !decide (crossedFacts.iidMap e.1 = crossedFacts.iidMap e.2)).flatMap (LeaveOrder.ePrimes
        (Warshall.package.transitiveClosure (LeaveOrder.orderGraph crossedFacts 0 [0, 1]
          [((.enter 0, .enter 1), t)])).nodes) = [] := by
    cases t <;> decide +kernel
  refine LeaveOrder.gen_eq_some.mpr ⟨hacyclic, st, hst, ?_⟩
  rw [LeaveOrder.pairsFinal, hpairs]
  rfl

theorem crossed_comb {cs : List (Comb (Fin 2))} {comb : Comb (Fin 2)} {j : Nat}
    (hcs : LeaveOrder.combEdges (crossedFiles.enterTodo 0) (crossedFiles.enterCsv 0) = some cs)
    (h : (comb, j) ∈ cs.zipIdx) : ∃ t, comb = [((.enter 0, .enter 1), t)] := by
  have hall : LeaveOrder.combEdges (crossedFiles.enterTodo 0) (crossedFiles.enterCsv 0) =
      some ([.gt, .eq, .lt].map fun t => [((.enter 0, .enter 1), t)]) := by decide
  obtain rfl := Option.some.inj (hcs.symm.trans hall)
  obtain ⟨t, _, heq⟩ := List.mem_map.mp (List.fst_mem_of_mem_zipIdx h)
  exact ⟨t, heq.symm⟩

/-- The files of the example are those of the three runs. -/
theorem crossed_pipeline (slv : Solver (Var (Node (Fin 2)))) :
    Pipeline crossedLegal Warshall.package slv crossedFacts crossedFiles
      fun _ _ _ _ => .unreachable := by
  have hset {aSet : List (Fin 2)} {i : Nat} (h : (aSet, i) ∈ crossedFacts.reachableSets.zipIdx) :
      aSet = [0, 1] ∧ i = 0 := Prod.mk.inj (List.mem_singleton.mp h)
  have hsetR (t : HbType) :
      (Seq.bool (crossedFacts.setR [0, 1])).Covered (observe (crossedRun t)) :=
    setR_covered fun p _ => (crossed_visit t p).firstEntry.visits
  refine ⟨?_, ?_, ?_, ?_, ?_⟩
  · intro aSet i h
    obtain ⟨rfl, rfl⟩ := hset h
    exact crossed_enterTodo slv
  · intro aSet i h _ c hc
    obtain ⟨rfl, rfl⟩ := hset h
    have hreached (t : HbType) : Reached crossedLegal (crossedFacts.setAssumes [0, 1])
        ((enterCoverName (.enter 0, .enter 1) t).seq (crossedFacts.setR [0, 1])) :=
      ⟨crossedRun t, ⟨t, rfl⟩, crossed_assumes t, enterCover_of_holds
        (fun p _ => (crossed_visit t p).firstEntry) (by decide) (by decide) (crossed_holds t)⟩
    have hcovers : c ∈ ([.gt, .eq, .lt].map fun t => (enterCoverName (.enter 0, .enter 1) t,
        (enterCoverName (.enter 0, .enter 1) t).seq (crossedFacts.setR [0, 1]))) ++
        [(.setR, .bool (crossedFacts.setR [0, 1]))] := hc
    rcases List.mem_append.mp hcovers with hc | hc
    · obtain ⟨t, _, rfl⟩ := List.mem_map.mp hc
      exact exactCover_of_reached (hreached t)
    · obtain rfl := List.mem_singleton.mp hc
      exact exactCover_of_reached ⟨crossedRun .gt, ⟨.gt, rfl⟩, crossed_assumes .gt, hsetR .gt⟩
  · intro aSet i h cs hcs comb j hj
    obtain ⟨rfl, rfl⟩ := hset h
    obtain ⟨t, rfl⟩ := crossed_comb hcs hj
    exact crossed_finalTodo slv t
  · intro aSet i h cs hcs comb j hj todo htodo file hfile
    obtain ⟨rfl, rfl⟩ := hset h
    obtain ⟨t, rfl⟩ := crossed_comb hcs hj
    obtain rfl : [] = todo := Option.some.inj htodo
    obtain rfl : LeaveOrder.setcoverFile crossedFacts [0, 1] [((.enter 0, .enter 1), t)] = file :=
      Option.some.inj hfile
    intro c hc
    obtain rfl := List.mem_singleton.mp hc
    have hassume := assumeEnter_holds (fun p (_ : p ∈ [(0 : Fin 2), 1]) => crossed_visit t p)
      (by decide) (by decide) (crossed_holds t)
    refine exactCover_of_reached ⟨crossedRun t, ⟨t, rfl⟩, ?_, hsetR t⟩
    exact (allHold_append _ _ _).mpr ⟨crossed_assumes t, by simpa using hassume⟩
  · intro aSet i h
    obtain ⟨rfl, rfl⟩ := hset h
    exact ⟨[], rfl, by simp⟩

end Crossed

end SynthLC.Summarize
