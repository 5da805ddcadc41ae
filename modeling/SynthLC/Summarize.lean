import SynthLC.ConstructPaths
import Mathlib.Data.List.Sort
import Mathlib.Data.String.Basic

/-! `xSummarize` (v2): reads the verdicts of the two scripts before it, keeps each different
execution path once and collects the follower sets of the locations. -/
namespace SynthLC.Summarize

open Sva Graph Smt Loop

variable {PL IID : Type}

section Read

variable [DecidableEq PL]

def hbName (f : Facts PL IID) (k : Node PL × Node PL) : String :=
  "CS_" ++ f.nodeName k.1 ++ "_hb_" ++ f.nodeName k.2

/-- Two covers whose verdict is not looked up. -/
def overridden (f : Facts PL IID) (k : Node PL × Node PL) : Bool :=
  hbName f k == "CS_load_unit_op_s2_hb_scb_3_s8" || hbName f k == "CS_load_unit_op_s2_hb_scb_2_s8"

def query (f : Facts PL IID) (csv : Csv PL) (k : Node PL × Node PL) (t : HbType) : Option Result :=
  if t = .gt ∧ overridden f k then some .undetermined else enterQuery csv k t

/-- The script prints `total_edges_possible` of a pair without a covered order; the pairs seen
with a verdict other than unreachable have an entry there. -/
def printable (query : Node PL × Node PL → HbType → Option Result) (hascover : Result → Bool) :
    List (Node PL × Node PL) → TodoFile PL → Bool
  | _, [] => true
  | total, line :: todo =>
    let res := line.2.filterMap (query line.1)
    let total := if res.any (· ≠ .unreachable) then line.1 :: total else total
    (res.any hascover || decide (line.1 ∈ total)) && printable query hascover total todo

/-- `comb_edges` -/
def combEdges (f : Facts PL IID) (todo : TodoFile PL) (csv : Csv PL) : Option (List (Comb PL)) := do
  let d ← readTodo (query f csv) todo
  if printable (query f csv) (fun r => r = .covered || r = .unreachable) [] todo then
    some (choices d) else none

/-- `comb_edges_final`, nothing if the set is not covered under the entering combination. -/
def combEdgesFinal (todo : TodoFile PL) (csv : Csv PL) : Option (List (Comb PL)) := do
  let d ← readTodo (finalQuery csv) todo
  if printable (finalQuery csv) (fun r => r = .covered) [] todo then do
    let res ← dfQuery (csv .setR)
    if ∀ e ∈ d, e.2.Nodup then
      if res = .covered then some (choices d) else some []
    else none
  else none

/-- A line with an order asked about can be printed while entering orders are read. -/
theorem printable_enter {q : Node PL × Node PL → HbType → Option Result} {todo : TodoFile PL}
    (hne : ∀ line ∈ todo, line.2 ≠ []) (hsome : ∀ x ∈ asked todo, (q x.1 x.2).isSome)
    (total : List (Node PL × Node PL)) :
    printable q (fun r => r = .covered || r = .unreachable) total todo = true := by
  induction todo generalizing total with
  | nil => rfl
  | cons line todo ih =>
    have hrest (total : List (Node PL × Node PL)) := ih (fun l hl => hne l (by simp [hl]))
      (fun x hx => hsome x (by simp [asked] at hx ⊢; exact .inr hx)) total
    obtain ⟨t, ht⟩ := List.exists_mem_of_ne_nil _ (hne line (by simp))
    obtain ⟨r, hr⟩ := Option.isSome_iff_exists.mp (hsome _ (mem_asked (by simp) ht))
    have hmem : r ∈ line.2.filterMap (q line.1) := List.mem_filterMap.mpr ⟨t, ht, hr⟩
    simp only [printable, hrest, Bool.and_true, Bool.or_eq_true, decide_eq_true_eq]
    -- the line has a decided order, or one that gives its pair an entry
    by_cases hdec : r = .covered ∨ r = .unreachable
    · exact .inl (List.any_eq_true.mpr ⟨r, hmem, by simpa using hdec⟩)
    · have hany : (line.2.filterMap (q line.1)).any (fun r => decide (r ≠ .unreachable)) = true :=
        List.any_eq_true.mpr ⟨r, hmem, by simpa using (not_or.mp hdec).2⟩
      refine .inr ?_
      rw [if_pos hany]
      exact List.mem_cons_self

/-- Verdicts that are not looked up make no difference if none of them was covered. -/
theorem readTodo_query_eq {f : Facts PL IID} {csv : Csv PL} {todo : TodoFile PL}
    (hsome : ∀ x ∈ asked todo, (enterQuery csv x.1 x.2).isSome)
    (hcond : ∀ k, (k, HbType.gt) ∈ asked todo → overridden f k = true →
      csv (.hb k.1 k.2) ≠ .covered) :
    readTodo (query f csv) todo = readTodo (enterQuery csv) todo := by
  refine readTodo_congr fun x hx => ?_
  obtain ⟨r, hr⟩ := Option.isSome_iff_exists.mp (hsome x hx)
  by_cases hover : x.2 = .gt ∧ overridden f x.1 = true
  · have hnot := hcond x.1 (hover.1 ▸ hx) hover.2
    refine ⟨.undetermined, r, if_pos hover, hr, by simp, ?_⟩
    intro hcov
    rw [hcov, hover.1] at hr
    exact absurd (dfQuery_covered.mp hr) hnot
  · exact ⟨r, r, by rw [← hr]; exact if_neg hover, hr, Iff.rfl⟩

/-- What `xSummarize` reads back without a failed assertion `xConstructPaths` reads too. -/
theorem combEdgesFinal_eq {todo : TodoFile PL} {csv : Csv PL} {cs : List (Comb PL)}
    (h : combEdgesFinal todo csv = some cs) : ConstructPaths.combEdgesFinal todo csv = some cs := by
  obtain ⟨d, hd, h⟩ := Option.bind_eq_some_iff.mp h
  have hrun : ConstructPaths.combEdgesFinal todo csv =
      (readTodo (finalQuery csv) todo).bind fun d => (dfQuery (csv .setR)).bind fun res =>
        if res = .covered then if ∀ e ∈ d, e.2.Nodup then some (choices d) else none
        else some [] := rfl
  split_ifs at h with _ hnd
  · obtain ⟨res, hres, h⟩ := Option.bind_eq_some_iff.mp h
    rw [hrun, hd, Option.bind_some, hres, Option.bind_some, if_pos hnd]
    exact h
  · obtain ⟨_, _, h⟩ := Option.bind_eq_some_iff.mp h
    cases h

end Read

section Numbers

variable [DecidableEq PL] [DecidableEq IID]

/-- `comb_edges` numbers the same combinations in the three scripts exactly if no covered
order is one whose verdict `xSummarize` does not look up. -/
theorem comb_numbers_agree_iff (pkg : Package (Node PL)) (slv : Solver (Var (Node PL)))
    (f : Facts PL IID) (setIdx : Nat) (aSet : List PL) (todo : TodoFile PL)
    (hgen : CollectReEval.gen pkg slv f setIdx aSet = some todo) (csv : Csv PL)
    (hrows : ∀ x ∈ asked todo, csv (enterCoverName x.1 x.2) ≠ .err) :
    ∃ combs combs', LeaveOrder.combEdges todo csv = some combs ∧
      ConstructPaths.combEdges todo csv = some combs ∧ combEdges f todo csv = some combs' ∧
      (combs' = combs ↔ ∀ k, (k, HbType.gt) ∈ asked todo → overridden f k = true →
        csv (.hb k.1 k.2) ≠ .covered) := by
  have hlines : ∀ line ∈ todo, line.2 ≠ [] := by
    obtain ⟨st, _, rfl⟩ := Option.map_eq_some_iff.mp hgen
    exact (todoInv_foldl _).ne_nil
  have hsome (x : (Node PL × Node PL) × HbType) (hx : x ∈ asked todo) :
      (enterQuery csv x.1 x.2).isSome := by
    simp [enterQuery, dfQuery, hrows x hx]
  have hsome' (x : (Node PL × Node PL) × HbType) (hx : x ∈ asked todo) :
      (query f csv x.1 x.2).isSome := by
    unfold query
    split_ifs
    · rfl
    · exact hsome x hx
  obtain ⟨d, hd⟩ := readTodo_some hsome
  obtain ⟨d', hd'⟩ := readTodo_some hsome'
  refine ⟨choices d, choices d', by simp [LeaveOrder.combEdges, hd],
    by simp [ConstructPaths.combEdges, hd], ?_, ?_⟩
  · simp only [combEdges, hd', printable_enter hlines hsome' []]
    rfl
  · constructor
    · intro heq k hask hover hcov
      -- a combination with the covered order is never built by the last script
      have hlisted : Lists d k .gt :=
        ((readTodo_spec hd).lists k .gt).mpr ⟨hask, dfQuery_covered.mpr hcov⟩
      obtain ⟨c, hc, hmem⟩ := exists_mem_choices (readTodo_spec hd).ne_nil hlisted
      rw [← heq] at hc
      have hread := ((readTodo_spec hd').lists k .gt).mp (lists_of_mem_choices hc hmem)
      simp [query, hover] at hread
    · intro hcond
      have hread := readTodo_query_eq hsome hcond
      rw [hd, hd'] at hread
      rw [Option.some.inj hread]

/-- Both scripts read back two orders of one pair. -/
theorem comb_numbers_agree_free :
    ∃ combs combs', LeaveOrder.combEdges [((.enter 0, .enter 1), [.gt, .eq])] (fun _ => .covered) =
        some combs ∧
      ConstructPaths.combEdges [((.enter 0, .enter 1), [.gt, .eq])] (fun _ => .covered) = some combs ∧
      combEdges (CollectReEval.freeFacts !["issue_s1", "mult_s1"] [(0, 1)])
        [((.enter 0, .enter 1), [.gt, .eq])] (fun _ => .covered) = some combs' ∧
      (combs' = combs ↔ ∀ k : Node (Fin 2) × Node (Fin 2),
        (k, HbType.gt) ∈ asked [((.enter 0, .enter 1), [.gt, .eq])] →
        overridden (CollectReEval.freeFacts !["issue_s1", "mult_s1"] [(0, 1)]) k = true →
        (fun _ => .covered : Csv (Fin 2)) (.hb k.1 k.2) ≠ .covered) :=
  comb_numbers_agree_iff Warshall.package Solver.classical _ 0 [0, 1] _
    (CollectReEval.free_gen _ _ (by decide)) (fun _ => .covered) (by simp)

/-- With one of the two names the first combination is the order `>` for the one script and
`=` for the other. -/
theorem overridden_shifts_numbers :
    CollectReEval.gen Warshall.package Solver.classical
        (CollectReEval.freeFacts !["load_unit_op_s2", "scb_3_s8"] [(0, 1)]) 0 [0, 1] =
      some [((.enter 0, .enter 1), [.gt, .eq])] ∧
    LeaveOrder.combEdges [((.enter 0, .enter 1), [.gt, .eq])] (fun _ => .covered) =
      some [[((.enter (0 : Fin 2), .enter 1), .gt)], [((.enter 0, .enter 1), .eq)]] ∧
    ConstructPaths.combEdges [((.enter 0, .enter 1), [.gt, .eq])] (fun _ => .covered) =
      some [[((.enter (0 : Fin 2), .enter 1), .gt)], [((.enter 0, .enter 1), .eq)]] ∧
    combEdges (CollectReEval.freeFacts !["load_unit_op_s2", "scb_3_s8"] [(0, 1)])
        [((.enter 0, .enter 1), [.gt, .eq])] (fun _ => .covered) =
      some [[((.enter 0, .enter 1), .eq)]] :=
  ⟨CollectReEval.free_gen _ _ (by decide), by decide, by decide, by decide⟩

end Numbers

variable [DecidableEq PL] [DecidableEq IID]

section Paths

/-- Tuples of names in the order of `sorted`. -/
def NameLe (f : Facts PL IID) (a b : Node PL × Node PL) : Prop :=
  f.nodeName a.1 < f.nodeName b.1 ∨
    f.nodeName a.1 = f.nodeName b.1 ∧ f.nodeName a.2 ≤ f.nodeName b.2

omit [DecidableEq PL] [DecidableEq IID] in
instance (f : Facts PL IID) : DecidableRel (NameLe f) := fun a b =>
  inferInstanceAs (Decidable (f.nodeName a.1 < f.nodeName b.1 ∨
    f.nodeName a.1 = f.nodeName b.1 ∧ f.nodeName a.2 ≤ f.nodeName b.2))

/-- `(plset_iso, edges_iso, concur_iso)` -/
structure PathKey (PL : Type) where
  nodes : List (Node PL)
  edges : List (Node PL × Node PL)
  concur : List (Node PL × Node PL)
  deriving DecidableEq

def sortPair (f : Facts PL IID) (e : Node PL × Node PL) : Node PL × Node PL :=
  if f.nodeName e.2 < f.nodeName e.1 then (e.2, e.1) else e

def concurIso (f : Facts PL IID) (tr : DiGraph (Node PL)) (c : Comb PL) :
    List (Node PL × Node PL) :=
  ((((LeaveOrder.solverPairs f c).filter fun e =>
    decide (e.1 ∈ tr.nodes) && decide (e.2 ∈ tr.nodes)).map (sortPair f)).foldl insertNew
      []).insertionSort (NameLe f)

def pathKey (f : Facts PL IID) (tr : DiGraph (Node PL)) (c : Comb PL) : PathKey PL where
  nodes := tr.nodes
  edges := tr.edges.insertionSort (NameLe f)
  concur := concurIso f tr c

/-- A kept path, with the combinations that its drawing is named after. -/
structure Path (PL : Type) where
  setIdx : Nat
  aSet : List PL
  comb : Comb PL
  final : Option (Comb PL)
  key : PathKey PL

/-- What is carried through the loops: the kept paths, `reachablePL_follower` and the variable
`TR`. -/
structure Summary (PL : Type) where
  paths : List (Path PL)
  follower : Node PL → List (Finset (Node PL))
  tr : DiGraph (Node PL)

/-- A covered entering combination with fixed leaving orders, and the summary it found. -/
structure Event (PL : Type) where
  setIdx : Nat
  aSet : List PL
  comb : Comb PL
  before : Summary PL

structure State (PL : Type) extends Summary PL where
  log : List (Event PL)

def addFollowers (fs : List (Node PL × Finset (Node PL))) (r : Node PL → List (Finset (Node PL)))
    (n : Node PL) : List (Finset (Node PL)) :=
  (fs.filter fun e => e.1 = n).foldl (fun vs e => insertNew vs e.2) (r n)

/-- `TR.add_edge(n, n___final)` for every location with both nodes. -/
def addStay (g : DiGraph (Node PL)) : Node PL → DiGraph (Node PL)
  | .enter p => if .final p ∈ g.nodes then g.addEdge (.enter p) (.final p) else g
  | .final _ => g

def withStays (tr : DiGraph (Node PL)) : DiGraph (Node PL) := tr.nodes.foldl addStay tr

/-- The second reduction and the successors of each node in it. -/
def followerSets (pkg : Package (Node PL)) (tr : DiGraph (Node PL)) :
    Option (DiGraph (Node PL) × List (Node PL × Finset (Node PL))) :=
  (pkg.transitiveReduction (withStays tr)).map fun tr =>
    (tr, tr.nodes.map fun n => (n, (tr.successors n).toFinset))

/-- Keep a new path and its follower sets. -/
def keep (pkg : Package (Node PL)) (s : Summary PL) (p : Path PL) (tr : DiGraph (Node PL)) :
    Option (Summary PL) := do
  let (tr, fs) ← followerSets pkg tr
  pure { paths := s.paths ++ [p], follower := addFollowers fs s.follower, tr := tr }

end Paths

section Gen

variable (pkg : Package (Node PL)) (slv : Solver (Var (Node PL))) (f : Facts PL IID)
  (files : OrderFiles PL)

/-- The graph of a set before any order is chosen; unsatisfiable constraints skip the set. -/
def baseGraph (setIdx : Nat) (aSet : List PL) : Option (DiGraph (Node PL) × Bool) := do
  let tr ← pkg.transitiveReduction (pathGraph f setIdx aSet [])
  let (r, _) ← (pathSolver f setIdx aSet [] tr).addConstraints .before slv {}
  pure (tr, decide (r = .sat))

/-- The graph of a combination with fixed leaving orders: its orders come after the final nodes,
so they imply no edge. -/
def fixedBuilding (setIdx : Nat) (aSet : List PL) (comb : Comb PL) : Building PL :=
  let b := twoLoops f setIdx .node (f.hbInside aSet) aSet
  { b with dg := b.dg.addEdges (orderEdges comb) }

def fixedGraph (setIdx : Nat) (aSet : List PL) (comb : Comb PL) : DiGraph (Node PL) :=
  finish f (fixedBuilding f setIdx aSet comb) (f.concurrentPairs ++ concurInComb comb)

/-- Body of the loop over entering combinations, leaving orders fixed: the key is taken from
whatever `TR` holds. -/
def keepFixed (setIdx : Nat) (aSet : List PL) (comb : Comb PL) (s : Summary PL) :
    Option (Summary PL) :=
  let key := pathKey f s.tr comb
  if key ∈ s.paths.map Path.key then some s
  else do
    let tr ← pkg.transitiveReduction (fixedGraph f setIdx aSet comb)
    let _ ← (f.solver setIdx aSet tr (fixedBuilding f setIdx aSet comb).implied
      (LeaveOrder.solverPairs f comb) (whbFinals f setIdx aSet)).addConstraints .before slv {}
    keep pkg s ⟨setIdx, aSet, comb, none, key⟩ tr

/-- `doplot`: nothing was asked for a combination without orders. -/
def doplot (csv : Csv PL) (comb : Comb PL) : Option Bool :=
  if comb = [] then some true else (dfQuery (csv .cSetr)).map fun res => decide (res = .covered)

def fixedStep (setIdx : Nat) (aSet : List PL) (csv : Csv PL) (comb : Comb PL) (st : State PL) :
    Option (State PL) := do
  if ← doplot csv comb then
    let s ← keepFixed pkg slv f setIdx aSet comb st.toSummary
    pure { s with log := st.log ++ [⟨setIdx, aSet, comb, st.toSummary⟩] }
  else some st

/-- Leaving orders open: the key is taken from the graph just checked. -/
def keepOpen (setIdx : Nat) (aSet : List PL) (comb : Comb PL) (s : Summary PL) (c : Comb PL) :
    Option (DiGraph (Node PL) × Bool) → Option (Summary PL)
  | some (tr, true) =>
    let key := pathKey f tr (comb ++ c)
    if key ∈ s.paths.map Path.key then some { s with tr := tr }
    else keep pkg s ⟨setIdx, aSet, comb, some c, key⟩ tr
  | some (tr, false) => some { s with tr := tr }
  | none => some s

/-- Body of the loop over leaving combinations. -/
def openStep (setIdx : Nat) (aSet : List PL) (comb : Comb PL) (s : Summary PL) (c : Comb PL) :
    Option (Summary PL) := do
  keepOpen pkg f setIdx aSet comb s c (← checkPath pkg slv f setIdx aSet (comb ++ c))

def combStep (setIdx : Nat) (aSet : List PL) (st : State PL) (item : Comb PL × Nat) :
    Option (State PL) :=
  let (comb, combidx) := item
  match files.finalTodo setIdx combidx with
  | none => some st
  | some [] => fixedStep pkg slv f setIdx aSet (files.finalCsv setIdx combidx) comb st
  | some todo => do
    let combs ← combEdgesFinal todo (files.finalCsv setIdx combidx)
    let s ← combs.foldlM (openStep pkg slv f setIdx aSet comb) st.toSummary
    pure { s with log := st.log }

def setStep (st : State PL) (item : List PL × Nat) : Option (State PL) := do
  let (aSet, setIdx) := item
  let combs ← combEdges f (files.enterTodo setIdx) (files.enterCsv setIdx)
  let (tr, sat) ← baseGraph pkg slv f setIdx aSet
  if sat then
    combs.zipIdx.foldlM (combStep pkg slv f files setIdx aSet) { st with tr := tr }
  else some { st with tr := tr }

def start : State PL := { paths := [], follower := fun _ => [], tr := DiGraph.empty, log := [] }

def gen : Option (State PL) := f.reachableSets.zipIdx.foldlM (setStep pkg slv f files) start

end Gen

section Dedup

variable (pkg : Package (Node PL)) (f : Facts PL IID)

/-- Two reductions with the same nodes and the same edges. -/
def SameGraph (g h : DiGraph (Node PL)) : Prop := g.nodes = h.nodes ∧ ∀ e, e ∈ g.edges ↔ e ∈ h.edges

/-- Reduction of the graph of the path's own combinations. -/
def Path.reduction (p : Path PL) : Option (DiGraph (Node PL)) :=
  match p.final with
  | none => pkg.transitiveReduction (fixedGraph f p.setIdx p.aSet p.comb)
  | some c => pkg.transitiveReduction (pathGraph f p.setIdx p.aSet (p.comb ++ c))

def Path.orders (p : Path PL) : Comb PL := p.comb ++ p.final.getD []

def Event.reduction (ev : Event PL) : Option (DiGraph (Node PL)) :=
  pkg.transitiveReduction (fixedGraph f ev.setIdx ev.aSet ev.comb)

/-- The combination is found `in here already`. -/
def Event.Discarded (ev : Event PL) : Prop :=
  pathKey f ev.before.tr ev.comb ∈ ev.before.paths.map Path.key

instance (ev : Event PL) : Decidable (ev.Discarded f) :=
  inferInstanceAs (Decidable (pathKey f ev.before.tr ev.comb ∈ ev.before.paths.map Path.key))

/-- The variable `TR` holds the reduction of the combination's own graph. -/
def Event.OwnGraph (ev : Event PL) : Prop :=
  ∃ tr, ev.reduction pkg f = some tr ∧ SameGraph ev.before.tr tr

/-- A kept path has the nodes, reduced edges and simultaneous pairs of the combination, and
the follower sets of the combination are all there. -/
def Event.Duplicate (ev : Event PL) : Prop :=
  ∃ p ∈ ev.before.paths, ∃ tr tr', ev.reduction pkg f = some tr ∧ p.reduction pkg f = some tr' ∧
    SameGraph tr tr' ∧ concurIso f tr ev.comb = concurIso f tr' p.orders ∧
    ∃ fs, followerSets pkg tr = some fs ∧ ∀ e ∈ fs.2, e.2 ∈ ev.before.follower e.1

/-- The key of a kept path is that of its own graph, and its follower sets were collected. -/
def KeptOwn (s : Summary PL) : Prop :=
  ∀ p ∈ s.paths, ∃ tr, p.reduction pkg f = some tr ∧ p.key.nodes = tr.nodes ∧
    (∀ e, e ∈ p.key.edges ↔ e ∈ tr.edges) ∧ p.key.concur = concurIso f tr p.orders ∧
    ∃ fs, followerSets pkg tr = some fs ∧ ∀ e ∈ fs.2, e.2 ∈ s.follower e.1

section Followers

variable {pkg : Package (Node PL)} {g h : DiGraph (Node PL)} {n : Node PL}

omit [DecidableEq IID] in
theorem nodes_addStay (hn : n ∈ g.nodes) : (addStay g n).nodes = g.nodes := by
  cases n with
  | enter p =>
    simp only [addStay]
    split_ifs with hfinal
    · exact DiGraph.nodes_addEdge_of_mem hn hfinal
    · rfl
  | final p => rfl

omit [DecidableEq IID] in
theorem mem_edges_addStay {e : Node PL × Node PL} : e ∈ (addStay g n).edges ↔
    e ∈ g.edges ∨ ∃ p, n = .enter p ∧ .final p ∈ g.nodes ∧ e = (.enter p, .final p) := by
  cases n with
  | enter p =>
    simp only [addStay, Node.enter.injEq]
    split_ifs with hfinal
    · rw [DiGraph.mem_edges_addEdge]
      apply or_congr_right
      constructor
      · intro he
        exact ⟨p, rfl, hfinal, he⟩
      · intro he
        obtain ⟨q, rfl, _, he⟩ := he
        exact he
    · constructor
      · exact Or.inl
      · intro he
        rcases he with he | ⟨q, rfl, hq, _⟩
        · exact he
        · exact absurd hq hfinal
  | final p => simp [addStay]

omit [DecidableEq IID] in
theorem foldl_addStay (ns : List (Node PL)) (hns : ∀ n ∈ ns, n ∈ g.nodes) :
    (ns.foldl addStay g).nodes = g.nodes ∧ ∀ e, e ∈ (ns.foldl addStay g).edges ↔
      e ∈ g.edges ∨ ∃ p, .enter p ∈ ns ∧ .final p ∈ g.nodes ∧ e = (.enter p, .final p) := by
  induction ns generalizing g with
  | nil => simp
  | cons n ns ih =>
    have hsame := nodes_addStay (hns n (by simp))
    obtain ⟨hnodes, hedges⟩ := ih (g := addStay g n) (fun x hx => by
      rw [hsame]
      exact hns x (by simp [hx]))
    refine ⟨by rw [List.foldl_cons, hnodes, hsame], fun e => ?_⟩
    rw [List.foldl_cons, hedges, mem_edges_addStay, hsame]
    simp only [List.mem_cons, or_and_right, exists_or, or_assoc, eq_comm (a := n)]

omit [DecidableEq IID] in
/-- Follower sets only depend on the nodes and edges of the reduction. -/
theorem followerSets_congr (hsame : SameGraph g h)
    {fs : DiGraph (Node PL) × List (Node PL × Finset (Node PL))} (hfs : followerSets pkg g = some fs) :
    ∃ fs', followerSets pkg h = some fs' ∧ fs'.2 = fs.2 := by
  obtain ⟨r, hr, rfl⟩ := Option.map_eq_some_iff.mp hfs
  have hg := foldl_addStay g.nodes (g := g) fun _ hn => hn
  have hh := foldl_addStay h.nodes (g := h) fun _ hn => hn
  have hedges (e : Node PL × Node PL) : e ∈ (withStays g).edges ↔ e ∈ (withStays h).edges := by
    unfold withStays
    rw [hg.2, hh.2, hsame.1, hsame.2]
  have hacyclic : (withStays g).Acyclic :=
    (pkg.reduction_isSome _).mp (Option.isSome_iff_exists.mpr ⟨r, hr⟩)
  obtain ⟨r', hr'⟩ := Option.isSome_iff_exists.mp
    ((pkg.reduction_isSome _).mpr (hacyclic.congr hedges))
  refine ⟨_, Option.map_eq_some_iff.mpr ⟨r', hr', rfl⟩, ?_⟩
  have hnodes : r'.nodes = r.nodes := by
    rw [pkg.reduction_nodes _ _ hr', pkg.reduction_nodes _ _ hr, withStays, withStays, hh.1, hg.1,
      hsame.1]
  dsimp only
  rw [hnodes]
  apply List.map_congr_left
  intro n _
  congr 1
  ext v
  rw [List.mem_toFinset, List.mem_toFinset, DiGraph.mem_successors, DiGraph.mem_successors,
    pkg.reduction_edges _ _ hr', pkg.reduction_edges _ _ hr]
  exact (DiGraph.Reduced.congr hedges).symm

omit [DecidableEq IID] in
theorem mem_addFollowers {fs : List (Node PL × Finset (Node PL))}
    {r : Node PL → List (Finset (Node PL))} {v : Finset (Node PL)} :
    v ∈ addFollowers fs r n ↔ v ∈ r n ∨ (n, v) ∈ fs := by
  have hfold (es : List (Node PL × Finset (Node PL))) (vs : List (Finset (Node PL))) :
      v ∈ es.foldl (fun vs e => insertNew vs e.2) vs ↔ v ∈ vs ∨ ∃ e ∈ es, e.2 = v := by
    induction es generalizing vs with
    | nil => simp
    | cons e es ih =>
      rw [List.foldl_cons, ih, mem_insertNew]
      simp only [List.mem_cons, exists_eq_or_imp, or_assoc, eq_comm (a := v)]
  rw [addFollowers, hfold]
  apply or_congr_right
  simp only [List.mem_filter, decide_eq_true_eq, Prod.exists]
  constructor
  · intro h
    obtain ⟨m, w, ⟨hmem, rfl⟩, rfl⟩ := h
    exact hmem
  · intro h
    exact ⟨n, v, ⟨h, rfl⟩, rfl⟩

end Followers

section Steps

variable {pkg : Package (Node PL)} {slv : Solver (Var (Node PL))} {f : Facts PL IID}
  {files : OrderFiles PL} {g h tr : DiGraph (Node PL)} {s s' : Summary PL}
  {setIdx : Nat} {aSet : List PL} {comb : Comb PL}

omit [DecidableEq IID] in
theorem concurIso_congr (hnodes : g.nodes = h.nodes) (c : Comb PL) :
    concurIso f g c = concurIso f h c := by
  simp only [concurIso, hnodes]

omit [DecidableEq IID] in
theorem mem_pathKey_edges {c : Comb PL} {e : Node PL × Node PL} :
    e ∈ (pathKey f g c).edges ↔ e ∈ g.edges :=
  (List.perm_insertionSort (NameLe f) g.edges).mem_iff

/-- Keeping a path under the key of its own graph. -/
theorem KeptOwn.keep (hs : KeptOwn pkg f s) (p : Path PL) (hred : p.reduction pkg f = some tr)
    (hsame : SameGraph g tr) (hkey : p.key = pathKey f g p.orders)
    (hkeep : Summarize.keep pkg s p tr = some s') : KeptOwn pkg f s' := by
  obtain ⟨⟨tr2, fs⟩, hfs, heq⟩ := Option.bind_eq_some_iff.mp hkeep
  obtain rfl := Option.some.inj heq
  intro q hq
  rcases List.mem_append.mp hq with hq | hq
  · obtain ⟨tr', hred', hnodes, hedges, hconcur, fs', hfs', hin⟩ := hs q hq
    refine ⟨tr', hred', hnodes, hedges, hconcur, fs', hfs', ?_⟩
    intro e he
    exact mem_addFollowers.mpr (.inl (hin e he))
  · obtain rfl := List.mem_singleton.mp hq
    refine ⟨tr, hred, ?_, ?_, ?_, (tr2, fs), hfs, ?_⟩
    · rw [hkey]
      exact hsame.1
    · intro e
      rw [hkey, mem_pathKey_edges, hsame.2]
    · rw [hkey]
      exact concurIso_congr hsame.1 _
    · intro e he
      exact mem_addFollowers.mpr (.inr he)

theorem KeptOwn.openStep {c : Comb PL} (hs : KeptOwn pkg f s)
    (hstep : openStep pkg slv f setIdx aSet comb s c = some s') : KeptOwn pkg f s' := by
  obtain ⟨res, hres, hstep⟩ := Option.bind_eq_some_iff.mp hstep
  match res, hres, hstep with
  | none, _, hstep =>
    obtain rfl := Option.some.inj hstep
    exact hs
  | some (tr, false), _, hstep =>
    obtain rfl := Option.some.inj hstep
    exact hs
  | some (tr, true), hres, hstep =>
    simp only [keepOpen] at hstep
    split_ifs at hstep
    · obtain rfl := Option.some.inj hstep
      exact hs
    · exact hs.keep ⟨setIdx, aSet, comb, some c, _⟩ (checkPath_reduction hres)
        ⟨rfl, fun _ => Iff.rfl⟩ rfl hstep

theorem KeptOwn.keepFixed {ev : Event PL} (hown : ev.OwnGraph pkg f) (hs : KeptOwn pkg f ev.before)
    (hstep : keepFixed pkg slv f ev.setIdx ev.aSet ev.comb ev.before = some s') :
    KeptOwn pkg f s' := by
  obtain ⟨tr, hred, hsame⟩ := hown
  unfold Summarize.keepFixed at hstep
  dsimp only at hstep
  split_ifs at hstep
  · obtain rfl := Option.some.inj hstep
    exact hs
  · obtain ⟨tr', hred', hstep⟩ := Option.bind_eq_some_iff.mp hstep
    obtain ⟨_, _, hstep⟩ := Option.bind_eq_some_iff.mp hstep
    obtain rfl : tr = tr' := Option.some.inj (hred.symm.trans hred')
    refine hs.keep ⟨ev.setIdx, ev.aSet, ev.comb, none, _⟩ hred hsame ?_ hstep
    simp [Path.orders]

/-- A path found under the key of the combination is a true duplicate. -/
theorem KeptOwn.duplicate {ev : Event PL} (hs : KeptOwn pkg f ev.before)
    (hown : ev.OwnGraph pkg f) (hdisc : ev.Discarded f) : ev.Duplicate pkg f := by
  obtain ⟨tr, hred, hsame⟩ := hown
  obtain ⟨p, hp, hkey⟩ := List.mem_map.mp hdisc
  obtain ⟨tr', hred', hnodes, hedges, hconcur, fs, hfs, hin⟩ := hs p hp
  have htwo : SameGraph tr tr' := by
    refine ⟨?_, fun e => ?_⟩
    · rw [← hnodes, hkey, ← hsame.1]
      rfl
    · rw [← hedges, hkey, mem_pathKey_edges, hsame.2]
  have hback : SameGraph tr' tr := ⟨htwo.1.symm, fun e => (htwo.2 e).symm⟩
  obtain ⟨fs', hfs', heq⟩ := followerSets_congr hback hfs
  refine ⟨p, hp, tr, tr', hred, hred', htwo, ?_, fs', hfs', ?_⟩
  · rw [← hconcur, hkey]
    exact concurIso_congr hsame.1.symm _
  · rw [heq]
    exact hin

/-- Holds while every combination so far was compared under its own graph. -/
def DedupInv (pkg : Package (Node PL)) (f : Facts PL IID) (st : State PL) : Prop :=
  (∀ ev ∈ st.log, ev.OwnGraph pkg f) →
    KeptOwn pkg f st.toSummary ∧ ∀ ev ∈ st.log, ev.Discarded f → ev.Duplicate pkg f

theorem DedupInv.fixedStep {csv : Csv PL} {st st' : State PL} (hst : DedupInv pkg f st)
    (hstep : fixedStep pkg slv f setIdx aSet csv comb st = some st') : DedupInv pkg f st' := by
  obtain ⟨plot, _, hstep⟩ := Option.bind_eq_some_iff.mp hstep
  split_ifs at hstep
  · obtain ⟨s', hs', hstep⟩ := Option.bind_eq_some_iff.mp hstep
    obtain rfl := Option.some.inj hstep
    intro hlog
    have hown := hlog ⟨setIdx, aSet, comb, st.toSummary⟩ (by simp)
    obtain ⟨hkept, hdup⟩ := hst fun ev hev => hlog ev (by simp [hev])
    refine ⟨KeptOwn.keepFixed hown hkept hs', ?_⟩
    intro ev hev hdisc
    rcases List.mem_append.mp hev with hev | hev
    · exact hdup ev hev hdisc
    · obtain rfl := List.mem_singleton.mp hev
      exact hkept.duplicate hown hdisc
  · obtain rfl := Option.some.inj hstep
    exact hst

theorem DedupInv.combStep {item : Comb PL × Nat} {st st' : State PL} (hst : DedupInv pkg f st)
    (hstep : combStep pkg slv f files setIdx aSet st item = some st') : DedupInv pkg f st' := by
  obtain ⟨comb, combidx⟩ := item
  unfold Summarize.combStep at hstep
  dsimp only at hstep
  split at hstep
  · obtain rfl := Option.some.inj hstep
    exact hst
  · exact hst.fixedStep hstep
  · obtain ⟨combs, _, hstep⟩ := Option.bind_eq_some_iff.mp hstep
    obtain ⟨s', hs', hstep⟩ := Option.bind_eq_some_iff.mp hstep
    obtain rfl := Option.some.inj hstep
    intro hlog
    obtain ⟨hkept, hdup⟩ := hst hlog
    exact ⟨foldlM_inv (P := KeptOwn pkg f) (fun _ _ _ _ hs h => hs.openStep h) hkept hs', hdup⟩

theorem DedupInv.setStep {item : List PL × Nat} {st st' : State PL} (hst : DedupInv pkg f st)
    (hstep : setStep pkg slv f files st item = some st') : DedupInv pkg f st' := by
  obtain ⟨combs, _, hstep⟩ := Option.bind_eq_some_iff.mp hstep
  obtain ⟨⟨tr, sat⟩, _, hstep⟩ := Option.bind_eq_some_iff.mp hstep
  dsimp only at hstep
  split_ifs at hstep
  · have hbase : DedupInv pkg f { st with tr := tr } := hst
    exact foldlM_inv (P := DedupInv pkg f) (fun _ _ _ _ hs h => hs.combStep h) hbase hstep
  · obtain rfl := Option.some.inj hstep
    exact hst

/-- If the variable `TR` holds the graph of every covered combination with fixed leaving orders
when it is looked up, only duplicates of kept paths are discarded. -/
theorem discarded_duplicate {st : State PL} (hrun : gen pkg slv f files = some st)
    (hown : ∀ ev ∈ st.log, ev.OwnGraph pkg f) :
    ∀ ev ∈ st.log, ev.Discarded f → ev.Duplicate pkg f := by
  have hstart : DedupInv pkg f start := by
    intro _
    refine ⟨?_, ?_⟩
    · intro p hp
      cases hp
    · intro ev hev
      cases hev
  exact (foldlM_inv (P := DedupInv pkg f) (fun _ _ _ _ hs h => hs.setStep h) hstart hrun hown).2

theorem ownGraph_of_eq {ev : Event PL} (h : (ev.reduction pkg f).map
    (fun tr => (tr.nodes, tr.edges)) = some (ev.before.tr.nodes, ev.before.tr.edges)) :
    ev.OwnGraph pkg f := by
  obtain ⟨tr, hred, heq⟩ := Option.map_eq_some_iff.mp h
  obtain ⟨hnodes, hedges⟩ := Prod.mk.inj heq
  exact ⟨tr, hred, hnodes.symm, fun e => by rw [hedges]⟩

/-- An edge of the combination that no kept path has. -/
theorem not_duplicate {ev : Event PL} {e : Node PL × Node PL}
    (hown : (ev.reduction pkg f).map (fun tr => decide (e ∈ tr.edges)) = some true)
    (hkept : ∀ p ∈ ev.before.paths,
      (p.reduction pkg f).map (fun tr => decide (e ∈ tr.edges)) = some false) :
    ¬ev.Duplicate pkg f := by
  intro hdup
  obtain ⟨p, hp, tr, tr', hred, hred', hsame, -⟩ := hdup
  have hedge : e ∈ tr.edges := by simpa [hred] using hown
  have hno : e ∉ tr'.edges := by simpa [hred'] using hkept p hp
  exact hno ((hsame.2 e).mp hedge)

/-- A set with satisfiable constraints is not skipped. -/
theorem baseGraph_of_satisfied {val : Node PL → Int}
    (hred : pkg.transitiveReduction (pathGraph f setIdx aSet []) = some tr)
    (hweight : ∀ e ∈ tr.edges, f.edgeWeight setIdx aSet e ≠ some [])
    (hsat : (pathSolver f setIdx aSet [] tr).Satisfied .before val) :
    baseGraph pkg slv f setIdx aSet = some (tr, true) := by
  obtain ⟨st, hst, _, hext⟩ := MySolver.extends_of_satisfied MySolver.fresh_start
    (MySolver.extends_start _) hweight hsat
  have hrun : baseGraph pkg slv f setIdx aSet =
      (pkg.transitiveReduction (pathGraph f setIdx aSet [])).bind fun tr =>
        (((pathSolver f setIdx aSet [] tr).assertAll .before {}).map fun st =>
          (slv.check st.assertions, st)).bind fun r => some (tr, decide (r.1 = .sat)) := rfl
  rw [hrun, hred, Option.bind_some, hst, Option.map_some, Option.bind_some,
    MySolver.check_of_extends hext]
  rfl

/-- A set without proven orders has none to violate. -/
theorem baseGraph_of_edges_eq_nil (hedges : (pathGraph f setIdx aSet []).edges = [])
    (hred : pkg.transitiveReduction (pathGraph f setIdx aSet []) = some tr) :
    baseGraph pkg slv f setIdx aSet = some (tr, true) := by
  have hnone (e : Node PL × Node PL) : e ∉ tr.edges := by
    intro he
    have hmem := ((pkg.reduction_edges _ _ hred e.1 e.2).mp he).1
    rw [hedges] at hmem
    cases hmem
  have hsat : (pathSolver f setIdx aSet [] tr).Satisfied .before fun _ => 0 :=
    ⟨fun e he => absurd he (hnone e), fun _ _ _ _ => le_rfl, fun _ _ _ _ => rfl⟩
  exact baseGraph_of_satisfied hred (fun e he => absurd he (hnone e)) hsat

theorem setStep_of_baseGraph {combs : List (Comb PL)} {st : State PL}
    (hcombs : combEdges f (files.enterTodo setIdx) (files.enterCsv setIdx) = some combs)
    (hbase : baseGraph pkg slv f setIdx aSet = some (tr, true)) :
    setStep pkg slv f files st (aSet, setIdx) =
      combs.zipIdx.foldlM (combStep pkg slv f files setIdx aSet) { st with tr := tr } := by
  rw [setStep, hcombs, hbase]
  rfl

theorem setStep_of_edges_eq_nil {combs : List (Comb PL)} {st : State PL}
    (hcombs : combEdges f (files.enterTodo setIdx) (files.enterCsv setIdx) = some combs)
    (hedges : (pathGraph f setIdx aSet []).edges = []) :
    setStep Warshall.package slv f files st (aSet, setIdx) =
      combs.zipIdx.foldlM (combStep Warshall.package slv f files setIdx aSet)
        { st with tr := Warshall.reduce (pathGraph f setIdx aSet []) } := by
  have hred : Warshall.package.transitiveReduction (pathGraph f setIdx aSet []) =
      some (Warshall.reduce (pathGraph f setIdx aSet [])) :=
    Warshall.transitiveReduction_eq
      ((Warshall.onCycle_eq_nil _).mpr (DiGraph.acyclic_of_edges_eq_nil hedges))
  exact setStep_of_baseGraph hcombs (baseGraph_of_edges_eq_nil hedges hred)

end Steps

/-- Two combinations of one set never have the same graph, so that a true duplicate needs a set that
is listed twice. Here it has two combinations, and the check of the first is left open. -/
def repeatedFacts : Facts (Fin 2) (Fin 2) :=
  { CollectReEval.freeFacts !["issue_s1", "mult_s1"] [(0, 1)] with
    reachableSets := [[0, 1], [0, 1]] }

def repeatedFiles : OrderFiles (Fin 2) where
  enterTodo := fun _ => [((.enter 0, .enter 1), [.gt, .eq])]
  enterCsv := fun _ _ => .covered
  finalTodo := fun _ _ => some []
  finalCsv := fun _ j _ => if j = 0 then .undetermined else .covered

def repeatedCombs : List (Comb (Fin 2) × Nat) :=
  [([((.enter 0, .enter 1), .gt)], 0), ([((.enter 0, .enter 1), .eq)], 1)]

theorem repeated_gen (slv : Solver (Var (Node (Fin 2)))) :
    gen Warshall.package slv repeatedFacts repeatedFiles =
      (repeatedCombs.foldlM (combStep Warshall.package slv repeatedFacts repeatedFiles 0 [0, 1])
        { start with tr := Warshall.reduce (pathGraph repeatedFacts 0 [0, 1] []) }).bind fun st =>
      (repeatedCombs.foldlM (combStep Warshall.package slv repeatedFacts repeatedFiles 1 [0, 1])
        { st with tr := Warshall.reduce (pathGraph repeatedFacts 1 [0, 1] []) }).bind some := by
  have hrun : gen Warshall.package slv repeatedFacts repeatedFiles =
      (setStep Warshall.package slv repeatedFacts repeatedFiles start ([0, 1], 0)).bind fun st =>
        (setStep Warshall.package slv repeatedFacts repeatedFiles st ([0, 1], 1)).bind some := rfl
  have hcombs (i : Nat) : combEdges repeatedFacts (repeatedFiles.enterTodo i)
      (repeatedFiles.enterCsv i) = some (repeatedCombs.map Prod.fst) := by
    show combEdges repeatedFacts [((.enter 0, .enter 1), [.gt, .eq])] (fun _ => .covered) = _
    decide
  rw [hrun, setStep_of_edges_eq_nil (hcombs 0) (by decide +kernel)]
  congr 1
  funext st
  rw [setStep_of_edges_eq_nil (hcombs 1) (by decide +kernel)]
  rfl

theorem repeated_check : (gen Warshall.package Solver.classical repeatedFacts repeatedFiles).map
    (fun st => (st.log.any fun ev => decide (ev.Discarded repeatedFacts)) &&
      st.log.all fun ev => decide ((ev.reduction Warshall.package repeatedFacts).map
        (fun tr => (tr.nodes, tr.edges)) = some (ev.before.tr.nodes, ev.before.tr.edges))) =
    some true := by
  rw [repeated_gen]
  decide +kernel

theorem repeated_duplicate : ∃ st,
    gen Warshall.package Solver.classical repeatedFacts repeatedFiles = some st ∧
    (∃ ev ∈ st.log, ev.Discarded repeatedFacts) ∧
    ∀ ev ∈ st.log, ev.Discarded repeatedFacts → ev.Duplicate Warshall.package repeatedFacts := by
  obtain ⟨st, hst, hcheck⟩ := Option.map_eq_some_iff.mp repeated_check
  simp only [Bool.and_eq_true, List.any_eq_true, List.all_eq_true, decide_eq_true_eq] at hcheck
  obtain ⟨hdisc, hown⟩ := hcheck
  exact ⟨st, hst, hdisc, discarded_duplicate hst fun ev hev => ownGraph_of_eq (hown ev hev)⟩

/-- Two locations whose first cycles can be in any order. -/
def crossedFacts : Facts (Fin 2) (Fin 2) :=
  CollectReEval.freeFacts !["issue_s1", "mult_s1"] [(0, 1), (1, 0)]

/-- Every order of the two locations is covered and none has a leaving order to ask. -/
def crossedFiles : OrderFiles (Fin 2) where
  enterTodo := fun _ => [((.enter 0, .enter 1), [.gt, .eq, .lt])]
  enterCsv := fun _ _ => .covered
  finalTodo := fun _ _ => some []
  finalCsv := fun _ _ _ => .covered

theorem crossed_gen (slv : Solver (Var (Node (Fin 2)))) :
    gen Warshall.package slv crossedFacts crossedFiles =
      ([([((.enter 0, .enter 1), .gt)], 0), ([((.enter 0, .enter 1), .eq)], 1),
        ([((.enter 0, .enter 1), .lt)], 2)].foldlM
        (combStep Warshall.package slv crossedFacts crossedFiles 0 [0, 1])
        { start with tr := Warshall.reduce (pathGraph crossedFacts 0 [0, 1] []) }).bind some := by
  have hrun : gen Warshall.package slv crossedFacts crossedFiles =
      (setStep Warshall.package slv crossedFacts crossedFiles start ([0, 1], 0)).bind some := rfl
  have hcombs : combEdges crossedFacts (crossedFiles.enterTodo 0) (crossedFiles.enterCsv 0) =
      some [[((.enter 0, .enter 1), .gt)], [((.enter 0, .enter 1), .eq)],
        [((.enter 0, .enter 1), .lt)]] := by decide
  rw [hrun, setStep_of_edges_eq_nil hcombs (by decide +kernel)]
  rfl

theorem crossed_check : (gen Warshall.package Solver.classical crossedFacts crossedFiles).map
    (fun st => decide ({.enter 0} ∉ st.follower (.enter 1)) && st.log.any fun ev =>
      decide (ev.comb = [((.enter 0, .enter 1), .lt)]) && decide (ev.Discarded crossedFacts) &&
      decide ((ev.reduction Warshall.package crossedFacts).map
        (fun tr => decide ((.enter 1, .enter 0) ∈ tr.edges)) = some true) &&
      ev.before.paths.all fun p => decide ((p.reduction Warshall.package crossedFacts).map
        (fun tr => decide ((.enter 1, .enter 0) ∈ tr.edges)) = some false)) = some true := by
  rw [crossed_gen]
  decide +kernel

/-- The third order is looked up under the graph of the second and found under the key that
the first was kept with; the first location is never collected as a follower of the second. -/
theorem crossed_discarded : ∃ st,
    gen Warshall.package Solver.classical crossedFacts crossedFiles = some st ∧
    ∃ ev ∈ st.log, ev.comb = [((.enter 0, .enter 1), .lt)] ∧ ev.Discarded crossedFacts ∧
      ¬ev.Duplicate Warshall.package crossedFacts ∧ {.enter 0} ∉ st.follower (.enter 1) := by
  obtain ⟨st, hst, hcheck⟩ := Option.map_eq_some_iff.mp crossed_check
  simp only [Bool.and_eq_true, List.any_eq_true, List.all_eq_true, decide_eq_true_eq] at hcheck
  obtain ⟨hfollow, ev, hev, ⟨⟨hcomb, hdisc⟩, hown⟩, hkept⟩ := hcheck
  exact ⟨st, hst, ev, hev, hcomb, hdisc, not_duplicate hown hkept, hfollow⟩

end Dedup

end SynthLC.Summarize
