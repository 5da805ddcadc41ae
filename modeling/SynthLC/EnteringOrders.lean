import SynthLC.Complete
import SynthLC.Realised

/-! The entering orders of a set: which of the possible ones `xCollectReEval` asks about, and how
the combinations of the answers divide the runs of the set. -/
namespace SynthLC

open Sva Graph Smt Loop

variable {PL IID : Type} [DecidableEq PL] [DecidableEq IID]

section Asked

/-- The constraints have a solution with the order. -/
def Possible (st : SolverState (Node PL)) (x : (Node PL × Node PL) × HbType) : Prop :=
  ∃ val, MySolver.Extends val st ∧ OrderHolds val x

/-- Every solution has the first node before the second. -/
def Implied (st : SolverState (Node PL)) (e : Node PL × Node PL) : Prop :=
  ∀ val, MySolver.Extends val st → val e.1 < val e.2

/-- The order in a todo file, under whichever name of the pair sorts first. -/
def ListsOrder (todo : TodoFile PL) : (Node PL × Node PL) × HbType → Prop
  | (k, .gt) => Lists todo k .gt ∨ Lists todo (k.2, k.1) .lt
  | (k, .lt) => Lists todo k .lt ∨ Lists todo (k.2, k.1) .gt
  | (k, .eq) => Lists todo k .eq ∨ Lists todo (k.2, k.1) .eq

variable {pkg : Package (Node PL)} {slv : Solver (Var (Node PL))} {f : Facts PL IID} {setIdx : Nat}
  {aSet : List PL} {st : SolverState (Node PL)} {es : List (Node PL × Node PL)}
  {todo : TodoFile PL} {k : Node PL × Node PL}

omit [DecidableEq PL] [DecidableEq IID] in
/-- An order is listed if it is asked about, equality with either of the two. -/
theorem TodoInv.listsOrder_iff (h : TodoInv f es todo) (t : HbType) :
    ListsOrder todo (k, t) ↔ AskedAs (· ∈ es) (k, t) := by
  have hbefore (k : Node PL × Node PL) : Lists todo k .gt ∨ Lists todo (k.2, k.1) .lt ↔ k ∈ es := by
    rw [h.lists_gt, h.lists_lt, ← and_or_left, and_iff_left (em _)]
  cases t with
  | gt => exact hbefore k
  | lt => exact or_comm.trans (hbefore (k.2, k.1))
  | eq =>
    change Lists todo k .eq ∨ Lists todo (k.2, k.1) .eq ↔ k ∈ es ∨ (k.2, k.1) ∈ es
    rw [h.lists_eq, h.lists_eq, h.mem_keys, h.mem_keys, ← hbefore k, ← hbefore (k.2, k.1)]
    tauto

/-- A pair that nothing settles is asked about in the direction of an edge of the data flow graph,
if the constraints allow that. -/
theorem enterAsked_iff (hst : CollectReEval.setupSolver pkg slv f setIdx aSet = some st) {p q : PL}
    (hp : p ∈ aSet) (hq : q ∈ aSet)
    (htc : ¬((.enter p, .enter q) ∈
        (pkg.transitiveClosure (CollectReEval.orderGraph f setIdx aSet)).edges ∨
      (.enter q, .enter p) ∈
        (pkg.transitiveClosure (CollectReEval.orderGraph f setIdx aSet)).edges))
    (hpair : ¬((p, q) ∈ f.enterConcurrentPairs ∨ (q, p) ∈ f.enterConcurrentPairs))
    (himp : ¬Implied st (.enter p, .enter q)) :
    EnterAsked pkg slv f setIdx aSet (.enter p, .enter q) ↔
      (p, q) ∈ f.edge ∧ Possible st ((.enter p, .enter q), .gt) := by
  have hback : ∃ val, MySolver.Extends val st ∧ val (.enter q) ≤ val (.enter p) := by
    simpa [Implied] using himp
  have hpair' : ¬((.enter p, .enter q) ∈ f.enterConcurrentPairs.map enterPair ∨
      (.enter q, .enter p) ∈ f.enterConcurrentPairs.map enterPair) := by
    simpa [enterPair] using hpair
  constructor
  · intro h
    exact ⟨h.askable.edge, (f.toAsk_iff.mp (h.toAsk_eq hst)).2.2.2⟩
  · intro h
    exact ⟨⟨h.1, hp, hq, fun hn => absurd rfl hn⟩, rfl, st, hst,
      f.toAsk_iff.mpr ⟨htc, hpair', hback, h.2⟩⟩

/-- Every possible order of a pair that nothing settles is asked about exactly if the data flow
graph has the edge of each strict order that is possible, and one of these two is. -/
theorem possible_listed_iff (pkg : Package (Node PL)) (slv : Solver (Var (Node PL)))
    (f : Facts PL IID) (setIdx : Nat) (aSet : List PL) (st : SolverState (Node PL))
    (hst : CollectReEval.setupSolver pkg slv f setIdx aSet = some st) (p q : PL) (hp : p ∈ aSet)
    (hq : q ∈ aSet)
    (htc : ¬((.enter p, .enter q) ∈
        (pkg.transitiveClosure (CollectReEval.orderGraph f setIdx aSet)).edges ∨
      (.enter q, .enter p) ∈
        (pkg.transitiveClosure (CollectReEval.orderGraph f setIdx aSet)).edges))
    (hpair : ¬((p, q) ∈ f.enterConcurrentPairs ∨ (q, p) ∈ f.enterConcurrentPairs))
    (himp : ¬(Implied st (.enter p, .enter q) ∨ Implied st (.enter q, .enter p))) :
    ∃ todo, CollectReEval.gen pkg slv f setIdx aSet = some todo ∧
      ((∀ t, Possible st ((.enter p, .enter q), t) →
          ListsOrder todo ((.enter p, .enter q), t)) ↔
        (Possible st ((.enter p, .enter q), .gt) → (p, q) ∈ f.edge) ∧
        (Possible st ((.enter p, .enter q), .lt) → (q, p) ∈ f.edge) ∧
        (Possible st ((.enter p, .enter q), .eq) →
          Possible st ((.enter p, .enter q), .gt) ∨ Possible st ((.enter p, .enter q), .lt))) := by
  obtain ⟨himp, himp'⟩ := not_or.mp himp
  have hgt := enterAsked_iff hst hp hq htc hpair himp
  have hlt := enterAsked_iff hst hq hp (mt Or.symm htc) (mt Or.symm hpair) himp'
  refine ⟨_, congrArg (Option.map _) hst, ?_⟩
  have hlist (t : HbType) : ListsOrder (CollectReEval.pairsTodo pkg slv f setIdx aSet st)
      ((.enter p, .enter q), t) ↔
      AskedAs (EnterAsked pkg slv f setIdx aSet) ((.enter p, .enter q), t) := by
    refine ((todoInv_foldl _).listsOrder_iff t).trans ⟨AskedAs.mono ?_, AskedAs.mono ?_⟩
    · exact fun e he => (mem_enterAsked hst).mp he
    · exact fun e he => (mem_enterAsked hst).mpr he
  simp only [hlist]
  constructor
  · intro h
    refine ⟨fun hposs => (hgt.mp (h .gt hposs)).1, fun hposs => (hlt.mp (h .lt hposs)).1, ?_⟩
    intro hposs
    rcases h .eq hposs with hask | hask
    · exact .inl (hgt.mp hask).2
    · exact .inr (hlt.mp hask).2
  · intro h t hposs
    obtain ⟨hedge, hedge', hstrict⟩ := h
    cases t with
    | gt => exact hgt.mpr ⟨hedge hposs, hposs⟩
    | lt => exact hlt.mpr ⟨hedge' hposs, hposs⟩
    | eq =>
      rcases hstrict hposs with hposs | hposs
      · exact .inl (hgt.mpr ⟨hedge hposs, hposs⟩)
      · exact .inr (hlt.mpr ⟨hedge' hposs, hposs⟩)

section Free

open CollectReEval

variable (slv : Solver (Var (Node (Fin 2)))) (name : Fin 2 → String) (edge : List (Fin 2 × Fin 2))

/-- Without constraints two locations can be entered in any order. -/
theorem free_possible (t : HbType) : Possible ⟨[], 0⟩ ((.enter (0 : Fin 2), .enter 1), t) := by
  refine ⟨nodeCycle (Summarize.crossedEnter t) (Summarize.crossedEnter t),
    MySolver.extends_start _, ?_⟩
  exact Summarize.crossed_holds t

theorem free_not_implied : ¬(Implied ⟨[], 0⟩ (.enter (0 : Fin 2), .enter 1) ∨
    Implied ⟨[], 0⟩ (.enter (1 : Fin 2), .enter 0)) := by
  intro h
  have hzero : MySolver.Extends (fun _ : Node (Fin 2) => 0) ⟨[], 0⟩ := MySolver.extends_start _
  rcases h with h | h
  · exact lt_irrefl _ (h _ hzero)
  · exact lt_irrefl _ (h _ hzero)

theorem free_not_ordered (e : Node (Fin 2) × Node (Fin 2)) : e ∉ (Warshall.package.transitiveClosure
    (orderGraph (freeFacts name edge) 0 [0, 1])).edges := by
  have hnil : (Warshall.package.transitiveClosure
    (orderGraph (freeFacts name edge) 0 [0, 1])).edges = [] := rfl
  rw [hnil]
  exact List.not_mem_nil

end Free

/-- With the edges of both directions all three orders are asked about. -/
theorem crossed_possible_listed :
    CollectReEval.setupSolver Warshall.package Solver.classical Summarize.crossedFacts 0 [0, 1] =
      some ⟨[], 0⟩ ∧
    ∃ todo, CollectReEval.gen Warshall.package Solver.classical Summarize.crossedFacts 0 [0, 1] =
        some todo ∧
      ∀ t, Possible ⟨[], 0⟩ ((.enter (0 : Fin 2), .enter 1), t) →
        ListsOrder todo ((.enter 0, .enter 1), t) := by
  have hst : CollectReEval.setupSolver Warshall.package Solver.classical Summarize.crossedFacts 0
      [0, 1] = some ⟨[], 0⟩ := CollectReEval.free_setupSolver _ _ _
  have htc := free_not_ordered !["issue_s1", "mult_s1"] [(0, 1), (1, 0)]
  obtain ⟨todo, htodo, hiff⟩ := possible_listed_iff _ _ _ 0 [0, 1] _ hst 0 1 (by decide) (by decide)
    (not_or.mpr ⟨htc _, htc _⟩) (by decide) free_not_implied
  refine ⟨hst, todo, htodo, hiff.mpr ⟨fun _ => by decide, fun _ => by decide, fun _ => ?_⟩⟩
  exact .inl (free_possible .gt)

/-- With an edge in one direction the opposite order is possible and not asked about. -/
theorem free_order_not_listed :
    CollectReEval.setupSolver Warshall.package Solver.classical
      (CollectReEval.freeFacts !["issue_s1", "mult_s1"] [(0, 1)]) 0 [0, 1] = some ⟨[], 0⟩ ∧
    (∀ e, e ∉ (Warshall.package.transitiveClosure
      (CollectReEval.orderGraph
        (CollectReEval.freeFacts !["issue_s1", "mult_s1"] [(0, 1)]) 0 [0, 1])).edges) ∧
    ¬(Implied ⟨[], 0⟩ (.enter (0 : Fin 2), .enter 1) ∨
      Implied ⟨[], 0⟩ (.enter (1 : Fin 2), .enter 0)) ∧
    Possible ⟨[], 0⟩ ((.enter (0 : Fin 2), .enter 1), .lt) ∧
    ∃ todo, CollectReEval.gen Warshall.package Solver.classical
        (CollectReEval.freeFacts !["issue_s1", "mult_s1"] [(0, 1)]) 0 [0, 1] = some todo ∧
      ¬ListsOrder todo ((.enter 0, .enter 1), .lt) := by
  refine ⟨CollectReEval.free_setupSolver _ _ _, free_not_ordered _ _, free_not_implied,
    free_possible .lt, _, CollectReEval.free_gen _ _ (by decide), ?_⟩
  simp [ListsOrder, Loop.Lists]

end Asked

section Unique

/-- A set of locations of different identifiers, none of which may stay. -/
structure Plain (f : Facts PL IID) (setIdx : Nat) (aSet : List PL) : Prop where
  nodup : aSet.Nodup
  iid : ∀ p ∈ aSet, ∀ q ∈ aSet, f.iidMap p = f.iidMap q → p = q
  unmarked : ∀ p ∈ aSet, p ∉ f.cycCntGt1PerSet setIdx

/-- First-entry cycles of a run. -/
noncomputable def firstEntries (tr : Wave PL) : Node PL → Int :=
  nodeCycle (enterTick tr) (enterTick tr)

variable {pkg : Package (Node PL)} {slv : Solver (Var (Node PL))} {legal : Set (Wave PL)}
  {f : Facts PL IID} {setIdx : Nat} {aSet : List PL} {tr : Wave PL}

omit [DecidableEq PL] [DecidableEq IID] in
theorem Plain.inGraph (h : Plain f setIdx aSet) {x : Node PL} (hx : f.InGraph setIdx aSet x) :
    ∃ p ∈ aSet, x = .enter p := by
  cases x with
  | enter p => exact ⟨p, hx, rfl⟩
  | final p => exact absurd hx.2 (h.unmarked p hx.1)

omit [DecidableEq IID] in
/-- The facts are all that the graph of such a set asks of a run. -/
theorem Plain.agrees (h : Plain f setIdx aSet) (hfacts : HBPerf.EnterFacts tr f.enterOutput)
    (hleave : ∀ e ∈ f.leavingHbProvenResPairs ++ f.awsConcurLeavingPairs, ¬Entering e)
    (hvis : ∀ p ∈ aSet, Visits tr p) :
    Agrees f setIdx aSet .edge (f.hbInside aSet) f.concurrentPairs (firstEntries tr) := by
  have hfirst (p : PL) (hp : p ∈ aSet) : FirstEntry tr p (enterTick tr p) :=
    firstEntry_enterTick (hvis p hp)
  have hstay (p : PL) (hp : f.StayEdge setIdx aSet .edge p) : False := h.unmarked p hp.2.1 hp.2.2
  have hno (e : Node PL × Node PL) (he : e ∈ f.leavingHbProvenResPairs ++ f.awsConcurLeavingPairs)
      (h1 : f.InGraph setIdx aSet e.1) (h2 : f.InGraph setIdx aSet e.2) : False := by
    obtain ⟨p, _, hp⟩ := h.inGraph h1
    obtain ⟨q, _, hq⟩ := h.inGraph h2
    apply hleave e he
    rw [Entering, hp, hq]
    exact Prod.ext hp hq
  refine ⟨?_, fun p hp => (hstay p hp).elim, ?_, ?_, ?_, ?_⟩
  · intro e he
    obtain ⟨p, q, hmem, hp, hq, rfl⟩ := CollectReEval.mem_hbInside.mp he
    exact Int.ofNat_lt.mpr (hfacts.hb p q _ _ hmem (hfirst p hp) (hfirst q hq))
  · intro p hp hmark
    exact absurd hmark (h.unmarked p hp)
  · intro e he h1 h2
    exact (hno e (List.mem_append_left _ he) h1 h2).elim
  · intro e he h1 h2
    rcases List.mem_append.mp he with he | he
    · obtain ⟨⟨p, q⟩, hmem, rfl⟩ := List.mem_map.mp he
      exact congrArg Int.ofNat (hfacts.concur p q _ _ hmem (hfirst p h1) (hfirst q h2))
    · exact (hno e (List.mem_append_right _ he) h1 h2).elim
  · intro e _ _ _ _ p hp
    exact (hstay p hp).elim

/-- So the first-entry cycles are a solution of the constraints. -/
theorem Plain.setupSolver_extends (pkg : Package (Node PL)) (slv : Solver (Var (Node PL)))
    (h : Plain f setIdx aSet) (hfacts : HBPerf.EnterFacts tr f.enterOutput)
    (hleave : ∀ e ∈ f.leavingHbProvenResPairs ++ f.awsConcurLeavingPairs, ¬Entering e)
    (hvis : ∀ p ∈ aSet, Visits tr p) :
    ∃ st, CollectReEval.setupSolver pkg slv f setIdx aSet = some st ∧
      MySolver.Extends (firstEntries tr) st := by
  have hbuilt : Built f setIdx .edge (f.hbInside aSet) aSet aSet
      (CollectReEval.building f setIdx aSet) := CollectReEval.building_built h.nodup
  have hagrees := h.agrees hfacts hleave hvis
  have htime := finish_inTime hbuilt CollectReEval.hbInside_inGraph hagrees
  -- two nodes of one identifier are one node, and no edge leads back to it
  have hspan : IidSpans f setIdx aSet .oneCycle
      (finish f (CollectReEval.building f setIdx aSet) f.concurrentPairs) (firstEntries tr) := by
    intro u v hred _ hiid
    have hnode (x : Node PL) (hx : x ∈ (finish f (CollectReEval.building f setIdx aSet)
        f.concurrentPairs).nodes) : ∃ p ∈ aSet, x = .enter p :=
      h.inGraph ((hbuilt.mem_nodes_finish CollectReEval.hbInside_inGraph).mp hx)
    obtain ⟨p, hp, rfl⟩ := hnode u (DiGraph.mem_of_edge _ _ hred.1).1
    obtain ⟨q, hq, rfl⟩ := hnode v (DiGraph.mem_of_edge _ _ hred.1).2
    obtain rfl := h.iid p hp q hq hiid
    exact absurd (.single hred.1) (acyclic_of_inTime htime _)
  have hwhb : ∀ e ∈ f.whbEdge.map enterPair ++ [], f.InGraph setIdx aSet e.1 →
      f.InGraph setIdx aSet e.2 → firstEntries tr e.1 ≤ firstEntries tr e.2 := by
    intro e he h1 h2
    rw [List.append_nil] at he
    obtain ⟨⟨p, q⟩, hmem, rfl⟩ := List.mem_map.mp he
    exact Int.ofNat_le.mpr (hfacts.whb p q _ _ hmem (firstEntry_enterTick (hvis p h1))
      (firstEntry_enterTick (hvis q h2)))
  obtain ⟨red, hred, hsat, hweight⟩ := satisfied_of_agrees f.concurrentPairs [] hbuilt
    CollectReEval.hbInside_inGraph hagrees (fun p hp => absurd hp.2 (h.unmarked p hp.1)) hspan hwhb
    hagrees.pair_eq
  obtain ⟨st, hassert, _, hext⟩ := MySolver.extends_of_satisfied MySolver.fresh_start
    (MySolver.extends_start _) (fun e _ => hweight e) hsat
  exact ⟨st, CollectReEval.setupSolver_eq_some.mpr
    ⟨red, hred, hassert, MySolver.check_of_extends hext⟩, hext⟩

/-- A run that visits exactly a set of locations that neither stay nor share an identifier agrees
with one combination of the entering orders of the set, and with no other. -/
theorem entering_comb_unique (pkg : Package (Node PL)) (slv : Solver (Var (Node PL)))
    (legal : Set (Wave PL)) (f : Facts PL IID) (setIdx : Nat) (aSet : List PL)
    (hplain : Plain f setIdx aSet) (hname : Function.Injective f.name)
    (hedge : ∀ p q, (p, q) ∈ f.edge → (q, p) ∈ f.edge)
    (hfacts : ∀ tr ∈ legal, HBPerf.EnterFacts tr f.enterOutput)
    (hleave : ∀ e ∈ f.leavingHbProvenResPairs ++ f.awsConcurLeavingPairs, ¬Entering e)
    (tr : Wave PL) (htr : tr ∈ legal) (hexact : VisitsExactly tr aSet) :
    ∃ todo, CollectReEval.gen pkg slv f setIdx aSet = some todo ∧
      ∀ csv, (todo ≠ [] → ExactCsv legal (CollectReEval.comFile f aSet todo) csv) →
        ∃ combs, LeaveOrder.combEdges todo csv = some combs ∧ (f.edge.Nodup → combs.Nodup) ∧
          ∃! comb, comb ∈ combs ∧ ∀ x ∈ comb, OrderHolds (firstEntries tr) x := by
  have hvis : ∀ p ∈ aSet, Visits tr p := fun p hp => (hexact p).mp hp
  obtain ⟨st, hst, hext⟩ := hplain.setupSolver_extends pkg slv (hfacts tr htr) hleave hvis
  refine ⟨_, congrArg (Option.map _) hst, fun csv hcsv => ?_⟩
  have hrev (e : Node PL × Node PL) (he : EnterAsked pkg slv f setIdx aSet e)
      (hlt : firstEntries tr e.2 < firstEntries tr e.1) :
      EnterAsked pkg slv f setIdx aSet (e.2, e.1) :=
    he.reverse hst hext (hedge _ _ he.askable.edge) hlt
  have hnames (e : Node PL × Node PL) (he : EnterAsked pkg slv f setIdx aSet e)
      (heq : f.nodeName e.1 = f.nodeName e.2) : e.1 = e.2 := by
    have hent := he.entering
    rw [Entering] at hent
    rw [hent] at heq ⊢
    exact congrArg Node.enter (hname heq)
  have hassume : AllHold (observe tr) (f.setAssumes aSet) :=
    setAssumes_hold.mpr fun p _ hp => (hexact p).mpr hp
  have hcover (x : (Node PL × Node PL) × HbType) (hold : OrderHolds (firstEntries tr) x)
      (hx : AskedAs (EnterAsked pkg slv f setIdx aSet) x) :
      ((enterCoverName x.1 x.2).seq (f.setR aSet)).Covered (observe tr) := by
    obtain ⟨p, hp, q, hq, hpq⟩ := entering_of_asked hx
    obtain ⟨_, t⟩ := x
    obtain rfl : _ = (Node.enter p, Node.enter q) := hpq
    exact enterCover_of_holds (fun p hp => firstEntry_enterTick (hvis p hp)) hp hq hold
  obtain ⟨d, hd, comb, hmem, hown⟩ := exists_own_comb (fun _ => mem_enterAsked hst) hrev hnames htr
    rfl hassume hcsv hcover
  refine ⟨choices d, congrArg (Option.map choices) hd, fun hnd => ?_, comb, ⟨hmem, hown.holds⟩, ?_⟩
  · have hinv : TodoInv f _ (CollectReEval.pairsTodo pkg slv f setIdx aSet st) := todoInv_foldl _
    have hes : ((f.edge.filter fun e => decide (e.1 ∈ aSet) && decide (e.2 ∈ aSet)).map
        enterPair).Nodup := (hnd.filter _).map enterPair_injective
    exact nodup_choices (nodup_readTodo hd hinv.nodup_keys (hinv.nodup (hes.filter _)))
  · intro comb' hcomb'
    have hleft := eq_own_of_mem_choices hcomb'.1 hcomb'.2
    exact hleft.trans (eq_own_of_mem_choices hmem hown.holds).symm

/-- The run that enters the second location first. -/
theorem crossed_comb_unique : Plain Summarize.crossedFacts 0 [0, 1] ∧
    ∃ todo, CollectReEval.gen Warshall.package Solver.classical Summarize.crossedFacts 0 [0, 1] =
        some todo ∧
      ExactCsv Summarize.crossedLegal (CollectReEval.comFile Summarize.crossedFacts [0, 1] todo)
        (fun _ => .covered) ∧
      ∃ combs, LeaveOrder.combEdges todo (fun _ => .covered) = some combs ∧ combs.Nodup ∧
        ∃! comb, comb ∈ combs ∧
          ∀ x ∈ comb, OrderHolds (firstEntries (Summarize.crossedRun .lt)) x := by
  have hplain : Plain Summarize.crossedFacts 0 [0, 1] :=
    ⟨by decide, fun p _ q _ hiid => hiid, fun p _ => by simp [Summarize.crossedFacts,
      CollectReEval.freeFacts]⟩
  have hexact : VisitsExactly (Summarize.crossedRun .lt) [0, 1] := by
    intro p
    have hvisit := (Summarize.crossed_visit .lt p).firstEntry.visits
    fin_cases p <;> simpa using hvisit
  have hname : Function.Injective Summarize.crossedFacts.name := by
    intro p q
    revert p q
    decide
  have hedge : ∀ p q, (p, q) ∈ Summarize.crossedFacts.edge →
      (q, p) ∈ Summarize.crossedFacts.edge := by decide
  have hleave : ∀ e ∈ Summarize.crossedFacts.leavingHbProvenResPairs ++
      Summarize.crossedFacts.awsConcurLeavingPairs, ¬Entering e := by
    simp [Summarize.crossedFacts, CollectReEval.freeFacts]
  obtain ⟨todo, htodo, hunique⟩ := entering_comb_unique Warshall.package Solver.classical
    Summarize.crossedLegal Summarize.crossedFacts 0 [0, 1] hplain hname hedge
    Summarize.crossed_factsTrue.enter hleave _ ⟨.lt, rfl⟩ hexact
  have hpipe := Summarize.crossed_pipeline Solver.classical
  have hfile := hpipe.enterTodo [0, 1] 0 (by decide)
  obtain rfl : todo = _ := Option.some.inj (htodo.symm.trans hfile)
  have hcsv := hpipe.enterCsv [0, 1] 0 (by decide) (by decide)
  obtain ⟨combs, hcombs, hnd, hcomb⟩ := hunique (fun _ => .covered) fun _ => hcsv
  exact ⟨hplain, _, htodo, hcsv, combs, hcombs, hnd (by decide), hcomb⟩

end Unique

end SynthLC
