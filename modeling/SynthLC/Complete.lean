import SynthLC.Pipeline

/-! Which runs of a set the scripts keep: the orders of a run survive every stage if they are
asked about both ways and no cover or graph leaves them out. -/
namespace SynthLC

open Sva Graph Smt Loop

variable {PL IID : Type}

/-- Both nodes are first cycles. -/
def Entering (e : Node PL × Node PL) : Prop := e = (.enter e.1.loc, .enter e.2.loc)

theorem Entering.swap {e : Node PL × Node PL} : Entering (e.2, e.1) ↔ Entering e := by
  simp only [Entering, Prod.ext_iff]
  exact and_comm

/-- A pair some script may ask about: an edge of the data flow graph inside the set, and
for leaving orders between two identifiers. -/
structure Facts.Askable (f : Facts PL IID) (setIdx : Nat) (aSet : List PL) (e : Node PL × Node PL) :
    Prop where
  edge : (e.1.loc, e.2.loc) ∈ f.edge
  left : f.InGraph setIdx aSet e.1
  right : f.InGraph setIdx aSet e.2
  iid : ¬Entering e → f.iidMap e.1.loc ≠ f.iidMap e.2.loc

theorem Facts.Askable.reverse {f : Facts PL IID} {setIdx : Nat} {aSet : List PL}
    {e : Node PL × Node PL} (h : f.Askable setIdx aSet e) (hedge : (e.2.loc, e.1.loc) ∈ f.edge) :
    f.Askable setIdx aSet (e.2, e.1) :=
  ⟨hedge, h.right, h.left, fun hn => (h.iid fun he => hn (Entering.swap.mpr he)).symm⟩

section Survives

variable [DecidableEq PL] [DecidableEq IID] (pkg : Package (Node PL)) (slv : Solver (Var (Node PL)))
  (f : Facts PL IID) (setIdx : Nat) (aSet : List PL)

/-- `xCollectReEval` asks whether the first node of the pair comes before the second. -/
structure EnterAsked (e : Node PL × Node PL) : Prop where
  askable : f.Askable setIdx aSet e
  entering : Entering e
  toAsk : ∃ st, CollectReEval.setupSolver pkg slv f setIdx aSet = some st ∧
    f.toAsk slv (pkg.transitiveClosure (CollectReEval.orderGraph f setIdx aSet)) st e = true

/-- `xCollectReEvalLeaveOrder` asks it of a pair with a last cycle. -/
structure LeaveAsked (comb : Comb PL) (e : Node PL × Node PL) : Prop where
  askable : f.Askable setIdx aSet e
  leaving : ¬Entering e
  toAsk : ∃ st, LeaveOrder.setupSolver pkg slv f setIdx aSet comb = some st ∧
    f.toAsk slv (pkg.transitiveClosure (LeaveOrder.orderGraph f setIdx aSet comb)) st e = true

variable (enter final : PL → Nat)

/-- The orders the run has of all pairs asked about. -/
structure OwnComb (P : Node PL × Node PL → Prop) (comb : Comb PL) : Prop where
  holds : ∀ x ∈ comb, OrderHolds (nodeCycle enter final) x
  asked : ∀ x ∈ comb, AskedAs P x
  all : ∀ e, P e → ∃ t, (e, t) ∈ comb ∨ ((e.2, e.1), t) ∈ comb

/-- What a run needs for its leaving orders to survive. -/
structure LeaveSurvives (comb : Comb PL) : Prop where
  fits : LeaveOrder.Fits f setIdx aSet comb enter final
  /-- The data flow graph has the edge of an order that the run takes the other way round. -/
  reversed : ∀ e, LeaveAsked pkg slv f setIdx aSet comb e →
    nodeCycle enter final e.2 < nodeCycle enter final e.1 → (e.2.loc, e.1.loc) ∈ f.edge
  /-- No location is entered in the cycle right after another one is left. -/
  apart : ∀ p q, LeaveAsked pkg slv f setIdx aSet comb (.final p, .enter q) →
    enter q ≠ final p + 1
  started : ∀ p q, LeaveAsked pkg slv f setIdx aSet comb (.enter p, .final q) → 0 < enter p

/-- What a run needs for its orders to survive every stage. -/
structure Survives : Prop where
  admissible : CollectReEval.Admissible f setIdx aSet enter final
  reversed : ∀ e, EnterAsked pkg slv f setIdx aSet e →
    nodeCycle enter final e.2 < nodeCycle enter final e.1 → (e.2.loc, e.1.loc) ∈ f.edge
  leaving : ∀ comb, OwnComb enter final (EnterAsked pkg slv f setIdx aSet) comb →
    LeaveSurvives pkg slv f setIdx aSet enter final comb

variable {pkg slv f setIdx aSet enter final} {comb : Comb PL} {x : (Node PL × Node PL) × HbType}

theorem entering_of_asked (h : AskedAs (EnterAsked pkg slv f setIdx aSet) x) :
    ∃ p ∈ aSet, ∃ q ∈ aSet, x.1 = (.enter p, .enter q) := by
  rcases h.either with h | h
  · exact ⟨_, h.askable.left.loc_mem, _, h.askable.right.loc_mem, h.entering⟩
  · exact ⟨_, h.askable.right.loc_mem, _, h.askable.left.loc_mem, Entering.swap.mp h.entering⟩

omit [DecidableEq PL] [DecidableEq IID] in
theorem inGraph_of_asked {P : Node PL × Node PL → Prop} (hP : ∀ e, P e → f.Askable setIdx aSet e)
    (h : AskedAs P x) : f.InGraph setIdx aSet x.1.1 ∧ f.InGraph setIdx aSet x.1.2 := by
  rcases h.either with h | h
  · exact ⟨(hP _ h).left, (hP _ h).right⟩
  · exact ⟨(hP _ h).right, (hP _ h).left⟩

theorem iid_ne_of_asked (h : AskedAs (LeaveAsked pkg slv f setIdx aSet comb) x) :
    f.iidMapTmp x.1.1 ≠ f.iidMapTmp x.1.2 := by
  rcases h.either with h | h
  · exact h.askable.iid h.leaving
  · exact (h.askable.iid h.leaving).symm

end Survives

variable [DecidableEq PL] [DecidableEq IID]

/-- Orders of a combination that comes out for a set: entering orders with fixed leaving ones,
or entering and leaving orders with a file of their own. -/
def Produced (pkg : Package (Node PL)) (slv : Solver (Var (Node PL))) (f : Facts PL IID)
    (files : OrderFiles PL) (setIdx : Nat) (aSet : List PL) (orders : Comb PL) : Prop :=
  (∃ combs j, LeaveOrder.combEdges (files.enterTodo setIdx) (files.enterCsv setIdx) = some combs ∧
    (orders, j) ∈ combs.zipIdx ∧ files.finalTodo setIdx j = some []) ∨
  ∃ out j comb k c, ConstructPaths.genSet pkg slv f files setIdx aSet = some out ∧
    ((j, comb), (k, c)) ∈ out ∧ orders = comb ++ c

section Pairs

variable {pkg : Package (Node PL)} {slv : Solver (Var (Node PL))} {f : Facts PL IID} {setIdx : Nat}
  {aSet : List PL} {st : SolverState (Node PL)} {e : Node PL × Node PL}

omit [DecidableEq IID] in
theorem mem_enterPairs (setIdx : Nat) :
    e ∈ (f.edge.filter fun e => decide (e.1 ∈ aSet) && decide (e.2 ∈ aSet)).map enterPair ↔
      f.Askable setIdx aSet e ∧ Entering e := by
  simp only [List.mem_map, List.mem_filter, Bool.and_eq_true, decide_eq_true_eq]
  constructor
  · intro h
    obtain ⟨⟨p, q⟩, ⟨hedge, hp, hq⟩, rfl⟩ := h
    exact ⟨⟨hedge, hp, hq, fun hn => absurd rfl hn⟩, rfl⟩
  · intro h
    obtain ⟨hask, he⟩ := h
    exact ⟨(e.1.loc, e.2.loc), ⟨hask.edge, hask.left.loc_mem, hask.right.loc_mem⟩, he.symm⟩

theorem mem_leavePairs {nodes : List (Node PL)}
    (hnodes : ∀ x, x ∈ nodes ↔ f.InGraph setIdx aSet x) :
    e ∈ (f.edge.filter fun e => decide (e.1 ∈ aSet) && decide (e.2 ∈ aSet) &&
      !decide (f.iidMap e.1 = f.iidMap e.2)).flatMap (LeaveOrder.ePrimes nodes) ↔
      f.Askable setIdx aSet e ∧ ¬Entering e := by
  simp only [List.mem_flatMap, List.mem_filter, Bool.and_eq_true, Bool.not_eq_true',
    decide_eq_true_eq, decide_eq_false_iff_not, LeaveOrder.ePrimes, List.mem_append,
    List.mem_ite_nil_right, List.mem_singleton, hnodes]
  constructor
  · intro h
    obtain ⟨⟨p, q⟩, ⟨hedge, ⟨hp, hq⟩, hiid⟩, hmem⟩ := h
    rcases hmem with (⟨hp', rfl⟩ | ⟨hq', rfl⟩) | ⟨⟨hq', hp'⟩, rfl⟩
    · exact ⟨⟨hedge, hp', hq, fun _ => hiid⟩, by simp [Entering]⟩
    · exact ⟨⟨hedge, hp, hq', fun _ => hiid⟩, by simp [Entering]⟩
    · exact ⟨⟨hedge, hp', hq', fun _ => hiid⟩, by simp [Entering]⟩
  · intro h
    obtain ⟨u, v⟩ := e
    obtain ⟨⟨hedge, hu, hv, hiid⟩, hne⟩ := h
    refine ⟨(u.loc, v.loc), ⟨hedge, ⟨hu.loc_mem, hv.loc_mem⟩, hiid hne⟩, ?_⟩
    cases u with
    | enter p =>
      cases v with
      | enter q => exact absurd rfl hne
      | final q => exact .inl (.inr ⟨hv, rfl⟩)
    | final p =>
      cases v with
      | enter q => exact .inl (.inl ⟨hu, rfl⟩)
      | final q => exact .inr ⟨⟨hv, hu⟩, rfl⟩

theorem EnterAsked.toAsk_eq (h : EnterAsked pkg slv f setIdx aSet e)
    (hst : CollectReEval.setupSolver pkg slv f setIdx aSet = some st) :
    f.toAsk slv (pkg.transitiveClosure (CollectReEval.orderGraph f setIdx aSet)) st e = true := by
  obtain ⟨st', hst', hask⟩ := h.toAsk
  obtain rfl : st = st' := Option.some.inj (hst.symm.trans hst')
  exact hask

theorem LeaveAsked.toAsk_eq {comb : Comb PL} (h : LeaveAsked pkg slv f setIdx aSet comb e)
    (hst : LeaveOrder.setupSolver pkg slv f setIdx aSet comb = some st) :
    f.toAsk slv (pkg.transitiveClosure (LeaveOrder.orderGraph f setIdx aSet comb)) st e = true := by
  obtain ⟨st', hst', hask⟩ := h.toAsk
  obtain rfl : st = st' := Option.some.inj (hst.symm.trans hst')
  exact hask

/-- An order that a solution goes against is asked about the other way too, where the data flow
graph has the edge. -/
theorem EnterAsked.reverse (h : EnterAsked pkg slv f setIdx aSet e)
    (hst : CollectReEval.setupSolver pkg slv f setIdx aSet = some st) {val : Node PL → Int}
    (hext : MySolver.Extends val st) (hedge : (e.2.loc, e.1.loc) ∈ f.edge)
    (hlt : val e.2 < val e.1) : EnterAsked pkg slv f setIdx aSet (e.2, e.1) :=
  ⟨h.askable.reverse hedge, Entering.swap.mpr h.entering, st, hst,
    f.toAsk_reverse (h.toAsk_eq hst) hext hlt⟩

theorem mem_enterAsked (hst : CollectReEval.setupSolver pkg slv f setIdx aSet = some st) :
    e ∈ ((f.edge.filter fun e => decide (e.1 ∈ aSet) && decide (e.2 ∈ aSet)).map enterPair).filter
        (f.toAsk slv (pkg.transitiveClosure (CollectReEval.orderGraph f setIdx aSet)) st) ↔
      EnterAsked pkg slv f setIdx aSet e := by
  rw [List.mem_filter, mem_enterPairs setIdx]
  constructor
  · intro h
    exact ⟨h.1.1, h.1.2, st, hst, h.2⟩
  · intro h
    exact ⟨⟨h.askable, h.entering⟩, h.toAsk_eq hst⟩

theorem mem_leaveAsked {comb : Comb PL}
    (hst : LeaveOrder.setupSolver pkg slv f setIdx aSet comb = some st)
    (hnodes : ∀ x, x ∈ (pkg.transitiveClosure (LeaveOrder.orderGraph f setIdx aSet comb)).nodes ↔
      f.InGraph setIdx aSet x) :
    e ∈ ((f.edge.filter fun e => decide (e.1 ∈ aSet) && decide (e.2 ∈ aSet) &&
        !decide (f.iidMap e.1 = f.iidMap e.2)).flatMap (LeaveOrder.ePrimes
          (pkg.transitiveClosure (LeaveOrder.orderGraph f setIdx aSet comb)).nodes)).filter
        (f.toAsk slv (pkg.transitiveClosure (LeaveOrder.orderGraph f setIdx aSet comb)) st) ↔
      LeaveAsked pkg slv f setIdx aSet comb e := by
  rw [List.mem_filter, mem_leavePairs hnodes]
  constructor
  · intro h
    exact ⟨h.1.1, h.1.2, st, hst, h.2⟩
  · intro h
    exact ⟨⟨h.askable, h.leaving⟩, h.toAsk_eq hst⟩

theorem mem_nodes_closure {comb : Comb PL} (hnd : aSet.Nodup)
    (hin : ∀ x ∈ comb, f.InGraph setIdx aSet x.1.1 ∧ f.InGraph setIdx aSet x.1.2) (x : Node PL) :
    x ∈ (pkg.transitiveClosure (LeaveOrder.orderGraph f setIdx aSet comb)).nodes ↔
      f.InGraph setIdx aSet x := by
  rw [pkg.closure_nodes]
  exact LeaveOrder.mem_nodes_orderGraph hnd hin

/-- The entering orders read back are between first cycles of the set, ... -/
theorem enter_inGraph {q : Node PL × Node PL → HbType → Option Result} {todo d : TodoFile PL}
    {comb : Comb PL} (hgen : CollectReEval.gen pkg slv f setIdx aSet = some todo)
    (hd : readTodo q todo = some d) (hc : comb ∈ choices d) (x : (Node PL × Node PL) × HbType)
    (hx : x ∈ comb) : f.InGraph setIdx aSet x.1.1 ∧ f.InGraph setIdx aSet x.1.2 := by
  obtain ⟨st, hst, rfl⟩ := Option.map_eq_some_iff.mp hgen
  refine inGraph_of_asked (fun e he => ?_) ((todoInv_foldl _).askedAs_of_mem_choices hd hc hx)
  exact ((mem_enterAsked hst).mp he).askable

/-- ... and the leaving orders between nodes of its graph. -/
theorem leave_inGraph {q : Node PL × Node PL → HbType → Option Result} {todo d : TodoFile PL}
    {comb c : Comb PL} (hnd : aSet.Nodup)
    (hin : ∀ x ∈ comb, f.InGraph setIdx aSet x.1.1 ∧ f.InGraph setIdx aSet x.1.2)
    (hgen : LeaveOrder.gen pkg slv f setIdx aSet comb = some (some todo))
    (hd : readTodo q todo = some d) (hc : c ∈ choices d) (x : (Node PL × Node PL) × HbType)
    (hx : x ∈ c) : f.InGraph setIdx aSet x.1.1 ∧ f.InGraph setIdx aSet x.1.2 := by
  obtain ⟨_, st, hst, rfl⟩ := LeaveOrder.gen_eq_some.mp hgen
  refine inGraph_of_asked (fun e he => ?_) ((todoInv_foldl _).askedAs_of_mem_choices hd hc hx)
  exact ((mem_leaveAsked hst (mem_nodes_closure hnd hin)).mp he).askable

end Pairs

section Stage

variable {legal : Set (Wave PL)} {f : Facts PL IID} {aSet : List PL} {tr : Wave PL}
  {enter final : PL → Nat} {es : List (Node PL × Node PL)} {P : Node PL × Node PL → Prop}

omit [DecidableEq IID] in
/-- One stage: orders that are asked about both ways where the run needs it are covered by the
run and combined. -/
theorem exists_own_comb (hes : ∀ e, e ∈ es ↔ P e)
    (hrev : ∀ e, P e → nodeCycle enter final e.2 < nodeCycle enter final e.1 → P (e.2, e.1))
    (hname : ∀ e, P e → f.nodeName e.1 = f.nodeName e.2 → e.1 = e.2) (htr : tr ∈ legal)
    {todo : TodoFile PL} (htodo : es.foldl f.addPair [] = todo) {assumes : List (Property (Sig PL))}
    (hassume : AllHold (observe tr) assumes) {csv : Csv PL}
    {coverName : Node PL × Node PL → HbType → CoverName PL}
    (hcsv : todo ≠ [] → ExactCsv legal ⟨assumes, f.todoCovers coverName aSet todo⟩ csv)
    (hcover : ∀ x, OrderHolds (nodeCycle enter final) x → AskedAs P x →
      ((coverName x.1 x.2).seq (f.setR aSet)).Covered (observe tr)) :
    ∃ d, readTodo (fun k t => dfQuery (csv (coverName k t))) todo = some d ∧
      ∃ c ∈ choices d, OwnComb enter final P c := by
  have hinv : TodoInv f es todo := htodo ▸ todoInv_foldl es
  have hlists (k : Node PL × Node PL) (hk : k ∈ todo.map Prod.fst) :
      Lists todo k (ownOrder (nodeCycle enter final) k) := by
    refine hinv.lists_own (fun e he => hname e ((hes e).mp he)) (fun e he hlt => ?_) hk
    exact (hes _).mpr (hrev e ((hes e).mp he) hlt)
  have hasked (k : Node PL × Node PL) (hk : k ∈ todo.map Prod.fst) :
      AskedAs P (k, ownOrder (nodeCycle enter final) k) :=
    (hinv.askedAs (hlists k hk)).mono fun e he => (hes e).mp he
  have hexact (x : (Node PL × Node PL) × HbType) (hx : x ∈ asked todo) :
      ExactCover legal assumes ((coverName x.1 x.2).seq (f.setR aSet)) (csv (coverName x.1 x.2)) :=
    hcsv (ne_nil_of_mem_asked hx) _ (mem_todoCovers hx)
  have hcov (k : Node PL × Node PL) (hk : k ∈ todo.map Prod.fst) :
      dfQuery (csv (coverName k (ownOrder (nodeCycle enter final) k))) = some .covered := by
    have hverdict := (hexact _ (mem_asked_of_lists (hlists k hk))).covered_iff.mpr
      ⟨tr, htr, hassume, hcover _ (ownOrder_holds _ k) (hasked k hk)⟩
    exact dfQuery_covered.mpr hverdict
  obtain ⟨d, hd⟩ : ∃ d, readTodo (fun k t => dfQuery (csv (coverName k t))) todo = some d := by
    refine readTodo_some fun x hx => ?_
    simp [dfQuery, (hexact x hx).ne_err]
  have hread := readTodo_spec hd
  have hall (k : Node PL × Node PL) (hk : k ∈ todo.map Prod.fst) :
      (k, ownOrder (nodeCycle enter final) k) ∈
        d.map fun line => (line.1, ownOrder (nodeCycle enter final) line.1) := by
    obtain ⟨ts, hline, _⟩ := (hread.lists _ _).mpr ⟨mem_asked_of_lists (hlists k hk), hcov k hk⟩
    exact List.mem_map.mpr ⟨(k, ts), hline, rfl⟩
  refine ⟨d, hd, _, hread.own_mem_choices hlists hcov, ?_, ?_, ?_⟩
  · intro x hx
    obtain ⟨line, _, rfl⟩ := List.mem_map.mp hx
    exact ownOrder_holds _ line.1
  · intro x hx
    obtain ⟨line, hline, rfl⟩ := List.mem_map.mp hx
    exact hasked line.1 (hread.mem_keys hline)
  · intro e he
    rcases hinv.mem_keys_of_mem ((hes e).mpr he) with hk | hk
    · exact ⟨_, .inl (hall e hk)⟩
    · exact ⟨_, .inr (hall (e.2, e.1) hk)⟩

end Stage

section Covers

variable {pkg : Package (Node PL)} {slv : Solver (Var (Node PL))} {f : Facts PL IID} {setIdx : Nat}
  {aSet : List PL} {tr : Wave PL} {enter final : PL → Nat} {x : (Node PL × Node PL) × HbType}
  (hvisit : ∀ p ∈ aSet, Visit tr p (enter p) (final p))
  (hold : OrderHolds (nodeCycle enter final) x)
include hvisit hold

/-- A run meets the assumptions of its entering orders ... -/
theorem assumeOrder_holds (hx : AskedAs (EnterAsked pkg slv f setIdx aSet) x) :
    AllHold (observe tr) (assumeOrder x) := by
  obtain ⟨p, hp, q, hq, hpq⟩ := entering_of_asked hx
  obtain ⟨_, t⟩ := x
  obtain rfl : _ = (Node.enter p, Node.enter q) := hpq
  exact assumeEnter_holds hvisit hp hq hold

/-- ... and matches their covers, ... -/
theorem enterCover_covered (hx : AskedAs (EnterAsked pkg slv f setIdx aSet) x) :
    ((enterCoverName x.1 x.2).seq (f.setR aSet)).Covered (observe tr) := by
  obtain ⟨p, hp, q, hq, hpq⟩ := entering_of_asked hx
  obtain ⟨_, t⟩ := x
  obtain rfl : _ = (Node.enter p, Node.enter q) := hpq
  exact enterCover_of_holds (fun p hp => (hvisit p hp).firstEntry) hp hq hold

/-- ... and those of its leaving orders. -/
theorem finalCover_covered {comb : Comb PL}
    (hsurv : LeaveSurvives pkg slv f setIdx aSet enter final comb)
    (hx : AskedAs (LeaveAsked pkg slv f setIdx aSet comb) x) :
    ((finalCoverName x.1 x.2).seq (f.setR aSet)).Covered (observe tr) := by
  have hbefore (e : Node PL × Node PL) (he : LeaveAsked pkg slv f setIdx aSet comb e)
      (hlt : nodeCycle enter final e.1 < nodeCycle enter final e.2) :
      (coverBefore (f.setR aSet) e.1 e.2).Covered (observe tr) := by
    refine coverBefore_covered hvisit he.askable.left.loc_mem he.askable.right.loc_mem ?_ ?_ hlt
    · intro p q hp hq
      obtain rfl : e = (.enter p, .final q) := Prod.ext hp hq
      exact hsurv.started p q he
    · intro p q hp hq
      obtain rfl : e = (.final p, .enter q) := Prod.ext hp hq
      exact hsurv.apart p q he
  obtain ⟨hu, hv⟩ := inGraph_of_asked (fun e he => he.askable) hx
  obtain ⟨k, t⟩ := x
  cases t with
  | gt => exact hbefore k hx hold
  | lt => exact hbefore (k.2, k.1) hx hold
  | eq => exact coverTogether_covered hvisit hu.loc_mem hv.loc_mem hold

end Covers

section Run

variable {legal : Set (Wave PL)} {f : Facts PL IID} {setIdx : Nat} {aSet : List PL} {tr : Wave PL}
  {enter final : PL → Nat} {pkg : Package (Node PL)} {slv : Solver (Var (Node PL))}
  {files : OrderFiles PL} {pathCsv : Nat → Nat → Nat → Csv PL}
  (hpipe : Pipeline legal pkg slv f files pathCsv) (hfacts : FactsTrue legal f)
  (hinj : Function.Injective f.nodeName) (hset : (aSet, setIdx) ∈ f.reachableSets.zipIdx)
  (hnd : aSet.Nodup) (hrun : SetRun legal f aSet tr enter final) (hexact : VisitsExactly tr aSet)
  (hsurv : Survives pkg slv f setIdx aSet enter final)
include hfacts hnd hrun hsurv

/-- The entering and leaving orders of a run make a feasible path. -/
theorem checkPath_own {comb c : Comb PL}
    (hcomb : OwnComb enter final (EnterAsked pkg slv f setIdx aSet) comb)
    (hc : OwnComb enter final (LeaveAsked pkg slv f setIdx aSet comb) c) :
    ∃ red, checkPath pkg slv f setIdx aSet (comb ++ c) = some (some (red, true)) := by
  have hagrees : Agrees f setIdx aSet .node (f.hbInside aSet) f.concurrentPairs
      (nodeCycle enter final) :=
    (CollectReEval.agrees_of_admissible hfacts hrun hsurv.admissible).asNode
  have hin : ∀ x ∈ comb ++ c, f.InGraph setIdx aSet x.1.1 ∧ f.InGraph setIdx aSet x.1.2 := by
    intro x hx
    rcases List.mem_append.mp hx with hx | hx
    · exact inGraph_of_asked (fun e he => he.askable) (hcomb.asked x hx)
    · exact inGraph_of_asked (fun e he => he.askable) (hc.asked x hx)
  have hold : ∀ x ∈ comb ++ c, OrderHolds (nodeCycle enter final) x := by
    intro x hx
    rcases List.mem_append.mp hx with hx | hx
    · exact hcomb.holds x hx
    · exact hc.holds x hx
  have hleft : ∀ p ∈ aSet, p ∈ f.cycCntGt1PerSet setIdx → ∀ y,
      (.enter p, y) ∈ orderEdges (comb ++ c) → f.iidMap p = f.iidMapTmp y →
      nodeCycle enter final (.final p) < nodeCycle enter final y := by
    intro p hp hmark y hy hiid
    rw [orderEdges_append] at hy
    rcases List.mem_append.mp hy with hy | hy
    · exact (hsurv.leaving comb hcomb).fits.left p hp hmark y hy hiid
    · -- leaving orders are between two identifiers
      rcases mem_orderEdges.mp hy with hy | hy
      · exact absurd hiid (iid_ne_of_asked (hc.asked _ hy))
      · exact absurd hiid.symm (iid_ne_of_asked (hc.asked _ hy))
  have hmoves : ∀ e ∈ concurInComb (comb ++ c), e.1 ≠ e.2 → ∀ p, f.StayEdge setIdx aSet .node p →
      e.1.loc = p ∨ e.2.loc = p →
      nodeCycle enter final (.enter p) < nodeCycle enter final (.final p) := by
    intro e _ _ p hp
    cases hp.1
  obtain ⟨red, _, _, hcheck⟩ := checkPath_of_agrees pkg slv hnd hin
    (LeaveOrder.agrees_choose hagrees hold hleft hmoves) (fun p hp => hrun.stay hp)
    fun e he h1 h2 => hrun.whb_le hfacts he h1 h2
  exact ⟨red, hcheck⟩

include hpipe hinj hset hexact

/-- `xCollectReEval` and its covers keep the entering orders of the run. -/
theorem exists_entering_comb : ∃ combs comb j,
    LeaveOrder.combEdges (files.enterTodo setIdx) (files.enterCsv setIdx) = some combs ∧
    (comb, j) ∈ combs.zipIdx ∧ OwnComb enter final (EnterAsked pkg slv f setIdx aSet) comb := by
  obtain ⟨st, hst, hext, _⟩ : CollectReEval.Allowed pkg slv f setIdx aSet enter final :=
    CollectReEval.allowed_of_admissible hnd hfacts hrun hsurv.admissible
  have htodo : CollectReEval.pairsTodo pkg slv f setIdx aSet st = files.enterTodo setIdx := by
    have hgen := hpipe.enterTodo aSet setIdx hset
    rw [CollectReEval.gen, hst] at hgen
    exact Option.some.inj hgen
  have hrev (e : Node PL × Node PL) (he : EnterAsked pkg slv f setIdx aSet e)
      (hlt : nodeCycle enter final e.2 < nodeCycle enter final e.1) :
      EnterAsked pkg slv f setIdx aSet (e.2, e.1) :=
    he.reverse hst hext (hsurv.reversed e he hlt) hlt
  have hassume : AllHold (observe tr) (f.setAssumes aSet) :=
    setAssumes_hold.mpr fun p _ hp => (hexact p).mpr hp
  obtain ⟨d, hd, comb, hmem, hown⟩ := exists_own_comb (fun _ => mem_enterAsked hst) hrev
    (fun _ _ heq => hinj heq)
    hrun.legal htodo hassume (hpipe.enterCsv aSet setIdx hset)
    fun x hold hx => enterCover_covered hrun.visit hold hx
  obtain ⟨j, hj⟩ := exists_mem_zipIdx hmem
  exact ⟨choices d, comb, j, congrArg (Option.map choices) hd, hj, hown⟩

/-- `xCollectReEvalLeaveOrder` and its covers keep the leaving orders of the run. -/
theorem exists_leaving_comb {combs : List (Comb PL)} {comb : Comb PL} {j : Nat}
    (hcombs : LeaveOrder.combEdges (files.enterTodo setIdx) (files.enterCsv setIdx) = some combs)
    (hj : (comb, j) ∈ combs.zipIdx)
    (hcomb : OwnComb enter final (EnterAsked pkg slv f setIdx aSet) comb) :
    ∃ todo, files.finalTodo setIdx j = some todo ∧ (todo ≠ [] → ∃ cs c k,
      ConstructPaths.combEdgesFinal todo (files.finalCsv setIdx j) = some cs ∧ (c, k) ∈ cs.zipIdx ∧
      OwnComb enter final (LeaveAsked pkg slv f setIdx aSet comb) c) := by
  have hleave := hsurv.leaving comb hcomb
  have hin : ∀ x ∈ comb, f.InGraph setIdx aSet x.1.1 ∧ f.InGraph setIdx aSet x.1.2 :=
    fun x hx => inGraph_of_asked (fun e he => he.askable) (hcomb.asked x hx)
  obtain ⟨hacyclic, st, hst, hext⟩ := LeaveOrder.setupSolver_extends pkg slv hnd hfacts hrun
    hsurv.admissible hin hcomb.holds hleave.fits
  have htodo : some (LeaveOrder.pairsFinal pkg slv f setIdx aSet comb st) =
      files.finalTodo setIdx j := by
    have hgen := hpipe.finalTodo aSet setIdx hset combs hcombs comb j hj
    rw [LeaveOrder.gen_eq_some.mpr ⟨hacyclic, st, hst, rfl⟩] at hgen
    exact Option.some.inj hgen
  refine ⟨_, htodo.symm, fun hne => ?_⟩
  have hrev (e : Node PL × Node PL) (he : LeaveAsked pkg slv f setIdx aSet comb e)
      (hlt : nodeCycle enter final e.2 < nodeCycle enter final e.1) :
      LeaveAsked pkg slv f setIdx aSet comb (e.2, e.1) :=
    ⟨he.askable.reverse (hleave.reversed e he hlt), fun h => he.leaving (Entering.swap.mp h),
      st, hst, f.toAsk_reverse (he.toAsk_eq hst) hext hlt⟩
  have hassume : AllHold (observe tr) (f.setAssumes aSet ++ comb.flatMap assumeOrder) := by
    refine (allHold_append _ _ _).mpr ⟨setAssumes_hold.mpr fun p _ hp => (hexact p).mpr hp, ?_⟩
    intro a ha
    obtain ⟨x, hx, ha⟩ := List.mem_flatMap.mp ha
    exact assumeOrder_holds hrun.visit (hcomb.holds x hx) (hcomb.asked x hx) a ha
  have hcsv : ExactCsv legal (LeaveOrder.comFile f aSet comb
      (LeaveOrder.pairsFinal pkg slv f setIdx aSet comb st)) (files.finalCsv setIdx j) :=
    hpipe.finalCsv aSet setIdx hset combs hcombs comb j hj _ htodo.symm _ (if_neg hne)
  obtain ⟨d, hd, c, hmem, hown⟩ := exists_own_comb
    (fun _ => mem_leaveAsked hst (mem_nodes_closure hnd hin)) hrev (fun _ _ heq => hinj heq)
    hrun.legal rfl hassume (fun _ => hcsv)
    fun x hold hx => finalCover_covered hrun.visit hold hleave hx
  have hsetR : files.finalCsv setIdx j .setR = .covered := by
    refine (hcsv (.setR, .bool (f.setR aSet)) (by simp [LeaveOrder.comFile, Facts.todoCovers])).1 ?_
    exact ⟨tr, hrun.legal, hassume, setR_covered fun p hp => (hexact p).mp hp⟩
  obtain ⟨out, hout, _⟩ := hpipe.path aSet setIdx hset
  obtain ⟨cs, hcs⟩ := ConstructPaths.exists_combEdgesFinal hout hcombs hj hne htodo.symm
  obtain rfl := ConstructPaths.combEdgesFinal_eq_choices hcs hd hsetR
  obtain ⟨k, hk⟩ := exists_mem_zipIdx hmem
  exact ⟨_, c, k, hcs, hk, hown⟩

end Run

/-- A run that survives every stage has a combination of its own orders. -/
theorem exists_produced (pkg : Package (Node PL)) (slv : Solver (Var (Node PL)))
    (legal : Set (Wave PL)) (f : Facts PL IID) (files : OrderFiles PL)
    (pathCsv : Nat → Nat → Nat → Csv PL) (hpipe : Pipeline legal pkg slv f files pathCsv)
    (hfacts : FactsTrue legal f) (hinj : Function.Injective f.nodeName) (setIdx : Nat)
    (aSet : List PL) (hset : (aSet, setIdx) ∈ f.reachableSets.zipIdx) (hnd : aSet.Nodup)
    (tr : Wave PL) (enter final : PL → Nat) (hrun : SetRun legal f aSet tr enter final)
    (hexact : VisitsExactly tr aSet) (hsurv : Survives pkg slv f setIdx aSet enter final) :
    ∃ orders, Produced pkg slv f files setIdx aSet orders ∧
      ∀ x ∈ orders, OrderHolds (nodeCycle enter final) x := by
  obtain ⟨combs, comb, j, hcombs, hj, hcomb⟩ :=
    exists_entering_comb hpipe hfacts hinj hset hnd hrun hexact hsurv
  obtain ⟨todo, htodo, hopen⟩ :=
    exists_leaving_comb hpipe hfacts hinj hset hnd hrun hexact hsurv hcombs hj hcomb
  by_cases hne : todo = []
  · rw [hne] at htodo
    exact ⟨comb, .inl ⟨combs, j, hcombs, hj, htodo⟩, hcomb.holds⟩
  · obtain ⟨cs, c, k, hcs, hk, hc⟩ := hopen hne
    obtain ⟨red, hcheck⟩ := checkPath_own hfacts hnd hrun hsurv hcomb hc
    obtain ⟨out, hout, _⟩ := hpipe.path aSet setIdx hset
    have hfile : ((j, comb), (k, c)) ∈ out := (ConstructPaths.mem_genSet hout).mpr
      ⟨combs, todo, cs, red, hcombs, hj, hne, htodo, hcs, hk, hcheck⟩
    refine ⟨comb ++ c, .inr ⟨out, j, comb, k, c, hout, hfile, rfl⟩, ?_⟩
    intro x hx
    rcases List.mem_append.mp hx with hx | hx
    · exact hcomb.holds x hx
    · exact hc.holds x hx

namespace Overlap

theorem nodeName_injective : Function.Injective facts.nodeName := by
  intro u v h
  cases u with
  | enter p =>
    cases v with
    | enter q =>
      revert p q
      decide
    | final q =>
      revert p q
      decide
  | final p =>
    cases v with
    | enter q =>
      revert p q
      decide
    | final q =>
      revert p q
      decide

/-- The two locations are never entered together, and each has an identifier of its own. -/
theorem fits_own (slv : Solver (Var (Node (Fin 2)))) (r : Fin 3) (comb : Comb (Fin 2))
    (hcomb : OwnComb (enter r) (final r) (EnterAsked Warshall.package slv facts 0 [0, 1]) comb) :
    LeaveOrder.Fits facts 0 [0, 1] comb (enter r) (final r) := by
  have hleft : ∀ p ∈ [(0 : Fin 2), 1], p ∈ facts.cycCntGt1PerSet 0 → ∀ y,
      (.enter p, y) ∈ orderEdges comb → facts.iidMap p = facts.iidMapTmp y →
      nodeCycle (enter r) (final r) (.final p) < nodeCycle (enter r) (final r) y := by
    intro p _ _ y hy hiid
    have hlt : nodeCycle (enter r) (final r) (.enter p) < nodeCycle (enter r) (final r) y :=
      orderEdges_lt hcomb.holds hy
    have hent : ∃ q, y = .enter q := by
      rcases mem_orderEdges.mp hy with hy | hy
      · obtain ⟨_, _, q, _, heq⟩ := entering_of_asked (hcomb.asked _ hy)
        exact ⟨q, congrArg Prod.snd heq⟩
      · obtain ⟨q, _, _, _, heq⟩ := entering_of_asked (hcomb.asked _ hy)
        exact ⟨q, congrArg Prod.fst heq⟩
    obtain ⟨q, rfl⟩ := hent
    obtain rfl : p = q := hiid
    exact absurd hlt (lt_irrefl _)
  have hmoves : ∀ e ∈ concurInComb comb, e.1 ≠ e.2 → ∀ p ∈ [(0 : Fin 2), 1],
      p ∈ facts.cycCntGt1PerSet 0 → e.1.loc = p ∨ e.2.loc = p → enter r p < final r p := by
    intro e he hne
    have hinj : ∀ r p q, enter r p = enter r q → p = q := by decide
    obtain ⟨p, _, q, _, heq⟩ := entering_of_asked (hcomb.asked _ (mem_concurInComb.mp he))
    obtain rfl : e = (.enter p, .enter q) := heq
    have hpq : enter r p = enter r q := Int.ofNat_inj.mp (concurInComb_eq hcomb.holds he)
    exact absurd (congrArg Node.enter (hinj r p q hpq)) hne
  have hbuilt : Built facts 0 .edge (facts.hbInside [0, 1] ++ orderEdges comb) [0, 1] [0, 1]
      (LeaveOrder.building facts 0 [0, 1] comb) := built_twoLoops (by decide)
  have hagrees := LeaveOrder.agrees_choose
    (CollectReEval.agrees_of_admissible factsTrue (setRun r) (admissible r)) hcomb.holds hleft
    fun e he hne p hp hloc => Int.ofNat_lt.mpr (hmoves e he hne p hp.2.1 hp.2.2 hloc)
  have hin : ∀ x ∈ comb, facts.InGraph 0 [0, 1] x.1.1 ∧ facts.InGraph 0 [0, 1] x.1.2 :=
    fun x hx => inGraph_of_asked (fun e he => he.askable) (hcomb.asked x hx)
  refine ⟨hleft, hmoves, iidSpans _ _ ?_⟩
  intro e he hloc
  have htime := finish_inTime hbuilt (LeaveOrder.orders_inGraph hin) hagrees e.1 e.2 he
  exact htime.eq_stay hloc (Int.ofNat_le.mpr (visit r _).le)

theorem survives (slv : Solver (Var (Node (Fin 2)))) :
    Survives Warshall.package slv facts 0 [0, 1] (enter 0) (final 0) := by
  have hedge {e : Node (Fin 2) × Node (Fin 2)} (he : facts.Askable 0 [0, 1] e) :
      e.1.loc = 0 ∧ e.2.loc = 1 := by
    simpa [facts] using he.edge
  -- the first location is left before the second is entered
  have hearly : ∀ u : Node (Fin 2), u.loc = 0 → nodeCycle (enter 0) (final 0) u ≤ 2 := by
    intro u hu
    cases u <;> cases hu <;> decide
  have hlate : ∀ v : Node (Fin 2), v.loc = 1 → 4 ≤ nodeCycle (enter 0) (final 0) v := by
    intro v hv
    cases v <;> cases hv <;> decide
  have hnot {e : Node (Fin 2) × Node (Fin 2)} (he : facts.Askable 0 [0, 1] e) :
      ¬nodeCycle (enter 0) (final 0) e.2 < nodeCycle (enter 0) (final 0) e.1 := by
    have hu := hearly e.1 (hedge he).1
    have hv := hlate e.2 (hedge he).2
    omega
  refine ⟨admissible 0, fun e he hlt => absurd hlt (hnot he.askable), fun comb hcomb => ?_⟩
  refine ⟨fits_own slv 0 comb hcomb, fun e he hlt => absurd hlt (hnot he.askable), ?_, ?_⟩
  · intro p q he
    obtain ⟨rfl, rfl⟩ : p = 0 ∧ q = 1 := hedge he.askable
    decide
  · intro p q he
    obtain ⟨rfl, rfl⟩ : p = 0 ∧ q = 1 := hedge he.askable
    decide

theorem survives_produced :
    Survives Warshall.package Solver.classical facts 0 [0, 1] (enter 0) (final 0) ∧ ∃ orders,
      Produced Warshall.package Solver.classical facts files 0 [0, 1] orders ∧
      ∀ x ∈ orders, OrderHolds (nodeCycle (enter 0) (final 0)) x :=
  ⟨survives _, exists_produced _ _ legal facts files pathCsv (pipeline _) factsTrue
    nodeName_injective 0 [0, 1] (by decide) (by decide) (run 0) _ _ (setRun 0) (visitsExactly 0)
    (survives _)⟩

/-- The run that leaves the first location last has an order nobody asks about. -/
theorem lost : Pipeline legal Warshall.package Solver.classical facts files pathCsv ∧
    FactsTrue legal facts ∧
    (∀ tr ∈ legal, ∃ enter final, SetRun legal facts [0, 1] tr enter final) ∧
    SetRun legal facts [0, 1] (run 2) (enter 2) (final 2) ∧ VisitsExactly (run 2) [0, 1] ∧
    ∀ orders, Produced Warshall.package Solver.classical facts files 0 [0, 1] orders →
      ∃ x ∈ orders, ¬OrderHolds (nodeCycle (enter 2) (final 2)) x := by
  refine ⟨pipeline _, factsTrue, ?_, setRun 2, visitsExactly 2, ?_⟩
  · intro tr htr
    obtain ⟨r, rfl⟩ := htr
    exact ⟨enter r, final r, setRun r⟩
  · intro orders horders
    rcases horders with ⟨cs, j, hcs, hj, hfixed⟩ | ⟨out, j, comb, k, c, hout, hfile, rfl⟩
    · cases hfixed
    · obtain ⟨cs, todo', cs', _, hcs, hj, _, htodo, hcs', hk, _⟩ :=
        (ConstructPaths.mem_genSet hout).mp hfile
      obtain ⟨rfl, rfl⟩ := eq_of_mem_combEdges hcs hj
      obtain rfl : todo = todo' := Option.some.inj htodo
      obtain rfl : combs = cs' := Option.some.inj (combEdgesFinal.symm.trans hcs')
      have hwrong : ∀ c ∈ combs, ∃ x ∈ c, ¬OrderHolds (nodeCycle (enter 2) (final 2)) x := by decide
      exact hwrong c (List.fst_mem_of_mem_zipIdx hk)

end Overlap

end SynthLC
