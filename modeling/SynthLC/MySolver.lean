import SynthLC.DiGraph
import SynthLC.Smt

/-! `solver.py`: the constraints a reduced order graph stands for. The copies beside
`xCollectReEval` and `xCollectReEvalLeaveOrder` ask a same-identifier edge for exactly one
cycle, those beside `xConstructPaths` and `xSummarize` only for an order. -/
namespace SynthLC

open Graph Smt

variable {V IID : Type}

/-- A variable for each node, and a fresh one for each weighted edge. -/
inductive Var (V : Type) where
  | node (v : V)
  | temp (n : Nat)
  deriving DecidableEq

/-- The constructor's arguments; `whbFinals` is empty where the source has no such field. -/
structure MySolver (V IID : Type) where
  tr : DiGraph V
  edgeWeight : V × V → Option (List Int)
  impliedEdgesSameIid : List (V × V)
  iidMapTmp : V → IID
  edgeWeightSingle : List (V × V)
  enterConcurrentPairs : List (V × V)
  whbEdge : List (V × V)
  whbFinals : List (V × V)

structure SolverState (V : Type) where
  assertions : List (Constraint (Var V)) := []
  tempvars : Nat := 0

/-- The two readings of an edge between nodes of one identifier. -/
inductive SameIid where
  | oneCycle
  | before
  deriving DecidableEq

def SameIid.constraint {α : Type} : SameIid → α → α → Constraint α
  | .oneCycle => .succEq
  | .before => .lt

def SameIid.Holds : SameIid → Int → Int → Prop
  | .oneCycle, a, b => a + 1 = b
  | .before, a, b => a < b

instance (same : SameIid) (a b : Int) : Decidable (same.Holds a b) :=
  match same with
  | .oneCycle => inferInstanceAs (Decidable (a + 1 = b))
  | .before => inferInstanceAs (Decidable (a < b))

namespace MySolver

/-- Only temporaries handed out so far. -/
def Below (n : Nat) : Var V → Prop
  | .node _ => True
  | .temp k => k < n

def Fresh (st : SolverState V) : Prop := ∀ c ∈ st.assertions, c.Vars (Below st.tempvars)

/-- The node values extend to a model of the assertions. -/
def Extends (val : V → Int) (st : SolverState V) : Prop :=
  ∃ σ : Var V → Int, (∀ v, σ (.node v) = val v) ∧ Models σ st.assertions

theorem below_mono {m n : Nat} (h : m ≤ n) (x : Var V) (hx : Below m x) : Below n x := by
  cases x with
  | node _ => trivial
  | temp k => exact lt_of_lt_of_le hx h

theorem fresh_start : Fresh ({} : SolverState V) := by simp [Fresh]

theorem extends_start (val : V → Int) : Extends val ({} : SolverState V) :=
  ⟨fun x => match x with | .node v => val v | .temp _ => 0, fun _ => rfl, by simp [Models]⟩

variable [DecidableEq V] [DecidableEq IID] (same : SameIid) (s : MySolver V IID)

/-- One edge of the reduction; an empty range of weights stops the script. -/
def addEdge (st : SolverState V) (e : V × V) : Option (SolverState V) :=
  match s.edgeWeight e with
  | some [] => none
  | some (r :: rs) => some
      { assertions := st.assertions ++
          [.oneOf (.temp st.tempvars) (r :: rs), .addEq (.node e.1) (.temp st.tempvars) (.node e.2)]
        tempvars := st.tempvars + 1 }
  | none =>
    let c : Constraint (Var V) :=
      if e ∈ s.impliedEdgesSameIid then same.constraint (.node e.1) (.node e.2)
      else if s.iidMapTmp e.1 = s.iidMapTmp e.2 then same.constraint (.node e.1) (.node e.2)
      else if e ∈ s.edgeWeightSingle then .succEq (.node e.1) (.node e.2)
      else .lt (.node e.1) (.node e.2)
    some { st with assertions := st.assertions ++ [c] }

/-- Pairs of a list that lie in the graph, each with its constraint. -/
def onNodes (c : Var V → Var V → Constraint (Var V)) (es : List (V × V)) :
    List (Constraint (Var V)) :=
  (es.filter fun e => decide (e.1 ∈ s.tr.nodes) && decide (e.2 ∈ s.tr.nodes)).map fun e =>
    c (.node e.1) (.node e.2)

/-- All assertions of `add_constraints`, before it calls `check`. -/
def assertAll (st : SolverState V) : Option (SolverState V) := do
  let st ← s.tr.edges.foldlM (s.addEdge same) st
  pure { st with assertions := st.assertions ++ s.onNodes .le (s.whbEdge ++ s.whbFinals) ++
                   s.onNodes .eq s.enterConcurrentPairs }

/-- `add_constraints` with the answer of its `check`: the copies beside `xCollectReEval` and
`xCollectReEvalLeaveOrder` assert that it is `sat`, the others return it. -/
def addConstraints (slv : Solver (Var V)) (st : SolverState V) :
    Option (Answer × SolverState V) :=
  (s.assertAll same st).map fun st => (slv.check st.assertions, st)

def checkHbPossibility (slv : Solver (Var V)) (st : SolverState V) (e : V × V) : Bool :=
  decide (slv.check (st.assertions ++ [.lt (.node e.1) (.node e.2)]) ≠ .unsat)

def checkImpHb (slv : Solver (Var V)) (st : SolverState V) (e : V × V) : Bool :=
  decide (slv.check (st.assertions ++ [.ge (.node e.1) (.node e.2)]) = .unsat)

def checkImpConcur (slv : Solver (Var V)) (st : SolverState V) (e : V × V) : Bool :=
  decide (slv.check (st.assertions ++ [.ne (.node e.1) (.node e.2)]) = .unsat)

/-- What the edge asks of the nodes' values. -/
def EdgeHolds (val : V → Int) (e : V × V) : Prop :=
  match s.edgeWeight e with
  | some rs => ∃ r ∈ rs, val e.1 + r = val e.2
  | none =>
    if e ∈ s.impliedEdgesSameIid ∨ s.iidMapTmp e.1 = s.iidMapTmp e.2 then
      same.Holds (val e.1) (val e.2)
    else if e ∈ s.edgeWeightSingle then val e.1 + 1 = val e.2
    else val e.1 < val e.2

/-- What the whole graph asks. -/
structure Satisfied (val : V → Int) : Prop where
  edges : ∀ e ∈ s.tr.edges, s.EdgeHolds same val e
  whb : ∀ e ∈ s.whbEdge ++ s.whbFinals, e.1 ∈ s.tr.nodes → e.2 ∈ s.tr.nodes → val e.1 ≤ val e.2
  concurrent : ∀ e ∈ s.enterConcurrentPairs, e.1 ∈ s.tr.nodes → e.2 ∈ s.tr.nodes →
    val e.1 = val e.2

section Spec

variable {same s} {st st' : SolverState V} {val : V → Int} {e : V × V}

omit [DecidableEq V] [DecidableEq IID] in
theorem sameIid_holds {σ : Var V → Int} {a b : Var V} :
    (same.constraint a b).Holds σ ↔ same.Holds (σ a) (σ b) := by
  cases same <;> exact Iff.rfl

theorem addEdge_some (h : s.edgeWeight e ≠ some []) : ∃ st', s.addEdge same st e = some st' := by
  unfold addEdge
  split
  · contradiction
  · exact ⟨_, rfl⟩
  · exact ⟨_, rfl⟩

/-- The constraint of an edge without a weight. -/
theorem addEdge_plain (h : s.edgeWeight e = none) (hadd : s.addEdge same st e = some st') :
    ∃ c : Constraint (Var V), st' = { st with assertions := st.assertions ++ [c] } ∧
      c.Vars (Below 0) ∧
      ∀ σ : Var V → Int, c.Holds σ ↔ s.EdgeHolds same (fun v => σ (.node v)) e := by
  simp only [addEdge, h] at hadd
  refine ⟨_, (Option.some.inj hadd).symm, ?_, ?_⟩
  · split_ifs
    · cases same <;> exact ⟨trivial, trivial⟩
    · cases same <;> exact ⟨trivial, trivial⟩
    · exact ⟨trivial, trivial⟩
    · exact ⟨trivial, trivial⟩
  · intro σ
    simp only [EdgeHolds, h]
    by_cases h1 : e ∈ s.impliedEdgesSameIid
    · rw [if_pos h1, if_pos (.inl h1), sameIid_holds]
    · by_cases h2 : s.iidMapTmp e.1 = s.iidMapTmp e.2
      · rw [if_neg h1, if_pos h2, if_pos (.inr h2), sameIid_holds]
      · rw [if_neg h1, if_neg h2, if_neg (not_or.mpr ⟨h1, h2⟩)]
        split_ifs
        · exact Iff.rfl
        · exact Iff.rfl

theorem addEdge_weighted {rs : List Int} (h : s.edgeWeight e = some rs)
    (hadd : s.addEdge same st e = some st') :
    st' = ⟨st.assertions ++ [.oneOf (.temp st.tempvars) rs,
      .addEq (.node e.1) (.temp st.tempvars) (.node e.2)], st.tempvars + 1⟩ := by
  cases rs with
  | nil => simp [addEdge, h] at hadd
  | cons r rs =>
    simp only [addEdge, h] at hadd
    exact (Option.some.inj hadd).symm

/-- A weighted edge is met by some weight of its range: the fresh variable takes it and no
earlier assertion notices. -/
theorem addEdge_spec (hfresh : Fresh st) (hadd : s.addEdge same st e = some st') :
    Fresh st' ∧ ∀ val, Extends val st' ↔ Extends val st ∧ s.EdgeHolds same val e := by
  cases hw : s.edgeWeight e with
  | none =>
    obtain ⟨c, rfl, hvars, hholds⟩ := addEdge_plain hw hadd
    refine ⟨?_, ?_⟩
    · intro d hd
      rcases List.mem_append.mp hd with hd | hd
      · exact hfresh d hd
      · rw [List.mem_singleton.mp hd]
        exact hvars.mono (below_mono (Nat.zero_le _))
    · intro val
      constructor
      · intro h
        obtain ⟨σ, hnode, hmodel⟩ := h
        obtain ⟨hold, hnew⟩ := models_append.mp hmodel
        refine ⟨⟨σ, hnode, hold⟩, ?_⟩
        have hc := (hholds σ).mp (hnew c (by simp))
        simpa only [hnode] using hc
      · intro h
        obtain ⟨⟨σ, hnode, hold⟩, hedge⟩ := h
        refine ⟨σ, hnode, models_append.mpr ⟨hold, ?_⟩⟩
        intro d hd
        rw [List.mem_singleton.mp hd, hholds]
        simpa only [hnode] using hedge
  | some rs =>
    obtain rfl := addEdge_weighted hw hadd
    refine ⟨?_, ?_⟩
    · intro d hd
      rcases List.mem_append.mp hd with hd | hd
      · exact (hfresh d hd).mono (below_mono (Nat.le_succ _))
      · simp only [List.mem_cons, List.not_mem_nil, or_false] at hd
        rcases hd with rfl | rfl
        · exact Nat.lt_succ_self _
        · exact ⟨trivial, Nat.lt_succ_self _, trivial⟩
    · intro val
      simp only [EdgeHolds, hw]
      constructor
      · intro h
        obtain ⟨σ, hnode, hmodel⟩ := h
        obtain ⟨hold, hnew⟩ := models_append.mp hmodel
        have hrange := hnew (.oneOf (.temp st.tempvars) rs) (by simp)
        have hsum := hnew (.addEq (.node e.1) (.temp st.tempvars) (.node e.2)) (by simp)
        simp only [Constraint.Holds, hnode] at hrange hsum
        exact ⟨⟨σ, hnode, hold⟩, _, hrange, hsum⟩
      · intro h
        obtain ⟨⟨σ, hnode, hold⟩, r, hr, hsum⟩ := h
        have hkeep (x : Var V) (hx : Below st.tempvars x) :
            σ x = Function.update σ (.temp st.tempvars) r x := by
          rw [Function.update_of_ne]
          intro heq
          rw [heq] at hx
          exact lt_irrefl _ hx
        refine ⟨Function.update σ (.temp st.tempvars) r, ?_, models_append.mpr ⟨?_, ?_⟩⟩
        · intro v
          rw [Function.update_of_ne (by simp), hnode]
        · intro d hd
          exact (hold d hd).congr (hfresh d hd) hkeep
        · intro d hd
          simp only [List.mem_cons, List.not_mem_nil, or_false] at hd
          rcases hd with rfl | rfl
          · simpa [Constraint.Holds] using hr
          · simpa [Constraint.Holds, hnode] using hsum

theorem addEdges_spec {es : List (V × V)} (hfresh : Fresh st)
    (hadd : es.foldlM (s.addEdge same) st = some st') :
    Fresh st' ∧ ∀ val, Extends val st' ↔ Extends val st ∧ ∀ e ∈ es, s.EdgeHolds same val e := by
  induction es generalizing st with
  | nil =>
    obtain rfl : st = st' := Option.some.inj hadd
    simpa using hfresh
  | cons e es ih =>
    rw [List.foldlM_cons] at hadd
    obtain ⟨mid, hmid, hrest⟩ := Option.bind_eq_some_iff.mp hadd
    obtain ⟨hfresh1, hspec1⟩ := addEdge_spec hfresh hmid
    obtain ⟨hfresh2, hspec2⟩ := ih hfresh1 hrest
    refine ⟨hfresh2, fun val => ?_⟩
    rw [hspec2, hspec1, and_assoc, List.forall_mem_cons]

omit [DecidableEq IID] in
theorem onNodes_models {c : Var V → Var V → Constraint (Var V)} {es : List (V × V)}
    {σ : Var V → Int} : Models σ (s.onNodes c es) ↔
      ∀ e ∈ es, e.1 ∈ s.tr.nodes → e.2 ∈ s.tr.nodes → (c (.node e.1) (.node e.2)).Holds σ := by
  simp only [Models, onNodes, List.forall_mem_map, List.mem_filter, Bool.and_eq_true,
    decide_eq_true_eq, and_imp]

/-- The assertions hold of a model exactly if its node values satisfy the graph. -/
theorem assertAll_spec (hfresh : Fresh st) (hadd : s.assertAll same st = some st') :
    Fresh st' ∧ ∀ val, Extends val st' ↔ Extends val st ∧ s.Satisfied same val := by
  obtain ⟨mid, hmid, hrest⟩ := Option.bind_eq_some_iff.mp hadd
  obtain rfl := Option.some.inj hrest
  obtain ⟨hfreshMid, hspec⟩ := addEdges_spec hfresh hmid
  refine ⟨?_, ?_⟩
  · intro c hc
    simp only [List.mem_append, onNodes, List.mem_map] at hc
    rcases hc with (hc | ⟨e, _, rfl⟩) | ⟨e, _, rfl⟩
    · exact hfreshMid c hc
    · exact ⟨trivial, trivial⟩
    · exact ⟨trivial, trivial⟩
  · intro val
    constructor
    · intro h
      obtain ⟨σ, hnode, hmodel⟩ := h
      obtain ⟨hold, heq⟩ := models_append.mp hmodel
      obtain ⟨hold, hle⟩ := models_append.mp hold
      obtain ⟨hst, hedges⟩ := (hspec val).mp ⟨σ, hnode, hold⟩
      refine ⟨hst, hedges, ?_, ?_⟩
      · simpa only [Constraint.Holds, hnode] using onNodes_models.mp hle
      · simpa only [Constraint.Holds, hnode] using onNodes_models.mp heq
    · intro h
      obtain ⟨σ, hnode, hold⟩ := (hspec val).mpr ⟨h.1, h.2.edges⟩
      refine ⟨σ, hnode, models_append.mpr ⟨models_append.mpr ⟨hold, ?_⟩, ?_⟩⟩
      · apply onNodes_models.mpr
        simpa only [Constraint.Holds, hnode] using h.2.whb
      · apply onNodes_models.mpr
        simpa only [Constraint.Holds, hnode] using h.2.concurrent

theorem assertAll_some (h : ∀ e ∈ s.tr.edges, s.edgeWeight e ≠ some []) :
    ∃ st', s.assertAll same st = some st' := by
  obtain ⟨mid, hmid, _⟩ := Loop.foldlM_some (s.addEdge same) (fun _ => True) s.tr.edges st
    (fun st _ e he => by
      obtain ⟨st', hst'⟩ := addEdge_some (h e he)
      exact ⟨st', hst', trivial⟩) trivial
  exact ⟨_, by simp only [assertAll, hmid]; rfl⟩

/-- Values that satisfy the graph are a solution of the assertions added to a solver. -/
theorem extends_of_satisfied (hfresh : Fresh st) (hext : Extends val st)
    (hweight : ∀ e ∈ s.tr.edges, s.edgeWeight e ≠ some []) (hsat : s.Satisfied same val) :
    ∃ st', s.assertAll same st = some st' ∧ Fresh st' ∧ Extends val st' := by
  obtain ⟨st', hadd⟩ : ∃ st', s.assertAll same st = some st' := assertAll_some hweight
  have hspec := assertAll_spec hfresh hadd
  exact ⟨st', hadd, hspec.1, (hspec.2 val).mpr ⟨hext, hsat⟩⟩

variable {slv : Solver (Var V)}

/-- A script that asserts the answer `sat` goes on with the constraints. -/
theorem addConstraints_sat :
    ((s.addConstraints same slv st).bind fun r => if r.1 = .sat then some r.2 else none) = some st' ↔
      s.assertAll same st = some st' ∧ slv.check st'.assertions = .sat := by
  simp only [addConstraints, Option.bind_eq_some_iff, Option.map_eq_some_iff]
  constructor
  · intro h
    obtain ⟨_, ⟨mid, hmid, rfl⟩, heq⟩ := h
    split_ifs at heq with hsat
    obtain rfl : mid = st' := Option.some.inj heq
    exact ⟨hmid, hsat⟩
  · intro h
    exact ⟨_, ⟨st', h.1, rfl⟩, if_pos h.2⟩

omit [DecidableEq V] in
theorem check_sat_iff : slv.check st.assertions = .sat ↔ ∃ val, Extends val st := by
  rw [slv.check_sat]
  constructor
  · intro h
    obtain ⟨σ, hmodel⟩ := h
    exact ⟨fun v => σ (.node v), σ, fun _ => rfl, hmodel⟩
  · intro h
    obtain ⟨val, σ, _, hmodel⟩ := h
    exact ⟨σ, hmodel⟩

omit [DecidableEq V] in
theorem check_of_extends (h : Extends val st) : slv.check st.assertions = .sat :=
  check_sat_iff.mpr ⟨val, h⟩

omit [DecidableEq V] in
theorem check_append_of_extends (slv : Solver (Var V)) (h : Extends val st) {c : Constraint (Var V)}
    (hc : ∀ σ : Var V → Int, (∀ v, σ (.node v) = val v) → c.Holds σ) :
    slv.check (st.assertions ++ [c]) = .sat := by
  obtain ⟨σ, hnode, hmodel⟩ := h
  refine (slv.check_sat _).mpr ⟨σ, models_append.mpr ⟨hmodel, ?_⟩⟩
  intro d hd
  rw [List.mem_singleton.mp hd]
  exact hc σ hnode

omit [DecidableEq V] in
/-- An order that a solution of the constraints has is possible ... -/
theorem checkHbPossibility_of_extends (h : Extends val st) (hlt : val e.1 < val e.2) :
    checkHbPossibility slv st e = true := by
  have hsat := check_append_of_extends slv h (c := .lt (.node e.1) (.node e.2)) (by
    intro σ hnode
    simpa only [Constraint.Holds, hnode] using hlt)
  simp [checkHbPossibility, hsat]

omit [DecidableEq V] in
/-- A further constraint that is not refuted holds in some solution. -/
theorem exists_extends_of_ne_unsat {c : Constraint (Var V)}
    (h : slv.check (st.assertions ++ [c]) ≠ .unsat) :
    ∃ σ : Var V → Int, Extends (fun v => σ (.node v)) st ∧ c.Holds σ := by
  rw [ne_eq, slv.check_unsat, not_not] at h
  obtain ⟨σ, hσ⟩ := h
  have hnew : c.Holds σ := (models_append.mp hσ).2 _ (List.mem_singleton.mpr rfl)
  exact ⟨σ, ⟨σ, fun _ => rfl, (models_append.mp hσ).1⟩, hnew⟩

omit [DecidableEq V] in
theorem exists_extends_of_possible (h : checkHbPossibility slv st e = true) :
    ∃ val, Extends val st ∧ val e.1 < val e.2 := by
  obtain ⟨σ, hext, hlt⟩ := exists_extends_of_ne_unsat (of_decide_eq_true h)
  exact ⟨_, hext, hlt⟩

omit [DecidableEq V] in
theorem exists_extends_of_not_implied (h : checkImpHb slv st e = false) :
    ∃ val, Extends val st ∧ val e.2 ≤ val e.1 := by
  obtain ⟨σ, hext, hle⟩ := exists_extends_of_ne_unsat (of_decide_eq_false h)
  exact ⟨_, hext, hle⟩

omit [DecidableEq V] in
/-- Two nodes that need not be simultaneous have different values in some solution. -/
theorem exists_extends_of_not_concur (h : checkImpConcur slv st e = false) :
    ∃ val, Extends val st ∧ val e.1 ≠ val e.2 := by
  obtain ⟨σ, hext, hne⟩ := exists_extends_of_ne_unsat (of_decide_eq_false h)
  exact ⟨_, hext, hne⟩

omit [DecidableEq V] in
/-- ... and the opposite one is not implied. -/
theorem checkImpHb_of_extends (h : Extends val st) (hle : val e.2 ≤ val e.1) :
    checkImpHb slv st e = false := by
  have hsat := check_append_of_extends slv h (c := .ge (.node e.1) (.node e.2)) (by
    intro σ hnode
    simpa only [Constraint.Holds, hnode] using hle)
  simp [checkImpHb, hsat]

end Spec

end MySolver

end SynthLC
