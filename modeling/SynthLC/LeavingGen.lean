import SynthLC.Leaving
import SynthLC.Warshall

/-! `gen` of `xHBPerfG_leaving`: which leaving orders are checked for an edge. A check is left out
where the closures of the reachable sets already order the two entries, but a closure has only
the locations of a set that have a happens-before edge in it. -/
namespace SynthLC.Leaving

open Sva Graph
open scoped Loop

variable {PL IID : Type}

/-- Two locations as a tuple made in place or as a list that `get_array` read; the two kinds are
never equal. -/
inductive PyPair (PL : Type) where
  | tuple (u v : PL)
  | list (u v : PL)
  deriving DecidableEq

/-- What is checked for an edge: leaving the first location before entering the second, entering
before leaving, and leaving before leaving. -/
inductive Check where
  | leavingEnter
  | enterLeaving
  | leavingLeaving
  deriving DecidableEq

def Check.nodes (e : PL × PL) : Check → Node PL × Node PL
  | .leavingEnter => (.final e.1, .enter e.2)
  | .enterLeaving => (.enter e.1, .final e.2)
  | .leavingLeaving => (.final e.1, .final e.2)

variable [DecidableEq PL] [DecidableEq IID]

section Gen

variable (pkg : Package PL) (f : Facts PL IID)

/-- `(u, v) in enter_concurrent_pairs` -/
def inConcurrent (u v : PL) : Bool :=
  decide (PyPair.tuple u v ∈ f.enterConcurrentPairs.map fun e => PyPair.list e.1 e.2)

/-- `DG` of a reachable set -/
def hbGraph (aSet : List PL) : DiGraph PL :=
  DiGraph.empty.addEdges (f.hbEdge.filter fun e => decide (e.1 ∈ aSet) && decide (e.2 ∈ aSet))

/-- `TC_per_set` -/
def tcPerSet : List (DiGraph PL) :=
  f.reachableSets.map fun aSet => pkg.transitiveClosure (hbGraph f aSet)

/-- `e_in_tc_edge` after the loop over the closures, for entering `u` before `v` -/
def eInTcEdge (u v : PL) : Bool :=
  (tcPerSet pkg f).foldl (fun eInTc tmpTC =>
    if u ∈ tmpTC.nodes ∧ v ∈ tmpTC.nodes then eInTc && decide ((u, v) ∈ tmpTC.edges) else eInTc) true

/-- `over1cyc_pl` -/
def over1cyc (p : PL) : Bool := decide (1 < f.maxCycPerPl p)

/-- The checks `gen` writes for an edge it considers. -/
def genChecks (e : PL × PL) : List Check :=
  (if over1cyc f e.1 then
      if inConcurrent f e.2 e.1 then []
      else if eInTcEdge pkg f e.2 e.1 then []
      else [.leavingEnter]
    else []) ++
  (if over1cyc f e.2 then
      if inConcurrent f e.1 e.2 then []
      else if eInTcEdge pkg f e.1 e.2 then []
      else [.enterLeaving]
    else []) ++
  (if over1cyc f e.1 && over1cyc f e.2 then [.leavingLeaving] else [])

/-- Edges `gen` does not skip; `node_implications` is empty. -/
def considered (e : PL × PL) : Bool :=
  (f.reachableSets.any fun aSet => decide (e.1 ∈ aSet) && decide (e.2 ∈ aSet)) &&
    (decide (e.1 ∈ f.cvPerflocs) && decide (e.2 ∈ f.cvPerflocs)) &&
    (over1cyc f e.1 || over1cyc f e.2) && decide (f.iidMap e.1 ≠ f.iidMap e.2)

/-- `HB_LEAVING_{cnt}.sv` with its edge, a line of `check_e.txt` -/
structure HbFile (PL : Type) where
  e : PL × PL
  cnt : Nat
  assumes : List (Property (Sig PL))
  checks : List Check

/-- The asserted properties of the file. -/
def HbFile.asserts (file : HbFile PL) : List (Property (Sig PL)) :=
  file.checks.filterMap fun c => hbAssert (c.nodes file.e).1 (c.nodes file.e).2

/-- The loop over the edges; a file is opened with its first property. -/
def genLoop : Nat → List (PL × PL) → List (HbFile PL)
  | _, [] => []
  | cnt, e :: es =>
    if considered f e && !(genChecks pkg f e).isEmpty then
      { e := e, cnt := cnt, assumes := assumes f e.2, checks := genChecks pkg f e } ::
        genLoop (cnt + 1) es
    else genLoop cnt es

def gen : List (HbFile PL) := genLoop pkg f 0 f.edge

end Gen

variable {pkg : Package PL} {f : Facts PL IID} {u v : PL} {e : PL × PL}

omit [DecidableEq IID] in
/-- The test for a simultaneous pair never succeeds. -/
theorem inConcurrent_eq_false (u v : PL) : inConcurrent f u v = false := by
  simp [inConcurrent]

theorem foldl_and_eq_true {α : Type} {P : α → Prop} [DecidablePred P] {q : α → Bool} {xs : List α}
    {b : Bool} : xs.foldl (fun b x => if P x then b && q x else b) b = true ↔
      b = true ∧ ∀ x ∈ xs, P x → q x = true := by
  induction xs generalizing b with
  | nil => simp
  | cons x xs ih =>
    rw [List.foldl_cons, ih, List.forall_mem_cons]
    by_cases hx : P x
    · simp [hx, and_assoc]
    · simp [hx]

/-- The location has a happens-before edge inside the set. -/
def HasHb (f : Facts PL IID) (aSet : List PL) (p : PL) : Prop :=
  ∃ e ∈ f.hbEdge, e.1 ∈ aSet ∧ e.2 ∈ aSet ∧ (p = e.1 ∨ p = e.2)

omit [DecidableEq IID] in
theorem mem_nodes_hbGraph {aSet : List PL} {p : PL} :
    p ∈ (hbGraph f aSet).nodes ↔ HasHb f aSet p := by
  simp only [hbGraph, DiGraph.mem_nodes_addEdges, DiGraph.nodes_empty, List.not_mem_nil, false_or,
    List.mem_filter, Bool.and_eq_true, decide_eq_true_eq, HasHb, and_assoc]

omit [DecidableEq IID] in
/-- Only sets in which both locations have an edge count. -/
theorem eInTcEdge_iff : eInTcEdge pkg f u v = true ↔ ∀ aSet ∈ f.reachableSets,
    HasHb f aSet u → HasHb f aSet v → (hbGraph f aSet).Path u v := by
  simp only [eInTcEdge, tcPerSet, foldl_and_eq_true, true_and, List.forall_mem_map,
    pkg.closure_nodes, pkg.closure_edges, mem_nodes_hbGraph, decide_eq_true_eq, and_imp]

omit [DecidableEq IID] in
theorem leavingEnter_mem_genChecks : .leavingEnter ∈ genChecks pkg f e ↔
    1 < f.maxCycPerPl e.1 ∧ eInTcEdge pkg f e.2 e.1 = false := by
  simp only [genChecks, inConcurrent_eq_false, over1cyc]
  by_cases hover : 1 < f.maxCycPerPl e.1
  · cases eInTcEdge pkg f e.2 e.1
    · simp [hover]
    · simp [hover]
  · simp [hover]

theorem exists_genLoop {es : List (PL × PL)} {cnt : Nat} :
    (∃ file ∈ genLoop pkg f cnt es, file.e = e) ↔
      e ∈ es ∧ considered f e = true ∧ genChecks pkg f e ≠ [] := by
  induction es generalizing cnt with
  | nil => simp [genLoop]
  | cons e' es ih =>
    rw [genLoop]
    by_cases hopen : (considered f e' && !(genChecks pkg f e').isEmpty) = true
    · have hopen' : considered f e' = true ∧ genChecks pkg f e' ≠ [] := by simpa using hopen
      rw [if_pos hopen]
      simp only [List.mem_cons, exists_eq_or_imp, ih]
      constructor
      · intro h
        rcases h with rfl | h
        · exact ⟨.inl rfl, hopen'⟩
        · exact ⟨.inr h.1, h.2⟩
      · intro h
        rcases h with ⟨rfl | hmem, h⟩
        · exact .inl rfl
        · exact .inr ⟨hmem, h⟩
    · have hclosed : ¬(considered f e' = true ∧ genChecks pkg f e' ≠ []) := by simpa using hopen
      rw [if_neg hopen, ih, List.mem_cons]
      constructor
      · intro h
        exact ⟨.inr h.1, h.2⟩
      · intro h
        rcases h with ⟨rfl | hmem, h⟩
        · exact absurd h hclosed
        · exact ⟨hmem, h⟩

theorem checks_of_mem_genLoop {es : List (PL × PL)} {cnt : Nat} {file : HbFile PL}
    (h : file ∈ genLoop pkg f cnt es) : file.checks = genChecks pkg f file.e := by
  induction es generalizing cnt with
  | nil => simp [genLoop] at h
  | cons e' es ih =>
    rw [genLoop] at h
    split_ifs at h
    · rcases List.mem_cons.mp h with rfl | h
      · rfl
      · exact ih h
    · exact ih h

/-- A property is written exactly if its edge is considered and asks for it. -/
theorem written_iff {c : Check} : (∃ file ∈ gen pkg f, file.e = e ∧ c ∈ file.checks) ↔
    e ∈ f.edge ∧ considered f e = true ∧ c ∈ genChecks pkg f e := by
  constructor
  · intro h
    obtain ⟨file, hfile, rfl, hc⟩ := h
    rw [checks_of_mem_genLoop hfile] at hc
    obtain ⟨hmem, hcons, _⟩ := exists_genLoop.mp ⟨file, hfile, rfl⟩
    exact ⟨hmem, hcons, hc⟩
  · intro h
    obtain ⟨hmem, hcons, hc⟩ := h
    obtain ⟨file, hfile, he⟩ := (@exists_genLoop _ _ _ _ _ _ _ _ 0).mpr
      ⟨hmem, hcons, List.ne_nil_of_mem hc⟩
    refine ⟨file, hfile, he, ?_⟩
    rwa [checks_of_mem_genLoop hfile, he]

/-- Some reachable set has a happens-before edge at both locations without ordering `b` before
`a`. -/
def OpenIn (f : Facts PL IID) (a b : PL) : Prop :=
  ∃ aSet ∈ f.reachableSets, HasHb f aSet a ∧ HasHb f aSet b ∧ ¬(hbGraph f aSet).Path b a

omit [DecidableEq IID] in
theorem eInTcEdge_eq_false_iff {a b : PL} : eInTcEdge pkg f b a = false ↔ OpenIn f a b := by
  rw [← Bool.not_eq_true, eInTcEdge_iff, OpenIn]
  push Not
  exact exists_congr fun aSet => and_congr_right fun _ => and_left_comm

omit [DecidableEq IID] in
/-- A path between two locations gives both of them an edge. -/
theorem hasHb_of_path {aSet : List PL} (h : (hbGraph f aSet).Path u v) :
    HasHb f aSet u ∧ HasHb f aSet v :=
  ⟨mem_nodes_hbGraph.mp h.mem_nodes.1, mem_nodes_hbGraph.mp h.mem_nodes.2⟩

/-- For an edge inside a reachable set whose first location may stay, `gen` leaves the check
"leaving `a` before entering `b`" out only for pairs that are simultaneous or ordered in every set
with both, exactly if the pair is simultaneous, or both are covered locations wherever a set with
edges at both leaves them open, and both have an edge in every set with both wherever none does. -/
theorem leaving_check_omitted_iff (pkg : Package PL) (f : Facts PL IID) (a b : PL)
    (hedge : (a, b) ∈ f.edge) (hset : ∃ aSet ∈ f.reachableSets, a ∈ aSet ∧ b ∈ aSet)
    (hover : 1 < f.maxCycPerPl a) (hiid : f.iidMap a ≠ f.iidMap b) :
    ((¬∃ file ∈ gen pkg f, file.e = (a, b) ∧ .leavingEnter ∈ file.checks) →
        ((a, b) ∈ f.enterConcurrentPairs ∨ (b, a) ∈ f.enterConcurrentPairs) ∨
          ∀ aSet ∈ f.reachableSets, a ∈ aSet → b ∈ aSet → (hbGraph f aSet).Path b a) ↔
      ((a, b) ∈ f.enterConcurrentPairs ∨ (b, a) ∈ f.enterConcurrentPairs) ∨
        ((OpenIn f a b → a ∈ f.cvPerflocs ∧ b ∈ f.cvPerflocs) ∧
          (¬OpenIn f a b → ∀ aSet ∈ f.reachableSets, a ∈ aSet → b ∈ aSet →
            HasHb f aSet a ∧ HasHb f aSet b)) := by
  have hwritten : (∃ file ∈ gen pkg f, file.e = (a, b) ∧ .leavingEnter ∈ file.checks) ↔
      (a ∈ f.cvPerflocs ∧ b ∈ f.cvPerflocs) ∧ OpenIn f a b := by
    rw [written_iff, @leavingEnter_mem_genChecks _ _ _ pkg f (a, b),
      ← @eInTcEdge_eq_false_iff _ _ _ pkg]
    simp [considered, hedge, hover, hiid, over1cyc, hset]
  rw [hwritten]
  have hordered : (∀ aSet ∈ f.reachableSets, a ∈ aSet → b ∈ aSet → (hbGraph f aSet).Path b a) ↔
      ¬OpenIn f a b ∧ ∀ aSet ∈ f.reachableSets, a ∈ aSet → b ∈ aSet →
        HasHb f aSet a ∧ HasHb f aSet b := by
    constructor
    · intro h
      refine ⟨?_, fun aSet hs ha hb => (hasHb_of_path (h aSet hs ha hb)).symm⟩
      intro hopen
      obtain ⟨aSet, hs, ⟨e, _, h1, h2, he⟩, ⟨e', _, h1', h2', he'⟩, hno⟩ := hopen
      refine hno (h aSet hs ?_ ?_)
      · rcases he with rfl | rfl <;> assumption
      · rcases he' with rfl | rfl <;> assumption
    · intro h aSet hs ha hb
      obtain ⟨hA, hB⟩ := h.2 aSet hs ha hb
      by_contra hno
      exact h.1 ⟨aSet, hs, hA, hB, hno⟩
  rw [hordered]
  by_cases hopen : OpenIn f a b
  · simp only [hopen, and_true, not_true, false_and, or_false, true_implies, false_implies]
    exact or_iff_not_imp_left.symm.trans or_comm
  · simp only [hopen, and_false, not_false_eq_true, true_and, true_implies, false_implies]

/-- Two locations of different identifiers in one reachable set, each able to stay. -/
def twoLocations (s2 : String) (hbEdge : List (Fin 2 × Fin 2)) : Facts (Fin 2) (Fin 2) where
  name p := if p = 0 then "A" else s2
  cvPerflocs := [0, 1]
  edge := [(0, 1)]
  iidMap := id
  hbEdge := hbEdge
  whbEdge := []
  enterConcurrentPairs := []
  reachableSets := [[0, 1]]
  maxCycPerPl _ := 2
  cycCntGt1PerSet _ := []
  leavingHbProvenResPairs := []
  awsConcurLeavingPairs := []

theorem leaving_check_omitted_ordered :
    (gen Warshall.package (twoLocations "B" [(1, 0)])).map HbFile.checks =
        [[.enterLeaving, .leavingLeaving]] ∧
      ((¬∃ file ∈ gen Warshall.package (twoLocations "B" [(1, 0)]), file.e = (0, 1) ∧
          .leavingEnter ∈ file.checks) →
        (((0 : Fin 2), (1 : Fin 2)) ∈ (twoLocations "B" [(1, 0)]).enterConcurrentPairs ∨
            ((1 : Fin 2), (0 : Fin 2)) ∈ (twoLocations "B" [(1, 0)]).enterConcurrentPairs) ∨
          ∀ aSet ∈ (twoLocations "B" [(1, 0)]).reachableSets, (0 : Fin 2) ∈ aSet →
            (1 : Fin 2) ∈ aSet → (hbGraph (twoLocations "B" [(1, 0)]) aSet).Path 1 0) := by
  refine ⟨by decide, (leaving_check_omitted_iff Warshall.package (twoLocations "B" [(1, 0)]) 0 1
    (by decide) ⟨[0, 1], by decide⟩ (by decide) (by decide)).mpr (.inr ⟨fun _ => by decide, ?_⟩)⟩
  intro _ aSet hs _ _
  obtain rfl : aSet = [0, 1] := List.mem_singleton.mp hs
  exact ⟨⟨(1, 0), by decide⟩, ⟨(1, 0), by decide⟩⟩

/-- Without any happens-before edge the closures have no nodes, and the check is left out for two
locations that nothing orders. -/
theorem leaving_check_omitted_unordered :
    (gen Warshall.package (twoLocations "B" [])).map HbFile.checks = [[.leavingLeaving]] ∧
      (twoLocations "B" []).enterConcurrentPairs = [] ∧
      [0, 1] ∈ (twoLocations "B" []).reachableSets ∧
      ¬(hbGraph (twoLocations "B" []) [0, 1]).Path 1 0 := by
  refine ⟨by decide, rfl, by decide, ?_⟩
  intro hpath
  obtain ⟨e, he, _⟩ := (hasHb_of_path hpath).1
  exact absurd he (List.not_mem_nil)

end SynthLC.Leaving
