import SynthLC.MySolver

/-! The order graph of a set of locations, shared by the scripts from `xCollectReEval` on:
happens-before facts and chosen orders between entries, a second node for the last cycle of
a location that may stay, and the edges that simultaneous nodes take over from each other. -/
namespace SynthLC

open Graph
open scoped Loop

variable {PL IID : Type}

/-- First cycle of a location, and its last one (`___final`). -/
inductive Node (PL : Type) where
  | enter (p : PL)
  | final (p : PL)
  deriving DecidableEq

/-! The instances that lists of nodes and of pairs of nodes are searched with, named for the same
reason as those of `Loop`. -/

scoped instance lawfulBEqNode [DecidableEq PL] : LawfulBEq (Node PL) := inferInstance

scoped instance (priority := 1100) lawfulBEqNodePair [DecidableEq PL] :
    LawfulBEq (Node PL × Node PL) := inferInstance

def Node.loc : Node PL → PL
  | .enter p => p
  | .final p => p

/-- The files the later scripts read. -/
structure Facts (PL IID : Type) where
  name : PL → String
  cvPerflocs : List PL
  edge : List (PL × PL)
  iidMap : PL → IID
  hbEdge : List (PL × PL)
  whbEdge : List (PL × PL)
  enterConcurrentPairs : List (PL × PL)
  reachableSets : List (List PL)
  maxCycPerPl : PL → Nat
  cycCntGt1PerSet : Nat → List PL
  leavingHbProvenResPairs : List (Node PL × Node PL)
  awsConcurLeavingPairs : List (Node PL × Node PL)

def enterPair (e : PL × PL) : Node PL × Node PL := (.enter e.1, .enter e.2)

theorem enterPair_injective : Function.Injective (enterPair : PL × PL → Node PL × Node PL) := by
  intro e e' h
  have ⟨h1, h2⟩ := Prod.mk.inj h
  exact Prod.ext (Node.enter.inj h1) (Node.enter.inj h2)

variable [DecidableEq PL] [DecidableEq IID]

namespace Facts

variable (f : Facts PL IID)

def iidMapTmp (n : Node PL) : IID := f.iidMap n.loc

/-- Happens-before pairs with both locations in the set. -/
def hbInside (aSet : List PL) : List (Node PL × Node PL) :=
  (f.hbEdge.filter fun e => decide (e.1 ∈ aSet) && decide (e.2 ∈ aSet)).map enterPair

/-- `enter_concurrent_pairs + aws_concur_leaving_pairs` -/
def concurrentPairs : List (Node PL × Node PL) :=
  f.enterConcurrentPairs.map enterPair ++ f.awsConcurLeavingPairs

/-- `edge_weight`: how long a location marked in this set may stay after its first cycle. -/
def edgeWeight (setIdx : Nat) (aSet : List PL) (e : Node PL × Node PL) : Option (List Int) :=
  match e with
  | (.enter p, .final q) =>
    if p = q ∧ p ∈ aSet ∧ p ∈ f.cycCntGt1PerSet setIdx then
      some ((List.range (f.maxCycPerPl p)).map Int.ofNat)
    else none
  | _ => none

/-- The solver as every script sets it up; `edge_weight_single` is a heuristic that all of
them leave empty. -/
def solver (setIdx : Nat) (aSet : List PL) (tr : DiGraph (Node PL))
    (implied concurrent whbFinals : List (Node PL × Node PL)) : MySolver (Node PL) IID where
  tr := tr
  edgeWeight := f.edgeWeight setIdx aSet
  impliedEdgesSameIid := implied
  iidMapTmp := f.iidMapTmp
  edgeWeightSingle := []
  enterConcurrentPairs := concurrent
  whbEdge := f.whbEdge.map enterPair
  whbFinals := whbFinals

end Facts

/-- The graph under construction and `implied_edges_same_iid`. -/
structure Building (PL : Type) where
  dg : DiGraph (Node PL)
  implied : List (Node PL × Node PL)

section Build

variable (f : Facts PL IID) (setIdx : Nat)

/-- A location is left before another one of the same identifier, entered after it, is
entered. -/
def impliedFrom (g : DiGraph (Node PL)) (itm : PL) : List (Node PL × Node PL) :=
  ((g.outEdges (.enter itm)).filter fun e => f.iidMapTmp e.1 = f.iidMapTmp e.2).map fun e =>
    (.final itm, e.2)

/-- The final node as an edge from the first cycle, or on its own. -/
inductive FinalNode where
  | edge
  | node
  deriving DecidableEq

def addFinal (m : FinalNode) (g : DiGraph (Node PL)) (itm : PL) : DiGraph (Node PL) :=
  match m with
  | .edge => g.addEdge (.enter itm) (.final itm)
  | .node => g.addNode (.final itm)

/-- Body of the loop that gives a marked location its final node. -/
def finalStep (m : FinalNode) (b : Building PL) (itm : PL) : Building PL :=
  if itm ∈ f.cycCntGt1PerSet setIdx then
    { dg := addFinal m b.dg itm, implied := b.implied ++ impliedFrom f b.dg itm }
  else b

/-- `xCollectReEval` adds the node and its final node in one loop. -/
def nodeAndFinalStep (b : Building PL) (itm : PL) : Building PL :=
  finalStep f setIdx .edge { b with dg := b.dg.addNode (.enter itm) } itm

def addNodes (g : DiGraph (Node PL)) (aSet : List PL) : DiGraph (Node PL) :=
  aSet.foldl (fun g itm => g.addNode (.enter itm)) g

/-- The later scripts add all nodes first and the final nodes in a loop of their own. -/
def twoLoops (m : FinalNode) (orders : List (Node PL × Node PL)) (aSet : List PL) : Building PL :=
  aSet.foldl (finalStep f setIdx m)
    { dg := addNodes (DiGraph.empty.addEdges orders) aSet, implied := [] }

def addLeaving (g : DiGraph (Node PL)) (itm : Node PL × Node PL) : DiGraph (Node PL) :=
  if itm.1 ∈ g.nodes ∧ itm.2 ∈ g.nodes then g.addEdge itm.1 itm.2 else g

/-- Node `c` takes over the edges into `a`. -/
def copyIn (g : DiGraph (Node PL)) (a c : Node PL) : DiGraph (Node PL) :=
  g.addEdges ((g.inEdges a).map fun e' => (e'.1, c))

def copyOut (g : DiGraph (Node PL)) (a c : Node PL) : DiGraph (Node PL) :=
  g.addEdges ((g.outEdges a).map fun e' => (c, e'.2))

/-- Each of two simultaneous nodes takes over the other's edges. -/
def mergeConcurrent (g : DiGraph (Node PL)) (e : Node PL × Node PL) : DiGraph (Node PL) :=
  if e.1 ∈ g.nodes ∧ e.2 ∈ g.nodes then
    copyOut (copyOut (copyIn (copyIn g e.1 e.2) e.2 e.1) e.1 e.2) e.2 e.1
  else g

def withLeaving (b : Building PL) : DiGraph (Node PL) :=
  f.leavingHbProvenResPairs.foldl addLeaving (b.dg.addEdges b.implied)

/-- What every script does with the graph once its nodes are there. -/
def finish (b : Building PL) (pairs : List (Node PL × Node PL)) : DiGraph (Node PL) :=
  pairs.foldl mergeConcurrent (withLeaving f b)

end Build

section Built

variable (f : Facts PL IID) (setIdx : Nat) (m : FinalNode) (orders : List (Node PL × Node PL))

/-- The graph after the loops over the set: `orders` are the edges it started with, `entered`
and `done` the locations that have their first and their final node. -/
structure Built (entered done : List PL) (b : Building PL) : Prop where
  nodes : ∀ x, x ∈ b.dg.nodes ↔ (∃ e ∈ orders, x = e.1 ∨ x = e.2) ∨
    (∃ p ∈ entered, x = .enter p) ∨ ∃ p ∈ done, p ∈ f.cycCntGt1PerSet setIdx ∧ x = .final p
  edges : ∀ e, e ∈ b.dg.edges ↔ e ∈ orders ∨
    (m = .edge ∧ ∃ p ∈ done, p ∈ f.cycCntGt1PerSet setIdx ∧ e = (.enter p, .final p))
  implied : ∀ e, e ∈ b.implied ↔ ∃ p ∈ done, p ∈ f.cycCntGt1PerSet setIdx ∧
    ∃ y, (.enter p, y) ∈ orders ∧ f.iidMap p = f.iidMapTmp y ∧ e = (.final p, y)

variable {f setIdx m orders} {entered done : List PL} {b : Building PL} {p : PL}

omit [DecidableEq IID] in
theorem built_start :
    Built f setIdx m orders [] [] { dg := DiGraph.empty.addEdges orders, implied := [] } := by
  refine ⟨fun x => ?_, fun e => ?_, by simp⟩
  · simp [DiGraph.mem_nodes_addEdges]
  · simp [DiGraph.mem_edges_addEdges]

omit [DecidableEq IID] in
theorem Built.addNode (h : Built f setIdx m orders entered done b) :
    Built f setIdx m orders (entered ++ [p]) done { b with dg := b.dg.addNode (.enter p) } := by
  refine ⟨fun x => ?_, h.edges, h.implied⟩
  rw [DiGraph.mem_nodes_addNode, h.nodes]
  simp only [List.mem_append, List.mem_singleton, or_and_right, exists_or, exists_eq_left,
    or_assoc]
  rw [or_comm (b := x = .enter p)]

/-- Before its final node is added, the edges out of a location are the orders it is
first in. -/
theorem Built.mem_impliedFrom (h : Built f setIdx m orders entered done b) (hp : p ∉ done)
    (e : Node PL × Node PL) : e ∈ impliedFrom f b.dg p ↔
      ∃ y, (.enter p, y) ∈ orders ∧ f.iidMap p = f.iidMapTmp y ∧ e = (.final p, y) := by
  simp only [impliedFrom, List.mem_map, List.mem_filter, DiGraph.mem_outEdges, h.edges,
    decide_eq_true_eq]
  constructor
  · intro hx
    obtain ⟨⟨u, y⟩, ⟨⟨hmem, rfl⟩, hiid⟩, rfl⟩ := hx
    rcases hmem with hmem | ⟨_, q, hq, _, heq⟩
    · exact ⟨y, hmem, hiid, rfl⟩
    · obtain ⟨rfl, _⟩ : p = q ∧ y = .final q := by simpa using heq
      exact absurd hq hp
  · intro hy
    obtain ⟨y, hmem, hiid, rfl⟩ := hy
    exact ⟨(.enter p, y), ⟨⟨.inl hmem, rfl⟩, hiid⟩, rfl⟩

theorem Built.finalStep (h : Built f setIdx m orders entered done b) (hp : p ∉ done)
    (hin : p ∈ entered) :
    Built f setIdx m orders entered (done ++ [p]) (finalStep f setIdx m b p) := by
  unfold SynthLC.finalStep
  split_ifs with hmark
  · refine ⟨fun x => ?_, fun e => ?_, fun e => ?_⟩
    · have hnodes : x ∈ (addFinal m b.dg p).nodes ↔ x ∈ b.dg.nodes ∨ x = .final p := by
        cases m with
        | node => exact DiGraph.mem_nodes_addNode
        | edge =>
          have hold : Node.enter p ∈ b.dg.nodes := (h.nodes _).mpr (.inr (.inl ⟨p, hin, rfl⟩))
          simp only [addFinal, DiGraph.mem_nodes_addEdge]
          constructor
          · intro hx
            rcases hx with (hx | rfl) | hx
            · exact .inl hx
            · exact .inl hold
            · exact .inr hx
          · intro hx
            rcases hx with hx | hx
            · exact .inl (.inl hx)
            · exact .inr hx
      rw [hnodes, h.nodes]
      simp only [List.mem_append, List.mem_singleton, or_and_right, exists_or, exists_eq_left,
        hmark, true_and, or_assoc]
    · have hedges : e ∈ (addFinal m b.dg p).edges ↔
          e ∈ b.dg.edges ∨ (m = .edge ∧ e = (.enter p, .final p)) := by
        cases m <;> simp [addFinal]
      rw [hedges, h.edges]
      simp only [List.mem_append, List.mem_singleton, or_and_right, exists_or, exists_eq_left,
        hmark, true_and, and_or_left, or_assoc]
    · rw [List.mem_append, h.implied, h.mem_impliedFrom hp]
      simp only [List.mem_append, List.mem_singleton, or_and_right, exists_or, exists_eq_left,
        hmark, true_and]
  · have hnone (Q : PL → Prop) : (∃ q ∈ done ++ [p], q ∈ f.cycCntGt1PerSet setIdx ∧ Q q) ↔
        ∃ q ∈ done, q ∈ f.cycCntGt1PerSet setIdx ∧ Q q := by
      simp only [List.mem_append, List.mem_singleton, or_and_right, exists_or, exists_eq_left,
        hmark, false_and, or_false]
    refine ⟨fun x => ?_, fun e => ?_, fun e => ?_⟩
    · rw [hnone, h.nodes]
    · rw [hnone, h.edges]
    · rw [hnone, h.implied]

theorem built_finals (h : Built f setIdx m orders entered done b) (todo : List PL)
    (hnd : (done ++ todo).Nodup) (hin : ∀ p ∈ todo, p ∈ entered) :
    Built f setIdx m orders entered (done ++ todo) (todo.foldl (SynthLC.finalStep f setIdx m) b) := by
  induction todo generalizing done b with
  | nil => simpa using h
  | cons p todo ih =>
    have hp : p ∉ done := fun hmem => (List.nodup_append.mp hnd).2.2 p hmem p (by simp) rfl
    have hstep := h.finalStep hp (hin p (by simp))
    have hrest := ih hstep (by simpa using hnd) (fun q hq => hin q (by simp [hq]))
    simpa using hrest

omit [DecidableEq IID] in
theorem built_addNodes (h : Built f setIdx m orders entered done b) (todo : List PL) :
    Built f setIdx m orders (entered ++ todo) done { b with dg := addNodes b.dg todo } := by
  induction todo generalizing entered b with
  | nil => simpa [addNodes] using h
  | cons p todo ih =>
    have hstep : Built f setIdx m orders (entered ++ [p]) done
        { b with dg := b.dg.addNode (.enter p) } := h.addNode
    have hrest := ih hstep
    simpa [addNodes] using hrest

/-- The one-loop form of `xCollectReEval` builds the same edges. -/
theorem built_nodeAndFinals (h : Built f setIdx .edge orders done done b) (todo : List PL)
    (hnd : (done ++ todo).Nodup) :
    Built f setIdx .edge orders (done ++ todo) (done ++ todo)
      (todo.foldl (nodeAndFinalStep f setIdx) b) := by
  induction todo generalizing done b with
  | nil => simpa using h
  | cons p todo ih =>
    have hp : p ∉ done := fun hmem => (List.nodup_append.mp hnd).2.2 p hmem p (by simp) rfl
    have hstep : Built f setIdx .edge orders (done ++ [p]) (done ++ [p])
        (nodeAndFinalStep f setIdx b p) := h.addNode.finalStep hp (by simp)
    have hrest := ih hstep (by simpa using hnd)
    simpa using hrest

theorem built_twoLoops {aSet : List PL} (hnd : aSet.Nodup) :
    Built f setIdx m orders aSet aSet (twoLoops f setIdx m orders aSet) := by
  have hnodes : Built f setIdx m orders ([] ++ aSet) []
      { dg := addNodes (DiGraph.empty.addEdges orders) aSet, implied := [] } :=
    built_addNodes built_start aSet
  have hrun := built_finals hnodes aSet (by simpa using hnd) (by simp)
  simpa [twoLoops] using hrun

/-- Implied edges stay within one identifier. -/
theorem twoLoops_implied_iid {aSet : List PL} : ∀ u v,
    (u, v) ∈ (twoLoops f setIdx m orders aSet).implied → f.iidMapTmp u = f.iidMapTmp v := by
  refine List.foldlRecOn (motive := fun b : Building PL =>
    ∀ u v, (u, v) ∈ b.implied → f.iidMapTmp u = f.iidMapTmp v) aSet _ (by simp) ?_
  intro b hb p _ u v hmem
  unfold finalStep at hmem
  split_ifs at hmem
  · rcases List.mem_append.mp hmem with hold | hnew
    · exact hb u v hold
    · simp only [impliedFrom, List.mem_map, List.mem_filter, DiGraph.mem_outEdges,
        decide_eq_true_eq] at hnew
      obtain ⟨⟨_, _⟩, ⟨⟨_, rfl⟩, hiid⟩, heq⟩ := hnew
      cases heq
      exact hiid
  · exact hb u v hmem

end Built

section Merge

variable {g : DiGraph (Node PL)} {a c u v x : Node PL} {e : Node PL × Node PL}

theorem mem_edges_copyIn :
    (u, v) ∈ (copyIn g a c).edges ↔ (u, v) ∈ g.edges ∨ ((u, a) ∈ g.edges ∧ v = c) := by
  simp only [copyIn, DiGraph.mem_edges_addEdges, List.mem_map, DiGraph.mem_inEdges, Prod.exists,
    Prod.mk.injEq]
  apply or_congr_right
  constructor
  · intro h
    obtain ⟨u', v', ⟨hmem, rfl⟩, rfl, rfl⟩ := h
    exact ⟨hmem, rfl⟩
  · intro h
    exact ⟨u, a, ⟨h.1, rfl⟩, rfl, h.2.symm⟩

theorem mem_edges_copyOut :
    (u, v) ∈ (copyOut g a c).edges ↔ (u, v) ∈ g.edges ∨ ((a, v) ∈ g.edges ∧ u = c) := by
  simp only [copyOut, DiGraph.mem_edges_addEdges, List.mem_map, DiGraph.mem_outEdges, Prod.exists,
    Prod.mk.injEq]
  apply or_congr_right
  constructor
  · intro h
    obtain ⟨u', v', ⟨hmem, rfl⟩, rfl, rfl⟩ := h
    exact ⟨hmem, rfl⟩
  · intro h
    exact ⟨a, v, ⟨h.1, rfl⟩, h.2.symm, rfl⟩

theorem mem_nodes_copyIn (hc : c ∈ g.nodes) : x ∈ (copyIn g a c).nodes ↔ x ∈ g.nodes := by
  apply DiGraph.mem_nodes_addEdges_of_subset
  intro d hd
  obtain ⟨d', hd', rfl⟩ := List.mem_map.mp hd
  exact ⟨(g.mem_of_edge d' (DiGraph.mem_inEdges.mp hd').1).1, hc⟩

theorem mem_nodes_copyOut (hc : c ∈ g.nodes) : x ∈ (copyOut g a c).nodes ↔ x ∈ g.nodes := by
  apply DiGraph.mem_nodes_addEdges_of_subset
  intro d hd
  obtain ⟨d', hd', rfl⟩ := List.mem_map.mp hd
  exact ⟨hc, (g.mem_of_edge d' (DiGraph.mem_outEdges.mp hd').1).2⟩

theorem mem_nodes_mergeConcurrent : x ∈ (mergeConcurrent g e).nodes ↔ x ∈ g.nodes := by
  unfold mergeConcurrent
  split_ifs with hin
  · obtain ⟨h1, h2⟩ := hin
    rw [mem_nodes_copyOut, mem_nodes_copyOut, mem_nodes_copyIn, mem_nodes_copyIn h2]
    · rwa [mem_nodes_copyIn h2]
    · rwa [mem_nodes_copyIn, mem_nodes_copyIn h2]
      rwa [mem_nodes_copyIn h2]
    · rwa [mem_nodes_copyOut, mem_nodes_copyIn, mem_nodes_copyIn h2]
      · rwa [mem_nodes_copyIn h2]
      · rwa [mem_nodes_copyIn, mem_nodes_copyIn h2]
        rwa [mem_nodes_copyIn h2]
  · rfl

/-- The relation cannot tell two simultaneous nodes apart. -/
structure Transfers (P : Node PL → Node PL → Prop) (a c : Node PL) : Prop where
  left : ∀ u, P u a ↔ P u c
  right : ∀ v, P a v ↔ P c v

theorem copyIn_inv {P : Node PL → Node PL → Prop} (hg : ∀ u v, (u, v) ∈ g.edges → P u v)
    (ht : ∀ u, P u a → P u c) (h : (u, v) ∈ (copyIn g a c).edges) : P u v := by
  rcases mem_edges_copyIn.mp h with hold | ⟨hnew, rfl⟩
  · exact hg u v hold
  · exact ht u (hg u a hnew)

theorem copyOut_inv {P : Node PL → Node PL → Prop} (hg : ∀ u v, (u, v) ∈ g.edges → P u v)
    (ht : ∀ v, P a v → P c v) (h : (u, v) ∈ (copyOut g a c).edges) : P u v := by
  rcases mem_edges_copyOut.mp h with hold | ⟨hnew, rfl⟩
  · exact hg u v hold
  · exact ht v (hg a v hnew)

theorem mergeConcurrent_inv {P : Node PL → Node PL → Prop}
    (hg : ∀ u v, (u, v) ∈ g.edges → P u v)
    (ht : e.1 ∈ g.nodes → e.2 ∈ g.nodes → Transfers P e.1 e.2)
    (h : (u, v) ∈ (mergeConcurrent g e).edges) : P u v := by
  unfold mergeConcurrent at h
  split_ifs at h with hin
  · have ht := ht hin.1 hin.2
    refine copyOut_inv (fun u v => copyOut_inv (fun u v => copyIn_inv (fun u v => copyIn_inv hg ?_)
      ?_) ?_) ?_ h
    · exact fun u => (ht.left u).mp
    · exact fun u => (ht.left u).mpr
    · exact fun v => (ht.right v).mp
    · exact fun v => (ht.right v).mpr
  · exact hg u v h

theorem mem_mergeConcurrent_of_mem (h : (u, v) ∈ g.edges) :
    (u, v) ∈ (mergeConcurrent g e).edges := by
  unfold mergeConcurrent
  split_ifs
  · simp only [mem_edges_copyOut, mem_edges_copyIn]
    exact .inl (.inl (.inl (.inl h)))
  · exact h

/-- The four copies of an edge at a simultaneous node. -/
theorem mem_mergeConcurrent (h1 : a ∈ g.nodes) (h2 : c ∈ g.nodes) :
    ((u, a) ∈ g.edges → (u, c) ∈ (mergeConcurrent g (a, c)).edges) ∧
    ((u, c) ∈ g.edges → (u, a) ∈ (mergeConcurrent g (a, c)).edges) ∧
    ((a, v) ∈ g.edges → (c, v) ∈ (mergeConcurrent g (a, c)).edges) ∧
    ((c, v) ∈ g.edges → (a, v) ∈ (mergeConcurrent g (a, c)).edges) := by
  simp only [mergeConcurrent, h1, h2, and_self, if_true, mem_edges_copyOut, mem_edges_copyIn]
  refine ⟨fun h => ?_, fun h => ?_, fun h => ?_, fun h => ?_⟩
  · exact .inl (.inl (.inl (.inr ⟨h, trivial⟩)))
  · exact .inl (.inl (.inr ⟨.inl h, trivial⟩))
  · exact .inl (.inr ⟨.inl (.inl h), trivial⟩)
  · exact .inr ⟨.inl (.inl (.inl h)), trivial⟩

theorem mem_nodes_addLeaving : x ∈ (addLeaving g e).nodes ↔ x ∈ g.nodes := by
  unfold addLeaving
  split_ifs with hin
  · rw [DiGraph.mem_nodes_addEdge]
    constructor
    · intro hx
      rcases hx with (hx | rfl) | rfl
      · exact hx
      · exact hin.1
      · exact hin.2
    · intro hx
      exact .inl (.inl hx)
  · rfl

theorem mem_edges_addLeaving {d : Node PL × Node PL} : d ∈ (addLeaving g e).edges ↔
    d ∈ g.edges ∨ (e.1 ∈ g.nodes ∧ e.2 ∈ g.nodes ∧ d = e) := by
  unfold addLeaving
  split_ifs with hin
  · simp [hin]
  · simp only [iff_self_or]
    intro h
    exact absurd ⟨h.1, h.2.1⟩ hin

end Merge

section Finish

variable {g : DiGraph (Node PL)} {x : Node PL} {u v : Node PL} {es : List (Node PL × Node PL)}

theorem mem_nodes_leavings : x ∈ (es.foldl addLeaving g).nodes ↔ x ∈ g.nodes := by
  induction es generalizing g with
  | nil => rfl
  | cons e es ih => rw [List.foldl_cons, ih, mem_nodes_addLeaving]

theorem mem_edges_leavings {d : Node PL × Node PL} : d ∈ (es.foldl addLeaving g).edges ↔
    d ∈ g.edges ∨ (d ∈ es ∧ d.1 ∈ g.nodes ∧ d.2 ∈ g.nodes) := by
  induction es generalizing g with
  | nil => simp
  | cons e es ih =>
    rw [List.foldl_cons, ih, mem_edges_addLeaving]
    simp only [mem_nodes_addLeaving, List.mem_cons]
    constructor
    · intro h
      rcases h with (h | ⟨h1, h2, rfl⟩) | ⟨hmem, hin⟩
      · exact .inl h
      · exact .inr ⟨.inl rfl, h1, h2⟩
      · exact .inr ⟨.inr hmem, hin⟩
    · intro h
      rcases h with h | ⟨rfl | hmem, hin⟩
      · exact .inl (.inl h)
      · exact .inl (.inr ⟨hin.1, hin.2, rfl⟩)
      · exact .inr ⟨hmem, hin⟩

theorem mem_nodes_merges : x ∈ (es.foldl mergeConcurrent g).nodes ↔ x ∈ g.nodes := by
  induction es generalizing g with
  | nil => rfl
  | cons e es ih => rw [List.foldl_cons, ih, mem_nodes_mergeConcurrent]

theorem merges_inv {P : Node PL → Node PL → Prop} (hg : ∀ u v, (u, v) ∈ g.edges → P u v)
    (ht : ∀ e ∈ es, e.1 ∈ g.nodes → e.2 ∈ g.nodes → Transfers P e.1 e.2)
    (h : (u, v) ∈ (es.foldl mergeConcurrent g).edges) : P u v := by
  induction es generalizing g with
  | nil => exact hg u v h
  | cons e es ih =>
    refine ih (fun u v => mergeConcurrent_inv hg (ht e (by simp))) ?_ h
    intro d hd h1 h2
    rw [mem_nodes_mergeConcurrent] at h1 h2
    exact ht d (by simp [hd]) h1 h2

theorem mem_merges_of_mem (h : (u, v) ∈ g.edges) : (u, v) ∈ (es.foldl mergeConcurrent g).edges := by
  induction es generalizing g with
  | nil => exact h
  | cons e es ih => exact ih (mem_mergeConcurrent_of_mem h)

/-- Wherever a pair stands in the list, its nodes end up with the copies of the edges the
graph started with. -/
theorem mem_merges {a c : Node PL} (hmem : (a, c) ∈ es) (h1 : a ∈ g.nodes) (h2 : c ∈ g.nodes) :
    ((u, a) ∈ g.edges → (u, c) ∈ (es.foldl mergeConcurrent g).edges) ∧
    ((u, c) ∈ g.edges → (u, a) ∈ (es.foldl mergeConcurrent g).edges) ∧
    ((a, v) ∈ g.edges → (c, v) ∈ (es.foldl mergeConcurrent g).edges) ∧
    ((c, v) ∈ g.edges → (a, v) ∈ (es.foldl mergeConcurrent g).edges) := by
  induction es generalizing g with
  | nil => simp at hmem
  | cons e es ih =>
    rw [List.foldl_cons]
    rcases List.mem_cons.mp hmem with rfl | hmem
    · have h := mem_mergeConcurrent (u := u) (v := v) h1 h2
      exact ⟨fun hu => mem_merges_of_mem (h.1 hu), fun hu => mem_merges_of_mem (h.2.1 hu),
        fun hv => mem_merges_of_mem (h.2.2.1 hv), fun hv => mem_merges_of_mem (h.2.2.2 hv)⟩
    · have h := ih (g := mergeConcurrent g e) hmem (mem_nodes_mergeConcurrent.mpr h1)
        (mem_nodes_mergeConcurrent.mpr h2)
      exact ⟨fun hu => h.1 (mem_mergeConcurrent_of_mem hu),
        fun hu => h.2.1 (mem_mergeConcurrent_of_mem hu),
        fun hv => h.2.2.1 (mem_mergeConcurrent_of_mem hv),
        fun hv => h.2.2.2 (mem_mergeConcurrent_of_mem hv)⟩

end Finish

end SynthLC
