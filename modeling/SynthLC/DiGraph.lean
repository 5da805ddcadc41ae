import SynthLC.Loop
import Mathlib.Data.Finset.Card
import Mathlib.Data.Finset.Dedup
import Mathlib.Data.Finset.Filter
import Mathlib.Logic.Relation

/-! Directed graphs as a script builds them, node by node and edge by edge, and what it may
expect of a graph package. -/
namespace Graph

open Loop

/-- Nodes and edges in the order of insertion. -/
structure DiGraph (V : Type) where
  nodes : List V
  edges : List (V × V)
  nodup_nodes : nodes.Nodup
  nodup_edges : edges.Nodup
  mem_of_edge : ∀ e ∈ edges, e.1 ∈ nodes ∧ e.2 ∈ nodes

variable {V : Type}

namespace DiGraph

def empty : DiGraph V := ⟨[], [], by simp, by simp, by simp⟩

@[simp] theorem nodes_empty : (empty : DiGraph V).nodes = [] := rfl

@[simp] theorem edges_empty : (empty : DiGraph V).edges = [] := rfl

section Paths

variable (g : DiGraph V)

/-- A path with at least one edge. -/
def Path : V → V → Prop := Relation.TransGen fun u v => (u, v) ∈ g.edges

def Acyclic : Prop := ∀ v, ¬g.Path v v

/-- An edge that no longer path replaces. -/
def Reduced (u v : V) : Prop := (u, v) ∈ g.edges ∧ ¬∃ w, g.Path u w ∧ g.Path w v

variable {g} {u v w : V}

theorem Path.single (h : (u, v) ∈ g.edges) : g.Path u v := Relation.TransGen.single h

theorem Path.trans (h : g.Path u v) (h' : g.Path v w) : g.Path u w := Relation.TransGen.trans h h'

theorem Path.mem_nodes (h : g.Path u v) : u ∈ g.nodes ∧ v ∈ g.nodes := by
  induction h with
  | single h => exact g.mem_of_edge _ h
  | tail _ h ih => exact ⟨ih.1, (g.mem_of_edge _ h).2⟩

/-- A path is an edge or passes through a node on the way. -/
theorem Path.edge_or_between (h : g.Path u v) :
    (u, v) ∈ g.edges ∨ ∃ w, g.Path u w ∧ g.Path w v := by
  cases h with
  | single h => exact .inl h
  | tail h e => exact .inr ⟨_, h, .single e⟩

/-- The reduced edges are the steps of the path order that nothing lies between. -/
theorem reduced_iff_path : g.Reduced u v ↔ g.Path u v ∧ ¬∃ w, g.Path u w ∧ g.Path w v :=
  ⟨fun h => ⟨.single h.1, h.2⟩, fun h => ⟨h.1.edge_or_between.resolve_right h.2, h.2⟩⟩

theorem Path.congr {r : DiGraph V} (hr : ∀ e, e ∈ g.edges ↔ e ∈ r.edges) : g.Path u v ↔ r.Path u v := by
  have hstep : (fun u v => (u, v) ∈ g.edges) = fun u v => (u, v) ∈ r.edges := by
    funext u v
    exact propext (hr (u, v))
  unfold Path
  rw [hstep]

theorem Acyclic.congr {r : DiGraph V} (hr : ∀ e, e ∈ g.edges ↔ e ∈ r.edges) (h : g.Acyclic) :
    r.Acyclic := fun v hv => h v ((Path.congr hr).mpr hv)

theorem Reduced.congr {r : DiGraph V} (hr : ∀ e, e ∈ g.edges ↔ e ∈ r.edges) :
    g.Reduced u v ↔ r.Reduced u v := by
  simp only [Reduced, hr, Path.congr hr]

theorem acyclic_of_edges_eq_nil (h : g.edges = []) : g.Acyclic := by
  intro v hv
  obtain ⟨w, hw, _⟩ := Relation.TransGen.head'_iff.mp hv
  rw [h] at hw
  cases hw

/-- New edges that no labelling of a family goes backwards on, and some is strict on, close no
cycle. -/
theorem Acyclic.of_le {r : DiGraph V} {T : Type} [Preorder T] {M : (V → T) → Prop} (hg : g.Acyclic)
    (hle : ∀ u v, (u, v) ∈ r.edges → ∀ val, M val → val u ≤ val v)
    (hnew : ∀ u v, (u, v) ∈ r.edges → (u, v) ∈ g.edges ∨ ∃ val, M val ∧ val u < val v) :
    r.Acyclic := by
  have hpath {u v : V} (h : r.Path u v) : (∀ val, M val → val u ≤ val v) ∧
      (g.Path u v ∨ ∃ val, M val ∧ val u < val v) := by
    induction h with
    | single h => exact ⟨hle _ _ h, (hnew _ _ h).imp_left .single⟩
    | tail _ h ih =>
      have hstep := hle _ _ h
      refine ⟨fun val hval => (ih.1 val hval).trans (hstep val hval), ?_⟩
      rcases ih.2, hnew _ _ h with ⟨hold | ⟨val, hval, hlt⟩, hnew | ⟨val', hval', hlt'⟩⟩
      · exact .inl (hold.trans (.single hnew))
      · exact .inr ⟨val', hval', (ih.1 val' hval').trans_lt hlt'⟩
      · exact .inr ⟨val, hval, hlt.trans_le (hstep val hval)⟩
      · exact .inr ⟨val, hval, hlt.trans_le (hstep val hval)⟩
  intro v hv
  rcases (hpath hv).2 with hold | ⟨val, _, hlt⟩
  · exact hg v hold
  · exact lt_irrefl _ hlt

/-- Every edge of an acyclic graph is a path of its reduced edges: the nodes between the
two ends get fewer until none is left. -/
theorem Acyclic.reduced_path (hg : g.Acyclic) {r : DiGraph V}
    (hr : ∀ u v, g.Reduced u v → (u, v) ∈ r.edges) (h : g.Path u v) : r.Path u v := by
  classical
  let between (u v : V) : Finset V := g.nodes.toFinset.filter fun w => g.Path u w ∧ g.Path w v
  have hind (n : Nat) : ∀ u v, (between u v).card = n → g.Path u v → r.Path u v := by
    induction n using Nat.strong_induction_on with
    | _ n ih =>
      intro u v hn h
      by_cases hmid : ∃ w, g.Path u w ∧ g.Path w v
      · obtain ⟨w, huw, hwv⟩ := hmid
        have hw : w ∈ between u v := by
          simp [between, huw, hwv, huw.mem_nodes.2]
        have hleft : between u w ⊂ between u v := by
          refine Finset.ssubset_iff_subset_ne.mpr ⟨?_, ?_⟩
          · intro x hx
            simp only [between, Finset.mem_filter] at hx ⊢
            exact ⟨hx.1, hx.2.1, hx.2.2.trans hwv⟩
          · intro heq
            rw [← heq] at hw
            exact hg w (Finset.mem_filter.mp hw).2.2
        have hright : between w v ⊂ between u v := by
          refine Finset.ssubset_iff_subset_ne.mpr ⟨?_, ?_⟩
          · intro x hx
            simp only [between, Finset.mem_filter] at hx ⊢
            exact ⟨hx.1, huw.trans hx.2.1, hx.2.2⟩
          · intro heq
            rw [← heq] at hw
            exact hg w (Finset.mem_filter.mp hw).2.1
        have h1 := ih _ (hn ▸ Finset.card_lt_card hleft) u w rfl huw
        have h2 := ih _ (hn ▸ Finset.card_lt_card hright) w v rfl hwv
        exact h1.trans h2
      · rcases h.edge_or_between with hedge | hbetween
        · exact .single (hr u v ⟨hedge, hmid⟩)
        · exact absurd hbetween hmid
  exact hind _ u v rfl h

end Paths

variable [DecidableEq V] (g : DiGraph V) (u v : V)

def addNode : DiGraph V where
  nodes := insertNew g.nodes v
  edges := g.edges
  nodup_nodes := nodup_insertNew g.nodup_nodes v
  nodup_edges := g.nodup_edges
  mem_of_edge e he := by
    simp only [mem_insertNew]
    exact ⟨.inl (g.mem_of_edge e he).1, .inl (g.mem_of_edge e he).2⟩

def addEdge : DiGraph V where
  nodes := insertNew (insertNew g.nodes u) v
  edges := insertNew g.edges (u, v)
  nodup_nodes := nodup_insertNew (nodup_insertNew g.nodup_nodes u) v
  nodup_edges := nodup_insertNew g.nodup_edges (u, v)
  mem_of_edge e he := by
    simp only [mem_insertNew] at he ⊢
    rcases he with he | rfl
    · exact ⟨.inl (.inl (g.mem_of_edge e he).1), .inl (.inl (g.mem_of_edge e he).2)⟩
    · exact ⟨.inl (.inr rfl), .inr rfl⟩

def addEdges (es : List (V × V)) : DiGraph V := es.foldl (fun g e => g.addEdge e.1 e.2) g

def inEdges : List (V × V) := g.edges.filter fun e => e.2 = v

def outEdges : List (V × V) := g.edges.filter fun e => e.1 = v

def successors : List V := (g.outEdges v).map Prod.snd

variable {g u v} {x : V} {e : V × V} {es : List (V × V)}

@[simp] theorem mem_nodes_addNode : x ∈ (g.addNode v).nodes ↔ x ∈ g.nodes ∨ x = v := mem_insertNew

@[simp] theorem edges_addNode : (g.addNode v).edges = g.edges := rfl

@[simp] theorem mem_nodes_addEdge :
    x ∈ (g.addEdge u v).nodes ↔ (x ∈ g.nodes ∨ x = u) ∨ x = v := by
  simp [addEdge, mem_insertNew]

theorem nodes_addEdge_of_mem (hu : u ∈ g.nodes) (hv : v ∈ g.nodes) :
    (g.addEdge u v).nodes = g.nodes := by
  have hfirst : insertNew g.nodes u = g.nodes := if_pos hu
  have hsecond : insertNew g.nodes v = g.nodes := if_pos hv
  simp only [addEdge, hfirst, hsecond]

@[simp] theorem mem_edges_addEdge : e ∈ (g.addEdge u v).edges ↔ e ∈ g.edges ∨ e = (u, v) :=
  mem_insertNew

theorem mem_edges_addEdges : e ∈ (g.addEdges es).edges ↔ e ∈ g.edges ∨ e ∈ es := by
  induction es generalizing g with
  | nil => simp [addEdges]
  | cons d es ih =>
    have hrun : g.addEdges (d :: es) = (g.addEdge d.1 d.2).addEdges es := rfl
    rw [hrun, ih, mem_edges_addEdge, List.mem_cons, or_assoc]

theorem mem_nodes_addEdges :
    x ∈ (g.addEdges es).nodes ↔ x ∈ g.nodes ∨ ∃ e ∈ es, x = e.1 ∨ x = e.2 := by
  induction es generalizing g with
  | nil => simp [addEdges]
  | cons d es ih =>
    have hrun : g.addEdges (d :: es) = (g.addEdge d.1 d.2).addEdges es := rfl
    rw [hrun, ih, mem_nodes_addEdge]
    simp only [List.mem_cons, exists_eq_or_imp, or_assoc]

/-- Edges between nodes that are there add none. -/
theorem mem_nodes_addEdges_of_subset (h : ∀ e ∈ es, e.1 ∈ g.nodes ∧ e.2 ∈ g.nodes) :
    x ∈ (g.addEdges es).nodes ↔ x ∈ g.nodes := by
  rw [mem_nodes_addEdges]
  refine ⟨fun hx => ?_, Or.inl⟩
  rcases hx with hx | ⟨e, he, rfl | rfl⟩
  · exact hx
  · exact (h e he).1
  · exact (h e he).2

@[simp] theorem mem_inEdges : e ∈ g.inEdges v ↔ e ∈ g.edges ∧ e.2 = v := by simp [inEdges]

@[simp] theorem mem_outEdges : e ∈ g.outEdges v ↔ e ∈ g.edges ∧ e.1 = v := by simp [outEdges]

@[simp] theorem mem_successors : v ∈ g.successors u ↔ (u, v) ∈ g.edges := by simp [successors]

end DiGraph

/-- The functions taken from the package, with what its documentation says of them. -/
structure Package (V : Type) where
  transitiveReduction : DiGraph V → Option (DiGraph V)
  transitiveClosure : DiGraph V → DiGraph V
  simpleCycles : DiGraph V → List (List V)
  /-- Raises an error on a graph with a cycle. -/
  reduction_isSome : ∀ g, (transitiveReduction g).isSome ↔ g.Acyclic
  reduction_nodes : ∀ g r, transitiveReduction g = some r → r.nodes = g.nodes
  reduction_edges : ∀ g r, transitiveReduction g = some r →
    ∀ u v, (u, v) ∈ r.edges ↔ g.Reduced u v
  closure_nodes : ∀ g, (transitiveClosure g).nodes = g.nodes
  closure_edges : ∀ g u v, (u, v) ∈ (transitiveClosure g).edges ↔ g.Path u v
  simpleCycles_eq_nil : ∀ g, simpleCycles g = [] ↔ g.Acyclic

end Graph
