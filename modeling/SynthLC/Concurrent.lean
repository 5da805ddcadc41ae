import SynthLC.OrderGraph

/-! The loop over simultaneous pairs as a whole. It takes every pair once, in the order of the
list, so an edge gets to the nodes that its two ends are handed on to along the list. -/
namespace SynthLC

open Graph

section HandOn

variable {V : Type}

/-- The node itself or, for a node of the pair, one of the two. -/
def Linked (e : V × V) (x y : V) : Prop := y = x ∨ (x = e.1 ∨ x = e.2) ∧ (y = e.1 ∨ y = e.2)

/-- Pairs with both nodes in the graph. -/
def pairsIn [DecidableEq V] (nodes : List V) (es : List (V × V)) : List (V × V) :=
  es.filter fun e => decide (e.1 ∈ nodes) && decide (e.2 ∈ nodes)

/-- Nodes equal by some chain of the pairs, in any order. -/
def Simultaneous (es : List (V × V)) : V → V → Prop := Relation.EqvGen fun a b => (a, b) ∈ es

/-- What a property of nodes becomes when each node of a pair takes it over from the other. -/
theorem exists_linked {P : V → Prop} {a c x : V} : (∃ y, P y ∧ Linked (a, c) y x) ↔
    (P x ∨ P a ∧ x = c) ∨ (P c ∨ P a) ∧ x = a := by
  constructor
  · intro h
    obtain ⟨y, hy, rfl | ⟨rfl | rfl, rfl | rfl⟩⟩ := h
    · exact .inl (.inl hy)
    · exact .inl (.inl hy)
    · exact .inl (.inr ⟨hy, rfl⟩)
    · exact .inr ⟨.inl hy, rfl⟩
    · exact .inl (.inl hy)
  · intro h
    rcases h with (h | ⟨h, rfl⟩) | ⟨h | h, rfl⟩
    · exact ⟨x, h, .inl rfl⟩
    · exact ⟨a, h, .inr ⟨.inl rfl, .inr rfl⟩⟩
    · exact ⟨c, h, .inr ⟨.inr rfl, .inl rfl⟩⟩
    · exact ⟨x, h, .inl rfl⟩

variable [DecidableEq V]

/-- The nodes that a node is handed on to when every pair is taken once, from the first. -/
def handOn : List (V × V) → V → List V
  | [], x => [x]
  | e :: es, x => if x = e.1 ∨ x = e.2 then handOn es e.1 ++ handOn es e.2 else handOn es x

variable {e : V × V} {es : List (V × V)} {x y : V} {nodes : List V}

theorem mem_pairsIn : e ∈ pairsIn nodes es ↔ e ∈ es ∧ e.1 ∈ nodes ∧ e.2 ∈ nodes := by
  simp only [pairsIn, List.mem_filter, Bool.and_eq_true, decide_eq_true_eq]

theorem pairsIn_congr {nodes' : List V} (h : ∀ x, x ∈ nodes ↔ x ∈ nodes') :
    pairsIn nodes es = pairsIn nodes' es := by
  simp only [pairsIn, h]

theorem mem_handOn_cons : y ∈ handOn (e :: es) x ↔ ∃ z, Linked e x z ∧ y ∈ handOn es z := by
  simp only [handOn, Linked]
  split_ifs with hx
  · rw [List.mem_append]
    constructor
    · intro hy
      rcases hy with hy | hy
      · exact ⟨e.1, .inr ⟨hx, .inl rfl⟩, hy⟩
      · exact ⟨e.2, .inr ⟨hx, .inr rfl⟩, hy⟩
    · intro hy
      obtain ⟨z, rfl | ⟨_, rfl | rfl⟩, hz⟩ := hy
      · rcases hx with rfl | rfl
        · exact .inl hz
        · exact .inr hz
      · exact .inl hz
      · exact .inr hz
  · constructor
    · intro hy
      exact ⟨x, .inl rfl, hy⟩
    · intro hy
      obtain ⟨z, rfl | ⟨hx', _⟩, hz⟩ := hy
      · exact hz
      · exact absurd hx' hx

omit [DecidableEq V] in
theorem Linked.simultaneous (h : Linked e x y) (he : e ∈ es) : Simultaneous es x y := by
  have hrel : Simultaneous es e.1 e.2 := .rel _ _ he
  rcases h with rfl | ⟨rfl | rfl, rfl | rfl⟩
  · exact .refl _
  · exact .refl _
  · exact hrel
  · exact .symm _ _ hrel
  · exact .refl _

omit [DecidableEq V] in
theorem Simultaneous.eq {T : Type} {val : V → T} (hes : ∀ e ∈ es, val e.1 = val e.2)
    (h : Simultaneous es x y) : val x = val y := by
  induction h with
  | rel a b hab => exact hes _ hab
  | refl a => rfl
  | symm a b _ ih => exact ih.symm
  | trans a b c _ _ ih ih' => exact ih.trans ih'

/-- A node is handed on to simultaneous nodes only. -/
theorem simultaneous_of_mem_handOn (h : y ∈ handOn es x) : Simultaneous es x y := by
  induction es generalizing x with
  | nil =>
    rw [List.mem_singleton.mp h]
    exact .refl _
  | cons e es ih =>
    obtain ⟨z, hxz, hzy⟩ := mem_handOn_cons.mp h
    have hrest : Simultaneous (e :: es) z y :=
      Relation.EqvGen.mono (fun _ _ hmem => List.mem_cons_of_mem _ hmem) _ _ (ih hzy)
    exact .trans _ _ _ (hxz.simultaneous (by simp)) hrest

end HandOn

variable {PL : Type} [DecidableEq PL] {g : DiGraph (Node PL)} {es : List (Node PL × Node PL)}
  {e : Node PL × Node PL} {u v : Node PL}

theorem mem_copyIn_both {a c : Node PL} : (u, v) ∈ (copyIn (copyIn g a c) c a).edges ↔
    ∃ v', (u, v') ∈ g.edges ∧ Linked (a, c) v' v := by
  simp only [mem_edges_copyIn, and_true]
  exact exists_linked (P := fun x => (u, x) ∈ g.edges) |>.symm

theorem mem_copyOut_both {a c : Node PL} : (u, v) ∈ (copyOut (copyOut g a c) c a).edges ↔
    ∃ u', (u', v) ∈ g.edges ∧ Linked (a, c) u' u := by
  simp only [mem_edges_copyOut, and_true]
  exact exists_linked (P := fun x => (x, v) ∈ g.edges) |>.symm

/-- One pair: both ends of an edge go on to the nodes of the pair, independently. -/
theorem mem_mergeConcurrent_iff (h1 : e.1 ∈ g.nodes) (h2 : e.2 ∈ g.nodes) :
    (u, v) ∈ (mergeConcurrent g e).edges ↔
      ∃ u' v', (u', v') ∈ g.edges ∧ Linked e u' u ∧ Linked e v' v := by
  rw [mergeConcurrent, if_pos ⟨h1, h2⟩, mem_copyOut_both]
  simp only [mem_copyIn_both]
  constructor
  · intro h
    obtain ⟨u', ⟨v', hedge, hv⟩, hu⟩ := h
    exact ⟨u', v', hedge, hu, hv⟩
  · intro h
    obtain ⟨u', v', hedge, hu, hv⟩ := h
    exact ⟨u', ⟨v', hedge, hv⟩, hu⟩

/-- The edges after the loop are those the graph started with, handed on at both ends. -/
theorem mem_merges_iff : (u, v) ∈ (es.foldl mergeConcurrent g).edges ↔ ∃ u' v', (u', v') ∈ g.edges ∧
    u ∈ handOn (pairsIn g.nodes es) u' ∧ v ∈ handOn (pairsIn g.nodes es) v' := by
  induction es generalizing g with
  | nil => simp [pairsIn, handOn]
  | cons e es ih =>
    have hnodes : pairsIn (mergeConcurrent g e).nodes es = pairsIn g.nodes es :=
      pairsIn_congr fun x => mem_nodes_mergeConcurrent
    rw [List.foldl_cons, ih, hnodes]
    by_cases hin : e.1 ∈ g.nodes ∧ e.2 ∈ g.nodes
    · have hcons : pairsIn g.nodes (e :: es) = e :: pairsIn g.nodes es := by simp [pairsIn, hin]
      simp only [hcons, mem_handOn_cons, mem_mergeConcurrent_iff hin.1 hin.2]
      constructor
      · intro h
        obtain ⟨u1, v1, ⟨u0, v0, hedge, hu0, hv0⟩, hu1, hv1⟩ := h
        exact ⟨u0, v0, hedge, ⟨u1, hu0, hu1⟩, v1, hv0, hv1⟩
      · intro h
        obtain ⟨u0, v0, hedge, ⟨u1, hu0, hu1⟩, v1, hv0, hv1⟩ := h
        exact ⟨u1, v1, ⟨u0, v0, hedge, hu0, hv0⟩, hu1, hv1⟩
    · have hcons : pairsIn g.nodes (e :: es) = pairsIn g.nodes es := by
        simpa [pairsIn, List.filter_cons] using hin
      have hsame : mergeConcurrent g e = g := if_neg hin
      rw [hcons, hsame]

/-- Times that increase along the edges and are equal on the pairs increase along the edges the
loop adds. -/
theorem merges_lt {T : Type} [Preorder T] {val : Node PL → T}
    (hg : ∀ u v, (u, v) ∈ g.edges → val u < val v)
    (hes : ∀ e ∈ es, e.1 ∈ g.nodes → e.2 ∈ g.nodes → val e.1 = val e.2)
    (h : (u, v) ∈ (es.foldl mergeConcurrent g).edges) : val u < val v := by
  refine merges_inv (P := fun u v => val u < val v) hg ?_ h
  intro e he h1 h2
  have heq := hes e he h1 h2
  exact ⟨fun u => by rw [heq], fun v => by rw [heq]⟩

section Shared

/-- The nodes of each pair have the same edges into them and out of them. -/
def NeighboursShared (g : DiGraph (Node PL)) (es : List (Node PL × Node PL)) : Prop :=
  ∀ e ∈ es, e.1 ∈ g.nodes → e.2 ∈ g.nodes →
    (∀ u, (u, e.1) ∈ g.edges ↔ (u, e.2) ∈ g.edges) ∧ ∀ v, (e.1, v) ∈ g.edges ↔ (e.2, v) ∈ g.edges

omit [DecidableEq PL] in
/-- Shared neighbours pass along chains of pairs. -/
theorem NeighboursShared.transfers {x y : Node PL} {ps : List (Node PL × Node PL)}
    (h : NeighboursShared g es) (hps : ∀ e ∈ ps, e ∈ es ∧ e.1 ∈ g.nodes ∧ e.2 ∈ g.nodes)
    (hxy : Simultaneous ps x y) : Transfers (fun u v => (u, v) ∈ g.edges) x y := by
  induction hxy with
  | rel a b hab =>
    obtain ⟨hmem, ha, hb⟩ := hps _ hab
    obtain ⟨hin, hout⟩ := h _ hmem ha hb
    exact ⟨hin, hout⟩
  | refl a => exact ⟨fun _ => Iff.rfl, fun _ => Iff.rfl⟩
  | symm a b _ ih => exact ⟨fun u => (ih.left u).symm, fun v => (ih.right v).symm⟩
  | trans a b c _ _ ih ih' =>
    exact ⟨fun u => (ih.left u).trans (ih'.left u), fun v => (ih.right v).trans (ih'.right v)⟩

/-- The nodes of every pair share their neighbours after the loop exactly if one pass through
the list is enough: for every edge, and all nodes simultaneous with its ends, the pairs in their
order hand some edge of the graph on to the two. -/
theorem neighboursShared_iff (g : DiGraph (Node PL)) (es : List (Node PL × Node PL)) :
    NeighboursShared (es.foldl mergeConcurrent g) es ↔
      ∀ u v, (u, v) ∈ g.edges → ∀ u' v', Simultaneous (pairsIn g.nodes es) u u' →
        Simultaneous (pairsIn g.nodes es) v v' → ∃ a b, (a, b) ∈ g.edges ∧
          u' ∈ handOn (pairsIn g.nodes es) a ∧ v' ∈ handOn (pairsIn g.nodes es) b := by
  constructor
  · intro hshared u v hedge u' v' hu hv
    have hpairs (e : Node PL × Node PL) (he : e ∈ pairsIn g.nodes es) :
        e ∈ es ∧ e.1 ∈ (es.foldl mergeConcurrent g).nodes ∧
          e.2 ∈ (es.foldl mergeConcurrent g).nodes := by
      rw [mem_nodes_merges, mem_nodes_merges]
      exact mem_pairsIn.mp he
    have hkeep : (u, v) ∈ (es.foldl mergeConcurrent g).edges := mem_merges_of_mem hedge
    have hleft := ((hshared.transfers hpairs hu).right v).mp hkeep
    exact mem_merges_iff.mp (((hshared.transfers hpairs hv).left u').mp hleft)
  · intro hpass e he h1 h2
    rw [mem_nodes_merges] at h1 h2
    have hpair : Simultaneous (pairsIn g.nodes es) e.1 e.2 :=
      .rel _ _ (mem_pairsIn.mpr ⟨he, h1, h2⟩)
    have hmove {u v u' v' : Node PL} (hu : Simultaneous (pairsIn g.nodes es) u u')
        (hv : Simultaneous (pairsIn g.nodes es) v v')
        (h : (u, v) ∈ (es.foldl mergeConcurrent g).edges) :
        (u', v') ∈ (es.foldl mergeConcurrent g).edges := by
      obtain ⟨a, b, hedge, ha, hb⟩ := mem_merges_iff.mp h
      exact mem_merges_iff.mpr (hpass a b hedge u' v'
        (.trans _ _ _ (simultaneous_of_mem_handOn ha) hu)
        (.trans _ _ _ (simultaneous_of_mem_handOn hb) hv))
    refine ⟨fun u => ⟨?_, ?_⟩, fun v => ⟨?_, ?_⟩⟩
    · exact hmove (.refl _) hpair
    · exact hmove (.refl _) (.symm _ _ hpair)
    · exact hmove hpair (.refl _)
    · exact hmove (.symm _ _ hpair) (.refl _)

/-- Three locations entered together, the last of them before a fourth. -/
def chainGraph : DiGraph (Node (Fin 4)) :=
  ((DiGraph.empty.addEdge (.enter 2) (.enter 3)).addNode (.enter 0)).addNode (.enter 1)

/-- The first pair is taken before the second brings its edge: the first location gets none. -/
theorem chain_not_shared :
    ¬NeighboursShared ([(.enter 0, .enter 1), (.enter 1, .enter 2)].foldl mergeConcurrent chainGraph)
      [(.enter 0, .enter 1), (.enter 1, .enter 2)] := by
  intro hshared
  have hout := (hshared (.enter 0, .enter 1) (by decide) (by decide) (by decide)).2 (.enter 3)
  revert hout
  decide

end Shared

end SynthLC
