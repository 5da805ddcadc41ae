import SynthLC.DiGraph

/-! The graph package computed: one pass over the nodes, each taken as a stop on the way,
gives the transitive closure. -/
namespace Graph

open Loop

variable {V : Type} [DecidableEq V]

namespace Warshall

/-- Pairs joined through the node `k`. -/
def throughNode (es : List (V × V)) (k : V) : List (V × V) :=
  (es.filter fun e => e.2 = k).flatMap fun a => (es.filter fun e => e.1 = k).map fun b => (a.1, b.2)

def addPivot (es : List (V × V)) (k : V) : List (V × V) := (throughNode es k).foldl insertNew es

def closure (ks : List V) (es : List (V × V)) : List (V × V) := ks.foldl addPivot es

variable {es : List (V × V)} {k j u v : V} {ks : List V}

theorem mem_addPivot : (u, v) ∈ addPivot es k ↔ (u, v) ∈ es ∨ ((u, k) ∈ es ∧ (k, v) ∈ es) := by
  rw [addPivot, mem_foldl_insertNew]
  apply or_congr_right
  simp only [throughNode, List.mem_flatMap, List.mem_filter, decide_eq_true_eq, List.mem_map,
    Prod.mk.injEq]
  constructor
  · intro h
    obtain ⟨a, ⟨ha, rfl⟩, b, ⟨hb, hbk⟩, rfl, rfl⟩ := h
    refine ⟨ha, ?_⟩
    rw [← hbk]
    exact hb
  · intro h
    exact ⟨(u, k), ⟨h.1, rfl⟩, (k, v), ⟨h.2, rfl⟩, rfl, rfl⟩

/-- Two pairs that meet at `k` are joined. -/
def TransAt (es : List (V × V)) (k : V) : Prop := ∀ u v, (u, k) ∈ es → (k, v) ∈ es → (u, v) ∈ es

theorem transAt_addPivot : TransAt (addPivot es k) k := by
  intro u v hu hv
  rw [mem_addPivot] at hu hv ⊢
  rcases hu with hu | hu <;> rcases hv with hv | hv
  · exact .inr ⟨hu, hv⟩
  · exact .inr ⟨hu, hv.2⟩
  · exact .inr ⟨hu.1, hv⟩
  · exact .inr ⟨hu.1, hv.2⟩

theorem TransAt.addPivot (h : TransAt es j) : TransAt (addPivot es k) j := by
  intro u v hu hv
  rw [mem_addPivot] at hu hv ⊢
  rcases hu with hu | ⟨huk, hkj⟩ <;> rcases hv with hv | ⟨hjk, hkv⟩
  · exact .inl (h u v hu hv)
  · exact .inr ⟨h u k hu hjk, hkv⟩
  · exact .inr ⟨huk, h k v hkj hv⟩
  · exact .inr ⟨huk, hkv⟩

theorem mem_closure_of_mem (h : (u, v) ∈ es) : (u, v) ∈ closure ks es := by
  induction ks generalizing es with
  | nil => exact h
  | cons k ks ih => exact ih (mem_addPivot.mpr (.inl h))

theorem TransAt.closure (h : TransAt es j) : TransAt (closure ks es) j := by
  induction ks generalizing es with
  | nil => exact h
  | cons k ks ih => exact ih h.addPivot

theorem transAt_closure (hj : j ∈ ks) : TransAt (closure ks es) j := by
  induction ks generalizing es with
  | nil => simp at hj
  | cons k ks ih =>
    rcases List.mem_cons.mp hj with rfl | hj
    · exact transAt_addPivot.closure
    · exact ih hj

theorem path_of_mem_closure {g : DiGraph V} (hes : ∀ u v, (u, v) ∈ es → g.Path u v)
    (h : (u, v) ∈ closure ks es) : g.Path u v := by
  induction ks generalizing es with
  | nil => exact hes u v h
  | cons k ks ih =>
    refine ih ?_ h
    intro a b hab
    rcases mem_addPivot.mp hab with hab | ⟨hak, hkb⟩
    · exact hes a b hab
    · exact (hes a k hak).trans (hes k b hkb)

theorem nodup_closure (h : es.Nodup) : (closure ks es).Nodup := by
  induction ks generalizing es with
  | nil => exact h
  | cons k ks ih => exact ih (nodup_foldl_insertNew h)

/-- One pass over the nodes finds exactly the pairs joined by a path. -/
theorem mem_closure_iff_path (g : DiGraph V) : (u, v) ∈ closure g.nodes g.edges ↔ g.Path u v := by
  refine ⟨path_of_mem_closure fun _ _ => .single, fun h => ?_⟩
  induction h with
  | single h => exact mem_closure_of_mem h
  | tail _ h ih =>
    exact transAt_closure (g.mem_of_edge _ h).1 _ _ ih (mem_closure_of_mem h)

def transitiveClosure (g : DiGraph V) : DiGraph V where
  nodes := g.nodes
  edges := closure g.nodes g.edges
  nodup_nodes := g.nodup_nodes
  nodup_edges := nodup_closure g.nodup_edges
  mem_of_edge _ he := ((mem_closure_iff_path g).mp he).mem_nodes

def onCycle (g : DiGraph V) : List V := g.nodes.filter fun v => (v, v) ∈ closure g.nodes g.edges

def reduce (g : DiGraph V) : DiGraph V where
  nodes := g.nodes
  edges := g.edges.filter fun e => !g.nodes.any fun w =>
    decide ((e.1, w) ∈ closure g.nodes g.edges) && decide ((w, e.2) ∈ closure g.nodes g.edges)
  nodup_nodes := g.nodup_nodes
  nodup_edges := g.nodup_edges.filter _
  mem_of_edge e he := g.mem_of_edge e (List.mem_filter.mp he).1

theorem onCycle_eq_nil (g : DiGraph V) : onCycle g = [] ↔ g.Acyclic := by
  simp only [onCycle, List.filter_eq_nil_iff, decide_eq_true_eq, mem_closure_iff_path]
  exact ⟨fun h v hv => h v hv.mem_nodes.1 hv, fun h v _ => h v⟩

theorem mem_reduce (g : DiGraph V) : (u, v) ∈ (reduce g).edges ↔ g.Reduced u v := by
  simp only [reduce, List.mem_filter, Bool.not_eq_true', List.any_eq_false, Bool.and_eq_true,
    decide_eq_true_eq, mem_closure_iff_path, DiGraph.Reduced]
  apply and_congr_right
  intro _
  constructor
  · intro h hmid
    obtain ⟨w, huw, hwv⟩ := hmid
    exact h w huw.mem_nodes.2 ⟨huw, hwv⟩
  · intro h w _ hw
    exact h ⟨w, hw⟩

/-- The package, computed. -/
def package : Package V where
  transitiveReduction g := if onCycle g = [] then some (reduce g) else none
  transitiveClosure := transitiveClosure
  simpleCycles g := (onCycle g).map fun v => [v]
  reduction_isSome g := by
    rw [← onCycle_eq_nil]
    split_ifs with h <;> simp [h]
  reduction_nodes g r h := by
    split_ifs at h
    rw [← Option.some.inj h]
    rfl
  reduction_edges g r h u v := by
    split_ifs at h
    rw [← Option.some.inj h]
    exact mem_reduce g
  closure_nodes _ := rfl
  closure_edges g _ _ := mem_closure_iff_path g
  simpleCycles_eq_nil g := by
    rw [List.map_eq_nil_iff, onCycle_eq_nil]

theorem transitiveReduction_eq {g : DiGraph V} (h : onCycle g = []) :
    package.transitiveReduction g = some (reduce g) :=
  if_pos (c := onCycle g = []) h

theorem eq_reduce {g r : DiGraph V} (h : package.transitiveReduction g = some r) :
    r = reduce g := by
  have hacyclic : onCycle g = [] := by
    rw [onCycle_eq_nil, ← package.reduction_isSome, h]
    rfl
  exact Option.some.inj (h.symm.trans (transitiveReduction_eq hacyclic))

end Warshall

end Graph
