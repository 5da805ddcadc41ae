import SynthLC.OrderGraph
import Mathlib.Order.Basic

/-! Cycles for the nodes of an order graph: when its edges and the constraints of its
reduction agree with them. -/
namespace SynthLC

open Graph Smt

variable {PL IID : Type}

section InTime

variable (stays : PL → Prop) (val : Node PL → Int)

/-- First and last cycle of one location. -/
def StayPair (u v : Node PL) : Prop := ∃ p, stays p ∧ u = .enter p ∧ v = .final p

/-- A location may be left in the cycle it is entered in; every other edge takes time. -/
structure InTime (u v : Node PL) : Prop where
  le : val u ≤ val v
  lt : ¬StayPair stays u v → val u < val v

variable {stays val} {g : DiGraph (Node PL)} {u v w : Node PL}

theorem InTime.of_lt (h : val u < val v) : InTime stays val u v := ⟨le_of_lt h, fun _ => h⟩

theorem StayPair.mono {stays' : PL → Prop} (hs : ∀ p, stays p → stays' p) (h : StayPair stays u v) :
    StayPair stays' u v := by
  obtain ⟨p, hp, hu, hv⟩ := h
  exact ⟨p, hs p hp, hu, hv⟩

theorem InTime.mono {stays' : PL → Prop} (hs : ∀ p, stays p → stays' p) (h : InTime stays val u v) :
    InTime stays' val u v :=
  ⟨h.le, fun hn => h.lt fun hstay => hn (hstay.mono hs)⟩

/-- An edge in time within one location is its stay. -/
theorem InTime.eq_stay (h : InTime stays val u v) (hloc : u.loc = v.loc)
    (hle : val (.enter u.loc) ≤ val (.final u.loc)) : (u, v) = (.enter u.loc, .final u.loc) := by
  cases u with
  | enter p =>
    cases v with
    | enter q =>
      obtain rfl : p = q := hloc
      refine absurd (h.lt fun hs => ?_) (lt_irrefl _)
      obtain ⟨_, _, _, hv⟩ := hs
      cases hv
    | final q =>
      obtain rfl : p = q := hloc
      rfl
  | final p =>
    have hlt : val (.final p) < val v := by
      refine h.lt fun hs => ?_
      obtain ⟨_, _, hu, _⟩ := hs
      cases hu
    cases v with
    | enter q =>
      obtain rfl : p = q := hloc
      exact absurd hlt (not_lt.mpr hle)
    | final q =>
      obtain rfl : p = q := hloc
      exact absurd hlt (lt_irrefl _)

/-- No edge of a location's own stay follows another one. -/
theorem StayPair.not_next (h : StayPair stays u v) : ¬StayPair stays v w := by
  intro h'
  obtain ⟨p, _, _, hv⟩ := h
  obtain ⟨q, _, hv', _⟩ := h'
  rw [hv] at hv'
  cases hv'

theorem path_inTime (hg : ∀ u v, (u, v) ∈ g.edges → InTime stays val u v) (h : g.Path u v) :
    InTime stays val u v := by
  -- a path of at least two edges has one that is not a stay, and that edge takes time
  have hstep : (StayPair stays u v ∧ val u ≤ val v) ∨ val u < val v := by
    induction h with
    | @single v h =>
      by_cases hs : StayPair stays u v
      · exact .inl ⟨hs, (hg _ _ h).le⟩
      · exact .inr ((hg _ _ h).lt hs)
    | tail _ h ih =>
      have hlast := hg _ _ h
      rcases ih with ⟨hs, hle⟩ | hlt
      · exact .inr (lt_of_le_of_lt hle (hlast.lt hs.not_next))
      · exact .inr (lt_of_lt_of_le hlt hlast.le)
  rcases hstep with ⟨hs, hle⟩ | hlt
  · exact ⟨hle, fun hn => absurd hs hn⟩
  · exact .of_lt hlt

theorem acyclic_of_inTime (hg : ∀ u v, (u, v) ∈ g.edges → InTime stays val u v) : g.Acyclic := by
  intro v h
  refine lt_irrefl _ ((path_inTime hg h).lt ?_)
  intro hs
  obtain ⟨p, _, hu, hv⟩ := hs
  rw [hu] at hv
  cases hv

/-- Where two nodes share their cycle and no stay of either is over at once, edges of one
may go to the other. -/
theorem transfers_inTime {a c : Node PL} (heq : val a = val c)
    (hmoves : a ≠ c → ∀ p, stays p → a.loc = p ∨ c.loc = p → val (.enter p) < val (.final p)) :
    Transfers (InTime stays val) a c := by
  have hone {a c : Node PL} (heq : val a = val c) (hmoves : a ≠ c → ∀ p, stays p →
      a.loc = p ∨ c.loc = p → val (.enter p) < val (.final p)) :
      (∀ u, InTime stays val u a → InTime stays val u c) ∧
      ∀ v, InTime stays val a v → InTime stays val c v := by
    by_cases hac : a = c
    · subst hac
      exact ⟨fun _ => id, fun _ => id⟩
    · refine ⟨fun u h => ?_, fun v h => ?_⟩
      · by_cases hs : StayPair stays u a
        · obtain ⟨p, hp, rfl, rfl⟩ := hs
          have hlt := hmoves hac p hp (.inl rfl)
          exact .of_lt (heq ▸ hlt)
        · exact .of_lt (heq ▸ h.lt hs)
      · by_cases hs : StayPair stays a v
        · obtain ⟨p, hp, rfl, rfl⟩ := hs
          have hlt := hmoves hac p hp (.inl rfl)
          exact .of_lt (heq ▸ hlt)
        · exact .of_lt (heq ▸ h.lt hs)
  have hback := hone heq.symm fun hca p hp hloc => hmoves (Ne.symm hca) p hp hloc.symm
  have hforth := hone heq hmoves
  exact ⟨fun u => ⟨hforth.1 u, hback.1 u⟩, fun v => ⟨hforth.2 v, hback.2 v⟩⟩

theorem stay_moves {a c : Node PL} {p : PL} (hp : stays p) (hne : a ≠ c) (heq : val a = val c)
    (hleft : a = .final p → InTime stays val (.enter p) c)
    (hright : a = .enter p → InTime stays val c (.final p)) (hloc : a.loc = p) :
    val (.enter p) < val (.final p) := by
  cases a with
  | enter q =>
    obtain rfl : q = p := hloc
    rw [heq]
    refine (hright rfl).lt fun hs => ?_
    obtain ⟨r, _, hc, hr⟩ := hs
    cases hr
    exact hne hc.symm
  | final q =>
    obtain rfl : q = p := hloc
    rw [heq]
    refine (hleft rfl).lt fun hs => ?_
    obtain ⟨r, _, hr, hc⟩ := hs
    cases hr
    exact hne hc.symm

end InTime

/-- Nodes of the graph of a set. -/
def Facts.InGraph (f : Facts PL IID) (setIdx : Nat) (aSet : List PL) : Node PL → Prop
  | .enter p => p ∈ aSet
  | .final p => p ∈ aSet ∧ p ∈ f.cycCntGt1PerSet setIdx

theorem Facts.InGraph.loc_mem {f : Facts PL IID} {setIdx : Nat} {aSet : List PL} {x : Node PL}
    (h : f.InGraph setIdx aSet x) : x.loc ∈ aSet := by
  cases x with
  | enter p => exact h
  | final p => exact h.1

section Agrees

variable (f : Facts PL IID) (setIdx : Nat) (aSet : List PL) (m : FinalNode)
  (orders pairs : List (Node PL × Node PL)) (val : Node PL → Int)

/-- Locations whose stay is an edge of the graph. -/
def Facts.StayEdge (p : PL) : Prop := m = .edge ∧ p ∈ aSet ∧ p ∈ f.cycCntGt1PerSet setIdx

/-- What the graph of a set asks of the cycles of its nodes. -/
structure Agrees : Prop where
  order_lt : ∀ e ∈ orders, val e.1 < val e.2
  stay_le : ∀ p, f.StayEdge setIdx aSet m p → val (.enter p) ≤ val (.final p)
  implied_lt : ∀ p ∈ aSet, p ∈ f.cycCntGt1PerSet setIdx → ∀ y, (.enter p, y) ∈ orders →
    f.iidMap p = f.iidMapTmp y → val (.final p) < val y
  leaving_lt : ∀ e ∈ f.leavingHbProvenResPairs, f.InGraph setIdx aSet e.1 →
    f.InGraph setIdx aSet e.2 → val e.1 < val e.2
  pair_eq : ∀ e ∈ pairs, f.InGraph setIdx aSet e.1 → f.InGraph setIdx aSet e.2 → val e.1 = val e.2
  pair_moves : ∀ e ∈ pairs, f.InGraph setIdx aSet e.1 → f.InGraph setIdx aSet e.2 → e.1 ≠ e.2 →
    ∀ p, f.StayEdge setIdx aSet m p → e.1.loc = p ∨ e.2.loc = p → val (.enter p) < val (.final p)

variable {f setIdx aSet m orders pairs val} {b : Building PL} {x : Node PL}

/-- A final node on its own asks less than an edge to it. -/
theorem Agrees.asNode (h : Agrees f setIdx aSet m orders pairs val) :
    Agrees f setIdx aSet .node orders pairs val := by
  have hno (p : PL) : ¬f.StayEdge setIdx aSet .node p := fun hp => by cases hp.1
  exact ⟨h.order_lt, fun p hp => absurd hp (hno p), h.implied_lt, h.leaving_lt, h.pair_eq,
    fun _ _ _ _ _ p hp => absurd hp (hno p)⟩

theorem Built.mem_nodes (hb : Built f setIdx m orders aSet aSet b)
    (hin : ∀ e ∈ orders, f.InGraph setIdx aSet e.1 ∧ f.InGraph setIdx aSet e.2) :
    x ∈ b.dg.nodes ↔ f.InGraph setIdx aSet x := by
  rw [hb.nodes]
  constructor
  · intro hx
    rcases hx with ⟨e, he, rfl | rfl⟩ | ⟨p, hp, rfl⟩ | ⟨p, hp, hmark, rfl⟩
    · exact (hin e he).1
    · exact (hin e he).2
    · exact hp
    · exact ⟨hp, hmark⟩
  · intro hx
    cases x with
    | enter p => exact .inr (.inl ⟨p, hx, rfl⟩)
    | final p => exact .inr (.inr ⟨p, hx.1, hx.2, rfl⟩)

variable [DecidableEq PL]

theorem Built.mem_nodes_withLeaving (hb : Built f setIdx m orders aSet aSet b)
    (hin : ∀ e ∈ orders, f.InGraph setIdx aSet e.1 ∧ f.InGraph setIdx aSet e.2) :
    x ∈ (withLeaving f b).nodes ↔ f.InGraph setIdx aSet x := by
  rw [withLeaving, mem_nodes_leavings, DiGraph.mem_nodes_addEdges_of_subset, hb.mem_nodes hin]
  intro e he
  obtain ⟨p, hp, hmark, y, hy, _, rfl⟩ := (hb.implied e).mp he
  rw [hb.mem_nodes hin, hb.mem_nodes hin]
  exact ⟨⟨hp, hmark⟩, (hin _ hy).2⟩

theorem Built.mem_nodes_finish (hb : Built f setIdx m orders aSet aSet b)
    (hin : ∀ e ∈ orders, f.InGraph setIdx aSet e.1 ∧ f.InGraph setIdx aSet e.2) :
    x ∈ (finish f b pairs).nodes ↔ f.InGraph setIdx aSet x := by
  rw [finish, mem_nodes_merges, hb.mem_nodes_withLeaving hin]

/-- Edges before simultaneous nodes are merged. -/
theorem Built.mem_edges_withLeaving (hb : Built f setIdx m orders aSet aSet b)
    (hin : ∀ e ∈ orders, f.InGraph setIdx aSet e.1 ∧ f.InGraph setIdx aSet e.2)
    {e : Node PL × Node PL} :
    e ∈ (withLeaving f b).edges ↔
      e ∈ orders ∨ (∃ p, f.StayEdge setIdx aSet m p ∧ e = (.enter p, .final p)) ∨
      (∃ p ∈ aSet, p ∈ f.cycCntGt1PerSet setIdx ∧
        ∃ y, (.enter p, y) ∈ orders ∧ f.iidMap p = f.iidMapTmp y ∧ e = (.final p, y)) ∨
      (e ∈ f.leavingHbProvenResPairs ∧ f.InGraph setIdx aSet e.1 ∧ f.InGraph setIdx aSet e.2) := by
  have hnode (x : Node PL) : x ∈ (b.dg.addEdges b.implied).nodes ↔ f.InGraph setIdx aSet x := by
    rw [← hb.mem_nodes_withLeaving hin, withLeaving, mem_nodes_leavings]
  rw [withLeaving, mem_edges_leavings, DiGraph.mem_edges_addEdges, hb.edges, hb.implied, hnode, hnode]
  have hstay : (m = .edge ∧ ∃ p ∈ aSet, p ∈ f.cycCntGt1PerSet setIdx ∧ e = (.enter p, .final p)) ↔
      ∃ p, f.StayEdge setIdx aSet m p ∧ e = (.enter p, .final p) := by
    constructor
    · intro h
      obtain ⟨hm, p, hp, hmark, rfl⟩ := h
      exact ⟨p, ⟨hm, hp, hmark⟩, rfl⟩
    · intro h
      obtain ⟨p, ⟨hm, hp, hmark⟩, rfl⟩ := h
      exact ⟨hm, p, hp, hmark, rfl⟩
  rw [hstay, or_assoc, or_assoc]

omit [DecidableEq PL] in
theorem Built.implied_iid (hb : Built f setIdx m orders aSet aSet b) (u v : Node PL)
    (h : (u, v) ∈ b.implied) : f.iidMapTmp u = f.iidMapTmp v := by
  obtain ⟨p, _, _, y, _, hiid, heq⟩ := (hb.implied _).mp h
  cases heq
  exact hiid

theorem finish_inTime (hb : Built f setIdx m orders aSet aSet b)
    (hin : ∀ e ∈ orders, f.InGraph setIdx aSet e.1 ∧ f.InGraph setIdx aSet e.2)
    (h : Agrees f setIdx aSet m orders pairs val) (u v : Node PL)
    (he : (u, v) ∈ (finish f b pairs).edges) :
    InTime (f.StayEdge setIdx aSet m) val u v := by
  refine merges_inv ?_ ?_ he
  · intro u v he
    rcases (hb.mem_edges_withLeaving hin).mp he with he | ⟨p, hp, he⟩ |
      ⟨p, hp, hmark, y, hy, hiid, he⟩ | ⟨he, h1, h2⟩
    · exact .of_lt (h.order_lt _ he)
    · cases he
      exact ⟨h.stay_le p hp, fun hn => absurd ⟨p, hp, rfl, rfl⟩ hn⟩
    · cases he
      exact .of_lt (h.implied_lt p hp hmark _ hy hiid)
    · exact .of_lt (h.leaving_lt _ he h1 h2)
  · intro e he h1 h2
    rw [hb.mem_nodes_withLeaving hin] at h1 h2
    exact transfers_inTime (h.pair_eq e he h1 h2)
      fun hne p hp hloc => h.pair_moves e he h1 h2 hne p hp hloc

/-- Conversely a graph whose edges are in time asks nothing else, if its pairs are. -/
theorem agrees_of_inTime (hb : Built f setIdx m orders aSet aSet b)
    (hin : ∀ e ∈ orders, f.InGraph setIdx aSet e.1 ∧ f.InGraph setIdx aSet e.2)
    (hdiff : ∀ e ∈ orders ++ f.leavingHbProvenResPairs, e.1.loc ≠ e.2.loc)
    (hg : ∀ u v, (u, v) ∈ (finish f b pairs).edges → InTime (f.StayEdge setIdx aSet m) val u v)
    (hpairs : ∀ e ∈ pairs, f.InGraph setIdx aSet e.1 → f.InGraph setIdx aSet e.2 →
      val e.1 = val e.2) : Agrees f setIdx aSet m orders pairs val := by
  have hkeep (e : Node PL × Node PL) (he : e ∈ (withLeaving f b).edges) :
      InTime (f.StayEdge setIdx aSet m) val e.1 e.2 :=
    hg e.1 e.2 (mem_merges_of_mem he)
  have hnot {e : Node PL × Node PL} (hne : e.1.loc ≠ e.2.loc) :
      ¬StayPair (f.StayEdge setIdx aSet m) e.1 e.2 := by
    intro hs
    obtain ⟨p, _, h1, h2⟩ := hs
    exact hne (by rw [h1, h2]; rfl)
  refine ⟨?_, ?_, ?_, ?_, hpairs, ?_⟩
  · intro e he
    exact (hkeep e ((hb.mem_edges_withLeaving hin).mpr (.inl he))).lt
      (hnot (hdiff e (List.mem_append_left _ he)))
  · intro p hp
    exact (hkeep _ ((hb.mem_edges_withLeaving hin).mpr (.inr (.inl ⟨p, hp, rfl⟩)))).le
  · intro p hp hmark y hy hiid
    refine (hkeep (.final p, y) ((hb.mem_edges_withLeaving hin).mpr
      (.inr (.inr (.inl ⟨p, hp, hmark, y, hy, hiid, rfl⟩))))).lt ?_
    intro hs
    obtain ⟨q, _, hq, _⟩ := hs
    cases hq
  · intro e he h1 h2
    exact (hkeep e ((hb.mem_edges_withLeaving hin).mpr (.inr (.inr (.inr ⟨he, h1, h2⟩))))).lt
      (hnot (hdiff e (List.mem_append_right _ he)))
  · intro e he h1 h2 hne p hp hloc
    have hstay := (hb.mem_edges_withLeaving hin).mpr (.inr (.inl ⟨p, hp, rfl⟩))
    have hcopy := mem_merges (u := .enter p) (v := .final p) he
      ((hb.mem_nodes_withLeaving hin).mpr h1) ((hb.mem_nodes_withLeaving hin).mpr h2)
    have heq := hpairs e he h1 h2
    -- the copy of the stay at the other node of the pair is no stay
    rcases hloc with hloc | hloc
    · exact stay_moves hp hne heq (fun ha => hg _ _ (hcopy.1 (ha ▸ hstay)))
        (fun ha => hg _ _ (hcopy.2.2.1 (ha ▸ hstay))) hloc
    · exact stay_moves hp (Ne.symm hne) heq.symm (fun ha => hg _ _ (hcopy.2.1 (ha ▸ hstay)))
        (fun ha => hg _ _ (hcopy.2.2.2 (ha ▸ hstay))) hloc

end Agrees

section Solve

variable (f : Facts PL IID) (setIdx : Nat) (aSet : List PL)

/-- Locations with a weight for their stay. -/
def Facts.Weighted (p : PL) : Prop := p ∈ aSet ∧ p ∈ f.cycCntGt1PerSet setIdx

/-- Reduced edges between two nodes of one identifier, other than a stay, have the span the
solver asks for. -/
def IidSpans (same : SameIid) (g : DiGraph (Node PL)) (val : Node PL → Int) : Prop :=
  ∀ u v, g.Reduced u v → ¬StayPair (f.Weighted setIdx aSet) u v →
    f.iidMapTmp u = f.iidMapTmp v → same.Holds (val u) (val v)

variable {f setIdx aSet} {same : SameIid} {m : FinalNode} {b : Building PL}
  {orders pairs concurrent whbFinals : List (Node PL × Node PL)} {val : Node PL → Int}

theorem IidSpans.before {g : DiGraph (Node PL)} {stays : PL → Prop}
    (hg : ∀ u v, (u, v) ∈ g.edges → InTime stays val u v)
    (hstays : ∀ p, stays p → f.Weighted setIdx aSet p) : IidSpans f setIdx aSet .before g val := by
  intro u v hr hn _
  exact (hg u v hr.1).lt fun hs => hn (hs.mono hstays)

variable [DecidableEq PL]

theorem Facts.edgeWeight_stay {p : PL} (hp : f.Weighted setIdx aSet p) :
    f.edgeWeight setIdx aSet (.enter p, .final p) =
      some ((List.range (f.maxCycPerPl p)).map Int.ofNat) := by
  simp only [Facts.edgeWeight, true_and]
  exact if_pos hp

theorem Facts.edgeWeight_none (f : Facts PL IID) {u v : Node PL}
    (h : ¬StayPair (f.Weighted setIdx aSet) u v) : f.edgeWeight setIdx aSet (u, v) = none := by
  unfold Facts.edgeWeight
  split
  · rename_i p q heq
    obtain ⟨rfl, rfl⟩ : u = .enter p ∧ v = .final q := by simpa using heq
    refine if_neg fun hc => h ?_
    obtain ⟨rfl, hp⟩ := hc
    exact ⟨p, hp, rfl, rfl⟩
  · rfl

theorem Facts.edgeWeight_ne_nil (f : Facts PL IID)
    (hmax : ∀ p, f.Weighted setIdx aSet p → 0 < f.maxCycPerPl p) (e : Node PL × Node PL) :
    f.edgeWeight setIdx aSet e ≠ some [] := by
  by_cases hs : StayPair (f.Weighted setIdx aSet) e.1 e.2
  · obtain ⟨p, hp, h1, h2⟩ := hs
    obtain rfl : e = (.enter p, .final p) := Prod.ext h1 h2
    have hpos := hmax p hp
    rw [Facts.edgeWeight_stay hp]
    simp only [ne_eq, Option.some.injEq, List.map_eq_nil_iff, List.range_eq_nil]
    omega
  · have hnone := f.edgeWeight_none hs
    rw [hnone]
    simp

variable [DecidableEq IID] {pkg : Package (Node PL)} {tr : DiGraph (Node PL)}

/-- A stay within the bound is one of the weights of its edge. -/
theorem edgeHolds_stay {implied : List (Node PL × Node PL)} {p : PL}
    (hp : f.Weighted setIdx aSet p) : (f.solver setIdx aSet tr implied concurrent whbFinals).EdgeHolds
      same val (.enter p, .final p) ↔
        val (.enter p) ≤ val (.final p) ∧ val (.final p) < val (.enter p) + f.maxCycPerPl p := by
  simp only [MySolver.EdgeHolds, Facts.solver, Facts.edgeWeight_stay hp, List.mem_map,
    List.mem_range]
  constructor
  · intro h
    obtain ⟨r, ⟨n, hn, rfl⟩, heq⟩ := h
    simp only [Int.ofNat_eq_natCast] at heq
    omega
  · intro h
    refine ⟨_, ⟨(val (.final p) - val (.enter p)).toNat, ?_, rfl⟩, ?_⟩
    · omega
    · simp only [Int.ofNat_eq_natCast]
      omega

theorem edgeHolds_iid {implied : List (Node PL × Node PL)} {u v : Node PL}
    (hn : ¬StayPair (f.Weighted setIdx aSet) u v)
    (himp : (u, v) ∈ implied → f.iidMapTmp u = f.iidMapTmp v) :
    (f.solver setIdx aSet tr implied concurrent whbFinals).EdgeHolds same val (u, v) ↔
      if f.iidMapTmp u = f.iidMapTmp v then same.Holds (val u) (val v) else val u < val v := by
  have hiff : ((u, v) ∈ implied ∨ f.iidMapTmp u = f.iidMapTmp v) ↔ f.iidMapTmp u = f.iidMapTmp v :=
    or_iff_right_of_imp himp
  simp only [MySolver.EdgeHolds, Facts.solver, f.edgeWeight_none hn, hiff, List.not_mem_nil,
    if_false]

/-- Cycles that agree with the graph satisfy the constraints of its reduction. -/
theorem satisfied_of_inTime (hb : Built f setIdx m orders aSet aSet b)
    (hin : ∀ e ∈ orders, f.InGraph setIdx aSet e.1 ∧ f.InGraph setIdx aSet e.2)
    (htr : pkg.transitiveReduction (finish f b pairs) = some tr)
    (hg : ∀ u v, (u, v) ∈ (finish f b pairs).edges → InTime (f.StayEdge setIdx aSet m) val u v)
    (hmax : ∀ p, f.Weighted setIdx aSet p → val (.final p) < val (.enter p) + f.maxCycPerPl p)
    (hiid : IidSpans f setIdx aSet same (finish f b pairs) val)
    (hwhb : ∀ e ∈ f.whbEdge.map enterPair ++ whbFinals, f.InGraph setIdx aSet e.1 →
      f.InGraph setIdx aSet e.2 → val e.1 ≤ val e.2)
    (hpairs : ∀ e ∈ concurrent, f.InGraph setIdx aSet e.1 → f.InGraph setIdx aSet e.2 →
      val e.1 = val e.2) :
    (f.solver setIdx aSet tr b.implied concurrent whbFinals).Satisfied same val := by
  have hnode (x : Node PL) : x ∈ tr.nodes ↔ f.InGraph setIdx aSet x := by
    rw [pkg.reduction_nodes _ _ htr, hb.mem_nodes_finish hin]
  refine ⟨?_, ?_, ?_⟩
  · intro e he
    obtain ⟨u, v⟩ := e
    have hred := (pkg.reduction_edges _ _ htr u v).mp he
    have hedge := hg u v hred.1
    by_cases hs : StayPair (f.Weighted setIdx aSet) u v
    · obtain ⟨p, hp, rfl, rfl⟩ := hs
      exact (edgeHolds_stay hp).mpr ⟨hedge.le, hmax p hp⟩
    · rw [edgeHolds_iid hs (hb.implied_iid u v)]
      split_ifs with hsame
      · exact hiid u v hred hs hsame
      · exact hedge.lt fun hstay => hs (hstay.mono fun _ hp => hp.2)
  · intro e he h1 h2
    exact hwhb e he ((hnode _).mp h1) ((hnode _).mp h2)
  · intro e he h1 h2
    exact hpairs e he ((hnode _).mp h1) ((hnode _).mp h2)

/-- Cycles that agree with the graph: the reduction exists, and its constraints are satisfied. -/
theorem satisfied_of_agrees (concurrent whbFinals : List (Node PL × Node PL))
    (hb : Built f setIdx m orders aSet aSet b)
    (hin : ∀ e ∈ orders, f.InGraph setIdx aSet e.1 ∧ f.InGraph setIdx aSet e.2)
    (hagrees : Agrees f setIdx aSet m orders pairs val)
    (hstay : ∀ p, f.Weighted setIdx aSet p → val (.enter p) ≤ val (.final p) ∧
      val (.final p) < val (.enter p) + f.maxCycPerPl p)
    (hiid : IidSpans f setIdx aSet same (finish f b pairs) val)
    (hwhb : ∀ e ∈ f.whbEdge.map enterPair ++ whbFinals, f.InGraph setIdx aSet e.1 →
      f.InGraph setIdx aSet e.2 → val e.1 ≤ val e.2)
    (hpairs : ∀ e ∈ concurrent, f.InGraph setIdx aSet e.1 → f.InGraph setIdx aSet e.2 →
      val e.1 = val e.2) :
    ∃ tr, pkg.transitiveReduction (finish f b pairs) = some tr ∧
      (f.solver setIdx aSet tr b.implied concurrent whbFinals).Satisfied same val ∧
      ∀ e, f.edgeWeight setIdx aSet e ≠ some [] := by
  have htime := finish_inTime hb hin hagrees
  obtain ⟨tr, htr⟩ := Option.isSome_iff_exists.mp
    ((pkg.reduction_isSome _).mpr (acyclic_of_inTime htime))
  refine ⟨tr, htr, ?_, ?_⟩
  · exact satisfied_of_inTime hb hin htr htime (fun p hp => (hstay p hp).2) hiid hwhb hpairs
  · refine f.edgeWeight_ne_nil fun p hp => ?_
    have hle := hstay p hp
    omega

/-- A solution of the constraints puts the edges of the whole graph in time: each of them is
a path of reduced edges. -/
theorem weighted_inTime {g : DiGraph (Node PL)} {implied : List (Node PL × Node PL)}
    (htr : pkg.transitiveReduction g = some tr)
    (himp : ∀ u v, (u, v) ∈ implied → f.iidMapTmp u = f.iidMapTmp v)
    (hsat : (f.solver setIdx aSet tr implied concurrent whbFinals).Satisfied same val)
    (u v : Node PL) (h : (u, v) ∈ g.edges) : InTime (f.Weighted setIdx aSet) val u v := by
  have hacyclic : g.Acyclic :=
    (pkg.reduction_isSome _).mp (Option.isSome_iff_exists.mpr ⟨tr, htr⟩)
  have hpath : tr.Path u v :=
    hacyclic.reduced_path (fun u v => (pkg.reduction_edges _ _ htr u v).mpr) (.single h)
  refine path_inTime ?_ hpath
  intro u v he
  have hedge := hsat.edges _ he
  by_cases hs : StayPair (f.Weighted setIdx aSet) u v
  · refine ⟨?_, fun hn => absurd hs hn⟩
    obtain ⟨p, hp, rfl, rfl⟩ := hs
    exact ((edgeHolds_stay hp).mp hedge).1
  · rw [edgeHolds_iid hs (himp u v)] at hedge
    apply InTime.of_lt
    split_ifs at hedge with hsame
    · cases same with
      | oneCycle =>
        have hsucc : val u + 1 = val v := hedge
        omega
      | before => exact hedge
    · exact hedge

theorem inTime_of_satisfied (hb : Built f setIdx .edge orders aSet aSet b)
    (htr : pkg.transitiveReduction (finish f b pairs) = some tr)
    (hsat : (f.solver setIdx aSet tr b.implied concurrent whbFinals).Satisfied same val)
    (u v : Node PL) (h : (u, v) ∈ (finish f b pairs).edges) :
    InTime (f.StayEdge setIdx aSet .edge) val u v :=
  (weighted_inTime htr hb.implied_iid hsat u v h).mono fun _ hp => ⟨rfl, hp⟩

/-- ... and gives each reduced edge the span its constraint asks for. -/
theorem iidSpans_of_satisfied (hb : Built f setIdx m orders aSet aSet b)
    (htr : pkg.transitiveReduction (finish f b pairs) = some tr)
    (hsat : (f.solver setIdx aSet tr b.implied concurrent whbFinals).Satisfied same val) :
    IidSpans f setIdx aSet same (finish f b pairs) val := by
  intro u v hred hs hsame
  have hedge := hsat.edges _ ((pkg.reduction_edges _ _ htr u v).mpr hred)
  rw [edgeHolds_iid hs (hb.implied_iid u v), if_pos hsame] at hedge
  exact hedge

end Solve

end SynthLC
