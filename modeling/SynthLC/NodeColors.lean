import SynthLC.Dict
import SynthLC.MyGraph

/-! The colours of `MYGRAPH.py`: in the loop over simultaneous pairs each pair gets the colour that
one of its nodes has already, or the next free one. -/
namespace SynthLC.MyGraph

open Graph
open scoped Loop

section Paint

variable {V : Type} [DecidableEq V]

/-- `color_cnt` and `node_colors`. -/
structure Coloring (V : Type) where
  colorCnt : Nat
  nodeColors : List (V × Nat)

/-- The first node's colour comes before the second's. -/
def paint (s : Coloring V) (e : V × V) : Coloring V :=
  let c := (s.nodeColors.lookup e.1).or (s.nodeColors.lookup e.2)
  let color := c.getD s.colorCnt
  { colorCnt := if c = none then s.colorCnt + 1 else s.colorCnt
    nodeColors := Dict.upsert e.2 (fun _ => color) color
      (Dict.upsert e.1 (fun _ => color) color s.nodeColors) }

/-- Nodes of some pair. -/
def Occurring (es : List (V × V)) (x : V) : Prop := ∃ e ∈ es, x = e.1 ∨ x = e.2

/-- The colours in use are below the counter, and nodes of one colour are simultaneous. -/
structure Sound (r : V → V → Prop) (s : Coloring V) : Prop where
  lt : ∀ x c, s.nodeColors.lookup x = some c → c < s.colorCnt
  same : ∀ x y c, s.nodeColors.lookup x = some c → s.nodeColors.lookup y = some c →
    Relation.EqvGen r x y

variable {s : Coloring V} {e : V × V} {x : V}

theorem lookup_paint : (paint s e).nodeColors.lookup x =
    if x = e.1 ∨ x = e.2 then
      some (((s.nodeColors.lookup e.1).or (s.nodeColors.lookup e.2)).getD s.colorCnt)
    else s.nodeColors.lookup x := by
  unfold paint
  rw [Dict.lookup_set, Dict.lookup_set]
  by_cases h1 : x = e.1
  · simp [h1]
  · by_cases h2 : x = e.2
    · simp [h2]
    · simp [h1, h2]

/-- A pair takes a colour that is new, or that one of its nodes has. -/
theorem paint_color (hlt : ∀ x c, s.nodeColors.lookup x = some c → c < s.colorCnt) :
    ∃ color, (∀ x, (paint s e).nodeColors.lookup x =
        if x = e.1 ∨ x = e.2 then some color else s.nodeColors.lookup x) ∧
      color < (paint s e).colorCnt ∧ s.colorCnt ≤ (paint s e).colorCnt ∧
      ((∀ x, s.nodeColors.lookup x ≠ some color) ∨
        ∃ z, (z = e.1 ∨ z = e.2) ∧ s.nodeColors.lookup z = some color) := by
  refine ⟨_, fun x => lookup_paint, ?_⟩
  unfold paint
  cases h1 : s.nodeColors.lookup e.1 with
  | some c => exact ⟨hlt _ _ h1, le_refl _, .inr ⟨e.1, .inl rfl, h1⟩⟩
  | none =>
    cases h2 : s.nodeColors.lookup e.2 with
    | some c => exact ⟨hlt _ _ h2, le_refl _, .inr ⟨e.2, .inr rfl, h2⟩⟩
    | none =>
      refine ⟨Nat.lt_succ_self _, Nat.le_succ _, .inl ?_⟩
      intro x hx
      exact absurd (hlt x _ hx) (lt_irrefl _)

variable {r : V → V → Prop}

theorem Sound.paint (h : Sound r s) (he : r e.1 e.2) : Sound r (paint s e) := by
  have ⟨color, hlookup, hcolor, hle, horigin⟩ := paint_color (e := e) h.lt
  have hpair {x y : V} (hx : x = e.1 ∨ x = e.2) (hy : y = e.1 ∨ y = e.2) :
      Relation.EqvGen r x y := by
    rcases hx with rfl | rfl <;> rcases hy with rfl | rfl
    · exact .refl _
    · exact .rel _ _ he
    · exact .symm _ _ (.rel _ _ he)
    · exact .refl _
  -- a node that had the colour before is connected to the pair
  have hjoin {x y : V} (hx : x = e.1 ∨ x = e.2) (hy : s.nodeColors.lookup y = some color) :
      Relation.EqvGen r x y := by
    rcases horigin with hnew | ⟨z, hz, hcz⟩
    · exact absurd hy (hnew y)
    · exact .trans _ _ _ (hpair hx hz) (h.same z y color hcz hy)
  refine ⟨?_, ?_⟩
  · intro x c hx
    rw [hlookup] at hx
    split_ifs at hx with hin
    · rw [← Option.some.inj hx]
      exact hcolor
    · have hlt := h.lt x c hx
      omega
  · intro x y c hx hy
    rw [hlookup] at hx hy
    split_ifs at hx hy with hx' hy' hy'
    · exact hpair hx' hy'
    · obtain rfl := Option.some.inj hx
      exact hjoin hx' hy
    · obtain rfl := Option.some.inj hy
      exact .symm _ _ (hjoin hy' hx)
    · exact h.same x y c hx hy

variable {es : List (V × V)}

theorem Sound.foldl (h : Sound r s) (hes : ∀ e ∈ es, r e.1 e.2) :
    Sound r (es.foldl MyGraph.paint s) := by
  induction es generalizing s with
  | nil => exact h
  | cons e es ih =>
    exact ih (h.paint (hes e List.mem_cons_self)) fun e' he' =>
      hes e' (List.mem_cons_of_mem e he')

theorem lookup_foldl_paint :
    (∃ c, (es.foldl paint s).nodeColors.lookup x = some c) ↔
      Occurring es x ∨ ∃ c, s.nodeColors.lookup x = some c := by
  induction es generalizing s with
  | nil => simp [Occurring]
  | cons e es ih =>
    rw [List.foldl_cons, ih, lookup_paint]
    unfold Occurring
    by_cases hx : x = e.1 ∨ x = e.2
    · simp [hx]
    · simp [hx]

/-- A pair that comes after others and does not join two groups: its nodes are connected already if
both occurred, unless the second was only paired with itself. -/
def Fits (pre : List (V × V)) (e : V × V) : Prop :=
  Occurring pre e.1 → Occurring pre e.2 →
    Simultaneous pre e.1 e.2 ∨ ∀ e' ∈ pre, e'.1 = e.2 ∨ e'.2 = e.2 → e' = (e.2, e.2)

/-- The two nodes of every pair have one colour. -/
def Even (es : List (V × V)) (s : Coloring V) : Prop :=
  ∀ e ∈ es, s.nodeColors.lookup e.1 = s.nodeColors.lookup e.2

/-- The colours that the loop gives to the pairs of a list. -/
def painted (es : List (V × V)) : Coloring V := es.foldl paint ⟨4, []⟩

theorem painted_concat (es : List (V × V)) (e : V × V) :
    painted (es ++ [e]) = paint (painted es) e := by
  rw [painted, List.foldl_append]
  rfl

theorem painted_sound (es : List (V × V)) :
    Sound (fun a b => (a, b) ∈ es) (painted es) := by
  have hstart : Sound (fun a b => (a, b) ∈ es) (⟨4, []⟩ : Coloring V) := ⟨by simp, by simp⟩
  exact hstart.foldl fun e he => he

theorem lookup_painted : (∃ c, (painted es).nodeColors.lookup x = some c) ↔ Occurring es x := by
  rw [painted, lookup_foldl_paint]
  simp

/-- Connected nodes have one colour exactly if that is so for every pair. -/
theorem even_iff : Even es (painted es) ↔ ∀ x y, Occurring es x → Occurring es y →
    ((painted es).nodeColors.lookup x = (painted es).nodeColors.lookup y ↔
      Simultaneous es x y) := by
  constructor
  · intro heven x y hx _
    constructor
    · intro heq
      obtain ⟨c, hc⟩ := lookup_painted.mpr hx
      exact (painted_sound es).same x y c hc (heq ▸ hc)
    · intro hsim
      apply hsim.eq
      exact heven
  · intro hclasses e he
    exact (hclasses e.1 e.2 ⟨e, he, .inl rfl⟩ ⟨e, he, .inr rfl⟩).mpr (.rel _ _ he)

/-- A pair whose first node has a colour changes at most the colour of the second. -/
theorem lookup_paint_of_some {c : Nat} (h : s.nodeColors.lookup e.1 = some c) :
    (paint s e).nodeColors.lookup x = if x = e.2 then some c else s.nodeColors.lookup x := by
  rw [lookup_paint, h]
  by_cases h2 : x = e.2
  · simp [h2]
  · by_cases h1 : x = e.1
    · simp [h1, h]
    · simp [h1, h2]

/-- A pair whose first node has none changes no colour. -/
theorem lookup_paint_of_none (h : s.nodeColors.lookup e.1 = none) {c : Nat}
    (hx : s.nodeColors.lookup x = some c) :
    (paint s e).nodeColors.lookup x = s.nodeColors.lookup x := by
  rw [lookup_paint, h, hx]
  split_ifs with hmem
  · rcases hmem with rfl | rfl
    · rw [h] at hx
      cases hx
    · rw [hx]
      rfl
  · rfl

/-- The pair itself is always even. -/
theorem even_concat : Even (es ++ [e]) (paint s e) ↔ Even es (paint s e) := by
  constructor
  · intro h e' he'
    exact h e' (List.mem_append_left _ he')
  · intro h e' he'
    rcases List.mem_append.mp he' with he' | he'
    · exact h e' he'
    · rw [List.mem_singleton.mp he', lookup_paint, lookup_paint, if_pos (.inl rfl),
        if_pos (.inr rfl)]

/-- Colours that a pass does not change stay even. -/
theorem Even.of_same (h : Even es s)
    (hsame : ∀ x, Occurring es x → (paint s e).nodeColors.lookup x = s.nodeColors.lookup x) :
    Even es (paint s e) := by
  intro e' he'
  rw [hsame e'.1 ⟨e', he', .inl rfl⟩, hsame e'.2 ⟨e', he', .inr rfl⟩]
  exact h e' he'

/-- A pair that joins two groups leaves the others of the second group behind. -/
theorem even_paint_of_joins (h : Even es (painted es)) (h1 : Occurring es e.1)
    (hnot : ¬Simultaneous es e.1 e.2) :
    Even es (paint (painted es) e) ↔ ∀ e' ∈ es, e'.1 = e.2 ∨ e'.2 = e.2 → e' = (e.2, e.2) := by
  obtain ⟨c, hc⟩ := lookup_painted.mpr h1
  have hlookup (x : V) := lookup_paint_of_some (x := x) hc
  constructor
  · intro heven
    -- a node that was connected to the second keeps its colour
    have hbehind (z : V) (hz : Occurring es z) (hsim : Simultaneous es e.2 z)
        (hpainted : (paint (painted es) e).nodeColors.lookup z = some c) : z = e.2 := by
      by_contra hne
      rw [hlookup, if_neg hne, ← hc] at hpainted
      have hsim' := (even_iff.mp h z e.1 hz h1).mp hpainted
      exact hnot (.symm _ _ (.trans _ _ _ hsim hsim'))
    intro e' he' htouches
    have hpair : Simultaneous es e'.1 e'.2 := .rel _ _ he'
    have hsame := heven e' he'
    rcases htouches with heq | heq
    · rw [heq, hlookup e.2, if_pos rfl] at hsame
      rw [heq] at hpair
      exact Prod.ext heq (hbehind e'.2 ⟨e', he', .inr rfl⟩ hpair hsame.symm)
    · rw [heq, hlookup e.2, if_pos rfl] at hsame
      rw [heq] at hpair
      exact Prod.ext (hbehind e'.1 ⟨e', he', .inl rfl⟩ (.symm _ _ hpair) hsame) heq
  · intro hself e' he'
    by_cases htouches : e'.1 = e.2 ∨ e'.2 = e.2
    · rw [hself e' he' htouches]
    · obtain ⟨hne1, hne2⟩ := not_or.mp htouches
      rw [hlookup, hlookup, if_neg hne1, if_neg hne2]
      exact h e' he'

/-- One pass of the loop: the colours stay right exactly if the pair does not join two groups. -/
theorem even_concat_iff (h : Even es (painted es)) :
    Even (es ++ [e]) (painted (es ++ [e])) ↔ Fits es e := by
  rw [painted_concat, even_concat]
  unfold Fits
  by_cases h1 : Occurring es e.1
  · obtain ⟨c, hc⟩ := lookup_painted.mpr h1
    by_cases h2 : Occurring es e.2
    · by_cases hsim : Simultaneous es e.1 e.2
      · simp only [h1, h2, hsim, true_or, forall_const, iff_true]
        have hsame := (even_iff.mp h e.1 e.2 h1 h2).mpr hsim
        apply h.of_same
        intro x _
        rw [lookup_paint_of_some hc]
        split_ifs with hx
        · rw [hx, ← hsame, hc]
        · rfl
      · simp only [h1, h2, hsim, false_or, forall_const]
        exact even_paint_of_joins h h1 hsim
    · simp only [h2, false_implies, implies_true, iff_true]
      apply h.of_same
      intro x hx
      rw [lookup_paint_of_some hc, if_neg]
      rintro rfl
      exact h2 hx
  · simp only [h1, false_implies, iff_true]
    have hnone : (painted es).nodeColors.lookup e.1 = none := by
      rw [Option.eq_none_iff_forall_not_mem]
      intro c hc
      exact h1 (lookup_painted.mp ⟨c, hc⟩)
    apply h.of_same
    intro x hx
    obtain ⟨c, hc⟩ := lookup_painted.mpr hx
    exact lookup_paint_of_none hnone hc

/-- The colours are right after every pass exactly if no pair joins two groups. -/
theorem even_prefixes_iff :
    (∀ pre, pre <+: es → Even pre (painted pre)) ↔
      ∀ pre e post, es = pre ++ e :: post → Fits pre e := by
  constructor
  · intro heven pre e post hes
    rw [← even_concat_iff (heven pre ⟨e :: post, hes.symm⟩)]
    exact heven _ ⟨post, by rw [hes]; simp⟩
  · intro hfits pre hpre
    induction pre using List.reverseRecOn with
    | nil => exact fun e he => nomatch he
    | append_singleton pre e ih =>
      obtain ⟨post, rfl⟩ := hpre
      apply (even_concat_iff (ih ⟨e :: post, by simp⟩)).mpr
      exact hfits pre e post (by simp)

end Paint

section Loop

variable {PL : Type} [DecidableEq PL]

/-- Body of the loop: the pair is coloured and its nodes take over each other's edges. -/
def concurStep (d : DiGraph (Node PL) × Coloring (Node PL)) (e : Node PL × Node PL) :
    DiGraph (Node PL) × Coloring (Node PL) :=
  if e.1 ∈ d.1.nodes ∧ e.2 ∈ d.1.nodes then (mergeConcurrent d.1 e, paint d.2 e) else d

/-- The first four colours are for other purposes. -/
def concurLoop (g : DiGraph (Node PL)) (es : List (Node PL × Node PL)) :
    DiGraph (Node PL) × Coloring (Node PL) :=
  es.foldl concurStep (g, ⟨4, []⟩)

/-- The colour of a node after the loop. -/
def colorOf (g : DiGraph (Node PL)) (es : List (Node PL × Node PL)) (x : Node PL) : Option Nat :=
  (concurLoop g es).2.nodeColors.lookup x

variable (g : DiGraph (Node PL)) (es : List (Node PL × Node PL))

/-- The loop does to the graph what `mergeConcurrent` does, and paints the pairs of its nodes. -/
theorem concurLoop_eq : concurLoop g es =
    (es.foldl mergeConcurrent g, (pairsIn g.nodes es).foldl paint ⟨4, []⟩) := by
  have hloop (c : Coloring (Node PL)) : es.foldl concurStep (g, c) =
      (es.foldl mergeConcurrent g, (pairsIn g.nodes es).foldl paint c) := by
    induction es generalizing g c with
    | nil => rfl
    | cons e es ih =>
      by_cases hin : e.1 ∈ g.nodes ∧ e.2 ∈ g.nodes
      · have hnodes : pairsIn (mergeConcurrent g e).nodes es = pairsIn g.nodes es :=
          pairsIn_congr fun x => mem_nodes_mergeConcurrent
        have hcons : pairsIn g.nodes (e :: es) = e :: pairsIn g.nodes es := by
          simp [pairsIn, hin]
        rw [List.foldl_cons, concurStep, if_pos hin, ih, hnodes, hcons]
        rfl
      · have hcons : pairsIn g.nodes (e :: es) = pairsIn g.nodes es :=
          List.filter_cons_of_neg (by simpa using hin)
        have hsame : mergeConcurrent g e = g := if_neg hin
        rw [List.foldl_cons, concurStep, if_neg hin, ih, hcons, List.foldl_cons, hsame]
  exact hloop _

/-- The graph that is drawn is the one the loop leaves. -/
theorem concurLoop_drawn {IID : Type} [DecidableEq IID] (slv : Smt.Solver (Var (Node PL)))
    (f : Facts PL IID) (setIdx : Nat) (aSet : List PL) (c : Comb PL)
    (st : SolverState (Node PL)) :
    (concurLoop (withWeak slv f setIdx aSet c st) (f.concurrentPairs ++ concurInComb c)).1 =
      drawnGraph slv f setIdx aSet c st := by
  rw [concurLoop_eq]
  rfl

theorem colorOf_eq (x : Node PL) :
    colorOf g es x = (painted (pairsIn g.nodes es)).nodeColors.lookup x := by
  rw [colorOf, concurLoop_eq]
  rfl

/-- Nodes that occur in pairs have the same colour exactly if a chain of pairs connects them. -/
def ColorsAreClasses : Prop :=
  ∀ x y, Occurring (pairsIn g.nodes es) x → Occurring (pairsIn g.nodes es) y →
    (colorOf g es x = colorOf g es y ↔ Simultaneous (pairsIn g.nodes es) x y)

theorem colorsAreClasses_iff_even :
    ColorsAreClasses g es ↔ Even (pairsIn g.nodes es) (painted (pairsIn g.nodes es)) := by
  rw [even_iff]
  unfold ColorsAreClasses
  simp only [colorOf_eq]

/-- A pair joins two groups if both its nodes occurred and no chain of the pairs before connects
them. If no pair does, the colours are the classes of simultaneous nodes; and that is the least to
ask for if they shall be so after every pass. -/
theorem colors_are_classes_iff :
    (∀ pre, pre <+: es → ColorsAreClasses g pre) ↔
      ∀ pre e post, pairsIn g.nodes es = pre ++ e :: post → Fits pre e := by
  rw [← even_prefixes_iff]
  constructor
  · intro h pre hpre
    obtain ⟨post, hpost⟩ := hpre
    obtain ⟨pre', post', rfl, rfl, _⟩ := List.filter_eq_append_iff.mp hpost.symm
    exact (colorsAreClasses_iff_even g pre').mp (h pre' (List.prefix_append pre' post'))
  · intro h pre hpre
    exact (colorsAreClasses_iff_even g pre).mpr (h _ (hpre.filter _))

/-- Four locations in two pairs ... -/
def twoPairs : DiGraph (Node (Fin 4)) :=
  (DiGraph.empty.addEdge (.enter 0) (.enter 1)).addEdge (.enter 2) (.enter 3)

/-- ... which a third pair joins. -/
def joined : List (Node (Fin 4) × Node (Fin 4)) :=
  [(.enter 0, .enter 1), (.enter 2, .enter 3), (.enter 1, .enter 2)]

/-- The third pair gives its second node the first colour and leaves the fourth node behind. -/
theorem joined_pairs_differ : pairsIn twoPairs.nodes joined = joined ∧
    Simultaneous joined (.enter 0) (.enter 3) ∧
    colorOf twoPairs joined (.enter 0) = some 4 ∧ colorOf twoPairs joined (.enter 3) = some 5 := by
  have h01 : Simultaneous joined (.enter 0) (.enter 1) := .rel _ _ (by decide)
  have h12 : Simultaneous joined (.enter 1) (.enter 2) := .rel _ _ (by decide)
  have h23 : Simultaneous joined (.enter 2) (.enter 3) := .rel _ _ (by decide)
  exact ⟨by decide, .trans _ _ _ h01 (.trans _ _ _ h12 h23), by decide, by decide⟩

-- A later pair can repaint the node that was left behind.
example :
    [0, 1, 2, 3].map (fun n => colorOf twoPairs (joined ++ [(.enter 2, .enter 3)]) (.enter n)) =
      [some 4, some 4, some 4, some 4] := by decide

end Loop

end SynthLC.MyGraph
