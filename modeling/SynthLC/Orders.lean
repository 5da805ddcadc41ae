import SynthLC.OrderGraph
import SynthLC.Verdict
import Mathlib.Data.String.Basic

/-! Orders between nodes as the scripts hand them on: the pairs to ask about, the covers that
ask, the verdicts read back, and the assumptions that fix a combination of answers. -/
namespace SynthLC

open Sva Graph Loop

variable {PL IID : Type}

/-- `">"`, `"<"` and `"="`: the first node of the pair comes before, after or together with
the second. -/
inductive HbType where
  | gt
  | lt
  | eq
  deriving DecidableEq

/-- Lines of an `edge_todo_per_set` file. -/
abbrev TodoFile (PL : Type) := List ((Node PL × Node PL) × List HbType)

/-- One order for each pair. -/
abbrev Comb (PL : Type) := List ((Node PL × Node PL) × HbType)

/-- Covers of the generated files, `CS_{u}_hb_{v}` and `CS_{u}_concur_{v}` among them; `set_r`
is declared by `prove_from.tcl`. -/
inductive CoverName (PL : Type) where
  | hb (u v : Node PL)
  | concur (u v : Node PL)
  | cSetr
  | setR
  deriving DecidableEq

structure SvFile (PL : Type) where
  assumes : List (Property (Sig PL))
  covers : List (CoverName PL × Seq (Sig PL))

/-- Verdicts of one file; a missing row is `err`. -/
abbrev Csv (PL : Type) := CoverName PL → Result

/-- Every cover of the file is decided, and right. -/
def ExactCsv (legal : Set (Wave PL)) (file : SvFile PL) (csv : Csv PL) : Prop :=
  ∀ c ∈ file.covers, ExactCover legal file.assumes c.2 (csv c.1)

section Templates

variable (setR : BExp (Sig PL))

def coverBefore : Node PL → Node PL → Seq (Sig PL)
  | .enter e0, .enter e1 => cHbProp e0 e1 setR
  | .final e0, .final e1 => cFinalHbFinal e0 e1 setR
  | .final e0, .enter e1 => cFinalHbEnter e0 e1 setR
  | .enter e0, .final e1 => cEnterHbFinal e0 e1 setR

def coverTogether : Node PL → Node PL → Seq (Sig PL)
  | .enter e0, .enter e1 => cConcurProp e0 e1 setR
  | .final e0, .final e1 => cFinalConcurFinal e0 e1 setR
  | .final e0, .enter e1 => cFinalConcurEnter e0 e1 setR
  | .enter e0, .final e1 => cEnterConcurFinal e0 e1 setR

def CoverName.seq : CoverName PL → Seq (Sig PL)
  | .hb u v => coverBefore setR u v
  | .concur u v => coverTogether setR u v
  | .cSetr => .bool setR
  | .setR => .bool setR

def assumeBefore : Node PL → Node PL → Property (Sig PL)
  | .enter e0, .enter e1 => aEnterHbEnter e0 e1
  | .final e0, .final e1 => aFinalHbFinal e0 e1
  | .final e0, .enter e1 => aFinalHbEnter e0 e1
  | .enter e0, .final e1 => aEnterHbFinal e0 e1

def assumeTogether : Node PL → Node PL → List (Property (Sig PL))
  | .enter e0, .enter e1 => aEnterConcurEnter e0 e1
  | .final e0, .final e1 => [aFinalConcurFinal e0 e1]
  | .final e0, .enter e1 => [aFinalConcurEnter e0 e1]
  | .enter e0, .final e1 => [aEnterConcurFinal e0 e1]

/-- The `A_*` assumptions of one chosen order. -/
def assumeOrder : (Node PL × Node PL) × HbType → List (Property (Sig PL))
  | (k, .gt) => [assumeBefore k.1 k.2]
  | (k, .lt) => [assumeBefore k.2 k.1]
  | (k, .eq) => assumeTogether k.1 k.2

/-- `xCollectReEval` writes the simultaneous cover with its locations exchanged. -/
def enterCoverName (k : Node PL × Node PL) : HbType → CoverName PL
  | .gt => .hb k.1 k.2
  | .lt => .hb k.2 k.1
  | .eq => .concur k.2 k.1

def finalCoverName (k : Node PL × Node PL) : HbType → CoverName PL
  | .gt => .hb k.1 k.2
  | .lt => .hb k.2 k.1
  | .eq => .concur k.1 k.2

end Templates

/-- The edge a chosen order adds. -/
def orderEdge : (Node PL × Node PL) × HbType → Option (Node PL × Node PL)
  | (k, .gt) => some (k.1, k.2)
  | (k, .lt) => some (k.2, k.1)
  | (_, .eq) => none

def orderEdges (c : Comb PL) : List (Node PL × Node PL) := c.filterMap orderEdge

def concurInComb (c : Comb PL) : List (Node PL × Node PL) :=
  (c.filter fun e => e.2 = .eq).map Prod.fst

/-- The order holds between the cycles of its nodes. -/
def OrderHolds (val : Node PL → Int) : (Node PL × Node PL) × HbType → Prop
  | (k, .gt) => val k.1 < val k.2
  | (k, .lt) => val k.2 < val k.1
  | (k, .eq) => val k.1 = val k.2

instance (val : Node PL → Int) (x : (Node PL × Node PL) × HbType) : Decidable (OrderHolds val x) :=
  match x with
  | (k, .gt) => inferInstanceAs (Decidable (val k.1 < val k.2))
  | (k, .lt) => inferInstanceAs (Decidable (val k.2 < val k.1))
  | (k, .eq) => inferInstanceAs (Decidable (val k.1 = val k.2))

/-- The order the cycles have. -/
def ownOrder (val : Node PL → Int) (k : Node PL × Node PL) : HbType :=
  if val k.1 < val k.2 then .gt else if val k.2 < val k.1 then .lt else .eq

section Chosen

variable {val : Node PL → Int} {comb : Comb PL} {e : Node PL × Node PL}

theorem ownOrder_holds (val : Node PL → Int) (k : Node PL × Node PL) :
    OrderHolds val (k, ownOrder val k) := by
  unfold ownOrder
  split_ifs with hlt hgt
  · exact hlt
  · exact hgt
  · exact le_antisymm (not_lt.mp hgt) (not_lt.mp hlt)

theorem eq_ownOrder {k : Node PL × Node PL} {t : HbType} (h : OrderHolds val (k, t)) :
    t = ownOrder val k := by
  unfold ownOrder
  cases t with
  | gt => exact (if_pos h).symm
  | lt =>
    have hlt : val k.2 < val k.1 := h
    rw [if_neg hlt.not_gt, if_pos hlt]
  | eq =>
    have heq : val k.1 = val k.2 := h
    rw [if_neg heq.not_lt, if_neg heq.not_gt]

/-- Only one combination of a table has orders that all hold. -/
theorem eq_own_of_mem_choices {d : TodoFile PL} (hc : comb ∈ choices d)
    (h : ∀ x ∈ comb, OrderHolds val x) : comb = d.map fun line => (line.1, ownOrder val line.1) := by
  have hforall := mem_product.mp hc
  induction d generalizing comb with
  | nil =>
    cases hforall
    rfl
  | cons line d ih =>
    cases hforall with
    | cons hx hrest =>
      obtain ⟨t, _, rfl⟩ := List.mem_map.mp hx
      have hown := eq_ownOrder (h _ (List.mem_cons_self ..))
      have htail := ih (mem_product.mpr hrest) (fun x hx => h x (List.mem_cons_of_mem _ hx)) hrest
      rw [List.map_cons, ← hown, ← htail]

theorem mem_orderEdges : e ∈ orderEdges comb ↔ (e, .gt) ∈ comb ∨ ((e.2, e.1), .lt) ∈ comb := by
  simp only [orderEdges, List.mem_filterMap]
  constructor
  · intro h
    obtain ⟨⟨k, t⟩, hmem, heq⟩ := h
    cases t with
    | gt =>
      obtain rfl := Option.some.inj heq
      exact .inl hmem
    | lt =>
      obtain rfl := Option.some.inj heq
      exact .inr hmem
    | eq => cases heq
  · intro h
    rcases h with h | h
    · exact ⟨_, h, rfl⟩
    · exact ⟨_, h, rfl⟩

theorem mem_concurInComb : e ∈ concurInComb comb ↔ (e, .eq) ∈ comb := by
  simp [concurInComb]

theorem orderEdges_append (c c' : Comb PL) : orderEdges (c ++ c') = orderEdges c ++ orderEdges c' :=
  List.filterMap_append

/-- The edges of orders that hold take time ... -/
theorem orderEdges_lt (h : ∀ x ∈ comb, OrderHolds val x) (he : e ∈ orderEdges comb) :
    val e.1 < val e.2 := by
  rcases mem_orderEdges.mp he with hgt | hlt
  · exact h _ hgt
  · exact h _ hlt

/-- ... and the simultaneous pairs take none. -/
theorem concurInComb_eq (h : ∀ x ∈ comb, OrderHolds val x) (he : e ∈ concurInComb comb) :
    val e.1 = val e.2 :=
  h _ (mem_concurInComb.mp he)

end Chosen

/-- The asking of an order, or of one of the two behind a simultaneous pair. -/
def AskedAs (P : Node PL × Node PL → Prop) : (Node PL × Node PL) × HbType → Prop
  | (k, .gt) => P k
  | (k, .lt) => P (k.2, k.1)
  | (k, .eq) => P k ∨ P (k.2, k.1)

theorem AskedAs.either {P : Node PL × Node PL → Prop} {x : (Node PL × Node PL) × HbType}
    (h : AskedAs P x) : P x.1 ∨ P (x.1.2, x.1.1) := by
  obtain ⟨k, t⟩ := x
  cases t with
  | gt => exact .inl h
  | lt => exact .inr h
  | eq => exact h

theorem AskedAs.mono {P Q : Node PL × Node PL → Prop} {x : (Node PL × Node PL) × HbType}
    (hPQ : ∀ e, P e → Q e) (h : AskedAs P x) : AskedAs Q x := by
  obtain ⟨k, t⟩ := x
  cases t with
  | gt => exact hPQ _ h
  | lt => exact hPQ _ h
  | eq => exact h.imp (hPQ _) (hPQ _)

section Ask

variable [DecidableEq PL] (f : Facts PL IID)

def Facts.nodeName : Node PL → String
  | .enter p => f.name p
  | .final p => f.name p ++ "___final"

/-- Ask about an order; the pair is kept under the name that sorts first. -/
def Facts.addPair (todo : TodoFile PL) (e : Node PL × Node PL) : TodoFile PL :=
  if f.nodeName e.1 < f.nodeName e.2 then push e .gt [.gt, .eq] todo
  else push (e.2, e.1) .lt [.lt, .eq] todo

/-- Neither the closure nor a simultaneous pair settles the two nodes, and the solver can do
with the first before the second and without it. -/
def Facts.toAsk (slv : Smt.Solver (Var (Node PL))) (tc : DiGraph (Node PL))
    (st : SolverState (Node PL)) (e : Node PL × Node PL) : Bool :=
  !(decide (e ∈ tc.edges) || decide ((e.2, e.1) ∈ tc.edges)) &&
    !(decide (e ∈ f.enterConcurrentPairs.map enterPair) ||
      decide ((e.2, e.1) ∈ f.enterConcurrentPairs.map enterPair)) &&
    !MySolver.checkImpHb slv st e && MySolver.checkHbPossibility slv st e

/-- An order is asked about if the constraints have a solution with it and one without. -/
theorem Facts.toAsk_of_extends {slv : Smt.Solver (Var (Node PL))} {tc : DiGraph (Node PL)}
    {st : SolverState (Node PL)} {e : Node PL × Node PL}
    (htc : ¬(e ∈ tc.edges ∨ (e.2, e.1) ∈ tc.edges))
    (hpair : ¬(e ∈ f.enterConcurrentPairs.map enterPair ∨
      (e.2, e.1) ∈ f.enterConcurrentPairs.map enterPair))
    {val val' : Node PL → Int} (hext : MySolver.Extends val st) (hlt : val e.1 < val e.2)
    (hext' : MySolver.Extends val' st) (hle : val' e.2 ≤ val' e.1) : f.toAsk slv tc st e = true := by
  have hpos : MySolver.checkHbPossibility slv st e = true :=
    MySolver.checkHbPossibility_of_extends hext hlt
  have himp : MySolver.checkImpHb slv st e = false := MySolver.checkImpHb_of_extends hext' hle
  simp only [Facts.toAsk, hpos, himp, Bool.and_true, Bool.not_false, Bool.and_eq_true,
    Bool.not_eq_true', Bool.or_eq_false_iff, decide_eq_false_iff_not]
  exact ⟨not_or.mp htc, not_or.mp hpair⟩

theorem Facts.toAsk_iff {slv : Smt.Solver (Var (Node PL))} {tc : DiGraph (Node PL)}
    {st : SolverState (Node PL)} {e : Node PL × Node PL} : f.toAsk slv tc st e = true ↔
      ¬(e ∈ tc.edges ∨ (e.2, e.1) ∈ tc.edges) ∧
      ¬(e ∈ f.enterConcurrentPairs.map enterPair ∨
        (e.2, e.1) ∈ f.enterConcurrentPairs.map enterPair) ∧
      (∃ val, MySolver.Extends val st ∧ val e.2 ≤ val e.1) ∧
      ∃ val, MySolver.Extends val st ∧ val e.1 < val e.2 := by
  constructor
  · intro h
    simp only [Facts.toAsk, Bool.and_eq_true, Bool.not_eq_true', Bool.or_eq_false_iff,
      decide_eq_false_iff_not] at h
    obtain ⟨⟨⟨htc, hpair⟩, himp⟩, hpos⟩ := h
    exact ⟨not_or.mpr htc, not_or.mpr hpair, MySolver.exists_extends_of_not_implied himp,
      MySolver.exists_extends_of_possible hpos⟩
  · intro h
    obtain ⟨htc, hpair, ⟨val', hext', hle⟩, val, hext, hlt⟩ := h
    exact f.toAsk_of_extends htc hpair hext hlt hext' hle

/-- With an order the opposite one is asked about too, if some solution has it. -/
theorem Facts.toAsk_reverse {slv : Smt.Solver (Var (Node PL))} {tc : DiGraph (Node PL)}
    {st : SolverState (Node PL)} {e : Node PL × Node PL} (h : f.toAsk slv tc st e = true)
    {val : Node PL → Int} (hext : MySolver.Extends val st) (hlt : val e.2 < val e.1) :
    f.toAsk slv tc st (e.2, e.1) = true := by
  obtain ⟨htc, hpair, _, val', hext', hlt'⟩ := f.toAsk_iff.mp h
  exact f.toAsk_of_extends (mt Or.symm htc) (mt Or.symm hpair) hext hlt hext' hlt'.le

/-- `set_r`: every location of the set was entered. -/
def Facts.setR (aSet : List PL) : BExp (Sig PL) :=
  .all ((f.cvPerflocs.filter fun pl => pl ∈ aSet).map hpnReg)

/-- No other covered location is entered. -/
def Facts.setAssumes (aSet : List PL) : List (Property (Sig PL)) :=
  (f.cvPerflocs.filter fun pl => pl ∉ aSet).map noS1T

/-- Covers of a todo file, with the one of `prove_from.tcl`. -/
def Facts.todoCovers (coverName : Node PL × Node PL → HbType → CoverName PL) (aSet : List PL)
    (todo : TodoFile PL) : List (CoverName PL × Seq (Sig PL)) :=
  (todo.flatMap fun line => line.2.map (coverName line.1)).map (fun c => (c, c.seq (f.setR aSet))) ++
    [(.setR, .bool (f.setR aSet))]

/-- A todo file after the orders of `es` were asked about. -/
structure TodoInv (es : List (Node PL × Node PL)) (todo : TodoFile PL) : Prop where
  nodup_keys : (todo.map Prod.fst).Nodup
  ne_nil : ∀ line ∈ todo, line.2 ≠ []
  lists_gt : ∀ k, Lists todo k .gt ↔ k ∈ es ∧ f.nodeName k.1 < f.nodeName k.2
  lists_lt : ∀ k, Lists todo k .lt ↔ (k.2, k.1) ∈ es ∧ ¬f.nodeName k.2 < f.nodeName k.1
  lists_eq : ∀ k, Lists todo k .eq ↔ k ∈ todo.map Prod.fst
  mem_keys : ∀ k, k ∈ todo.map Prod.fst ↔ Lists todo k .gt ∨ Lists todo k .lt
  nodup : es.Nodup → ∀ line ∈ todo, line.2.Nodup

variable {f} {es : List (Node PL × Node PL)} {todo : TodoFile PL}

/-- A new line asks its order and equality, a line that is there only the order in addition. -/
theorem lists_ask {k k' : Node PL × Node PL} {t t' : HbType} (ht' : t' ≠ .eq) :
    Lists (Loop.push k t [t, .eq] todo) k' t' ↔ Lists todo k' t' ∨ (k' = k ∧ t = t') := by
  rw [lists_push]
  apply or_congr_right
  apply and_congr_right
  intro _
  split_ifs
  · exact eq_comm
  · simp [ht', eq_comm]

/-- Asking under a key that only this order uses. -/
theorem TodoInv.push (h : TodoInv f es todo) {k : Node PL × Node PL} {t : HbType}
    {e : Node PL × Node PL} (ht : t ≠ .eq)
    (hgt : ∀ k', (k' ∈ es ++ [e] ∧ f.nodeName k'.1 < f.nodeName k'.2) ↔
      Lists todo k' .gt ∨ (k' = k ∧ t = .gt))
    (hlt : ∀ k', ((k'.2, k'.1) ∈ es ++ [e] ∧ ¬f.nodeName k'.2 < f.nodeName k'.1) ↔
      Lists todo k' .lt ∨ (k' = k ∧ t = .lt))
    (hnew : Lists todo k t → e ∈ es) : TodoInv f (es ++ [e]) (Loop.push k t [t, .eq] todo) := by
  refine ⟨nodup_keys_push h.nodup_keys, ?_, ?_, ?_, ?_, ?_, ?_⟩
  · exact forall_push (P := fun _ xs => xs ≠ []) h.ne_nil (by simp) (fun _ _ _ => by simp)
  · intro k'
    rw [lists_ask (by simp), hgt]
  · intro k'
    rw [lists_ask (by simp), hlt]
  · intro k'
    rw [lists_push, mem_keys_push, h.lists_eq]
    constructor
    · intro hk'
      rcases hk' with hk' | ⟨hk', _⟩
      · exact .inl hk'
      · exact .inr hk'
    · intro hk'
      by_cases hold : k' ∈ todo.map Prod.fst
      · exact .inl hold
      · obtain rfl := hk'.resolve_left hold
        exact .inr ⟨rfl, by simp [hold]⟩
  · intro k'
    rw [mem_keys_push, lists_ask (by simp), lists_ask (by simp), h.mem_keys]
    constructor
    · intro hk'
      rcases hk' with (hk' | hk') | rfl
      · exact .inl (.inl hk')
      · exact .inr (.inl hk')
      · cases t with
        | gt => exact .inl (.inr ⟨rfl, rfl⟩)
        | lt => exact .inr (.inr ⟨rfl, rfl⟩)
        | eq => exact absurd rfl ht
    · intro hk'
      rcases hk' with (hk' | hk') | hk' | hk'
      · exact .inl (.inl hk')
      · exact .inr hk'.1
      · exact .inl (.inr hk')
      · exact .inr hk'.1
  · intro hnd
    obtain ⟨hes, _, hdisj⟩ := List.nodup_append.mp hnd
    refine forall_push (P := fun _ xs => xs.Nodup) (h.nodup hes) ?_ ?_
    · simp [ht]
    · intro xs hmem hxs
      refine hxs.append (by simp) ?_
      simp only [List.disjoint_singleton]
      intro hx
      exact hdisj e (hnew ⟨xs, hmem, hx⟩) e (by simp) rfl

theorem TodoInv.addPair (h : TodoInv f es todo) (e : Node PL × Node PL) :
    TodoInv f (es ++ [e]) (f.addPair todo e) := by
  unfold Facts.addPair
  split_ifs with hname
  · refine h.push (by simp) ?_ ?_ ?_
    · intro k'
      rw [h.lists_gt, List.mem_append, List.mem_singleton, or_and_right]
      apply or_congr_right
      constructor
      · intro hk
        exact ⟨hk.1, rfl⟩
      · intro hk
        obtain ⟨rfl, _⟩ := hk
        exact ⟨rfl, hname⟩
    · intro k'
      rw [h.lists_lt, List.mem_append, List.mem_singleton, or_and_right]
      apply or_congr_right
      constructor
      · intro hk
        obtain ⟨rfl, hn⟩ := hk
        exact absurd hname hn
      · intro hk
        simp at hk
    · intro hl
      exact ((h.lists_gt e).mp hl).1
  · refine h.push (by simp) ?_ ?_ ?_
    · intro k'
      rw [h.lists_gt, List.mem_append, List.mem_singleton, or_and_right]
      apply or_congr_right
      constructor
      · intro hk
        obtain ⟨rfl, hn⟩ := hk
        exact absurd hn hname
      · intro hk
        simp at hk
    · intro k'
      rw [h.lists_lt, List.mem_append, List.mem_singleton, or_and_right]
      apply or_congr_right
      constructor
      · intro hk
        obtain ⟨rfl, _⟩ := hk
        exact ⟨rfl, rfl⟩
      · intro hk
        obtain ⟨rfl, _⟩ := hk
        exact ⟨rfl, hname⟩
    · intro hl
      exact ((h.lists_lt _).mp hl).1

theorem todoInv_foldl (es : List (Node PL × Node PL)) :
    TodoInv f es (es.foldl f.addPair []) := by
  have hrun (pre : List (Node PL × Node PL)) (todo : TodoFile PL) (h : TodoInv f pre todo) :
      TodoInv f (pre ++ es) (es.foldl f.addPair todo) := by
    induction es generalizing pre todo with
    | nil => simpa using h
    | cons e es ih => simpa using ih (pre ++ [e]) _ (h.addPair e)
  have hstart : TodoInv f [] [] := by
    refine ⟨by simp, by simp, ?_, ?_, ?_, ?_, by simp⟩
    · simp [not_lists_nil]
    · simp [not_lists_nil]
    · simp [not_lists_nil]
    · simp [not_lists_nil]
  simpa using hrun [] [] hstart

omit [DecidableEq PL] in
theorem TodoInv.askedAs (h : TodoInv f es todo) {k : Node PL × Node PL} {t : HbType}
    (hl : Lists todo k t) : AskedAs (· ∈ es) (k, t) := by
  cases t with
  | gt => exact ((h.lists_gt k).mp hl).1
  | lt => exact ((h.lists_lt k).mp hl).1
  | eq =>
    rcases (h.mem_keys k).mp ((h.lists_eq k).mp hl) with hgt | hlt
    · exact .inl ((h.lists_gt k).mp hgt).1
    · exact .inr ((h.lists_lt k).mp hlt).1

omit [DecidableEq PL] in
theorem TodoInv.mem_keys_of_mem (h : TodoInv f es todo) {e : Node PL × Node PL} (he : e ∈ es) :
    e ∈ todo.map Prod.fst ∨ (e.2, e.1) ∈ todo.map Prod.fst := by
  by_cases hname : f.nodeName e.1 < f.nodeName e.2
  · exact .inl ((h.lists_gt e).mpr ⟨he, hname⟩).mem_keys
  · exact .inr ((h.lists_lt (e.2, e.1)).mpr ⟨he, hname⟩).mem_keys

omit [DecidableEq PL] in
/-- The order a pair has in `val` is listed, if orders are asked about both ways. -/
theorem TodoInv.lists_own (h : TodoInv f es todo)
    (hname : ∀ e ∈ es, f.nodeName e.1 = f.nodeName e.2 → e.1 = e.2) {val : Node PL → Int}
    (hrev : ∀ e ∈ es, val e.2 < val e.1 → (e.2, e.1) ∈ es) {k : Node PL × Node PL}
    (hk : k ∈ todo.map Prod.fst) : Lists todo k (ownOrder val k) := by
  unfold ownOrder
  split_ifs with hlt hgt
  · rcases (h.mem_keys k).mp hk with hl | hl
    · exact hl
    · obtain ⟨hmem, hle⟩ := (h.lists_lt k).mp hl
      have hne : f.nodeName k.1 ≠ f.nodeName k.2 := by
        intro heq
        have hsame : k.2 = k.1 := hname _ hmem heq.symm
        rw [hsame] at hlt
        exact lt_irrefl _ hlt
      exact (h.lists_gt k).mpr ⟨hrev _ hmem hlt, lt_of_le_of_ne (not_lt.mp hle) hne⟩
  · rcases (h.mem_keys k).mp hk with hl | hl
    · obtain ⟨hmem, hlt⟩ := (h.lists_gt k).mp hl
      exact (h.lists_lt k).mpr ⟨hrev _ hmem hgt, not_lt.mpr hlt.le⟩
    · exact hl
  · exact (h.lists_eq k).mpr hk

end Ask

section Read

def enterQuery (csv : Csv PL) (k : Node PL × Node PL) (t : HbType) : Option Result :=
  dfQuery (csv (enterCoverName k t))

def finalQuery (csv : Csv PL) (k : Node PL × Node PL) (t : HbType) : Option Result :=
  dfQuery (csv (finalCoverName k t))

variable [DecidableEq PL]

/-- Read back one asked order and keep it if its cover was reached. -/
def readOrder (query : Node PL × Node PL → HbType → Option Result) (k : Node PL × Node PL)
    (d : TodoFile PL) (t : HbType) : Option (TodoFile PL) := do
  let res ← query k t
  pure (if res = .covered then push k t [t] d else d)

def readLine (query : Node PL × Node PL → HbType → Option Result) (d : TodoFile PL)
    (line : (Node PL × Node PL) × List HbType) : Option (TodoFile PL) :=
  line.2.foldlM (readOrder query line.1) d

/-- The loop over a todo file that every later script starts with. -/
def readTodo (query : Node PL × Node PL → HbType → Option Result) (todo : TodoFile PL) :
    Option (TodoFile PL) :=
  todo.foldlM (readLine query) []

/-- What the loop has read so far: `asked` are the queries made. -/
structure ReadInv (query : Node PL × Node PL → HbType → Option Result)
    (asked : List ((Node PL × Node PL) × HbType)) (d : TodoFile PL) : Prop where
  nodup_keys : (d.map Prod.fst).Nodup
  ne_nil : ∀ e ∈ d, e.2 ≠ []
  lists : ∀ k t, Lists d k t ↔ (k, t) ∈ asked ∧ query k t = some .covered

def asked (todo : TodoFile PL) : Comb PL := todo.flatMap fun line => line.2.map fun t => (line.1, t)

variable {query : Node PL × Node PL → HbType → Option Result} {d d' : TodoFile PL}
  {qs : List ((Node PL × Node PL) × HbType)} {k : Node PL × Node PL}

theorem ReadInv.step (h : ReadInv query qs d) {t : HbType} {res : Result}
    (hres : query k t = some res) :
    ReadInv query (qs ++ [(k, t)]) (if res = .covered then push k t [t] d else d) := by
  have hasked (k' : Node PL × Node PL) (t' : HbType) :
      ((k', t') ∈ qs ++ [(k, t)] ∧ query k' t' = some .covered) ↔
        Lists d k' t' ∨ (k' = k ∧ t' = t ∧ res = .covered) := by
    rw [h.lists, List.mem_append, List.mem_singleton, Prod.mk.injEq, or_and_right]
    apply or_congr_right
    constructor
    · intro h
      obtain ⟨⟨rfl, rfl⟩, hcov⟩ := h
      rw [hres] at hcov
      exact ⟨rfl, rfl, Option.some.inj hcov⟩
    · intro h
      obtain ⟨rfl, rfl, rfl⟩ := h
      exact ⟨⟨rfl, rfl⟩, hres⟩
  split_ifs with hcov
  · refine ⟨nodup_keys_push h.nodup_keys, ?_, ?_⟩
    · exact forall_push (P := fun _ xs => xs ≠ []) h.ne_nil (by simp)
        (fun _ _ _ => by simp)
    · intro k' t'
      rw [lists_push_self, hasked]
      simp only [hcov, and_true]
  · refine ⟨h.nodup_keys, h.ne_nil, ?_⟩
    intro k' t'
    rw [hasked]
    simp only [hcov, and_false, or_false]

theorem ReadInv.line (h : ReadInv query qs d) {line : (Node PL × Node PL) × List HbType}
    (hrun : readLine query d line = some d') :
    ReadInv query (qs ++ line.2.map fun t => (line.1, t)) d' := by
  obtain ⟨k, ts⟩ := line
  unfold readLine at hrun
  dsimp only at hrun ⊢
  induction ts generalizing d qs with
  | nil =>
    obtain rfl := Option.some.inj hrun
    simpa using h
  | cons t ts ih =>
    rw [List.foldlM_cons] at hrun
    obtain ⟨mid, hmid, hrest⟩ := Option.bind_eq_some_iff.mp hrun
    obtain ⟨res, hres, heq⟩ := Option.bind_eq_some_iff.mp hmid
    obtain rfl := Option.some.inj heq
    have hall := ih (h.step hres) hrest
    simpa using hall

theorem ReadInv.lines (h : ReadInv query qs d) {todo : TodoFile PL}
    (hrun : todo.foldlM (readLine query) d = some d') :
    ReadInv query (qs ++ asked todo) d' := by
  induction todo generalizing d qs with
  | nil =>
    obtain rfl := Option.some.inj hrun
    simpa [asked] using h
  | cons line todo ih =>
    rw [List.foldlM_cons] at hrun
    obtain ⟨mid, hmid, hrest⟩ := Option.bind_eq_some_iff.mp hrun
    have hall := ih (h.line hmid) hrest
    simpa [asked] using hall

/-- The table lists, for each pair, the asked orders whose cover was reached. -/
theorem readTodo_spec {todo : TodoFile PL} (h : readTodo query todo = some d) :
    ReadInv query (asked todo) d := by
  have hstart : ReadInv query [] ([] : TodoFile PL) :=
    ⟨by simp, by simp, fun k t => by simp [not_lists_nil]⟩
  simpa using hstart.lines h

omit [DecidableEq PL] in
theorem mem_asked {todo : TodoFile PL} {line : (Node PL × Node PL) × List HbType} {t : HbType}
    (hline : line ∈ todo) (ht : t ∈ line.2) : (line.1, t) ∈ asked todo :=
  List.mem_flatMap.mpr ⟨line, hline, List.mem_map.mpr ⟨t, ht, rfl⟩⟩

omit [DecidableEq PL] in
theorem mem_keys_of_mem_asked {todo : TodoFile PL} {x : (Node PL × Node PL) × HbType}
    (hx : x ∈ asked todo) : x.1 ∈ todo.map Prod.fst := by
  obtain ⟨line, hline, hmem⟩ := List.mem_flatMap.mp hx
  obtain ⟨t, _, rfl⟩ := List.mem_map.mp hmem
  exact List.mem_map.mpr ⟨line, hline, rfl⟩

omit [DecidableEq PL] in
theorem ne_nil_of_mem_asked {todo : TodoFile PL} {x : (Node PL × Node PL) × HbType}
    (hx : x ∈ asked todo) : todo ≠ [] := by
  intro hnil
  simp [hnil, asked] at hx

omit [DecidableEq PL] in
theorem mem_asked_of_lists {todo : TodoFile PL} {t : HbType} (h : Lists todo k t) :
    (k, t) ∈ asked todo := by
  obtain ⟨ts, hline, ht⟩ := h
  exact mem_asked hline ht

omit [DecidableEq PL] in
theorem lists_of_mem_asked {todo : TodoFile PL} {x : (Node PL × Node PL) × HbType}
    (hx : x ∈ asked todo) : Lists todo x.1 x.2 := by
  obtain ⟨line, hline, hmem⟩ := List.mem_flatMap.mp hx
  obtain ⟨t, ht, rfl⟩ := List.mem_map.mp hmem
  exact ⟨line.2, hline, ht⟩

/-- The orders of a combination were asked about. -/
theorem TodoInv.askedAs_of_mem_choices {f : Facts PL IID} {es : List (Node PL × Node PL)}
    {todo : TodoFile PL} (h : TodoInv f es todo) (hd : readTodo query todo = some d) {c : Comb PL}
    (hc : c ∈ choices d) {x : (Node PL × Node PL) × HbType} (hx : x ∈ c) : AskedAs (· ∈ es) x := by
  have hasked : x ∈ asked todo := (((readTodo_spec hd).lists _ _).mp (lists_of_mem_choices hc hx)).1
  exact h.askedAs (lists_of_mem_asked hasked)

omit [DecidableEq PL] in
theorem nodup_asked {todo : TodoFile PL} (hkeys : (todo.map Prod.fst).Nodup)
    (hlines : ∀ line ∈ todo, line.2.Nodup) : (asked todo).Nodup := by
  refine List.nodup_flatMap.mpr ⟨fun line hline => ?_, ?_⟩
  · exact (hlines line hline).map fun t t' heq => (Prod.mk.inj heq).2
  · refine (List.pairwise_map.mp hkeys).imp fun hne x hx hx' => ?_
    obtain ⟨_, _, rfl⟩ := List.mem_map.mp hx
    obtain ⟨_, _, heq⟩ := List.mem_map.mp hx'
    exact hne (Prod.mk.inj heq).1.symm

/-- Both loops as one over all the orders asked about. -/
theorem readTodo_eq_foldlM_asked (todo : TodoFile PL) :
    readTodo query todo = (asked todo).foldlM (fun d x => readOrder query x.1 d x.2) [] := by
  have hrun (d : TodoFile PL) : todo.foldlM (readLine query) d =
      (asked todo).foldlM (fun d x => readOrder query x.1 d x.2) d := by
    induction todo generalizing d with
    | nil => rfl
    | cons line todo ih =>
      have hsplit : asked (line :: todo) = line.2.map (fun t => (line.1, t)) ++ asked todo := rfl
      rw [hsplit, List.foldlM_append, List.foldlM_map, List.foldlM_cons]
      exact bind_congr ih
  exact hrun []

/-- Orders that are asked about once are read once. -/
theorem nodup_readTodo {todo : TodoFile PL} (hd : readTodo query todo = some d)
    (hkeys : (todo.map Prod.fst).Nodup) (hlines : ∀ line ∈ todo, line.2.Nodup) :
    ∀ e ∈ d, e.2.Nodup := by
  have hrun (xs pre : Comb PL) (d d' : TodoFile PL) (hnd : (pre ++ xs).Nodup)
      (hinv : ReadInv query pre d) (hlines : ∀ e ∈ d, e.2.Nodup)
      (h : xs.foldlM (fun d x => readOrder query x.1 d x.2) d = some d') : ∀ e ∈ d', e.2.Nodup := by
    induction xs generalizing pre d with
    | nil =>
      obtain rfl := Option.some.inj h
      exact hlines
    | cons x xs ih =>
      obtain ⟨mid, hmid, hrest⟩ := Option.bind_eq_some_iff.mp (List.foldlM_cons.symm.trans h)
      obtain ⟨res, hres, heq⟩ := Option.bind_eq_some_iff.mp hmid
      obtain rfl := Option.some.inj heq
      refine ih (pre ++ [x]) _ (by simpa using hnd) (hinv.step hres) ?_ hrest
      split_ifs
      · refine forall_push (P := fun _ xs => xs.Nodup) hlines (by simp) ?_
        intro ts hts hnodup
        refine hnodup.append (by simp) (List.disjoint_singleton.mpr fun ht => ?_)
        -- an order that is in the table was asked about before
        have hpre : x ∈ pre := ((hinv.lists x.1 x.2).mp ⟨ts, hts, ht⟩).1
        exact (List.nodup_append.mp hnd).2.2 x hpre x (by simp) rfl
      · exact hlines
  rw [readTodo_eq_foldlM_asked] at hd
  exact hrun _ [] [] d (nodup_asked hkeys hlines) ⟨by simp, by simp, by simp [not_lists_nil]⟩
    (by simp) hd

omit [DecidableEq PL] in
theorem ReadInv.mem_keys {todo : TodoFile PL} (h : ReadInv query (asked todo) d)
    {line : (Node PL × Node PL) × List HbType} (hline : line ∈ d) :
    line.1 ∈ todo.map Prod.fst := by
  obtain ⟨t, ts, hts⟩ := List.exists_cons_of_ne_nil (h.ne_nil line hline)
  have hlist : Lists d line.1 t := ⟨line.2, hline, by simp [hts]⟩
  have hasked : (line.1, t) ∈ asked todo := ((h.lists _ _).mp hlist).1
  exact mem_keys_of_mem_asked hasked

omit [DecidableEq PL] in
theorem ReadInv.own_mem_choices {todo : TodoFile PL} (h : ReadInv query (asked todo) d)
    {val : Node PL → Int} (hown : ∀ k ∈ todo.map Prod.fst, Lists todo k (ownOrder val k))
    (hcov : ∀ k ∈ todo.map Prod.fst, query k (ownOrder val k) = some .covered) :
    d.map (fun line => (line.1, ownOrder val line.1)) ∈ choices d := by
  refine map_mem_choices (fun line => ownOrder val line.1) fun line hline => ?_
  have hkey := h.mem_keys hline
  -- the entry with the key is the line itself
  obtain ⟨ts', hline', hmem⟩ := (h.lists line.1 (ownOrder val line.1)).mpr
    ⟨mem_asked_of_lists (hown _ hkey), hcov _ hkey⟩
  have heq : (line.1, ts') = line := List.inj_on_of_nodup_map h.nodup_keys hline' hline rfl
  rw [← heq]
  exact hmem

theorem mem_todoCovers {f : Facts PL IID} {coverName : Node PL × Node PL → HbType → CoverName PL}
    {aSet : List PL} {todo : TodoFile PL} {x : (Node PL × Node PL) × HbType} (hx : x ∈ asked todo) :
    (coverName x.1 x.2, (coverName x.1 x.2).seq (f.setR aSet)) ∈ f.todoCovers coverName aSet todo := by
  obtain ⟨line, hline, hmem⟩ := List.mem_flatMap.mp hx
  obtain ⟨t, ht, rfl⟩ := List.mem_map.mp hmem
  refine List.mem_append_left _ (List.mem_map.mpr ⟨_, ?_, rfl⟩)
  exact List.mem_flatMap.mpr ⟨line, hline, List.mem_map.mpr ⟨t, ht, rfl⟩⟩

theorem readTodo_some {todo : TodoFile PL} (h : ∀ q ∈ asked todo, (query q.1 q.2).isSome) :
    ∃ d, readTodo query todo = some d := by
  have hline (d : TodoFile PL) (line : (Node PL × Node PL) × List HbType) (hmem : line ∈ todo) :
      ∃ d', readLine query d line = some d' ∧ True := by
    refine foldlM_some _ (fun _ => True) line.2 d (fun d _ t ht => ?_) trivial
    obtain ⟨res, hres⟩ := Option.isSome_iff_exists.mp (h _ (mem_asked hmem ht))
    exact ⟨_, by simp only [readOrder, hres]; rfl, trivial⟩
  obtain ⟨d, hd, _⟩ :=
    foldlM_some _ (fun _ => True) todo [] (fun d _ line hmem => hline d line hmem) trivial
  exact ⟨d, hd⟩

/-- Only whether the asked orders were covered matters. -/
theorem readTodo_congr {query' : Node PL × Node PL → HbType → Option Result} {todo : TodoFile PL}
    (h : ∀ q ∈ asked todo, ∃ r r', query q.1 q.2 = some r ∧ query' q.1 q.2 = some r' ∧
      (r = .covered ↔ r' = .covered)) : readTodo query todo = readTodo query' todo := by
  refine foldlM_congr fun d line hline => ?_
  refine foldlM_congr fun d t ht => ?_
  obtain ⟨r, r', hr, hr', hiff⟩ := h _ (mem_asked hline ht)
  simp only [readOrder, hr, hr', Option.bind_eq_bind, Option.bind_some, hiff]

end Read

end SynthLC
