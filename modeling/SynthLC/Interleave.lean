import Mathlib.Algebra.BigOperators.Fin
import Mathlib.Algebra.Order.BigOperators.Group.Finset
import Mathlib.Data.Fintype.Card
import Mathlib.Data.Fintype.Fin
import Mathlib.Logic.Relation

/-! Processes that take turns on shared data. Each process has a place of its own; a step moves one
process and may change what they share. -/
namespace Interleave

variable {ι S L : Type}

/-- What the processes share, and where each of them is. -/
structure Conf (ι S L : Type) where
  shared : S
  loc : ι → L

section Steps

variable [DecidableEq ι]

def Conf.set (c : Conf ι S L) (i : ι) (s : S) (l : L) : Conf ι S L :=
  ⟨s, Function.update c.loc i l⟩

@[simp] theorem shared_set (c : Conf ι S L) (i : ι) (s : S) (l : L) : (c.set i s l).shared = s := rfl

@[simp] theorem loc_set_self (c : Conf ι S L) (i : ι) (s : S) (l : L) : (c.set i s l).loc i = l :=
  Function.update_self ..

@[simp] theorem loc_set_of_ne (c : Conf ι S L) {i j : ι} (h : j ≠ i) (s : S) (l : L) :
    (c.set i s l).loc j = c.loc j :=
  Function.update_of_ne h ..

variable (act : ι → S → L → S → L → Prop)

/-- One process moves, the others stay where they are. -/
inductive Step : Conf ι S L → Conf ι S L → Prop
  | mk (c : Conf ι S L) (i : ι) (s : S) (l : L) (h : act i c.shared (c.loc i) s l) :
      Step c (c.set i s l)

/-- Any interleaving. -/
abbrev Run : Conf ι S L → Conf ι S L → Prop := Relation.ReflTransGen (Step act)

/-- What each process says of the shared data and of its own place: its own steps keep it, and the
steps of the others do not disturb it. -/
structure Keeps (I : S → Prop) (A : ι → S → L → Prop) : Prop where
  shared : ∀ i s l s' l', I s → A i s l → act i s l s' l' → I s'
  own : ∀ i s l s' l', I s → A i s l → act i s l s' l' → A i s' l'
  others : ∀ i j s l s' l' m, j ≠ i → I s → A i s l → A j s m → act i s l s' l' → A j s' m

variable {act} {c c' : Conf ι S L}

/-- What the processes keep holds in every interleaving. -/
theorem Keeps.run {I : S → Prop} {A : ι → S → L → Prop} (hkeeps : Keeps act I A)
    (hI : I c.shared) (hA : ∀ i, A i c.shared (c.loc i)) (h : Run act c c') :
    I c'.shared ∧ ∀ i, A i c'.shared (c'.loc i) := by
  induction h with
  | refl => exact ⟨hI, hA⟩
  | tail _ hstep ih =>
    obtain ⟨hI, hA⟩ := ih
    cases hstep with
    | mk i s l hact =>
      refine ⟨hkeeps.shared i _ _ _ _ hI (hA i) hact, ?_⟩
      intro j
      by_cases hj : j = i
      · rw [hj, loc_set_self]
        exact hkeeps.own i _ _ _ _ hI (hA i) hact
      · rw [loc_set_of_ne _ hj]
        exact hkeeps.others i j _ _ _ _ _ hj hI (hA i) (hA j) hact

end Steps

section Number

variable [Fintype ι]

/-- How many processes are at a place of some kind. -/
def Conf.number (c : Conf ι S L) (p : ι → L → Bool) : Nat :=
  (Finset.univ.filter fun i => p i (c.loc i)).card

variable {p q : ι → L → Bool} {c c' : Conf ι S L}

theorem number_le (h : ∀ i, p i (c.loc i) = true → q i (c'.loc i) = true) :
    c.number p ≤ c'.number q := by
  apply Finset.card_le_card
  intro i hi
  rw [Finset.mem_filter] at hi ⊢
  exact ⟨hi.1, h i hi.2⟩

theorem number_pos : 0 < c.number p ↔ ∃ i, p i (c.loc i) = true := by
  simp [Conf.number, Finset.card_pos, Finset.filter_nonempty_iff]

/-- A step changes the number by what the process that moves was and is. -/
theorem number_set [DecidableEq ι] (c : Conf ι S L) (i : ι) (s : S) (l : L) :
    (c.set i s l).number p + (p i (c.loc i)).toNat = c.number p + (p i l).toNat := by
  have hsum (d : Conf ι S L) : d.number p =
      (p i (d.loc i)).toNat + ∑ j ∈ Finset.univ.erase i, (p j (d.loc j)).toNat := by
    rw [Conf.number, Finset.card_filter, ← Finset.add_sum_erase _ _ (Finset.mem_univ i)]
    congr 1
    · cases p i (d.loc i) <;> rfl
    · apply Finset.sum_congr rfl
      intro j _
      cases p j (d.loc j) <;> rfl
  have hothers : ∑ j ∈ Finset.univ.erase i, (p j ((c.set i s l).loc j)).toNat =
      ∑ j ∈ Finset.univ.erase i, (p j (c.loc j)).toNat := by
    apply Finset.sum_congr rfl
    intro j hj
    rw [loc_set_of_ne _ (Finset.ne_of_mem_erase hj)]
  rw [hsum, hsum c, hothers, loc_set_self]
  omega

theorem card_filter_get {α : Type} (p : α → Bool) (xs : List α) :
    (Finset.univ.filter fun i : Fin xs.length => p (xs.get i)).card = xs.countP p := by
  induction xs with
  | nil => rfl
  | cons x xs ih =>
    have hsucc := Fin.card_filter_univ_succ (n := xs.length) fun i => p ((x :: xs).get i) = true
    simp only [List.length_cons] at hsucc ⊢
    rw [hsucc]
    simp only [List.get_cons_zero, List.get_cons_succ', List.countP_cons]
    rw [ih]
    split <;> rfl

end Number

section Ends

variable [DecidableEq ι] [Fintype ι] {act : ι → S → L → S → L → Prop}

/-- The sum of what is left to do for each process. -/
theorem Step.sum_rank_lt {rank : L → Nat}
    (hrank : ∀ i s l s' l', act i s l s' l' → rank l' < rank l) {c c' : Conf ι S L}
    (h : Step act c c') : ∑ i, rank (c'.loc i) < ∑ i, rank (c.loc i) := by
  cases h with
  | mk i s l hact =>
    apply Finset.sum_lt_sum
    · intro j _
      by_cases hj : j = i
      · rw [hj, loc_set_self]
        exact (hrank _ _ _ _ _ hact).le
      · rw [loc_set_of_ne _ hj]
    · refine ⟨i, Finset.mem_univ i, ?_⟩
      rw [loc_set_self]
      exact hrank _ _ _ _ _ hact

/-- Where every step of a process brings it closer to its end, no interleaving goes on for ever. -/
theorem no_endless_run {rank : L → Nat} (hrank : ∀ i s l s' l', act i s l s' l' → rank l' < rank l)
    (f : Nat → Conf ι S L) : ¬∀ t, Step act (f t) (f (t + 1)) := by
  intro hsteps
  have hsum (t : Nat) : t + ∑ i, rank ((f t).loc i) ≤ ∑ i, rank ((f 0).loc i) := by
    induction t with
    | zero => rw [Nat.zero_add]
    | succ t ih =>
      have hless := (hsteps t).sum_rank_lt hrank
      omega
  have hlast := hsum (∑ i, rank ((f 0).loc i) + 1)
  omega

end Ends

end Interleave
