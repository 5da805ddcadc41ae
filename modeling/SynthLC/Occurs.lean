import Mathlib.Data.List.Infix

/-! Where a word stands in a text, and how a separator that is not part of the word keeps its
occurrences apart. -/
namespace Occurs

variable {α : Type} {w xs ys : List α} {c : α} {i : Nat}

/-- The text goes on with the word at this position. -/
def At (w xs : List α) (i : Nat) : Prop := w <+: xs.drop i

theorem infix_iff : w <:+: xs ↔ ∃ i, At w xs i := by
  rw [List.infix_iff_prefix_suffix]
  constructor
  · intro h
    obtain ⟨t, hw, ht⟩ := h
    refine ⟨xs.length - t.length, ?_⟩
    unfold At
    rwa [← List.suffix_iff_eq_drop.mp ht]
  · intro h
    obtain ⟨i, hi⟩ := h
    exact ⟨xs.drop i, hi, List.drop_suffix i xs⟩

theorem not_at_of_free (h : ¬w <:+: xs) (i : Nat) : ¬At w xs i :=
  fun hi => h (infix_iff.mpr ⟨i, hi⟩)

theorem At.length_le (h : At w xs i) : w.length ≤ xs.length - i := by
  have hle := List.IsPrefix.length_le h
  rwa [List.length_drop] at hle

/-- A word stands in itself only at the start. -/
theorem at_self (hw : w ≠ []) : At w w i ↔ i = 0 := by
  have hpos := List.length_pos_iff.mpr hw
  constructor
  · intro h
    have hle := h.length_le
    omega
  · intro hi
    rw [hi]
    exact List.prefix_rfl

/-- A word without the separator ends before it. -/
theorem prefix_append_cons (hc : c ∉ w) : w <+: xs ++ c :: ys ↔ w <+: xs := by
  constructor
  · intro h
    rcases List.prefix_or_prefix_of_prefix h (List.prefix_append xs (c :: ys)) with hw | hxs
    · exact hw
    · obtain ⟨t, rfl⟩ := hxs
      rw [List.prefix_append_right_inj] at h
      cases t with
      | nil => simp
      | cons d t =>
        have hd : d = c := (List.cons_prefix_cons.mp h).1
        exact absurd (by simp [hd]) hc
  · intro h
    exact h.trans (List.prefix_append xs (c :: ys))

/-- The occurrences in a text with a separator are those before it and those after it. -/
theorem at_append_cons (hc : c ∉ w) (hw : w ≠ []) :
    At w (xs ++ c :: ys) i ↔ At w xs i ∨ ∃ j, i = xs.length + 1 + j ∧ At w ys j := by
  have hpos := List.length_pos_iff.mpr hw
  rcases Nat.lt_or_ge xs.length i with hlt | hle
  · obtain ⟨j, rfl⟩ : ∃ j, i = xs.length + 1 + j := ⟨i - (xs.length + 1), by omega⟩
    have hno : ¬At w xs (xs.length + 1 + j) := by
      intro h
      have hlen := h.length_le
      omega
    have hdrop : (xs ++ c :: ys).drop (xs.length + 1 + j) = ys.drop j := by
      rw [List.drop_append, List.drop_eq_nil_of_le (by omega), List.nil_append,
        show xs.length + 1 + j - xs.length = j + 1 by omega, List.drop_succ_cons]
    constructor
    · intro h
      refine .inr ⟨j, rfl, ?_⟩
      rw [At, hdrop] at h
      exact h
    · intro h
      obtain ⟨j', hj', hys⟩ := h.resolve_left hno
      rw [At, hdrop, show j = j' by omega]
      exact hys
  · have hdrop : (xs ++ c :: ys).drop i = xs.drop i ++ c :: ys := List.drop_append_of_le_length hle
    rw [At, hdrop, prefix_append_cons hc, At]
    constructor
    · exact Or.inl
    · intro h
      rcases h with h | ⟨j, hj, _⟩
      · exact h
      · omega

theorem infix_append_cons (hc : c ∉ w) (hw : w ≠ []) :
    w <:+: xs ++ c :: ys ↔ w <:+: xs ∨ w <:+: ys := by
  simp only [infix_iff, at_append_cons hc hw, exists_or]
  apply or_congr_right
  constructor
  · intro h
    obtain ⟨_, j, _, hj⟩ := h
    exact ⟨j, hj⟩
  · intro h
    obtain ⟨j, hj⟩ := h
    exact ⟨_, j, rfl, hj⟩

theorem not_infix_of_not_mem (hw : c ∈ w) (hxs : c ∉ xs) : ¬w <:+: xs :=
  fun h => hxs (h.subset hw)

/-- A word is in none of the lines, so it is not in the text. -/
theorem not_infix_flatMap_end (hc : c ∉ w) (hw : w ≠ []) {rows : List (List α)}
    (h : ∀ row ∈ rows, ¬w <:+: row) : ¬w <:+: rows.flatMap (· ++ [c]) := by
  induction rows with
  | nil => exact fun hnil => hw (List.infix_nil.mp hnil)
  | cons row rows ih =>
    rw [List.flatMap_cons, List.append_assoc, List.singleton_append, infix_append_cons hc hw, not_or]
    exact ⟨h row (by simp), ih fun row' hrow => h row' (by simp [hrow])⟩

/-- A word that a text has only once, between separators, fixes where it is found together with
what follows it. -/
theorem starts_of_found {b rest : List α} {d : α} (hw : w ≠ []) (hc : c ∉ w) (hd : d ∉ w)
    (hxs : ¬w <:+: xs) (hrest : ¬w <:+: rest) (h : w ++ c :: b <:+: xs ++ d :: (w ++ c :: rest)) :
    b <+: rest := by
  obtain ⟨i, hi⟩ := infix_iff.mp h
  have hword : At w (xs ++ d :: (w ++ c :: rest)) i := (List.prefix_append w (c :: b)).trans hi
  rw [at_append_cons hd hw] at hword
  obtain ⟨j, rfl, hj⟩ := hword.resolve_left (not_at_of_free hxs i)
  rcases (at_append_cons hc hw).mp hj with hj | ⟨j', _, hj'⟩
  · obtain rfl := (at_self hw).mp hj
    have hdrop : (xs ++ d :: (w ++ c :: rest)).drop (xs.length + 1 + 0) = w ++ c :: rest := by
      rw [List.drop_append, List.drop_eq_nil_of_le (by omega), List.nil_append,
        show xs.length + 1 + 0 - xs.length = 1 by omega, List.drop_one, List.tail_cons]
    rw [At, hdrop, List.prefix_append_right_inj, List.cons_prefix_cons] at hi
    exact hi.2
  · exact absurd hj' (not_at_of_free hrest j')

/-- Text that starts with a word does not start with one that the word is not part of ... -/
theorem not_word_starts (hc : c ∉ w) (hxs : ¬w <:+: xs) (zs : List α) :
    ¬w ++ zs <+: xs ++ c :: ys := by
  intro h
  have hw := (prefix_append_cons hc).mp ((List.prefix_append w zs).trans h)
  exact hxs hw.isInfix

/-- ... and the other way around. -/
theorem not_prefix_word (hc : c ∉ w) (hxs : ¬w <:+: xs) (zs : List α) :
    ¬xs ++ c :: ys <+: w ++ zs := by
  intro h
  rcases List.prefix_or_prefix_of_prefix h (List.prefix_append w zs) with hle | hle
  · exact hc (hle.subset (by simp))
  · exact hxs ((prefix_append_cons hc).mp hle).isInfix

end Occurs
