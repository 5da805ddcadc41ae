import Mathlib.Data.List.Basic
import SynthLC.Occurs

/-! Text files of separated rows: reading a file line by line and splitting each line undoes
writing the rows, as long as no field holds a separator or a line end. -/
namespace TextFile

section Letters

variable {p : Char → Prop} [DecidablePred p]

/-- What is said of the letters of a text is decided along the text, not over all letters. -/
instance (priority := 2000) decidableForallLetter (t : List Char) : Decidable (∀ c ∈ t, p c) :=
  List.decidableBAll p t

instance (priority := 2000) decidableExistsLetter (t : List Char) : Decidable (∃ c ∈ t, p c) :=
  List.decidableBEx p t

end Letters

variable {α : Type} [DecidableEq α]

section Lines

variable (nl : α)

/-- The lines of a text, each with the line end that closes it; the last may lack one. -/
def lines : List α → List (List α)
  | [] => []
  | c :: cs =>
    if c = nl then [c] :: lines cs
    else
      match lines cs with
      | [] => [[c]]
      | l :: ls => (c :: l) :: ls

variable {nl}

theorem lines_append_end {xs rest : List α} (h : nl ∉ xs) :
    lines nl (xs ++ nl :: rest) = (xs ++ [nl]) :: lines nl rest := by
  induction xs with
  | nil => simp [lines]
  | cons x xs ih =>
    obtain ⟨hx, hxs⟩ : nl ≠ x ∧ nl ∉ xs := by simpa using h
    rw [List.cons_append, lines, if_neg (Ne.symm hx), ih hxs]
    rfl

theorem lines_flatMap {β : Type} (row : β → List α) {rows : List β} (h : ∀ r ∈ rows, nl ∉ row r) :
    lines nl (rows.flatMap fun r => row r ++ [nl]) = rows.map fun r => row r ++ [nl] := by
  induction rows with
  | nil => rfl
  | cons r rows ih =>
    have hrest := ih fun r' hr' => h r' (by simp [hr'])
    rw [List.flatMap_cons, List.append_assoc, List.singleton_append,
      lines_append_end (h r (by simp)), hrest, List.map_cons]

theorem lines_append (xs ys : List α) :
    lines nl (xs ++ nl :: ys) = lines nl (xs ++ [nl]) ++ lines nl ys := by
  induction xs with
  | nil => simp [lines]
  | cons x xs ih =>
    rw [List.cons_append, List.cons_append, lines, lines, ih]
    split_ifs
    · rw [List.cons_append]
    · cases hxs : lines nl (xs ++ [nl]) with
      | nil =>
        -- a line end makes a line
        cases xs with
        | nil => simp [lines] at hxs
        | cons y xs =>
          rw [List.cons_append, lines] at hxs
          split_ifs at hxs
          split at hxs <;> cases hxs
      | cons l ls => rfl

theorem flatten_lines (xs : List α) : (lines nl xs).flatten = xs := by
  induction xs with
  | nil => rfl
  | cons x xs ih =>
    rw [lines]
    split_ifs
    · rw [List.flatten_cons, ih, List.singleton_append]
    · cases hxs : lines nl xs with
      | nil =>
        rw [hxs] at ih
        rw [← ih]
        rfl
      | cons l ls =>
        rw [hxs, List.flatten_cons] at ih
        show ((x :: l) :: ls).flatten = _
        rw [List.flatten_cons, List.cons_append, ih]

theorem not_infix_line {w xs line : List α} (h : ¬w <:+: xs) (hline : line ∈ lines nl xs) :
    ¬w <:+: line := by
  intro hin
  have hpart := List.infix_of_mem_flatten hline
  rw [flatten_lines] at hpart
  exact h (hin.trans hpart)

/-- A line is part of the text, and before its last character there is no line end. -/
theorem of_mem_lines {text line : List α} (h : line ∈ lines nl text) :
    line ⊆ text ∧ nl ∉ line.dropLast := by
  induction text generalizing line with
  | nil => simp [lines] at h
  | cons c cs ih =>
    have hlater {l : List α} (hl : l ∈ lines nl cs) : l ⊆ c :: cs ∧ nl ∉ l.dropLast :=
      ⟨List.subset_cons_of_subset c (ih hl).1, (ih hl).2⟩
    rw [lines] at h
    split_ifs at h with hc
    · rcases List.mem_cons.mp h with rfl | h
      · simp
      · exact hlater h
    · cases hcs : lines nl cs with
      | nil =>
        rw [hcs] at h
        obtain rfl := List.mem_singleton.mp h
        simp
      | cons l ls =>
        rw [hcs] at h hlater ih
        rcases List.mem_cons.mp h with rfl | h
        · -- the character joins the first line of the rest
          obtain ⟨hsub, hend⟩ := ih List.mem_cons_self
          refine ⟨List.cons_subset_cons c hsub, ?_⟩
          cases l with
          | nil => simp
          | cons x l =>
            rw [List.dropLast_cons_cons, List.mem_cons, not_or]
            exact ⟨Ne.symm hc, hend⟩
        · exact hlater (List.mem_cons_of_mem l h)

end Lines

section Rows

variable (sep : α)

/-- One line without its last character, split if it has a separator. -/
def fields (line : List α) : List (List α) :=
  if sep ∈ line then line.dropLast.splitOn sep else [line.dropLast]

variable {sep} {nl : α}

omit [DecidableEq α] in
theorem not_mem_intercalate {row : List (List α)} {c : α} (hc : c ≠ sep) (h : ∀ x ∈ row, c ∉ x) :
    c ∉ [sep].intercalate row := by
  induction row with
  | nil => simp [List.intercalate]
  | cons x row ih =>
    cases row with
    | nil => simpa using h x (by simp)
    | cons y row =>
      have hrest := ih fun z hz => h z (by simp [List.mem_cons.mp hz])
      rw [List.intercalate_cons_cons]
      simp only [List.mem_append, List.mem_singleton, not_or]
      exact ⟨⟨h x (by simp), hc⟩, hrest⟩

/-- Splitting a written line gives the fields back. A single field has no separator and is taken
whole, which is why the row may not be empty. -/
theorem fields_intercalate {row : List (List α)} (hne : row ≠ [])
    (h : ∀ x ∈ row, sep ∉ x) : fields sep ([sep].intercalate row ++ [nl]) = row := by
  unfold fields
  rw [List.dropLast_concat]
  split_ifs with hsep
  · exact List.splitOn_intercalate sep h hne
  · cases row with
    | nil => exact absurd rfl hne
    | cons x row =>
      cases row with
      | nil => simp
      | cons y row =>
        rw [List.intercalate_cons_cons] at hsep
        simp at hsep

end Rows

section Before

variable (sep : List α)

/-- What stands before the first occurrence of a separator, `split(sep)[0]`. -/
def before : List α → List α
  | [] => []
  | c :: cs => if sep.isPrefixOf (c :: cs) then [] else c :: before cs

/-- What stands after the first occurrence of a separator. -/
def afterFirst : List α → List α
  | [] => []
  | c :: cs => if sep.isPrefixOf (c :: cs) then (c :: cs).drop sep.length else afterFirst cs

variable {sep}

/-- A separator put at the end is found there, unless it occurs earlier. -/
theorem before_append_self {xs : List α}
    (h : ∀ ys, ys <:+ xs → ys ≠ [] → ¬sep <+: ys ++ sep) : before sep (xs ++ sep) = xs := by
  induction xs with
  | nil =>
    cases sep with
    | nil => rfl
    | cons c cs => simp [before]
  | cons x xs ih =>
    have hx : ¬sep <+: x :: (xs ++ sep) := h (x :: xs) List.suffix_rfl (by simp)
    have hrest := ih fun ys hys => h ys (hys.trans (List.suffix_cons x xs))
    rw [List.cons_append, before, if_neg (by simpa using hx), hrest]

variable {c : α} {w xs ys : List α}

/-- A separator is found where its first character comes first. -/
theorem before_append_of_not_mem (h : c ∉ xs) : before (c :: w) (xs ++ (c :: w ++ ys)) = xs := by
  induction xs with
  | nil => simp [before]
  | cons x xs ih =>
    obtain ⟨hx, hxs⟩ : c ≠ x ∧ c ∉ xs := by simpa using h
    rw [List.cons_append, before, ih hxs, if_neg (by simp [hx])]

theorem afterFirst_append_of_not_mem (h : c ∉ xs) :
    afterFirst (c :: w) (xs ++ (c :: w ++ ys)) = ys := by
  induction xs with
  | nil => simp [afterFirst]
  | cons x xs ih =>
    obtain ⟨hx, hxs⟩ : c ≠ x ∧ c ∉ xs := by simpa using h
    rw [List.cons_append, afterFirst, ih hxs, if_neg (by simp [hx])]

end Before

section AfterLast

variable (sep : α)

/-- What stands after the last separator, `split(sep)[-1]`. -/
def afterLast (xs : List α) : List α := (xs.reverse.takeWhile fun c => c ≠ sep).reverse

variable {sep}

theorem afterLast_append_cons (xs : List α) {ys : List α} (h : sep ∉ ys) :
    afterLast sep (xs ++ sep :: ys) = ys := by
  have hall : ∀ c ∈ ys.reverse, decide (c ≠ sep) = true := by
    intro c hc
    rw [decide_eq_true_iff]
    exact fun heq => h (heq ▸ List.mem_reverse.mp hc)
  rw [afterLast, List.reverse_append, List.reverse_cons, List.append_assoc,
    List.takeWhile_append_of_pos hall, List.singleton_append, List.takeWhile_cons_of_neg (by simp),
    List.append_nil, List.reverse_reverse]

end AfterLast

section Replace

variable (w new : List α)

/-- Drop `k` characters, then put the new text for every occurrence of the word from left to
right. -/
def replaceFrom : Nat → List α → List α
  | _, [] => []
  | k + 1, _ :: cs => replaceFrom k cs
  | 0, c :: cs =>
    if w.isPrefixOf (c :: cs) then new ++ replaceFrom (w.length - 1) cs
    else c :: replaceFrom 0 cs

/-- `replace(w, new)` of a word that is not empty. -/
def replace (xs : List α) : List α := replaceFrom w new 0 xs

variable {w new} {c : α} {xs ys : List α}

theorem replace_cons_of_not_starts (h : ¬w <+: c :: xs) :
    replace w new (c :: xs) = c :: replace w new xs := by
  unfold replace
  rw [replaceFrom, if_neg (mt List.isPrefixOf_iff_prefix.mp h)]

/-- A character that the word does not have keeps the two sides apart. -/
theorem replaceFrom_append_cons (hw : w ≠ []) (hc : c ∉ w) {k : Nat} (hk : k ≤ xs.length) :
    replaceFrom w new k (xs ++ c :: ys) = replaceFrom w new k xs ++ c :: replace w new ys := by
  induction xs generalizing k with
  | nil =>
    have hno : ¬w <+: c :: ys := by
      intro h
      have hnil := (@Occurs.prefix_append_cons _ w [] ys c hc).mp h
      exact hw (List.prefix_nil.mp hnil)
    obtain rfl : k = 0 := Nat.le_zero.mp hk
    exact replace_cons_of_not_starts hno
  | cons x xs ih =>
    cases k with
    | succ k => exact ih (Nat.le_of_succ_le_succ hk)
    | zero =>
      have hsame : w.isPrefixOf (x :: (xs ++ c :: ys)) = w.isPrefixOf (x :: xs) := by
        rw [Bool.eq_iff_iff, List.isPrefixOf_iff_prefix, List.isPrefixOf_iff_prefix,
          ← List.cons_append, Occurs.prefix_append_cons hc]
      rw [List.cons_append, replaceFrom, replaceFrom, hsame]
      split_ifs with hpre
      · have hlen := (List.isPrefixOf_iff_prefix.mp hpre).length_le
        rw [List.length_cons] at hlen
        rw [ih (by omega), List.append_assoc]
      · rw [ih (Nat.zero_le _), List.cons_append]

theorem replace_append_cons (hw : w ≠ []) (hc : c ∉ w) :
    replace w new (xs ++ c :: ys) = replace w new xs ++ c :: replace w new ys :=
  replaceFrom_append_cons hw hc (Nat.zero_le _)

theorem replace_of_free (h : ¬w <:+: xs) : replace w new xs = xs := by
  induction xs with
  | nil => rfl
  | cons x xs ih =>
    have hpre : ¬w <+: x :: xs := fun hpre => h hpre.isInfix
    have hrest : ¬w <:+: xs := fun hin => h (hin.trans (List.suffix_cons x xs).isInfix)
    rw [replace_cons_of_not_starts hpre, ih hrest]

theorem replaceFrom_length : replaceFrom w new xs.length (xs ++ ys) = replace w new ys := by
  induction xs with
  | nil => rfl
  | cons x xs ih => exact ih

theorem replace_self_append (hw : w ≠ []) : replace w new (w ++ ys) = new ++ replace w new ys := by
  cases w with
  | nil => exact absurd rfl hw
  | cons c cs =>
    have hstarts : (c :: cs).isPrefixOf (c :: (cs ++ ys)) = true :=
      List.isPrefixOf_iff_prefix.mpr (List.prefix_append (c :: cs) ys)
    rw [List.cons_append, replace, replaceFrom, if_pos hstarts, List.length_cons,
      Nat.add_sub_cancel, replaceFrom_length]

/-- Where the first character of the word does not occur there is nothing to replace. -/
theorem replace_append_of_not_mem (h : c ∉ xs) :
    replace (c :: w) new (xs ++ ys) = xs ++ replace (c :: w) new ys := by
  induction xs with
  | nil => rfl
  | cons x xs ih =>
    obtain ⟨hx, hxs⟩ : c ≠ x ∧ c ∉ xs := by simpa using h
    have hno : ¬c :: w <+: x :: (xs ++ ys) := fun hpre => hx (List.cons_prefix_cons.mp hpre).1
    rw [List.cons_append, replace_cons_of_not_starts hno, ih hxs, List.cons_append]

variable {v : List α} {b e : α} {mid : List α}

/-- A word without the first character of the new text stands at the start of the result only if it
stood there before. -/
theorem prefix_of_prefix_replace (hb : b ∉ v) (h : v <+: replace w (b :: mid) xs) : v <+: xs := by
  induction xs generalizing v with
  | nil => exact h
  | cons x xs ih =>
    unfold replace at h
    rw [replaceFrom] at h
    split_ifs at h
    · cases v with
      | nil => exact List.nil_prefix
      | cons d v =>
        rw [List.cons_append, List.cons_prefix_cons] at h
        exact absurd (by simp [h.1]) hb
    · cases v with
      | nil => exact List.nil_prefix
      | cons d v =>
        rw [List.cons_prefix_cons] at h ⊢
        exact ⟨h.1, ih (fun hmem => hb (by simp [hmem])) h.2⟩

/-- New text between characters that a word does not have brings the word in only as a whole. -/
theorem not_infix_replace (hv : v ≠ []) (hb : b ∉ v) (he : e ∉ v) (hnew : ¬v <:+: b :: (mid ++ [e]))
    (hxs : ¬v <:+: xs) : ¬v <:+: replace w (b :: (mid ++ [e])) xs := by
  have hfrom (k : Nat) : ¬v <:+: replaceFrom w (b :: (mid ++ [e])) k xs := by
    induction xs generalizing k with
    | nil => exact hxs
    | cons x xs ih =>
      have hrest : ¬v <:+: xs := fun hin => hxs (hin.trans (List.suffix_cons x xs).isInfix)
      cases k with
      | succ k => exact ih hrest k
      | zero =>
        rw [replaceFrom]
        split_ifs
        · intro hin
          rw [← List.cons_append, List.append_assoc, List.singleton_append,
            Occurs.infix_append_cons he hv] at hin
          rcases hin with hin | hin
          · exact hnew (hin.trans (List.prefix_append (b :: mid) [e]).isInfix)
          · exact ih hrest _ hin
        · intro hin
          rcases List.infix_cons_iff.mp hin with hpre | hin
          · cases v with
            | nil => exact hv rfl
            | cons d v =>
              rw [List.cons_prefix_cons] at hpre
              have htail := prefix_of_prefix_replace (fun hmem => hb (by simp [hmem])) hpre.2
              exact hxs (List.cons_prefix_cons.mpr ⟨hpre.1, htail⟩).isInfix
          · exact ih hrest 0 hin
  exact hfrom 0

/-- Words are replaced one after the other, so later ones also in what came in before. -/
def fill (reps : List (List α × List α)) (text : List α) : List α :=
  reps.foldl (fun t r => replace r.1 r.2 t) text

variable {reps : List (List α × List α)}

theorem fill_append_cons (h : ∀ w ∈ reps.map Prod.fst, w ≠ [] ∧ c ∉ w) :
    fill reps (xs ++ c :: ys) = fill reps xs ++ c :: fill reps ys := by
  induction reps generalizing xs ys with
  | nil => rfl
  | cons r reps ih =>
    have hr := h r.1 (by simp)
    unfold fill
    rw [List.foldl_cons, replace_append_cons hr.1 hr.2]
    exact ih fun w hw => h w (List.mem_cons_of_mem r.1 hw)

theorem fill_of_free (h : ∀ w ∈ reps.map Prod.fst, ¬w <:+: xs) : fill reps xs = xs := by
  induction reps with
  | nil => rfl
  | cons r reps ih =>
    have hr : replace r.1 r.2 xs = xs := replace_of_free (h r.1 (by simp))
    unfold fill
    rw [List.foldl_cons, hr]
    exact ih fun w hw => h w (List.mem_cons_of_mem r.1 hw)

/-- A line with one of the words: nothing happens before its turn. -/
theorem fill_row {row : List α} (earlier later : List (List α × List α)) (pre post : List α)
    (hrow : row = pre ++ (w ++ post)) (hearlier : ∀ v ∈ earlier.map Prod.fst, ¬v <:+: row)
    (hw : w ≠ []) (hpre : ∀ x ∈ w.take 1, x ∉ pre) (hpost : ¬w <:+: post) :
    fill (earlier ++ (w, new) :: later) row = fill later (pre ++ (new ++ post)) := by
  have hskip : fill earlier row = row := fill_of_free hearlier
  have hnow : replace w new (pre ++ (w ++ post)) = pre ++ (new ++ post) := by
    cases w with
    | nil => exact absurd rfl hw
    | cons x w =>
      rw [replace_append_of_not_mem (hpre x (by simp)), replace_self_append hw,
        replace_of_free hpost]
  unfold fill at hskip ⊢
  rw [List.foldl_append, hskip, List.foldl_cons, hrow, hnow]

theorem fill_nil (reps : List (List α × List α)) : fill reps [] = [] := by
  induction reps with
  | nil => rfl
  | cons r reps ih => exact ih

/-- A template is filled in line by line. -/
theorem fill_flatMap_end (h : ∀ w ∈ reps.map Prod.fst, w ≠ [] ∧ c ∉ w) (rows : List (List α)) :
    fill reps (rows.flatMap (· ++ [c])) = (rows.map (fill reps)).flatMap (· ++ [c]) := by
  induction rows with
  | nil => exact fill_nil reps
  | cons row rows ih =>
    rw [List.flatMap_cons, List.map_cons, List.flatMap_cons, List.append_assoc,
      List.singleton_append, fill_append_cons h, ih, List.append_assoc, List.singleton_append]

end Replace

section Remove

variable (w : List α)

/-- Drop `k` characters, then every occurrence of the word from left to right. -/
def removeFrom : Nat → List α → List α
  | _, [] => []
  | k + 1, _ :: cs => removeFrom k cs
  | 0, c :: cs =>
    if w.isPrefixOf (c :: cs) then removeFrom (w.length - 1) cs else c :: removeFrom 0 cs

/-- `replace(w, "")` of a word that is not empty. -/
def remove (xs : List α) : List α := removeFrom w 0 xs

variable {w} {c : α} {xs ys : List α}

theorem removeFrom_eq (k : Nat) (xs : List α) : removeFrom w k xs = replaceFrom w [] k xs := by
  fun_induction removeFrom w k xs with
  | case1 => rw [replaceFrom]
  | case2 k c cs ih => rw [replaceFrom, ih]
  | case3 c cs hpre ih => rw [replaceFrom, if_pos hpre, ih, List.nil_append]
  | case4 c cs hpre ih => rw [replaceFrom, if_neg hpre, ih]

theorem remove_eq_replace (xs : List α) : remove w xs = replace w [] xs := removeFrom_eq 0 xs

theorem remove_cons_of_not_starts (h : ¬w <+: c :: xs) :
    remove w (c :: xs) = c :: remove w xs := by
  rw [remove_eq_replace, remove_eq_replace, replace_cons_of_not_starts h]

theorem remove_append_cons (hw : w ≠ []) (hc : c ∉ w) :
    remove w (xs ++ c :: ys) = remove w xs ++ c :: remove w ys := by
  simp only [remove_eq_replace, replace_append_cons hw hc]

theorem remove_intercalate (hw : w ≠ []) (hc : c ∉ w) (row : List (List α)) :
    remove w ([c].intercalate row) = [c].intercalate (row.map (remove w)) := by
  induction row with
  | nil => rfl
  | cons x row ih =>
    cases row with
    | nil => simp
    | cons y row =>
      rw [List.intercalate_cons_cons, List.map_cons, List.map_cons, List.intercalate_cons_cons,
        List.append_assoc, List.singleton_append, remove_append_cons hw hc, ih, List.append_assoc,
        List.singleton_append, List.map_cons]

theorem remove_of_free (h : ¬w <:+: xs) : remove w xs = xs := by
  rw [remove_eq_replace, replace_of_free h]

/-- A word put at the end is removed there, unless it occurs earlier. -/
theorem remove_append_self (hw : w ≠ []) (h : ∀ ys, ys <:+ xs → ys ≠ [] → ¬w <+: ys ++ w) :
    remove w (xs ++ w) = xs := by
  induction xs with
  | nil =>
    have hself : replace w [] (w ++ []) = [] := replace_self_append hw
    rw [List.append_nil] at hself
    rw [List.nil_append, remove_eq_replace, hself]
  | cons x xs ih =>
    have hx : ¬w <+: x :: (xs ++ w) := h (x :: xs) List.suffix_rfl (by simp)
    have hrest := ih fun ys hys => h ys (hys.trans (List.suffix_cons x xs))
    rw [List.cons_append, remove_cons_of_not_starts hx, hrest]

omit [DecidableEq α] in
/-- A word no part of which begins like it again does not begin earlier than where it is put. -/
theorem not_earlier (hword : ∀ n, 0 < n → n < w.length → ¬w.drop n <+: w) (hfree : ¬w <:+: xs) :
    ∀ ys, ys <:+ xs → ys ≠ [] → ¬w <+: ys ++ w := by
  intro ys hys hne hpre
  have hpos := List.length_pos_iff.mpr hne
  rcases Nat.lt_or_ge ys.length w.length with hlt | hge
  · -- the word begins in `ys` and goes on in the copy behind it
    have htake : ys <+: w := List.prefix_of_prefix_length_le (List.prefix_append ys w) hpre hlt.le
    obtain ⟨t, ht⟩ := htake
    apply hword ys.length hpos hlt
    rw [← ht] at hpre ⊢
    rw [List.drop_left]
    exact (List.prefix_append_right_inj ys).mp hpre
  · have hin : w <+: ys := List.prefix_of_prefix_length_le hpre (List.prefix_append ys w) hge
    exact hfree (hin.isInfix.trans hys.isInfix)

end Remove

/-- Line ends as a file opened in text mode shows them. -/
def universalNewlines : List Char → List Char
  | '\r' :: '\n' :: cs => '\n' :: universalNewlines cs
  | '\r' :: cs => '\n' :: universalNewlines cs
  | c :: cs => c :: universalNewlines cs
  | [] => []

theorem universalNewlines_of_not_mem {cs : List Char} (h : '\r' ∉ cs) :
    universalNewlines cs = cs := by
  fun_induction universalNewlines cs with
  | case1 => simp at h
  | case2 => simp at h
  | case3 c cs hc1 hc2 ih =>
    have hcs : '\r' ∉ cs := fun hmem => h (List.mem_cons_of_mem c hmem)
    rw [ih hcs]
  | case4 => rfl

theorem universalNewlines_cons {c : Char} (hc : c ≠ '\r') (cs : List Char) :
    universalNewlines (c :: cs) = c :: universalNewlines cs := by
  rw [universalNewlines]
  · intro _ h _
    exact hc h
  · exact hc

/-- A character that does not belong to a line end keeps the two sides apart, and so does a line
end that is complete. -/
theorem universalNewlines_append {c : Char} (hc : c ≠ '\r') (xs ys : List Char) :
    universalNewlines (xs ++ c :: ys) = universalNewlines (xs ++ [c]) ++ universalNewlines ys := by
  fun_induction universalNewlines xs with
  | case1 xs ih => simp only [List.cons_append, universalNewlines, ih]
  | case2 xs h ih =>
    cases xs with
    | nil =>
      by_cases hn : c = '\n'
      · subst hn
        simp [universalNewlines]
      · rw [List.cons_append, List.cons_append, List.nil_append, List.nil_append,
          universalNewlines, universalNewlines, universalNewlines_cons hc,
          universalNewlines_cons hc]
        · rfl
        all_goals simp [hn]
    | cons d xs =>
      have hd : d ≠ '\n' := fun heq => h xs (by rw [heq])
      simp only [List.cons_append] at ih ⊢
      rw [universalNewlines, universalNewlines, ih]
      · rfl
      all_goals simp [hd]
  | case3 d xs _ hd ih =>
    rw [List.cons_append, List.cons_append, universalNewlines_cons hd, universalNewlines_cons hd,
      ih, List.cons_append]
  | case4 =>
    rw [List.nil_append, List.nil_append, universalNewlines_cons hc, universalNewlines_cons hc]
    rfl

theorem prefix_of_universalNewlines {w xs : List Char} (hw : '\n' ∉ w)
    (h : w <+: universalNewlines xs) : w <+: xs := by
  have hnil {w ys : List Char} (hw : '\n' ∉ w) (h : w <+: '\n' :: ys) : w = [] := by
    cases w with
    | nil => rfl
    | cons d w => exact absurd (by simp [(List.cons_prefix_cons.mp h).1]) hw
  fun_induction universalNewlines xs generalizing w with
  | case1 xs ih =>
    rw [hnil hw h]
    exact List.nil_prefix
  | case2 xs _ ih =>
    rw [hnil hw h]
    exact List.nil_prefix
  | case3 c xs _ _ ih =>
    cases w with
    | nil => exact List.nil_prefix
    | cons d w =>
      rw [List.cons_prefix_cons] at h ⊢
      exact ⟨h.1, ih (fun hmem => hw (by simp [hmem])) h.2⟩
  | case4 => exact h

/-- Translating line ends does not bring in a word within a line. -/
theorem not_infix_universalNewlines {w xs : List Char} (hw : '\n' ∉ w) (hne : w ≠ [])
    (h : ¬w <:+: xs) : ¬w <:+: universalNewlines xs := by
  have hcons {c : Char} {ys : List Char} (h : w <:+: c :: ys) (hc : c = '\n') : w <:+: ys := by
    subst hc
    have hin : w <:+: [] ++ '\n' :: ys := h
    rw [Occurs.infix_append_cons hw hne] at hin
    exact hin.resolve_left fun hnil => hne (List.infix_nil.mp hnil)
  intro hin
  apply h
  clear h
  fun_induction universalNewlines xs with
  | case1 xs ih =>
    exact (ih (hcons hin rfl)).trans ((List.suffix_cons _ _).trans (List.suffix_cons _ _)).isInfix
  | case2 xs _ ih => exact (ih (hcons hin rfl)).trans (List.suffix_cons _ _).isInfix
  | case3 c xs hc1 hc2 ih =>
    rcases List.infix_cons_iff.mp hin with hpre | hin
    · rw [← universalNewlines_cons hc2] at hpre
      exact (prefix_of_universalNewlines hw hpre).isInfix
    · exact (ih hin).trans (List.suffix_cons _ _).isInfix
  | case4 => exact hin

/-- The text ends with a complete line. -/
def Ended (t : List Char) : Prop := ∃ t', t = t' ++ ['\n']

theorem Ended.flatMap {rows : List (List Char)} (h : rows ≠ []) :
    Ended (rows.flatMap (· ++ ['\n'])) := by
  have ⟨init, last, hrows⟩ := List.eq_nil_or_concat rows |>.resolve_left h
  refine ⟨init.flatMap (· ++ ['\n']) ++ last, ?_⟩
  rw [hrows]
  simp

theorem Ended.append {t u : List Char} (h : Ended u) : Ended (t ++ u) := by
  have ⟨u', hu⟩ := h
  exact ⟨t ++ u', by rw [hu, List.append_assoc]⟩

theorem Ended.lines_append {t : List Char} (h : Ended t) (u : List Char) :
    lines '\n' (t ++ u) = lines '\n' t ++ lines '\n' u := by
  have ⟨t', ht⟩ := h
  rw [ht, List.append_assoc, List.singleton_append, TextFile.lines_append]

theorem Ended.universalNewlines_append {t : List Char} (h : Ended t) (u : List Char) :
    universalNewlines (t ++ u) = universalNewlines t ++ universalNewlines u := by
  have ⟨t', ht⟩ := h
  rw [ht, List.append_assoc, List.singleton_append, TextFile.universalNewlines_append (by decide)]

theorem Ended.universalNewlines {t : List Char} (h : Ended t) : Ended (universalNewlines t) := by
  have hcons {c : Char} {t : List Char} (h : Ended t) : Ended (c :: t) := by
    have hsnoc : Ended ([c] ++ t) := h.append
    exact hsnoc
  have ⟨t', ht⟩ := h
  rw [ht]
  clear ht h
  fun_induction TextFile.universalNewlines t' with
  | case1 t ih =>
    rw [List.cons_append, List.cons_append, TextFile.universalNewlines]
    exact hcons ih
  | case2 t hno ih =>
    cases t with
    | nil => exact ⟨[], rfl⟩
    | cons d t =>
      have hd : d ≠ '\n' := fun heq => hno t (by rw [heq])
      rw [List.cons_append, List.cons_append, TextFile.universalNewlines]
      · exact hcons ih
      · simp [hd]
  | case3 c t _ hc ih =>
    rw [List.cons_append, universalNewlines_cons hc]
    exact hcons ih
  | case4 => exact ⟨[], rfl⟩

theorem not_mem_universalNewlines (cs : List Char) : '\r' ∉ universalNewlines cs := by
  fun_induction universalNewlines cs with
  | case1 cs ih => simpa using ih
  | case2 cs hcs ih => simpa using ih
  | case3 c cs hc1 hc2 ih =>
    rw [List.mem_cons, not_or]
    exact ⟨fun hc => hc2 hc.symm, ih⟩
  | case4 => simp

/-! ### Numbers -/

/-- An integer in decimal digits. -/
def intText (n : Int) : List Char :=
  if n < 0 then '-' :: Nat.toDigits 10 n.natAbs else Nat.toDigits 10 n.natAbs

theorem not_mem_toDigits {c : Char} (hc : c.isDigit = false) (n : Nat) : c ∉ Nat.toDigits 10 n := by
  intro hmem
  have hdigit := Nat.isDigit_of_mem_toDigits (by decide) (by decide) hmem
  rw [hc] at hdigit
  cases hdigit

theorem not_mem_intText {c : Char} (hdigit : c.isDigit = false) (hminus : c ≠ '-') (n : Int) :
    c ∉ intText n := by
  unfold intText
  split_ifs
  · rw [List.mem_cons, not_or]
    exact ⟨hminus, not_mem_toDigits hdigit _⟩
  · exact not_mem_toDigits hdigit _

end TextFile
