import SynthLC.LeavingGen
import SynthLC.Occurs
import SynthLC.Verdict

/-! Labels of the properties of `xHBPerfG_leaving` and the text search by which `gen_s2` and `pp`
find their verdicts: which labels stand inside which names of a verdict file. -/
namespace SynthLC.Leaving

open Loop

/-- Templates of a check: `HB_`, and under `define WHB` the weak order and the simultaneous
one. -/
inductive Kind where
  | hb
  | whb
  | concur
  deriving DecidableEq

/-- What stands before `{s1}` and between `{s1}` and `{s2}` in the label of a property, both in its
template and where it is searched for. -/
def labelParts : Kind → Check → String × String
  | .hb, .leavingEnter => ("HB_LEAVING_", "_")
  | .hb, .enterLeaving => ("HB_", "_LEAVING_")
  | .hb, .leavingLeaving => ("HB_LEAVING_", "_LEAVING_")
  | .whb, .leavingEnter => ("WHB_LEAVING_", "_hb_")
  | .whb, .enterLeaving => ("WHB_", "_LEAVING_")
  | .whb, .leavingLeaving => ("WHB_LEAVING_", "_LEAVING_")
  | .concur, .leavingEnter => ("WHB_CONCUR_LEAVING_", "_hb_")
  | .concur, .enterLeaving => ("WHB_CONCUR_", "_LEAVING_")
  | .concur, .leavingLeaving => ("WHB_CONCUR_LEAVING_", "_LEAVING_")

def label (s1 s2 : String) (k : Kind) (c : Check) : String :=
  (labelParts k c).1 ++ s1 ++ (labelParts k c).2 ++ s2

section Labels

/-- The words that labels are made of, letter by letter. -/
def wordHb : List Char := ['H', 'B']

def wordLeaving : List Char := ['L', 'E', 'A', 'V', 'I', 'N', 'G']

def wordConcur : List Char := ['C', 'O', 'N', 'C', 'U', 'R']

def wordSmallHb : List Char := ['h', 'b']

def wordPrecondition : List Char := ['p', 'r', 'e', 'c', 'o', 'n', 'd', 'i', 't', 'i', 'o', 'n']

/-- What follows `HB_` or `WHB_` in the label of a check. -/
def plain (s1 s2 : List Char) (k : Kind) : Check → List Char
  | .leavingEnter => wordLeaving ++ '_' :: (s1 ++ '_' ::
      (if k = .hb then s2 else wordSmallHb ++ '_' :: s2))
  | .enterLeaving => s1 ++ '_' :: (wordLeaving ++ '_' :: s2)
  | .leavingLeaving => wordLeaving ++ '_' :: (s1 ++ '_' :: (wordLeaving ++ '_' :: s2))

def body (s1 s2 : List Char) (k : Kind) (c : Check) : List Char :=
  if k = .concur then wordConcur ++ '_' :: plain s1 s2 k c else plain s1 s2 k c

theorem toList_label (s1 s2 : String) (k : Kind) (c : Check) : (label s1 s2 k c).toList =
    (if k = .hb then [] else ['W']) ++ (wordHb ++ '_' :: body s1.toList s2.toList k c) := by
  cases k <;> cases c <;> 
    simp [label, labelParts, body, plain, wordHb, wordLeaving, wordConcur, wordSmallHb]

/-- A name without the words that labels and verdict files are made of. -/
structure FreeName (s : List Char) : Prop where
  leaving : ¬wordLeaving <:+: s
  concur : ¬wordConcur <:+: s
  hb : ¬wordHb <:+: s
  precondition : ¬wordPrecondition <:+: s

variable {s1 s2 tail : List Char} {k k' : Kind} {c c' : Check}

/-- Where a plain label starts another one, possibly with a colon and more after it, the two are
the same, or the second name is the start of `LEAVING`. -/
theorem plain_starts (h1 : FreeName s1) (h2 : FreeName s2) (htail : ∀ x ∈ tail.head?, x = ':')
    (h : plain s1 s2 k c <+: plain s1 s2 k c' ++ tail) :
    c = c' ∨ (k = .hb ∧ c = .leavingEnter ∧ c' = .leavingLeaving ∧ s2 <+: wordLeaving) := by
  have hnot : '_' ∉ wordLeaving := by decide
  have hword (zs : List Char) : ¬wordLeaving ++ zs <+: s2 ++ tail := by
    intro hpre
    have hw := (List.prefix_append wordLeaving zs).trans hpre
    cases tail with
    | nil => exact h2.leaving (by simpa using hw.isInfix)
    | cons x tail =>
      obtain rfl := htail x (by simp)
      exact h2.leaving ((Occurs.prefix_append_cons (by decide)).mp hw).isInfix
  cases c <;> cases c' <;> simp only [plain, List.append_assoc, List.cons_append] at h
  case leavingEnter.enterLeaving => exact absurd h (Occurs.not_word_starts hnot h1.leaving _)
  case leavingLeaving.enterLeaving => exact absurd h (Occurs.not_word_starts hnot h1.leaving _)
  case enterLeaving.leavingEnter => exact absurd h (Occurs.not_prefix_word hnot h1.leaving _)
  case enterLeaving.leavingLeaving => exact absurd h (Occurs.not_prefix_word hnot h1.leaving _)
  case leavingEnter.leavingLeaving =>
    simp only [List.prefix_append_right_inj, List.cons_prefix_cons, true_and] at h
    split_ifs at h with hk
    · rcases List.prefix_or_prefix_of_prefix h (List.prefix_append wordLeaving _) with hle | hle
      · exact .inr ⟨hk, rfl, rfl, hle⟩
      · exact absurd hle.isInfix h2.leaving
    · simp [wordLeaving, wordSmallHb] at h
  case leavingLeaving.leavingEnter =>
    simp only [List.prefix_append_right_inj, List.cons_prefix_cons, true_and] at h
    split_ifs at h with hk
    · exact absurd h (hword _)
    · simp [wordLeaving, wordSmallHb] at h
  all_goals exact .inl rfl

/-- The same for the text after `HB_`, among labels of one file. -/
theorem body_starts (hk : k = .hb ↔ k' = .hb) (h1 : FreeName s1) (h2 : FreeName s2)
    (htail : ∀ x ∈ tail.head?, x = ':') (h : body s1 s2 k c <+: body s1 s2 k' c' ++ tail) :
    (k = k' ∧ c = c') ∨
      (k = .hb ∧ c = .leavingEnter ∧ c' = .leavingLeaving ∧ s2 <+: wordLeaving) := by
  have hnot : '_' ∉ wordConcur := by decide
  have hplain (hkk : k = k') (h : plain s1 s2 k c <+: plain s1 s2 k c' ++ tail) :
      (k = k' ∧ c = c') ∨
        (k = .hb ∧ c = .leavingEnter ∧ c' = .leavingLeaving ∧ s2 <+: wordLeaving) :=
    (plain_starts h1 h2 htail h).imp_left fun hc => ⟨hkk, hc⟩
  -- a label with `CONCUR` and one without differ at their first word
  have hmixed (zs : List Char) (k : Kind) (c : Check) :
      ¬plain s1 s2 k c <+: wordConcur ++ zs ∧ ¬wordConcur ++ zs <+: plain s1 s2 k c ++ tail := by
    cases c
    · simp [plain, wordLeaving, wordConcur]
    · simp only [plain, List.append_assoc, List.cons_append]
      exact ⟨Occurs.not_prefix_word hnot h1.concur _, Occurs.not_word_starts hnot h1.concur _⟩
    · simp [plain, wordLeaving, wordConcur]
  unfold body at h
  split_ifs at h with hc hc' hc'
  · rw [List.append_assoc, List.cons_append, List.prefix_append_right_inj,
      List.cons_prefix_cons] at h
    exact hplain (hc.trans hc'.symm) (by simpa [hc, hc'] using h.2)
  · exact absurd h (hmixed _ k' c').2
  · rw [List.append_assoc] at h
    exact absurd h (hmixed _ k c).1
  · obtain rfl : k = k' := by
      cases k <;> cases k' <;> simp_all
    exact hplain rfl h

end Labels

section Search

/-- Rows of a verdict file: the name of a property and its result. -/
abbrev Rows := List (List Char × Result)

/-- `csv_[csv_['Name'].str.contains(prop)]` -/
def containing (prop : List Char) (csv : Rows) : Rows := csv.filter fun row => prop <:+: row.1

def csvNoprecon (csv : Rows) : Rows := csv.filter fun row => ¬wordPrecondition <:+: row.1

def csvPercond (csv : Rows) : Rows := csv.filter fun row => wordPrecondition <:+: row.1

/-- The name of a property below the instance it belongs to. -/
def rowName (path : List Char) (l : String) : List Char := path ++ '.' :: l.toList

/-- The name of its precondition. -/
def preName (path : List Char) (l : String) : List Char :=
  path ++ '.' :: (l.toList ++ ':' :: (wordPrecondition ++ ['1']))

/-- The file lists these properties, each with one precondition, in any order and with any
results. -/
def ListsExactly (path : List Char) (s1 s2 : String) (props : List (Kind × Check)) (csv : Rows) :
    Prop :=
  ∃ res pre : Kind × Check → Result, csv.Perm (props.flatMap fun p =>
    [(rowName path (label s1 s2 p.1 p.2), res p), (preName path (label s1 s2 p.1 p.2), pre p)])

/-- A search for this label finds the rows of its own property only. -/
def SelectsOnly (path : List Char) (s1 s2 : String) (p : Kind × Check) (csv : Rows) : Prop :=
  ∀ row ∈ containing (label s1 s2 p.1 p.2).toList csv,
    row.1 = rowName path (label s1 s2 p.1 p.2) ∨ row.1 = preName path (label s1 s2 p.1 p.2)

variable {path tail : List Char} {s1 s2 : String} {p q : Kind × Check} {props : List (Kind × Check)}
  {csv : Rows}

/-- A word that is in no part of a label is not in the label. -/
theorem free_body {w t1 t2 : List Char} (hw : w ≠ []) (hsep : '_' ∉ w)
    (hleaving : ¬w <:+: wordLeaving) (hconcur : ¬w <:+: wordConcur) (hhb : ¬w <:+: wordSmallHb)
    (h1 : ¬w <:+: t1) (h2 : ¬w <:+: t2 ++ tail) (k : Kind) (c : Check) :
    ¬w <:+: body t1 t2 k c ++ tail := by
  have hplain : ¬w <:+: plain t1 t2 k c ++ tail := by
    cases c
    · unfold plain
      split_ifs <;> simp only [List.append_assoc, List.cons_append,
        Occurs.infix_append_cons hsep hw, hleaving, hhb, h1, h2, or_self, not_false_eq_true]
    · simp only [plain, List.append_assoc, List.cons_append, Occurs.infix_append_cons hsep hw,
        hleaving, h1, h2, or_self, not_false_eq_true]
    · simp only [plain, List.append_assoc, List.cons_append, Occurs.infix_append_cons hsep hw,
        hleaving, h1, h2, or_self, not_false_eq_true]
  unfold body
  split_ifs
  · simp only [List.append_assoc, List.cons_append, Occurs.infix_append_cons hsep hw, hconcur,
      hplain, or_self, not_false_eq_true]
  · exact hplain

/-- A label found in the name of another property starts that property's label. -/
theorem label_found (hpath : ¬wordHb <:+: path) (h1 : FreeName s1.toList)
    (h2 : FreeName s2.toList) (hk : p.1 = .hb ↔ q.1 = .hb) (htail : ¬wordHb <:+: tail)
    (hcolon : ∀ x ∈ tail.head?, x = ':')
    (h : (label s1 s2 p.1 p.2).toList <:+: path ++ '.' :: ((label s1 s2 q.1 q.2).toList ++ tail)) :
    body s1.toList s2.toList p.1 p.2 <+: body s1.toList s2.toList q.1 q.2 ++ tail := by
  have hs2 : ¬wordHb <:+: s2.toList ++ tail := by
    cases tail with
    | nil => simpa using h2.hb
    | cons x t =>
      obtain rfl := hcolon x (by simp)
      rw [Occurs.infix_append_cons (by decide) (by decide), not_or]
      refine ⟨h2.hb, ?_⟩
      intro ht
      exact htail (ht.trans (List.suffix_cons ':' t).isInfix)
  have hrest := free_body (w := wordHb) (by decide) (by decide) (by decide) (by decide) (by decide)
    h1.hb hs2 q.1 q.2
  rw [toList_label, toList_label] at h
  by_cases hhb : p.1 = .hb
  · rw [if_pos hhb, if_pos (hk.mp hhb), List.nil_append, List.nil_append, List.append_assoc,
      List.cons_append] at h
    exact Occurs.starts_of_found (by decide) (by decide) (by decide) hpath hrest h
  · -- the letter before `HB` separates it from the path
    rw [if_neg hhb, if_neg (mt hk.mpr hhb)] at h
    have hpath' : ¬wordHb <:+: path ++ ['.'] := by
      rw [Occurs.infix_append_cons (by decide) (by decide), not_or]
      exact ⟨hpath, by decide⟩
    refine Occurs.starts_of_found (c := '_') (d := 'W') (by decide) (by decide) (by decide) hpath'
      hrest ?_
    have htext := (List.suffix_append ['W'] _).isInfix.trans h
    simpa using htext

theorem label_found_rowName (l : String) : l.toList <:+: rowName path l :=
  ((List.suffix_cons '.' l.toList).trans (List.suffix_append path _)).isInfix

theorem label_found_preName (l : String) : l.toList <:+: preName path l :=
  (List.prefix_append l.toList _).isInfix.trans
    ((List.suffix_cons '.' _).trans (List.suffix_append path _)).isInfix

theorem ListsExactly.mem_iff (h : ListsExactly path s1 s2 props csv) {name : List Char} :
    (∃ r, (name, r) ∈ csv) ↔ ∃ q ∈ props, name = rowName path (label s1 s2 q.1 q.2) ∨
      name = preName path (label s1 s2 q.1 q.2) := by
  obtain ⟨res, pre, hperm⟩ := h
  simp only [hperm.mem_iff, List.mem_flatMap, List.mem_cons, Prod.mk.injEq, List.not_mem_nil,
    or_false]
  constructor
  · intro h
    obtain ⟨r, q, hq, hname⟩ := h
    exact ⟨q, hq, hname.imp And.left And.left⟩
  · intro h
    obtain ⟨q, hq, hname | hname⟩ := h
    · exact ⟨res q, q, hq, .inl ⟨hname, rfl⟩⟩
    · exact ⟨pre q, q, hq, .inr ⟨hname, rfl⟩⟩

/-- The one search that can go astray: the label of leaving before entering starts that of leaving
before leaving where the second name is the start of `LEAVING`. -/
def Astray (s2 : String) (p q : Kind × Check) : Prop :=
  p = (.hb, .leavingEnter) ∧ q = (.hb, .leavingLeaving) ∧ s2.toList <+: wordLeaving

section Found

variable (hpath : ¬wordHb <:+: path) (h1 : FreeName s1.toList) (h2 : FreeName s2.toList)
  (hk : p.1 = .hb ↔ q.1 = .hb)
include hpath h1 h2 hk

/-- A label is found in a name of another property only if it goes astray. -/
theorem found_in {name : List Char} (hname : name = rowName path (label s1 s2 q.1 q.2) ∨
      name = preName path (label s1 s2 q.1 q.2))
    (h : (label s1 s2 p.1 p.2).toList <:+: name) : p = q ∨ Astray s2 p q := by
  have hbody : ∃ tail : List Char, (∀ x ∈ tail.head?, x = ':') ∧
      body s1.toList s2.toList p.1 p.2 <+: body s1.toList s2.toList q.1 q.2 ++ tail := by
    rcases hname with rfl | rfl
    · refine ⟨[], by simp, label_found hpath h1 h2 hk (by decide) (by simp) ?_⟩
      rwa [List.append_nil]
    · exact ⟨_, by simp, label_found hpath h1 h2 hk (by decide) (by simp) h⟩
  obtain ⟨tail, htail, hbody⟩ := hbody
  rcases body_starts hk h1 h2 htail hbody with ⟨hkind, hcheck⟩ | ⟨hhb, hc, hc', hs2⟩
  · exact .inl (Prod.ext hkind hcheck)
  · exact .inr ⟨Prod.ext hhb hc, Prod.ext (hk.mp hhb) hc', hs2⟩

end Found

section File

variable (hpath : ¬wordHb <:+: path) (h1 : FreeName s1.toList) (h2 : FreeName s2.toList)
  (hcsv : ListsExactly path s1 s2 props csv) (hk : ∀ q ∈ props, p.1 = .hb ↔ q.1 = .hb)
include hpath h1 h2 hcsv hk

theorem selectsOnly_of_not_astray (hno : ∀ q ∈ props, ¬Astray s2 p q) :
    SelectsOnly path s1 s2 p csv := by
  intro row hrow
  obtain ⟨hmem, hfound⟩ := List.mem_filter.mp hrow
  obtain ⟨q, hq, hname⟩ := hcsv.mem_iff.mp ⟨row.2, hmem⟩
  obtain rfl := (found_in hpath h1 h2 (hk q hq) hname (by simpa using hfound)).resolve_right
    (hno q hq)
  exact hname

/-- Then the search finds the property and its precondition. -/
theorem length_containing (hnd : props.Nodup) (hp : p ∈ props) (hno : ∀ q ∈ props, ¬Astray s2 p q) :
    (containing (label s1 s2 p.1 p.2).toList csv).length = 2 := by
  obtain ⟨res, pre, hperm⟩ := hcsv
  rw [containing, (hperm.filter _).length_eq, filter_flatMap_of_unique hnd hp]
  · rfl
  · intro row hrow
    rw [decide_eq_true_iff]
    rcases List.mem_pair.mp hrow with rfl | rfl
    · exact label_found_rowName _
    · exact label_found_preName _
  · intro q hq hne row hrow
    rw [decide_eq_false_iff_not]
    intro hfound
    have hname : row.1 = rowName path (label s1 s2 q.1 q.2) ∨
        row.1 = preName path (label s1 s2 q.1 q.2) := by
      rcases List.mem_pair.mp hrow with rfl | rfl
      · exact .inl rfl
      · exact .inr rfl
    rcases found_in hpath h1 h2 (hk q hq) hname hfound with rfl | hastray
    · exact hne rfl
    · exact hno q hq hastray

end File

/-- A label that goes astray finds a row of the other property. -/
theorem not_selectsOnly_of_astray (hcsv : ListsExactly path s1 s2 props csv) (hq : q ∈ props)
    (h : Astray s2 p q) : ¬SelectsOnly path s1 s2 p csv := by
  obtain ⟨rfl, rfl, t, ht⟩ := h
  intro hsel
  obtain ⟨r, hrow⟩ := hcsv.mem_iff.mpr ⟨_, hq, .inl rfl⟩
  have hlong : (label s1 s2 .hb .leavingLeaving).toList =
      (label s1 s2 .hb .leavingEnter).toList ++ (t ++ '_' :: s2.toList) := by
    simp only [toList_label, body, plain, if_true, List.append_assoc, List.cons_append, ← ht,
      reduceCtorEq, if_false]
  have hfound : (label s1 s2 .hb .leavingEnter).toList <:+:
      rowName path (label s1 s2 .hb .leavingLeaving) := by
    refine List.IsInfix.trans ?_ (label_found_rowName _)
    rw [hlong]
    exact (List.prefix_append _ _).isInfix
  have hlen : t.length + s2.toList.length = 7 := by
    have hlength := congrArg List.length ht
    rw [List.length_append] at hlength
    have hseven : wordLeaving.length = 7 := rfl
    omega
  rcases hsel _ (List.mem_filter.mpr ⟨hrow, by simpa using hfound⟩) with heq | heq
  · have hlength := congrArg List.length heq
    simp [rowName, hlong] at hlength
  · have hlength := congrArg List.length heq
    simp [rowName, preName, hlong, wordPrecondition] at hlength
    omega

section Precondition

variable (hpath : ¬wordPrecondition <:+: path) (h1 : FreeName s1.toList) (h2 : FreeName s2.toList)
include hpath h1 h2

theorem no_precondition (k : Kind) (c : Check) :
    ¬wordPrecondition <:+: rowName path (label s1 s2 k c) := by
  have hbody := @free_body [] wordPrecondition _ _ (by decide) (by decide) (by decide)
    (by decide) (by decide) h1.precondition (by simpa using h2.precondition) k c
  rw [List.append_nil] at hbody
  rw [rowName, toList_label, ← List.append_assoc]
  simp only [Occurs.infix_append_cons (show '.' ∉ wordPrecondition by decide)
    (show wordPrecondition ≠ [] by decide), Occurs.infix_append_cons
    (show '_' ∉ wordPrecondition by decide) (show wordPrecondition ≠ [] by decide), hpath, hbody,
    false_or, or_false]
  split_ifs <;> decide

/-- Both parts of a file have a row in which the label of a listed property is found. -/
theorem exists_first (hcsv : ListsExactly path s1 s2 props csv) (hp : p ∈ props) :
    containing (label s1 s2 p.1 p.2).toList (csvNoprecon csv) ≠ [] ∧
      containing (label s1 s2 p.1 p.2).toList (csvPercond csv) ≠ [] := by
  constructor
  · obtain ⟨r, hrow⟩ := hcsv.mem_iff.mpr ⟨p, hp, .inl rfl⟩
    apply List.ne_nil_of_mem
    refine List.mem_filter.mpr ⟨List.mem_filter.mpr ⟨hrow, ?_⟩, ?_⟩
    · simpa using no_precondition hpath h1 h2 p.1 p.2
    · simpa using label_found_rowName _
  · obtain ⟨r, hrow⟩ := hcsv.mem_iff.mpr ⟨p, hp, .inr rfl⟩
    apply List.ne_nil_of_mem
    refine List.mem_filter.mpr ⟨List.mem_filter.mpr ⟨hrow, ?_⟩, ?_⟩
    · rw [decide_eq_true_iff, preName]
      refine ⟨path ++ '.' :: ((label s1 s2 p.1 p.2).toList ++ [':']), ['1'], ?_⟩
      simp
    · simpa using label_found_preName _

end Precondition

end Search

end SynthLC.Leaving
