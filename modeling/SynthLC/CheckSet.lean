import Mathlib.Data.List.Sort
import Mathlib.Data.String.Basic
import SynthLC.Decisions

/-! `opcodes_batch/check_set.py`: the groups of `group_map.txt` that may be asked about as one
instruction, found by comparing the follower sets of their members line by line. -/
namespace SynthLC.CheckSet

open TextFile
open scoped Loop

abbrev Text := List Char

/-- `sorted(line[:-1].split(","))` -/
def sortedFields (line : Text) : List String :=
  ((line.dropLast.splitOn ',').map String.ofList).insertionSort (· ≤ ·)

/-- A line against line `cnt` of the reference: `cnt` and `fail`. -/
def compareLine (ref : List Text) (s : Nat × Bool) (line : Text) : Nat × Bool :=
  match ref[s.1]? with
  | some r =>
    if line = r then (s.1 + 1, s.2)
    else if s.2 ∨ (',' ∈ line ∧ sortedFields line ≠ sortedFields r) then (s.1, true)
    else (s.1 + 1, false)
  | none => (if s.2 then s.1 else s.1 + 1, s.2)

def compareLines (ref cur : List Text) : Nat × Bool := cur.foldl (compareLine ref) (0, false)

/-- `tocompare_lines`, with none before the first member, and the groups found so far. -/
structure Progress where
  tocompareLines : Option (List Text)
  matchCnt : Nat
  subgroups : List (List String)
  curgroup : List String

/-- The lines of `follower_set_v2.txt` in the first of the two run directories that has it. -/
def followerLines (runs runs10 : String → Option Text) (instn : String) : Option (List Text) :=
  ((runs instn).or (runs10 instn)).map fun text => lines '\n' (universalNewlines text)

section Group

variable (file : String → Option (List Text))

/-- One member; nothing if the loop breaks with `fail`. -/
def member (s : Progress) (instn : String) : Option Progress := do
  let cur ← file instn
  match s.tocompareLines with
  | none => some { s with tocompareLines := some cur, matchCnt := 1, curgroup := [instn] }
  | some ref =>
    let (cnt, fail) := compareLines ref cur
    if cnt ≠ ref.length then
      if 1 < s.matchCnt then
        some ⟨some cur, 1, s.subgroups ++ [s.curgroup], [instn]⟩
      else none
    else if fail then none
    else some { s with matchCnt := s.matchCnt + 1, curgroup := s.curgroup ++ [instn] }

def groupLoop (tInstns : List String) : Option Progress :=
  (tInstns.insertionSort (· ≤ ·)).foldlM (member file) ⟨none, 0, [], []⟩

/-- A line of `group_map.txt`: the id and the members. -/
def readGroup (line : Text) : Option (Text × List String) :=
  match line.dropLast.splitOn '|' with
  | [groupId, _, tInstns] => some (groupId, (tInstns.splitOn ',').map String.ofList)
  | _ => none

/-- `batch_group`, from the lines of `group_map.txt`. -/
def batchGroup (groupMap : List Text) : Option (List Text) :=
  (groupMap.mapM readGroup).map fun groups =>
    (groups.filter fun g => (groupLoop file g.2).isSome).map Prod.fst

end Group

/-- The text of `batch_transponder_2.txt`, from that of `group_map.txt`. -/
def checkSet (runs runs10 : String → Option Text) (groupMap : Text) : Option Text :=
  (batchGroup (followerLines runs runs10) (lines '\n' (universalNewlines groupMap))).map
    fun ids => ids.flatMap (· ++ ['\n'])

/-! ### Two files -/

/-- The line passes against that of the reference.  Without a comma it always does. -/
def SameLine (r line : Text) : Prop :=
  line = r ∨ ',' ∉ line ∨ (line.dropLast.splitOn ',').Perm (r.dropLast.splitOn ',')

def Alike (ref cur : List Text) : Prop := List.Forall₂ SameLine ref cur

/-- After a first line that fails, the rest of the reference comes later on: the count is complete
all the same. -/
inductive Stumbles : List Text → List Text → Prop
  | here {r line : Text} {ref cur : List Text} (h : ¬SameLine r line)
      (hrest : (r :: ref).Sublist cur) : Stumbles (r :: ref) (line :: cur)
  | later {r line : Text} {ref cur : List Text} (h : SameLine r line) (hrest : Stumbles ref cur) :
      Stumbles (r :: ref) (line :: cur)

section Compare

variable {ref cur : List Text} {k : Nat} {r line : Text}

theorem alike_cons :
    Alike (r :: ref) (line :: cur) ↔ SameLine r line ∧ Alike ref cur := List.forall₂_cons

theorem stumbles_cons : Stumbles (r :: ref) (line :: cur) ↔
    (SameLine r line ∧ Stumbles ref cur) ∨ (¬SameLine r line ∧ (r :: ref).Sublist cur) := by
  constructor
  · intro h
    cases h with
    | here h hrest => exact .inr ⟨h, hrest⟩
    | later h hrest => exact .inl ⟨h, hrest⟩
  · intro h
    rcases h with ⟨h, hrest⟩ | ⟨h, hrest⟩
    · exact .later h hrest
    · exact .here h hrest

theorem not_stumbles_nil_left : ¬Stumbles [] cur := fun h => by cases h

theorem not_stumbles_nil_right : ¬Stumbles ref [] := fun h => by cases h

theorem sortedFields_eq_iff :
    sortedFields line = sortedFields r ↔
      (line.dropLast.splitOn ',').Perm (r.dropLast.splitOn ',') := by
  unfold sortedFields
  rw [← List.map_perm_map_iff (f := String.ofList) fun _ _ h => String.ofList_injective h]
  constructor
  · intro h
    have hline := List.perm_insertionSort (· ≤ ·) ((line.dropLast.splitOn ',').map String.ofList)
    rw [h] at hline
    exact hline.symm.trans (List.perm_insertionSort (· ≤ ·) _)
  · intro h
    refine List.Perm.eq_of_pairwise' (r := (· ≤ ·)) (List.pairwise_insertionSort _ _)
      (List.pairwise_insertionSort _ _) ?_
    exact (List.perm_insertionSort _ _).trans (h.trans (List.perm_insertionSort _ _).symm)

theorem compareLine_same (hr : ref[k]? = some r) (h : SameLine r line) :
    compareLine ref (k, false) line = (k + 1, false) := by
  unfold compareLine
  rw [hr]
  by_cases heq : line = r
  · exact if_pos heq
  · have hpass : ¬((false = true) ∨ (',' ∈ line ∧ sortedFields line ≠ sortedFields r)) := by
      rw [ne_eq, sortedFields_eq_iff]
      have h := h.resolve_left heq
      tauto
    exact (if_neg heq).trans (if_neg hpass)

theorem compareLine_differs (hr : ref[k]? = some r) (h : ¬SameLine r line) :
    compareLine ref (k, false) line = (k, true) := by
  unfold SameLine at h
  rw [not_or, not_or, not_not, ← sortedFields_eq_iff] at h
  unfold compareLine
  rw [hr]
  exact (if_neg h.1).trans (if_pos (.inr h.2))

theorem compareLine_failed (hr : ref[k]? = some r) :
    compareLine ref (k, true) line = (if line = r then k + 1 else k, true) := by
  unfold compareLine
  rw [hr]
  split_ifs <;> simp_all

theorem le_compareLine (s : Nat × Bool) : s.1 ≤ (compareLine ref s line).1 := by
  unfold compareLine
  cases ref[s.1]? <;> dsimp only <;> split_ifs <;> simp

theorem le_foldl_compareLine (cur : List Text) (s : Nat × Bool) :
    s.1 ≤ (cur.foldl (compareLine ref) s).1 := by
  induction cur generalizing s with
  | nil => exact le_rfl
  | cons line cur ih => exact (le_compareLine s).trans (ih (compareLine ref s line))

theorem getElem?_middle (pre rest : List Text) (r : Text) :
    (pre ++ r :: rest)[pre.length]? = some r := by simp

/-- Once a line has failed, the loop looks for the rest of the reference in what follows. -/
theorem foldl_failed (pre rest cur : List Text) :
    (cur.foldl (compareLine (pre ++ rest)) (pre.length, true)).2 = true ∧
      ((cur.foldl (compareLine (pre ++ rest)) (pre.length, true)).1 = (pre ++ rest).length ↔
        rest.Sublist cur) := by
  induction cur generalizing pre rest with
  | nil =>
    refine ⟨rfl, ?_⟩
    rw [List.foldl_nil, List.length_append, List.sublist_nil, ← List.length_eq_zero_iff]
    omega
  | cons line cur ih =>
    cases rest with
    | nil =>
      have hstep : compareLine (pre ++ []) (pre.length, true) line = (pre.length, true) := by
        simp [compareLine]
      rw [List.foldl_cons, hstep]
      have hrest := ih pre []
      refine ⟨hrest.1, ?_⟩
      rw [hrest.2]
      simp
    | cons r rest =>
      rw [List.foldl_cons, compareLine_failed (getElem?_middle pre rest r)]
      split_ifs with hline
      · have hrest := ih (pre ++ [r]) rest
        rw [List.length_append, List.append_assoc, List.singleton_append] at hrest
        rw [hline, List.cons_sublist_cons]
        exact hrest
      · have hrest := ih pre (r :: rest)
        refine ⟨hrest.1, hrest.2.trans ?_⟩
        rw [List.sublist_cons_iff]
        constructor
        · exact Or.inl
        · intro h
          rcases h with h | ⟨ref', heq, _⟩
          · exact h
          · exact absurd (List.cons.inj heq).1.symm hline

/-- The loop from a place of the reference that every line before has passed to. -/
theorem foldl_compareLine (pre rest cur : List Text) :
    (cur.foldl (compareLine (pre ++ rest)) (pre.length, false) = ((pre ++ rest).length, false) ↔
      Alike rest cur) ∧
    (cur.foldl (compareLine (pre ++ rest)) (pre.length, false) = ((pre ++ rest).length, true) ↔
      Stumbles rest cur) := by
  induction cur generalizing pre rest with
  | nil =>
    simp [Alike, not_stumbles_nil_right]
  | cons line cur ih =>
    cases rest with
    | nil =>
      -- the file is longer than the reference, and the count has passed its end
      have hstep : compareLine pre (pre.length, false) line = (pre.length + 1, false) := by
        simp [compareLine]
      have hpast (b : Bool) :
          cur.foldl (compareLine pre) (pre.length + 1, false) ≠ (pre.length, b) := by
        intro h
        have hle : pre.length + 1 ≤ (cur.foldl (compareLine pre) (pre.length + 1, false)).1 :=
          le_foldl_compareLine cur (pre.length + 1, false)
        rw [h] at hle
        dsimp only at hle
        omega
      rw [List.append_nil, List.foldl_cons, hstep]
      simp [hpast, Alike, not_stumbles_nil_left]
    | cons r rest =>
      have hr := getElem?_middle pre rest r
      rw [List.foldl_cons, stumbles_cons, alike_cons]
      by_cases hsame : SameLine r line
      · have hrest := ih (pre ++ [r]) rest
        rw [List.append_assoc, List.singleton_append, List.length_append, List.length_singleton]
          at hrest
        rw [compareLine_same hr hsame]
        simpa [hsame] using hrest
      · have hfailed := foldl_failed pre (r :: rest) cur
        rw [compareLine_differs hr hsame]
        rw [Prod.ext_iff, Prod.ext_iff, hfailed.1, hfailed.2]
        simp [hsame]

theorem compareLines_alike :
    compareLines ref cur = (ref.length, false) ↔ Alike ref cur := (foldl_compareLine [] ref cur).1

theorem compareLines_stumbles :
    compareLines ref cur = (ref.length, true) ↔ Stumbles ref cur := (foldl_compareLine [] ref cur).2

end Compare

/-! ### The members of a group -/

section Members

variable {file : String → Option (List Text)}

/-- How the members in their order are accepted: in runs, each against its first member.  Every run
but the last has two members or more, and what starts the next has another count. -/
inductive Splits (file : String → Option (List Text)) : List String → Prop
  | nil : Splits file []
  | last {i : String} {is : List String} {ref : List Text} (hi : file i = some ref)
      (his : ∀ j ∈ is, ∃ cur, file j = some cur ∧ Alike ref cur) : Splits file (i :: is)
  | more {i j : String} {is js : List String} {ref cur : List Text} (hi : file i = some ref)
      (his : ∀ j ∈ is, ∃ cur, file j = some cur ∧ Alike ref cur) (hne : is ≠ [])
      (hj : file j = some cur) (hdiff : ¬Alike ref cur) (hcount : ¬Stumbles ref cur)
      (h : Splits file (j :: js)) : Splits file (i :: is ++ j :: js)

/-- The loop from a reference and a count of members that match it. -/
inductive Continues (file : String → Option (List Text)) : List Text → Nat → List String → Prop
  | nil {ref : List Text} {n : Nat} : Continues file ref n []
  | same {ref cur : List Text} {n : Nat} {j : String} {js : List String} (hj : file j = some cur)
      (hcur : Alike ref cur) (h : Continues file ref (n + 1) js) : Continues file ref n (j :: js)
  | next {ref cur : List Text} {n : Nat} {j : String} {js : List String} (hj : file j = some cur)
      (hdiff : ¬Alike ref cur) (hcount : ¬Stumbles ref cur) (hn : 1 < n)
      (h : Continues file cur 1 js) : Continues file ref n (j :: js)

theorem compareLines_apart {ref cur : List Text} :
    (compareLines ref cur).1 ≠ ref.length ↔ ¬Alike ref cur ∧ ¬Stumbles ref cur := by
  rw [← compareLines_alike, ← compareLines_stumbles]
  cases hfail : (compareLines ref cur).2 <;> simp [Prod.ext_iff, hfail]

/-- The three ways of a member after the first. -/
theorem member_file {s : Progress} {ref cur : List Text} {j : String}
    (hs : s.tocompareLines = some ref) (hj : file j = some cur) :
    (Alike ref cur → member file s j =
      some { s with matchCnt := s.matchCnt + 1, curgroup := s.curgroup ++ [j] }) ∧
    (Stumbles ref cur → member file s j = none) ∧
    (¬Alike ref cur → ¬Stumbles ref cur → member file s j = if 1 < s.matchCnt then
      some ⟨some cur, 1, s.subgroups ++ [s.curgroup], [j]⟩ else none) := by
  refine ⟨?_, ?_, ?_⟩
  · intro h
    simp [member, hj, hs, compareLines_alike.mpr h]
  · intro h
    simp [member, hj, hs, compareLines_stumbles.mpr h]
  · intro hdiff hcount
    simp [member, hj, hs, compareLines_apart.mpr ⟨hdiff, hcount⟩]

theorem continues_cons {ref cur : List Text} {n : Nat} {j : String} {js : List String}
    (hj : file j = some cur) : Continues file ref n (j :: js) ↔
      (Alike ref cur ∧ Continues file ref (n + 1) js) ∨
        (¬Alike ref cur ∧ ¬Stumbles ref cur ∧ 1 < n ∧ Continues file cur 1 js) := by
  constructor
  · intro h
    cases h with
    | same hj' hcur h =>
      obtain rfl := Option.some.inj (hj.symm.trans hj')
      exact .inl ⟨hcur, h⟩
    | next hj' hdiff hcount hn h =>
      obtain rfl := Option.some.inj (hj.symm.trans hj')
      exact .inr ⟨hdiff, hcount, hn, h⟩
  · intro h
    rcases h with ⟨hcur, h⟩ | ⟨hdiff, hcount, hn, h⟩
    · exact .same hj hcur h
    · exact .next hj hdiff hcount hn h

theorem foldlM_member {s : Progress} {ref : List Text} (hs : s.tocompareLines = some ref)
    (js : List String) :
    (js.foldlM (member file) s).isSome ↔ Continues file ref s.matchCnt js := by
  induction js generalizing s ref with
  | nil => simp [Continues.nil]
  | cons j js ih =>
    rw [List.foldlM_cons]
    cases hj : file j with
    | none =>
      have hstep : member file s j = none := by simp [member, hj]
      rw [hstep]
      constructor
      · intro h
        cases h
      · intro h
        cases h with
        | same hcur => simp [hj] at hcur
        | next hcur => simp [hj] at hcur
    | some cur =>
      obtain ⟨halike, hstumbles, hapart⟩ := member_file hs hj
      rw [continues_cons hj]
      by_cases hsame : Alike ref cur
      · have hrest := ih
          (s := { s with matchCnt := s.matchCnt + 1, curgroup := s.curgroup ++ [j] }) hs
        rw [halike hsame, Option.bind_eq_bind, Option.bind_some, hrest]
        simp [hsame]
      · by_cases hcount : Stumbles ref cur
        · rw [hstumbles hcount]
          simp [hsame, hcount]
        · rw [hapart hsame hcount]
          split_ifs with hn
          · rw [Option.bind_eq_bind, Option.bind_some, ih rfl]
            simp [hsame, hcount, hn]
          · simp [hsame, hn]

theorem Continues.append {ref : List Text} {n : Nat} {is js : List String}
    (his : ∀ j ∈ is, ∃ cur, file j = some cur ∧ Alike ref cur)
    (h : Continues file ref (n + is.length) js) : Continues file ref n (is ++ js) := by
  induction is generalizing n with
  | nil => exact h
  | cons i is ih =>
    obtain ⟨⟨cur, hi, hcur⟩, his⟩ := List.forall_mem_cons.mp his
    refine .same hi hcur (ih his ?_)
    rwa [List.length_cons, Nat.add_comm is.length, ← Nat.add_assoc] at h

theorem Splits.continues {i : String} {js : List String} (h : Splits file (i :: js)) :
    ∃ ref, file i = some ref ∧ Continues file ref 1 js := by
  generalize hl : i :: js = l at h
  induction h generalizing i js with
  | nil => cases hl
  | @last i' is ref hi his =>
    obtain ⟨rfl, rfl⟩ := List.cons.inj hl
    have hrun : Continues file ref 1 (js ++ []) := .append his .nil
    rw [List.append_nil] at hrun
    exact ⟨ref, hi, hrun⟩
  | @more i' j is js' ref cur hi his hne hj hdiff hcount _ ih =>
    rw [List.cons_append] at hl
    obtain ⟨rfl, rfl⟩ := List.cons.inj hl
    have ⟨cur', hcur', hnext⟩ := ih rfl
    obtain rfl := Option.some.inj (hj.symm.trans hcur')
    have hlen : 1 < 1 + is.length := by
      have hpos := List.length_pos_of_ne_nil hne
      omega
    exact ⟨ref, hi, .append his (.next hj hdiff hcount hlen hnext)⟩

theorem Continues.splits {i : String} {is js : List String} {ref : List Text} {n : Nat}
    (h : Continues file ref n js) (hi : file i = some ref)
    (his : ∀ j ∈ is, ∃ cur, file j = some cur ∧ Alike ref cur) (hn : n = 1 + is.length) :
    Splits file (i :: is ++ js) := by
  induction h generalizing i is with
  | nil =>
    rw [List.append_nil]
    exact .last hi his
  | @same ref cur n j js hj hcur _ ih =>
    have hmore : ∀ k ∈ is ++ [j], ∃ cur, file k = some cur ∧ Alike ref cur := by
      intro k hk
      rcases List.mem_append.mp hk with hk | hk
      · exact his k hk
      · rw [List.mem_singleton.mp hk]
        exact ⟨cur, hj, hcur⟩
    have hsplit := ih hi hmore (by rw [List.length_append, List.length_singleton]; omega)
    simpa using hsplit
  | @next ref cur n j js hj hdiff hcount hlt _ ih =>
    have hne : is ≠ [] := by
      rintro rfl
      simp at hn
      omega
    exact .more hi his hne hj hdiff hcount (ih hj (List.forall_mem_nil _) rfl)

theorem groupLoop_isSome_iff (file : String → Option (List Text)) (tInstns : List String) :
    (groupLoop file tInstns).isSome ↔ Splits file (tInstns.insertionSort (· ≤ ·)) := by
  unfold groupLoop
  cases tInstns.insertionSort (· ≤ ·) with
  | nil => simp [Splits.nil]
  | cons i js =>
    rw [List.foldlM_cons]
    cases hi : file i with
    | none =>
      have hstep : member file ⟨none, 0, [], []⟩ i = none := by simp [member, hi]
      rw [hstep]
      constructor
      · intro h
        cases h
      · intro h
        have ⟨ref, href, _⟩ := h.continues
        simp [hi] at href
    | some ref =>
      have hstep : member file ⟨none, 0, [], []⟩ i = some ⟨some ref, 1, [], [i]⟩ := by
        simp [member, hi]
      rw [hstep, Option.bind_eq_bind, Option.bind_some, foldlM_member rfl]
      constructor
      · intro h
        exact h.splits hi (List.forall_mem_nil _) rfl
      · intro h
        have ⟨ref', href, hrun⟩ := h.continues
        obtain rfl := Option.some.inj (hi.symm.trans href)
        exact hrun

/-- A line of `group_map.txt`. -/
structure GroupLine where
  groupId : Text
  field : Text
  tInstns : List Text
  groupId_free : ∀ c ∈ ['|', '\n', '\r'], c ∉ groupId
  field_free : ∀ c ∈ ['|', '\n', '\r'], c ∉ field
  tInstns_ne : tInstns ≠ []
  tInstns_free : ∀ t ∈ tInstns, ',' ∉ t ∧ ∀ c ∈ ['|', '\n', '\r'], c ∉ t

namespace GroupLine

variable (g : GroupLine)

def row : Text := ['|'].intercalate [g.groupId, g.field, [','].intercalate g.tInstns]

def instns : List String := g.tInstns.map String.ofList

theorem columns_free {c : Char} (hc : c ∈ ['|', '\n', '\r']) :
    ∀ t ∈ [g.groupId, g.field, [','].intercalate g.tInstns], c ∉ t := by
  have hcomma : c ≠ ',' := by
    rintro rfl
    exact absurd hc (by decide)
  simp only [List.forall_mem_cons, List.not_mem_nil, false_implies, implies_true, and_true]
  refine ⟨g.groupId_free c hc, g.field_free c hc, ?_⟩
  exact not_mem_intercalate hcomma fun t ht => (g.tInstns_free t ht).2 c hc

theorem row_free {c : Char} (hc : c ∈ ['\n', '\r']) : c ∉ g.row := by
  have hbar : c ≠ '|' := by
    rintro rfl
    exact absurd hc (by decide)
  exact not_mem_intercalate hbar (g.columns_free (List.mem_cons_of_mem '|' hc))

theorem readGroup_row : readGroup (g.row ++ ['\n']) = some (g.groupId, g.instns) := by
  have hcolumns : g.row.splitOn '|' = [g.groupId, g.field, [','].intercalate g.tInstns] :=
    List.splitOn_intercalate '|' (g.columns_free (by decide)) (by simp)
  have hnames : ([','].intercalate g.tInstns).splitOn ',' = g.tInstns :=
    List.splitOn_intercalate ',' (fun t ht => (g.tInstns_free t ht).1) g.tInstns_ne
  rw [readGroup, List.dropLast_concat, hcolumns]
  dsimp only
  rw [hnames]
  rfl

end GroupLine

def groupMapFile (gs : List GroupLine) : Text := gs.flatMap fun g => g.row ++ ['\n']

theorem lines_groupMapFile (gs : List GroupLine) :
    lines '\n' (universalNewlines (groupMapFile gs)) = gs.map fun g => g.row ++ ['\n'] := by
  have hret : '\r' ∉ groupMapFile gs := by
    intro hmem
    have ⟨g, _, hmem⟩ := List.mem_flatMap.mp hmem
    rcases List.mem_append.mp hmem with hmem | hmem
    · exact g.row_free (by decide) hmem
    · exact absurd hmem (by decide)
  rw [universalNewlines_of_not_mem hret]
  exact lines_flatMap GroupLine.row fun g _ => g.row_free (by decide)

/-- A group is taken exactly if its sorted members fall into runs that are alike: every line of a
member has the fields of the same line of the run's first member, or has no comma and is not looked
at.  So members of different runs may differ, and the last may be alone. -/
theorem groups_taken (runs runs10 : String → Option Text) {gs : List GroupLine}
    (hids : (gs.map GroupLine.groupId).Nodup) :
    ∃ ids : List Text,
      checkSet runs runs10 (groupMapFile gs) = some (ids.flatMap (· ++ ['\n'])) ∧
      ids.Sublist (gs.map GroupLine.groupId) ∧
      ∀ g ∈ gs, g.groupId ∈ ids ↔
        Splits (followerLines runs runs10) (g.instns.insertionSort (· ≤ ·)) := by
  have hread : (gs.map fun g => g.row ++ ['\n']).mapM readGroup =
      some (gs.map fun g => (g.groupId, g.instns)) := by
    rw [List.mapM_map]
    exact Loop.mapM_eq_map fun g _ => g.readGroup_row
  refine ⟨(gs.filter fun g => (groupLoop (followerLines runs runs10) g.instns).isSome).map
    GroupLine.groupId, ?_, ?_, ?_⟩
  · rw [checkSet, batchGroup, lines_groupMapFile, hread]
    simp only [Option.map_some, List.filter_map, List.map_map]
    rfl
  · exact List.filter_sublist.map _
  · intro g hg
    rw [← groupLoop_isSome_iff, List.mem_map]
    constructor
    · intro ⟨g', hg', hid⟩
      have ⟨hmem, htaken⟩ := List.mem_filter.mp hg'
      obtain rfl := List.inj_on_of_nodup_map hids hmem hg hid
      exact htaken
    · intro htaken
      exact ⟨g, List.mem_filter.mpr ⟨hg, htaken⟩, rfl⟩

/-- Files of three instructions; the last has another set. -/
def threeFiles (instn : String) : Option Text :=
  if instn ∈ ["ADD", "AND"] then some "scb_0:1\nscb_1,scb_2\n".toList
  else if instn = "SUB" then some "scb_0:1\nscb_1,scb_3\n".toList
  else none

/-- The other one stands alone behind a pair, but not behind one member. -/
def threeGroups : List GroupLine :=
  [⟨"2".toList, "rs1".toList, ["SUB".toList, "AND".toList, "ADD".toList], by decide, by decide,
      by decide, by decide⟩,
    ⟨"3".toList, "rs1".toList, ["ADD".toList, "SUB".toList], by decide, by decide, by decide,
      by decide⟩]

theorem lone_member_taken :
    checkSet threeFiles (fun _ => none) (groupMapFile threeGroups) = some "2\n".toList ∧
      Splits (followerLines threeFiles fun _ => none) ["ADD", "AND", "SUB"] ∧
      ¬Splits (followerLines threeFiles fun _ => none) ["ADD", "SUB"] := by
  have ⟨ids, hids, hsub, hmem⟩ :=
    groups_taken threeFiles (fun _ => none) (by decide : (threeGroups.map _).Nodup)
  have hrun : checkSet threeFiles (fun _ => none) (groupMapFile threeGroups) =
      some "2\n".toList := by decide +kernel
  have htext : ids.flatMap (· ++ ['\n']) = "2\n".toList := by
    rw [hids] at hrun
    exact Option.some.inj hrun
  have hpart : ∀ ids ∈ ["2".toList, "3".toList].sublists,
      ids.flatMap (· ++ ['\n']) = "2\n".toList → "2".toList ∈ ids ∧ "3".toList ∉ ids := by decide
  have hin := hpart ids (List.mem_sublists.mpr hsub) htext
  refine ⟨hrun, ?_, ?_⟩
  · exact (hmem threeGroups[0] (by simp [threeGroups])).mp hin.1
  · intro h
    exact hin.2 ((hmem threeGroups[1] (by simp [threeGroups])).mpr h)

end Members

/-! ### Files of follower sets -/

section Followers

open Decisions

variable {t t' : FollowerSet}

theorem nodeText_inj {n n' : Node Loc} (h : nodeText n = nodeText n') : n = n' := by
  have hloc : n.loc = n'.loc := by
    apply Subtype.ext
    rw [← remove_nodeText n, ← remove_nodeText n', h]
  have hfinal : isFinal n = true ↔ isFinal n' = true := by
    rw [← finalPart_nodeText, ← finalPart_nodeText, h]
  cases n <;> cases n' <;> simp_all [Node.loc, isFinal]

theorem comma_mem_setRow : ',' ∈ setRow t ++ ['\n'] ↔ 2 ≤ t.1.length := by
  have hfree (n : Node Loc) : ',' ∉ nodeText n :=
    not_mem_nodeText (fun p => p.2.comma) (by decide) n
  unfold setRow
  rcases t.1 with _ | ⟨n, _ | ⟨n', ns⟩⟩
  · simp [List.intercalate]
  · simp [List.intercalate, hfree]
  · simp [List.intercalate_cons_cons]

/-- A set of one element passes whatever stands in its place. -/
theorem sameLine_setRow : SameLine (setRow t ++ ['\n']) (setRow t' ++ ['\n']) ↔
    t'.1.length ≤ 1 ∨ t.1.Perm t'.1 := by
  have hcomma := comma_mem_setRow (t := t')
  have hfields {u : FollowerSet} (hne : u.1 ≠ []) :
      (setRow u ++ ['\n']).dropLast.splitOn ',' = u.1.map nodeText := by
    rw [List.dropLast_concat, splitOn_setRow hne]
  have hperm {u u' : FollowerSet} :
      (u.1.map nodeText).Perm (u'.1.map nodeText) ↔ u.1.Perm u'.1 :=
    List.map_perm_map_iff fun _ _ h => nodeText_inj h
  by_cases hshort : t'.1.length ≤ 1
  · have hno : ',' ∉ setRow t' ++ ['\n'] := by
      rw [hcomma]
      omega
    exact ⟨fun _ => .inl hshort, fun _ => .inr (.inl hno)⟩
  · have hyes : ',' ∈ setRow t' ++ ['\n'] := by
      rw [hcomma]
      omega
    have hne' : t'.1 ≠ [] := List.ne_nil_of_length_pos (by omega)
    constructor
    · intro h
      right
      have hsame : ((setRow t' ++ ['\n']).dropLast.splitOn ',').Perm
          ((setRow t ++ ['\n']).dropLast.splitOn ',') := by
        rcases h with h | h | h
        · rw [h]
        · exact absurd hyes h
        · exact h
      rw [hfields hne'] at hsame
      have hne : t.1 ≠ [] := by
        intro hnil
        have hlen := hsame.length_eq
        simp [setRow, hnil, List.intercalate] at hlen
        omega
      rw [hfields hne, hperm] at hsame
      exact hsame.symm
    · intro h
      have h := h.resolve_left hshort
      have hne : t.1 ≠ [] := by
        intro hnil
        rw [hnil] at h
        exact hne' h.nil_eq.symm
      rw [SameLine, hfields hne, hfields hne', hperm]
      exact .inr (.inr h.symm)

/-- What is compared of two entries: a set with two elements or more has those of the set in its
place. -/
def SameSets (e e' : Node Loc × List FollowerSet) : Prop :=
  List.Forall₂ (fun t t' => t'.1.length ≤ 1 ∨ t.1.Perm t'.1) e.2 e'.2

/-- The files have their headers in the same places. -/
def SameShape (m m' : List (Node Loc × List FollowerSet)) : Prop :=
  List.Forall₂ (fun e e' => e.2.length = e'.2.length) m m'

theorem comma_free_headerRow (e : Node Loc × List FollowerSet) : ',' ∉ headerRow e ++ ['\n'] := by
  have hname : ',' ∉ nodeText e.1 := not_mem_nodeText (fun p => p.2.comma) (by decide) e.1
  have hdigits : ',' ∉ Nat.toDigits 10 e.2.length := by
    intro hmem
    exact absurd (Nat.isDigit_of_mem_toDigits (by decide) (by decide) hmem) (by decide)
  simp [headerRow, hname, hdigits]

theorem alike_append {a a' b b' : List Text} (h : a.length = a'.length) :
    Alike (a ++ b) (a' ++ b') ↔ Alike a a' ∧ Alike b b' := by
  induction a generalizing a' with
  | nil =>
    obtain rfl := List.length_eq_zero_iff.mp h.symm
    simp [Alike]
  | cons r a ih =>
    cases a' with
    | nil => cases h
    | cons line a' =>
      rw [List.cons_append, List.cons_append, alike_cons, alike_cons, ih (Nat.succ.inj h),
        and_assoc]

/-- Files of one shape pass exactly if the sets with two elements or more agree: the headers have
no comma, so the locations are not looked at. -/
theorem alike_followerRows {m m' : List (Node Loc × List FollowerSet)} (h : SameShape m m') :
    Alike ((followerRows m).map (· ++ ['\n'])) ((followerRows m').map (· ++ ['\n'])) ↔
      List.Forall₂ SameSets m m' := by
  induction h with
  | nil => simp [Alike, followerRows]
  | @cons e e' m m' he _ ih =>
    have hrows (e : Node Loc × List FollowerSet) (m : List (Node Loc × List FollowerSet)) :
        (followerRows (e :: m)).map (· ++ ['\n']) = (headerRow e ++ ['\n']) ::
          ((e.2.map fun t => setRow t ++ ['\n']) ++ (followerRows m).map (· ++ ['\n'])) := by
      simp [followerRows]
    have hhead : SameLine (headerRow e ++ ['\n']) (headerRow e' ++ ['\n']) :=
      .inr (.inl (comma_free_headerRow e'))
    have hsets : Alike (e.2.map fun t => setRow t ++ ['\n'])
        (e'.2.map fun t => setRow t ++ ['\n']) ↔ SameSets e e' := by
      unfold Alike SameSets
      simp only [List.forall₂_map_left_iff, List.forall₂_map_right_iff, sameLine_setRow]
    rw [hrows, hrows, alike_cons, alike_append (by simpa using he), hsets, ih, List.forall₂_cons]
    exact and_iff_right hhead

variable {runs runs10 : String → Option Text} {tInstns : List String}
  {dict : String → List (Node Loc × List FollowerSet)}

theorem splits_pair {file : String → Option (List Text)} {i j : String} {ref cur : List Text}
    (hi : file i = some ref) (hj : file j = some cur) (h : Splits file [i, j]) :
    Alike ref cur := by
  have ⟨ref', href, hrun⟩ := h.continues
  obtain rfl := Option.some.inj (hi.symm.trans href)
  rcases (continues_cons hj).mp hrun with ⟨hcur, _⟩ | ⟨_, _, hlt, _⟩
  · exact hcur
  · omega

/-- Of members whose files have one shape, those that agree in every set with two elements or more
make a group that is taken, however the sets are written and whatever locations they are listed
for; and of two members nothing less is enough. -/
theorem sets_compared
    (hruns : ∀ i ∈ tInstns, (runs i).or (runs10 i) = some (followerFile (dict i)))
    (hshape : ∀ i ∈ tInstns, ∀ j ∈ tInstns, SameShape (dict i) (dict j)) :
    ((∀ i ∈ tInstns, ∀ j ∈ tInstns, i ≤ j → List.Forall₂ SameSets (dict i) (dict j)) →
      (groupLoop (followerLines runs runs10) tInstns).isSome) ∧
    (tInstns.length = 2 → (groupLoop (followerLines runs runs10) tInstns).isSome →
      ∀ i ∈ tInstns, ∀ j ∈ tInstns, i < j → List.Forall₂ SameSets (dict i) (dict j)) := by
  have hmem {i : String} : i ∈ tInstns.insertionSort (· ≤ ·) ↔ i ∈ tInstns :=
    List.mem_insertionSort _
  have hsorted := List.pairwise_insertionSort (· ≤ ·) tInstns
  have hfile : ∀ i ∈ tInstns, followerLines runs runs10 i =
      some (lines '\n' (universalNewlines (followerFile (dict i)))) := by
    intro i hi
    rw [followerLines, hruns i hi]
    rfl
  have halike : ∀ i ∈ tInstns, ∀ j ∈ tInstns,
      (Alike (lines '\n' (universalNewlines (followerFile (dict i))))
        (lines '\n' (universalNewlines (followerFile (dict j)))) ↔
          List.Forall₂ SameSets (dict i) (dict j)) := by
    intro i hi j hj
    rw [lines_followerFile, lines_followerFile, alike_followerRows (hshape i hi j hj)]
  rw [groupLoop_isSome_iff]
  constructor
  · intro hsets
    cases hlist : tInstns.insertionSort (· ≤ ·) with
    | nil => exact .nil
    | cons i js =>
      rw [hlist] at hmem hsorted
      have hi := hmem.mp List.mem_cons_self
      refine .last (hfile i hi) ?_
      intro j hj
      have hj' := hmem.mp (List.mem_cons_of_mem i hj)
      have hle := (List.pairwise_cons.mp hsorted).1 j hj
      exact ⟨_, hfile j hj', (halike i hi j hj').mpr (hsets i hi j hj' hle)⟩
  · intro hlen htaken i hi j hj hlt
    have hperm : [i, j].Perm tInstns := by
      refine (List.subperm_of_subset (by simp [hlt.ne]) ?_).perm_of_length_le hlen.le
      intro k hk
      rcases List.mem_pair.mp hk with rfl | rfl
      · exact hi
      · exact hj
    have hpair : tInstns.insertionSort (· ≤ ·) = [i, j] :=
      List.Perm.eq_of_pairwise' hsorted (by simp [hlt.le])
        ((List.perm_insertionSort _ _).trans hperm.symm)
    rw [hpair] at htaken
    exact (halike i hi j hj).mp (splits_pair (hfile i hi) (hfile j hj) htaken)

def scb (i : Fin 4) : Loc :=
  ⟨"scb_".toList ++ Nat.toDigits 10 i, by
    constructor <;> revert i <;> decide⟩

/-- One set in two orders. -/
def oneSet (instn : String) : FollowerSet :=
  if instn = "ADD" then ⟨[.enter (scb 1), .enter (scb 2)], by decide⟩
  else ⟨[.enter (scb 2), .enter (scb 1)], by decide⟩

/-- The set is that of another location for each of the two. -/
def twoDicts (instn : String) : List (Node Loc × List FollowerSet) :=
  [(.enter (scb (if instn = "ADD" then 0 else 3)), [oneSet instn])]

theorem oneSet_perm (i j : String) : (oneSet i).1.Perm (oneSet j).1 := by
  unfold oneSet
  split_ifs
  · exact .rfl
  · exact .swap _ _ _
  · exact .swap _ _ _
  · exact .rfl

theorem other_location_taken :
    (groupLoop (followerLines (fun i => some (followerFile (twoDicts i))) fun _ => none)
      ["SUB", "ADD"]).isSome := by
  have hshape (i j : String) : SameShape (twoDicts i) (twoDicts j) := .cons rfl .nil
  have hsets (i j : String) : List.Forall₂ SameSets (twoDicts i) (twoDicts j) :=
    .cons (.cons (.inr (oneSet_perm i j)) .nil) .nil
  exact (sets_compared (fun _ _ => rfl) fun i _ j _ => hshape i j).1 fun i _ j _ _ => hsets i j

end Followers

end SynthLC.CheckSet
