import SynthLC.DynPerfield
import SynthLC.IntrinsicPerfield

/-! The static entries of the leakage table: `pp` of `dyn_step2_perfield.py` reads back the flags
that `pp` of `intrinsic_step2_perfield.py` has written. -/
namespace SynthLC.DynPerfield

open Intrinsic (ResultLine)

/-- `t` of `DivDecNode.str` -/
def flagText : Option Bool → String
  | none => "-1"
  | some true => "1"
  | some false => "0"

/-- The columns of a line that are read: the source and the two flags of any difference. -/
def resultColumns (l : ResultLine) : String × String × String :=
  (l.node, flagText l.rs1.iso, flagText l.rs2.iso)

def isoDep (l : ResultLine) : Operand → Option Bool
  | .rs1 => l.rs1.iso
  | .rs2 => l.rs2.iso

/-- The flag that is found at the operand's character of the two joined texts. A first flag of
`-1` takes both characters. -/
def isoDepRead (l : ResultLine) : Operand → Option Bool
  | .rs1 => l.rs1.iso
  | .rs2 => if l.rs1.iso = none then some true else l.rs2.iso

/-- The lines of the sources in a class. -/
def linesOf (results : List ResultLine) (src : String) : List ResultLine :=
  results.filter fun l => decide (transform l.node = src)

/-- The name occurs in the text of the group. -/
def NameOccurs (curInst : String) (g : GroupItem) : Prop := curInst.toList <:+: g.tInstns.toList

/-- The name is one of the instructions of the group. -/
def IsMember (curInst : String) (g : GroupItem) : Prop :=
  curInst.toList ∈ g.tInstns.toList.splitOn ','

def entryOf (pair : Char × Char) : Operand → Char
  | .rs1 => pair.1
  | .rs2 => pair.2

/-- What a static entry of a row is meant to be. -/
structure ExactEntry (curInst : String) (results : List ResultLine) (g : GroupItem) (src : String)
    (op : Operand) (entry : Char) : Prop where
  one : entry = '1' ↔ IsMember curInst g ∧ ∃ l ∈ linesOf results src, isoDep l op = some true
  zero : (∀ l ∈ linesOf results src, isoDep l op = some false) → entry = '0'

/-- What it is: the flag of the last line. -/
def ShowsOne (curInst : String) (results : List ResultLine) (g : GroupItem) (src : String)
    (op : Operand) : Prop :=
  NameOccurs curInst g ∧ ∃ l ∈ (linesOf results src).getLast?, isoDepRead l op = some true

section Entries

variable {curInst src : String} {results : List ResultLine} {g : GroupItem} {op : Operand}
  {pair : Char × Char}

theorem lookup_intrinsicMap : (intrinsicMap (results.map resultColumns)).lookup src =
    (linesOf results src).getLast?.map fun l =>
      (flagText l.rs1.iso ++ flagText l.rs2.iso).toList := by
  unfold intrinsicMap
  rw [List.foldl_map, Dict.lookup_foldl_set_last (fun l => transform (resultColumns l).1)
    (fun l => ((resultColumns l).2.1 ++ (resultColumns l).2.2).toList), List.lookup_nil,
    Option.or_none]
  rfl

/-- The first two characters of the joined texts. -/
theorem flagTexts_read (l : ResultLine) : ∃ pair : Char × Char,
    (do
      let dep1 ← (flagText l.rs1.iso ++ flagText l.rs2.iso).toList[0]?
      let dep2 ← (flagText l.rs1.iso ++ flagText l.rs2.iso).toList[1]?
      pure (dep1, dep2)) = some pair ∧
    ∀ op, (entryOf pair op = '1' ↔ isoDepRead l op = some true) ∧
      (entryOf pair op = '0' ↔ isoDepRead l op = some false) := by
  have hall : ∀ a b : Option Bool, ∃ pair : Char × Char,
      (do
        let dep1 ← (flagText a ++ flagText b).toList[0]?
        let dep2 ← (flagText a ++ flagText b).toList[1]?
        pure (dep1, dep2)) = some pair ∧
      ((pair.1 = '1' ↔ a = some true) ∧ (pair.1 = '0' ↔ a = some false)) ∧
      ((pair.2 = '1' ↔ (if a = none then some true else b) = some true) ∧
        (pair.2 = '0' ↔ (if a = none then some true else b) = some false)) := by
    intro a b
    rcases a with _ | a <;> rcases b with _ | b
    · exact ⟨('-', '1'), rfl, by decide⟩
    · cases b <;> exact ⟨('-', '1'), rfl, by decide⟩
    · cases a
      · exact ⟨('0', '-'), rfl, by decide⟩
      · exact ⟨('1', '-'), rfl, by decide⟩
    · cases a <;> cases b
      · exact ⟨('0', '0'), rfl, by decide⟩
      · exact ⟨('0', '1'), rfl, by decide⟩
      · exact ⟨('1', '0'), rfl, by decide⟩
      · exact ⟨('1', '1'), rfl, by decide⟩
  have ⟨pair, hpair, hrs1, hrs2⟩ := hall l.rs1.iso l.rs2.iso
  refine ⟨pair, hpair, ?_⟩
  intro op
  cases op with
  | rs1 => exact hrs1
  | rs2 => exact hrs2

theorem intrinsicEntry_one
    (h : intrinsicEntry curInst (intrinsicMap (results.map resultColumns)) src g = some pair) :
    entryOf pair op = '1' ↔ ShowsOne curInst results g src op := by
  unfold ShowsOne
  unfold intrinsicEntry at h
  rw [lookup_intrinsicMap] at h
  split_ifs at h with hocc
  · cases hlast : (linesOf results src).getLast? with
    | none =>
      rw [hlast] at h
      obtain rfl := Option.some.inj h
      cases op <;> simp [entryOf]
    | some l =>
      rw [hlast] at h
      have ⟨pair', hpair, hread⟩ := flagTexts_read l
      obtain rfl := Option.some.inj (h.symm.trans hpair)
      simp [(hread op).1, NameOccurs, hocc]
  · obtain rfl := Option.some.inj h
    cases op <;> simp [entryOf, NameOccurs, hocc]

/-- Where no line of the class has the flag set and none is shown set, the entry is zero. -/
theorem intrinsicEntry_zero
    (h : intrinsicEntry curInst (intrinsicMap (results.map resultColumns)) src g = some pair)
    (hfalse : ∀ l ∈ linesOf results src, isoDep l op = some false)
    (hone : ¬ShowsOne curInst results g src op) : entryOf pair op = '0' := by
  unfold ShowsOne at hone
  unfold intrinsicEntry at h
  rw [lookup_intrinsicMap] at h
  split_ifs at h with hocc
  · cases hlast : (linesOf results src).getLast? with
    | none =>
      rw [hlast] at h
      obtain rfl := Option.some.inj h
      cases op <;> rfl
    | some l =>
      rw [hlast] at h hone
      have ⟨pair', hpair, hread⟩ := flagTexts_read l
      obtain rfl := Option.some.inj (h.symm.trans hpair)
      have hset : isoDepRead l op ≠ some true := fun hset => hone ⟨hocc, l, rfl, hset⟩
      have hdep := hfalse l (List.mem_of_getLast? hlast)
      rw [(hread op).2]
      cases op with
      | rs1 => exact hdep
      | rs2 =>
        unfold isoDepRead at hset ⊢
        by_cases hnone : l.rs1.iso = none
        · rw [if_pos hnone] at hset
          exact absurd rfl hset
        · rw [if_neg hnone]
          exact hdep
  · obtain rfl := Option.some.inj h
    cases op <;> rfl

theorem exactEntry_iff
    (h : intrinsicEntry curInst (intrinsicMap (results.map resultColumns)) src g = some pair) :
    ExactEntry curInst results g src op (entryOf pair op) ↔
      (ShowsOne curInst results g src op ↔
        IsMember curInst g ∧ ∃ l ∈ linesOf results src, isoDep l op = some true) := by
  have hshown : entryOf pair op = '1' ↔ ShowsOne curInst results g src op := intrinsicEntry_one h
  constructor
  · intro hexact
    rw [← hshown]
    exact hexact.one
  · intro hagree
    refine ⟨hshown.trans hagree, ?_⟩
    intro hfalse
    apply intrinsicEntry_zero h hfalse
    intro hone
    have ⟨_, l, hl, htrue⟩ := hagree.mp hone
    rw [hfalse l hl] at htrue
    cases htrue

theorem infix_intercalate {α : Type} {sep x : List α} {xs : List (List α)} (h : x ∈ xs) :
    x <:+: sep.intercalate xs := by
  induction xs with
  | nil => cases h
  | cons y ys ih =>
    cases ys with
    | nil =>
      rw [List.mem_singleton.mp h, List.intercalate_singleton]
    | cons z zs =>
      rw [List.intercalate_cons_cons]
      rcases List.mem_cons.mp h with rfl | h
      · rw [List.append_assoc]
        exact (List.prefix_append _ _).isInfix
      · exact (ih h).trans (List.suffix_append _ _).isInfix

/-- The name of a member occurs in the text. -/
theorem nameOccurs_of_isMember (h : IsMember curInst g) : NameOccurs curInst g := by
  have hinfix : curInst.toList <:+: [','].intercalate (g.tInstns.toList.splitOn ',') :=
    infix_intercalate h
  rwa [List.intercalate_splitOn] at hinfix

/-- What is taken for a set flag: the flag is 1, or the operand is the second one and the flag of
the first is -1. -/
def ReadsSet (l : ResultLine) (op : Operand) : Prop :=
  isoDep l op = some true ∨ op = .rs2 ∧ l.rs1.iso = none

theorem readsSet_iff {l : ResultLine} : ReadsSet l op ↔ isoDepRead l op = some true := by
  cases op with
  | rs1 => simp [ReadsSet, isoDep, isoDepRead]
  | rs2 =>
    by_cases hnone : l.rs1.iso = none
    · simp [ReadsSet, isoDepRead, hnone]
    · simp [ReadsSet, isoDep, isoDepRead, hnone]

/-- The lines of a class say of a group what its last line says. -/
structure LinesAgree (curInst : String) (results : List ResultLine) (g : GroupItem) (src : String)
    (op : Operand) : Prop where
  /-- The name occurs in the text, but not as a member: the last line is not set. -/
  stranger : NameOccurs curInst g → ¬IsMember curInst g →
    ∀ l ∈ (linesOf results src).getLast?, ¬ReadsSet l op
  /-- A member, and some line is set: the last one is. -/
  last : IsMember curInst g → (∃ r ∈ linesOf results src, isoDep r op = some true) →
    ∃ l ∈ (linesOf results src).getLast?, ReadsSet l op
  /-- A member, and the last line has -1 for the first operand: some line is set for the second. -/
  absent : IsMember curInst g → op = .rs2 → ∀ l ∈ (linesOf results src).getLast?,
    l.rs1.iso = none → ∃ r ∈ linesOf results src, isoDep r op = some true

theorem linesAgree_iff : LinesAgree curInst results g src op ↔ (ShowsOne curInst results g src op ↔
    IsMember curInst g ∧ ∃ l ∈ linesOf results src, isoDep l op = some true) := by
  unfold ShowsOne
  simp only [← readsSet_iff]
  constructor
  · intro h
    constructor
    · intro ⟨hocc, l, hl, hset⟩
      have hmember : IsMember curInst g := by
        by_contra hno
        exact h.stranger hocc hno l hl hset
      rcases hset with hset | ⟨hop, hnone⟩
      · exact ⟨hmember, l, List.mem_of_getLast? hl, hset⟩
      · exact ⟨hmember, h.absent hmember hop l hl hnone⟩
    · intro ⟨hmember, hsome⟩
      exact ⟨nameOccurs_of_isMember hmember, h.last hmember hsome⟩
  · intro h
    refine ⟨?_, ?_, ?_⟩
    · intro hocc hno l hl hset
      exact hno (h.mp ⟨hocc, l, hl, hset⟩).1
    · intro hmember hsome
      exact (h.mpr ⟨hmember, hsome⟩).2
    · intro hmember hop l hl hnone
      exact (h.mp ⟨nameOccurs_of_isMember hmember, l, hl, .inr ⟨hop, hnone⟩⟩).2

end Entries

section Table

variable {curInst src : String} {c : Csvs} {m : GroupMap} {log : List Line}
  {results : List ResultLine} {rows : List Row} {row : Row} {dyn : DynResult}
  {intrinsic : List (String × List Char)}

/-- The static entries of a row, group by group. -/
theorem tableRow_intrinsic (h : tableRow curInst intrinsic m log dyn src = some row) {e : Entry}
    (he : e ∈ row.entries) {g : GroupItem} (hg : g ∈ m.items) (hid : e.groupId = g.groupId) :
    g.field ≠ .none ∧ intrinsicEntry curInst intrinsic src g = some e.intrinsic := by
  unfold tableRow at h
  obtain ⟨entries, hentries, h⟩ := Option.bind_eq_some_iff.mp h
  obtain rfl := Option.some.inj h
  obtain ⟨g', hg', hentry⟩ := (Loop.mem_mapM hentries).mp he
  obtain ⟨hitem, hfield⟩ := List.mem_filter.mp hg'
  obtain rfl : g' = g :=
    List.inj_on_of_nodup_map m.nodup hitem hg ((tableEntry_spec hentry).1.symm.trans hid)
  refine ⟨by simpa [hasField] using hfield, ?_⟩
  unfold tableEntry at hentry
  obtain ⟨pair, hpair, hentry⟩ := Option.bind_eq_some_iff.mp hentry
  obtain ⟨node, _, hentry⟩ := Option.bind_eq_some_iff.mp hentry
  obtain ⟨arr, _, hentry⟩ := Option.bind_eq_some_iff.mp hentry
  obtain rfl := Option.some.inj hentry
  exact hpair

/-- The static entries of a printed table are the ones meant exactly if its names, the order of its
lines and its absent flags do not mislead the reader. -/
theorem intrinsic_entries_iff (h : pp curInst c m log (results.map resultColumns) = some rows) :
    (∀ row ∈ rows, ∀ e ∈ row.entries, ∀ g ∈ m.items, e.groupId = g.groupId → ∀ op,
      ExactEntry curInst results g row.decisionSrc op (entryOf e.intrinsic op)) ↔
    ∀ l ∈ log, ∀ g ∈ m.items, g.field ≠ .none → ∀ op,
      LinesAgree curInst results g l.decisionNode op := by
  unfold pp at h
  obtain ⟨dyn, hdyn, h⟩ := Option.bind_eq_some_iff.mp h
  split_ifs at h
  constructor
  · intro hrows l hl g hg hfield op
    have hsrc := mem_sources.mpr ⟨l, hl, rfl⟩
    obtain ⟨row, hrow⟩ := Loop.exists_mapM.mp ⟨rows, h⟩ l.decisionNode hsrc
    have hmem := (Loop.mem_mapM h).mpr ⟨l.decisionNode, hsrc, hrow⟩
    obtain ⟨e, he, hid⟩ := tableRow_entries hrow hg hfield
    have hexact := hrows row hmem e he g hg hid op
    rw [tableRow_src hrow] at hexact
    exact linesAgree_iff.mpr ((exactEntry_iff (tableRow_intrinsic hrow he hg hid).2).mp hexact)
  · intro hagree row hmem e he g hg hid op
    obtain ⟨src, hsrc, hrow⟩ := (Loop.mem_mapM h).mp hmem
    obtain ⟨l, hl, rfl⟩ := mem_sources.mp hsrc
    obtain ⟨hfield, hentry⟩ := tableRow_intrinsic hrow he hg hid
    rw [tableRow_src hrow]
    exact (exactEntry_iff hentry).mpr (linesAgree_iff.mp (hagree l hl g hg hfield op))

/-- A line of `intrinsic_result.txt` with the given flags of any difference. -/
def resultLine (node : String) (rs1 rs2 : Option Bool) : ResultLine :=
  ⟨node, ⟨some false, rs1, some false⟩, ⟨some false, rs2, some false⟩⟩

/-- One source with two decisions and a class of four with two. -/
def sourceAndClass : List Line := [⟨"0", "a"⟩, ⟨"1", "a"⟩, ⟨"2", "iso_1"⟩, ⟨"3", "iso_1"⟩]

/-- What `pp` prints for them where nothing is covered. -/
def staticRows (a class1 : Char × Char) : List Row :=
  [⟨"a", [⟨"1", a, ⟨false, false⟩⟩]⟩, ⟨"iso_1", [⟨"1", class1, ⟨false, false⟩⟩]⟩]

/-- The instruction is the only member of the group, and of two lines of the class the last one has
the flag. -/
theorem intrinsic_entries_plain :
    let results := [resultLine "scb_0_s12" (some false) (some false),
      resultLine "a" (some true) (some false), resultLine "scb_1_s12" (some false) (some true)]
    pp "LW" (coveredAt []) oneGroup sourceAndClass (results.map resultColumns) =
      some (staticRows ('1', '0') ('0', '1')) ∧
    ∀ row ∈ staticRows ('1', '0') ('0', '1'), ∀ e ∈ row.entries, ∀ g ∈ oneGroup.items,
      e.groupId = g.groupId → ∀ op,
        ExactEntry "LW" results g row.decisionSrc op (entryOf e.intrinsic op) := by
  intro results
  have hrun : pp "LW" (coveredAt []) oneGroup sourceAndClass (results.map resultColumns) =
      some (staticRows ('1', '0') ('0', '1')) := by decide +kernel
  refine ⟨hrun, (intrinsic_entries_iff hrun).mpr ?_⟩
  have hagree (op : Operand) : ∀ l ∈ sourceAndClass, ∀ g ∈ oneGroup.items,
      ((∃ r ∈ (linesOf results l.decisionNode).getLast?, isoDepRead r op = some true) ↔
        ∃ r ∈ linesOf results l.decisionNode, isoDep r op = some true) := by
    cases op <;> decide +kernel
  have hname : ∀ g ∈ oneGroup.items, NameOccurs "LW" g ∧ IsMember "LW" g := by
    unfold NameOccurs IsMember
    decide
  intro l hl g hg _ op
  rw [linesAgree_iff]
  unfold ShowsOne
  simp only [hname g hg, true_and]
  exact hagree op l hl g hg

/-- One group of immediate instructions. -/
def immediates : GroupMap where
  items := [⟨"1", .rs1, "ADDI,ANDI"⟩]
  nodup := by decide

/-- The name of one instruction occurs in that of another; of two lines of a class only the last
one counts; and after an absent first flag the second operand is shown as set. -/
theorem entries_mislead :
    pp "ADD" (coveredAt []) immediates sourceAndClass
      ([resultLine "a" (some true) (some false)].map resultColumns) =
      some (staticRows ('1', '0') ('0', '0')) ∧ ¬IsMember "ADD" ⟨"1", .rs1, "ADDI,ANDI"⟩ ∧
    pp "LW" (coveredAt []) oneGroup sourceAndClass
      ([resultLine "scb_0_s12" (some true) (some false),
        resultLine "scb_1_s12" (some false) (some false)].map resultColumns) =
      some (staticRows ('0', '0') ('0', '0')) ∧
    pp "LW" (coveredAt []) oneGroup sourceAndClass
      ([resultLine "a" none none].map resultColumns) =
      some (staticRows ('-', '1') ('0', '0')) := by
  unfold IsMember
  decide +kernel

end Table

end SynthLC.DynPerfield
