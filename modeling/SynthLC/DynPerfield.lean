import SynthLC.Dict
import SynthLC.Verdict
import SynthLC.Opcodes
import SynthLC.Gconsts

/-! `pp` of `dyn_step2_perfield.py`: the rows of the leakage table, one for each decision source
of the log, with a static and a dynamic pair of entries for each group of transmitters. -/
namespace SynthLC

namespace DynPerfield

/-- One line of `dec_g_maps.txt`; the follower set is not used. -/
structure Line where
  cnt : String
  decisionNode : String

/-- One line of the group map. The instructions stay one text. -/
structure GroupItem where
  groupId : String
  field : OpField
  tInstns : String

structure GroupMap where
  items : List GroupItem
  nodup : (items.map GroupItem.groupId).Nodup

/-- The verdicts by field or operand, group and decision; `none` where there is no file. -/
structure Csvs where
  group : OpField → String → String → Option Result
  perfield : Operand → String → String → Option Result

/-- The verdict of one decision for one group, as it is added to `dyn_result`: nothing if the
query is not covered, otherwise the operands. Without the file of the group `pp` returns. -/
def groupResult (c : Csvs) (g : GroupItem) (cnt : String) : Option (Option (List Operand)) := do
  let res ← (c.group g.field g.groupId cnt).bind dfQuery
  if res ≠ .covered then pure none
  else if g.field = .rs1 then pure (some [.rs1])
  else
    let res1 ← (c.perfield .rs1 g.groupId cnt).bind dfQuery
    let res2 ← (c.perfield .rs2 g.groupId cnt).bind dfQuery
    pure (some ((if res1 = .covered then [.rs1] else []) ++ if res2 = .covered then [.rs2] else []))

abbrev DynResult := List (String × List (String × String × List Operand))

/-- `tmp_decision_map` -/
def tmpDecisionMap (log : List Line) : List (String × List String) :=
  log.foldl (fun d l => Dict.upsert l.decisionNode (· ++ [l.cnt]) [l.cnt] d) []

def decisionStep (c : Csvs) (g : GroupItem) (node : String) (d : DynResult) (cnt : String) :
    Option DynResult := do
  match ← groupResult c g cnt with
  | none => pure d
  | some result =>
    pure (Dict.upsert node (· ++ [(g.groupId, cnt, result)]) [(g.groupId, cnt, result)] d)

/-- A source with one decision has nothing to decide. -/
def sourceStep (c : Csvs) (g : GroupItem) (d : DynResult) (kv : String × List String) :
    Option DynResult :=
  if kv.2.length = 1 then some d else kv.2.foldlM (decisionStep c g kv.1) d

def groupStep (c : Csvs) (log : List Line) (d : DynResult) (g : GroupItem) : Option DynResult :=
  if g.field = .none then some d
  else
    (tmpDecisionMap log).foldlM (sourceStep c g)
      (log.foldl (fun d l => Dict.upsert l.decisionNode id [] d) d)

def dynResult (c : Csvs) (m : GroupMap) (log : List Line) : Option DynResult :=
  m.items.foldlM (groupStep c log) []

/-- `intrinsic_map`, from the source and the two dependency columns of each line. -/
def intrinsicMap (lines : List (String × String × String)) : List (String × List Char) :=
  lines.foldl (fun d l =>
    Dict.upsert (transform l.1) (fun _ => (l.2.1 ++ l.2.2).toList) (l.2.1 ++ l.2.2).toList d) []

/-- The static pair: the first two characters of the entry, if the instruction's name occurs in
the text of the group. -/
def intrinsicEntry (curInst : String) (intrinsic : List (String × List Char)) (src : String)
    (g : GroupItem) : Option (Char × Char) :=
  if curInst.toList <:+: g.tInstns.toList then
    match intrinsic.lookup src with
    | none => some ('0', '0')
    | some deps => do
      let dep1 ← deps[0]?
      let dep2 ← deps[1]?
      pure (dep1, dep2)
  else some ('0', '0')

/-- Decisions recorded for a group that name an operand. -/
def tally (arr : List (String × String × List Operand)) (groupId : String) (op : Operand) : Nat :=
  arr.countP fun x => decide (x.1 = groupId ∧ op ∈ x.2.2)

structure Entry where
  groupId : String
  intrinsic : Char × Char
  dynamic : Bits
  deriving DecidableEq

structure Row where
  decisionSrc : String
  entries : List Entry
  deriving DecidableEq

def hasField (g : GroupItem) : Bool := decide (g.field ≠ .none)

/-- The entries of one group in a row. The dynamic ones are read at `decision_node`, which the loop
over the log has left at its last line. -/
def tableEntry (curInst : String) (intrinsic : List (String × List Char)) (log : List Line)
    (dyn : DynResult) (src : String) (g : GroupItem) : Option Entry := do
  let pair ← intrinsicEntry curInst intrinsic src g
  let decisionNode ← log.getLast?.map Line.decisionNode
  let arr ← dyn.lookup decisionNode
  pure ⟨g.groupId, pair,
    ⟨decide (2 ≤ tally arr g.groupId .rs1), decide (2 ≤ tally arr g.groupId .rs2)⟩⟩

def tableRow (curInst : String) (intrinsic : List (String × List Char)) (m : GroupMap)
    (log : List Line) (dyn : DynResult) (src : String) : Option Row := do
  let entries ← (m.items.filter hasField).mapM (tableEntry curInst intrinsic log dyn src)
  pure ⟨src, entries⟩

/-- The name of the log is set in the loop over the groups only, so a map without operands fails. -/
def pp (curInst : String) (c : Csvs) (m : GroupMap) (log : List Line)
    (intrinsicResult : List (String × String × String)) : Option (List Row) := do
  let dyn ← dynResult c m log
  if m.items.any hasField then
    ((tmpDecisionMap log).map Prod.fst).mapM
      (tableRow curInst (intrinsicMap intrinsicResult) m log dyn)
  else none

section Counts

variable (c : Csvs) (log : List Line)

/-- The query of a decision for a group is covered under taint of the operand. Where both operands
are asked about first, that query has to be covered as well. -/
def coveredQuery (g : GroupItem) (op : Operand) (cnt : String) : Bool :=
  match g.field with
  | .none => false
  | .rs1 => decide (op = .rs1 ∧ c.group .rs1 g.groupId cnt = some .covered)
  | .rs1rs2 => decide (c.group .rs1rs2 g.groupId cnt = some .covered ∧
      c.perfield op g.groupId cnt = some .covered)

/-- Decisions of a source whose query is covered. -/
def coveredCount (g : GroupItem) (src : String) (op : Operand) : Nat :=
  (log.filter (·.decisionNode = src)).countP fun l => coveredQuery c g op l.cnt

variable {c}

theorem bind_dfQuery_covered {o : Option Result} : o.bind dfQuery = some .covered ↔
    o = some .covered := by
  cases o with
  | none => simp
  | some r => simp [dfQuery_covered]

theorem groupResult_mem {g : GroupItem} {cnt : String} {r : Option (List Operand)}
    (hfield : g.field ≠ .none) (h : groupResult c g cnt = some r) (op : Operand) :
    (∃ ops, r = some ops ∧ op ∈ ops) ↔ coveredQuery c g op cnt = true := by
  unfold groupResult at h
  obtain ⟨res, hres, h⟩ := Option.bind_eq_some_iff.mp h
  have hgroup : c.group g.field g.groupId cnt = some .covered ↔ res = .covered := by
    rw [← bind_dfQuery_covered, hres, Option.some.injEq]
  unfold coveredQuery
  by_cases hcov : res = .covered
  · rw [if_neg (not_not.mpr hcov)] at h
    cases hf : g.field with
    | none => exact absurd hf hfield
    | rs1 =>
      rw [if_pos hf] at h
      obtain rfl := Option.some.inj h
      rw [hf] at hgroup
      simp [hgroup.mpr hcov]
    | rs1rs2 =>
      rw [if_neg (by simp [hf])] at h
      obtain ⟨res1, hres1, h⟩ := Option.bind_eq_some_iff.mp h
      obtain ⟨res2, hres2, h⟩ := Option.bind_eq_some_iff.mp h
      obtain rfl := Option.some.inj h
      have hrs1 : c.perfield .rs1 g.groupId cnt = some .covered ↔ res1 = .covered := by
        rw [← bind_dfQuery_covered, hres1, Option.some.injEq]
      have hrs2 : c.perfield .rs2 g.groupId cnt = some .covered ↔ res2 = .covered := by
        rw [← bind_dfQuery_covered, hres2, Option.some.injEq]
      rw [hf] at hgroup
      cases op <;> simp [hgroup.mpr hcov, hrs1, hrs2]
  · rw [if_pos hcov] at h
    obtain rfl := Option.some.inj h
    have hno := mt hgroup.mp hcov
    cases hf : g.field with
    | none => exact absurd hf hfield
    | rs1 =>
      rw [hf] at hno
      simp [hno]
    | rs1rs2 =>
      rw [hf] at hno
      simp [hno]

/-- Decisions recorded so far for a source, a group and an operand. -/
def recorded (groupId src : String) (op : Operand) (d : DynResult) : Nat :=
  tally ((d.lookup src).getD []) groupId op

variable {g : GroupItem} {d d' : DynResult} {groupId src : String} {op : Operand}

theorem recorded_append {node : String} {x : String × String × List Operand} :
    recorded groupId src op (Dict.upsert node (· ++ [x]) [x] d) =
      recorded groupId src op d +
        if src = node ∧ x.1 = groupId ∧ op ∈ x.2.2 then 1 else 0 := by
  unfold recorded
  rw [Dict.lookup_upsert]
  by_cases hnode : src = node
  · have hentry : ((d.lookup node).map (· ++ [x])).getD [x] = (d.lookup node).getD [] ++ [x] := by
      cases d.lookup node <;> rfl
    rw [if_pos hnode, Option.getD_some, hentry, hnode]
    simp [tally, List.countP_append, List.countP_singleton]
  · simp [hnode]

/-- Each step of the innermost loop counts the decision where its query is covered. -/
theorem decisionStep_recorded {node cnt : String} (hfield : g.field ≠ .none)
    (h : decisionStep c g node d cnt = some d') : recorded groupId src op d' =
      recorded groupId src op d +
        if src = node ∧ g.groupId = groupId ∧ coveredQuery c g op cnt = true then 1 else 0 := by
  unfold decisionStep at h
  obtain ⟨r, hr, h⟩ := Option.bind_eq_some_iff.mp h
  have hmem := groupResult_mem hfield hr op
  cases r with
  | none =>
    obtain rfl := Option.some.inj h
    have hno : coveredQuery c g op cnt ≠ true := fun hc => by simpa using hmem.mpr hc
    simp [hno]
  | some ops =>
    obtain rfl := Option.some.inj h
    have hops : op ∈ ops ↔ coveredQuery c g op cnt = true := by simpa using hmem
    simp only [recorded_append, hops]

theorem sourceStep_recorded {kv : String × List String} (hfield : g.field ≠ .none)
    (h : sourceStep c g d kv = some d') : recorded groupId src op d' =
      recorded groupId src op d + if kv.1 = src then
        if g.groupId = groupId ∧ kv.2.length ≠ 1 then kv.2.countP (coveredQuery c g op) else 0
      else 0 := by
  unfold sourceStep at h
  split_ifs at h with hlen
  · obtain rfl := Option.some.inj h
    simp [hlen]
  · have hsum := Loop.foldlM_measure (N := recorded groupId src op) (w := fun cnt =>
      if src = kv.1 ∧ g.groupId = groupId ∧ coveredQuery c g op cnt = true then 1 else 0)
      (fun _ _ _ _ => decisionStep_recorded hfield) h
    rw [hsum]
    congr 1
    by_cases hsrc : kv.1 = src
    · by_cases hid : g.groupId = groupId
      · simp [hsrc, hid, hlen, Loop.sum_map_ite]
      · simp [hsrc, hid]
    · simp [hsrc, Ne.symm hsrc]

/-- Setting up the entries of the sources counts nothing. -/
theorem recorded_setdefault (log : List Line) (d : DynResult) :
    recorded groupId src op (log.foldl (fun d l => Dict.upsert l.decisionNode id [] d) d) =
      recorded groupId src op d := by
  induction log generalizing d with
  | nil => rfl
  | cons l log ih =>
    have hentry : ((d.lookup l.decisionNode).map id).getD [] = (d.lookup l.decisionNode).getD [] := by
      cases d.lookup l.decisionNode <;> rfl
    rw [List.foldl_cons, ih]
    unfold recorded
    rw [Dict.lookup_upsert]
    by_cases hsrc : src = l.decisionNode
    · rw [if_pos hsrc, Option.getD_some, hentry, hsrc]
    · rw [if_neg hsrc]

variable {log : List Line}

theorem nodup_sources : ((tmpDecisionMap log).map Prod.fst).Nodup := by
  unfold tmpDecisionMap
  rw [Dict.keys_foldl_upsert]
  exact Loop.nodup_foldl_insertNew List.nodup_nil

theorem mem_sources : src ∈ (tmpDecisionMap log).map Prod.fst ↔ ∃ l ∈ log, l.decisionNode = src := by
  unfold tmpDecisionMap
  rw [Dict.keys_foldl_upsert, Loop.mem_foldl_insertNew]
  simp

theorem decisions_eq {cnts : List String} (h : (src, cnts) ∈ tmpDecisionMap log) :
    cnts = (log.filter (·.decisionNode = src)).map Line.cnt := by
  rw [Dict.mem_iff_lookup nodup_sources] at h
  exact Dict.lookup_foldl_append Line.decisionNode Line.cnt h

/-- What a group adds for a source: its covered decisions, unless there is only one decision. -/
theorem groupStep_recorded (hsrc : ∃ l ∈ log, l.decisionNode = src)
    (h : groupStep c log d g = some d') : recorded groupId src op d' =
      recorded groupId src op d + if g.groupId = groupId then
        if (log.filter (·.decisionNode = src)).length ≠ 1 then coveredCount c log g src op else 0
      else 0 := by
  unfold groupStep at h
  split_ifs at h with hfield
  · obtain rfl := Option.some.inj h
    simp [coveredCount, coveredQuery, hfield]
  · obtain ⟨⟨src', cnts⟩, hmem, hsrc'⟩ := List.mem_map.mp (mem_sources.mpr hsrc)
    obtain rfl : src' = src := hsrc'
    have hsum := Loop.foldlM_measure (N := recorded groupId src' op) (w := fun kv =>
      if kv.1 = src' then
        if g.groupId = groupId ∧ kv.2.length ≠ 1 then kv.2.countP (coveredQuery c g op) else 0
      else 0)
      (fun _ _ _ _ => sourceStep_recorded hfield) h
    have hshare := Loop.sum_map_key nodup_sources hmem fun kv =>
      if g.groupId = groupId ∧ kv.2.length ≠ 1 then kv.2.countP (coveredQuery c g op) else 0
    rw [hsum, recorded_setdefault, hshare, decisions_eq hmem, List.length_map, List.countP_map]
    congr 1
    by_cases hid : g.groupId = groupId
    · simp [hid, coveredCount, Function.comp_def]
    · simp [hid]

/-- After all groups, the decisions recorded for a group are its covered ones. -/
theorem dynResult_recorded {m : GroupMap} (hsrc : ∃ l ∈ log, l.decisionNode = src)
    (hg : g ∈ m.items) (h : dynResult c m log = some d) : recorded g.groupId src op d =
      if (log.filter (·.decisionNode = src)).length ≠ 1 then coveredCount c log g src op else 0 := by
  have hsum := Loop.foldlM_measure (N := recorded g.groupId src op) (w := fun g' =>
    if g'.groupId = g.groupId then
      if (log.filter (·.decisionNode = src)).length ≠ 1 then coveredCount c log g' src op else 0
    else 0)
    (fun _ _ _ _ => groupStep_recorded hsrc) h
  have hstart : recorded g.groupId src op [] = 0 := rfl
  have hshare := Loop.sum_map_key m.nodup hg fun g' =>
    if (log.filter (·.decisionNode = src)).length ≠ 1 then coveredCount c log g' src op else 0
  rw [hsum, hstart, hshare, Nat.zero_add]

/-- Two recorded decisions are two covered ones; a source with one decision has neither. -/
theorem two_le_recorded {m : GroupMap} (hsrc : ∃ l ∈ log, l.decisionNode = src)
    (hg : g ∈ m.items) (h : dynResult c m log = some d) :
    2 ≤ recorded g.groupId src op d ↔ 2 ≤ coveredCount c log g src op := by
  rw [dynResult_recorded hsrc hg h]
  split_ifs with hlen
  · rfl
  · have hle : coveredCount c log g src op ≤ (log.filter (·.decisionNode = src)).length :=
      List.countP_le_length
    omega

end Counts

section Rows

variable {curInst : String} {c : Csvs} {m : GroupMap} {log : List Line}
  {intrinsicResult : List (String × String × String)} {rows : List Row}

theorem tableEntry_spec {intrinsic : List (String × List Char)} {dyn : DynResult} {src : String}
    {g : GroupItem} {e : Entry} (h : tableEntry curInst intrinsic log dyn src g = some e) :
    e.groupId = g.groupId ∧ ∃ last ∈ log.getLast?, ∀ op, e.dynamic.get op = true ↔
      2 ≤ recorded g.groupId last.decisionNode op dyn := by
  unfold tableEntry at h
  obtain ⟨pair, _, h⟩ := Option.bind_eq_some_iff.mp h
  obtain ⟨node, hnode, h⟩ := Option.bind_eq_some_iff.mp h
  obtain ⟨arr, harr, h⟩ := Option.bind_eq_some_iff.mp h
  obtain rfl := Option.some.inj h
  obtain ⟨last, hlast, rfl⟩ := Option.map_eq_some_iff.mp hnode
  refine ⟨rfl, last, hlast, ?_⟩
  intro op
  rw [recorded, harr]
  cases op <;> simp [Bits.get]

theorem tableRow_src {intrinsic : List (String × List Char)} {dyn : DynResult} {src : String}
    {row : Row} (h : tableRow curInst intrinsic m log dyn src = some row) :
    row.decisionSrc = src := by
  unfold tableRow at h
  obtain ⟨entries, _, h⟩ := Option.bind_eq_some_iff.mp h
  obtain rfl := Option.some.inj h
  rfl

/-- A row holds one entry for each group with operands. -/
theorem tableRow_entries {intrinsic : List (String × List Char)} {dyn : DynResult} {src : String}
    {row : Row} (h : tableRow curInst intrinsic m log dyn src = some row) {g : GroupItem}
    (hg : g ∈ m.items) (hfield : g.field ≠ .none) : ∃ e ∈ row.entries, e.groupId = g.groupId := by
  unfold tableRow at h
  obtain ⟨entries, hentries, h⟩ := Option.bind_eq_some_iff.mp h
  obtain rfl := Option.some.inj h
  have hmem : g ∈ m.items.filter hasField := List.mem_filter.mpr ⟨hg, by simpa [hasField] using hfield⟩
  obtain ⟨e, he⟩ := Loop.exists_mapM.mp ⟨entries, hentries⟩ g hmem
  exact ⟨e, (Loop.mem_mapM hentries).mpr ⟨g, hmem, he⟩, (tableEntry_spec he).1⟩

/-- Whatever its source is, a row shows the counts of the last line's source. -/
theorem tableRow_dynamic {intrinsic : List (String × List Char)} {dyn : DynResult} {src : String}
    {row : Row} (hdyn : dynResult c m log = some dyn)
    (h : tableRow curInst intrinsic m log dyn src = some row) {e : Entry} (he : e ∈ row.entries)
    {g : GroupItem} (hg : g ∈ m.items) (hid : e.groupId = g.groupId) :
    g.field ≠ .none ∧ ∃ last ∈ log.getLast?, ∀ op, e.dynamic.get op = true ↔
      2 ≤ coveredCount c log g last.decisionNode op := by
  unfold tableRow at h
  obtain ⟨entries, hentries, h⟩ := Option.bind_eq_some_iff.mp h
  obtain rfl := Option.some.inj h
  obtain ⟨g', hg', hentry⟩ := (Loop.mem_mapM hentries).mp he
  obtain ⟨hitem, hfield⟩ := List.mem_filter.mp hg'
  obtain ⟨hid', last, hlast, hcount⟩ := tableEntry_spec hentry
  obtain rfl : g' = g := List.inj_on_of_nodup_map m.nodup hitem hg (hid'.symm.trans hid)
  refine ⟨by simpa [hasField] using hfield, last, hlast, ?_⟩
  intro op
  have hsrc : ∃ l ∈ log, l.decisionNode = last.decisionNode :=
    ⟨last, List.mem_of_getLast? hlast, rfl⟩
  rw [hcount, two_le_recorded hsrc hg hdyn]

/-- Every source of the log has two covered decisions where the last one's has, and only there. -/
def SourcesAlike (c : Csvs) (m : GroupMap) (log : List Line) : Prop :=
  ∀ l ∈ log, ∀ last ∈ log.getLast?, ∀ g ∈ m.items, g.field ≠ .none → ∀ op,
    (2 ≤ coveredCount c log g last.decisionNode op ↔ 2 ≤ coveredCount c log g l.decisionNode op)

/-- The dynamic entries of a printed table belong to their rows exactly if all sources would have
the same ones. -/
theorem dynamic_entries_iff (h : pp curInst c m log intrinsicResult = some rows) :
    (∀ row ∈ rows, ∀ e ∈ row.entries, ∀ g ∈ m.items, e.groupId = g.groupId → ∀ op,
      (e.dynamic.get op = true ↔ 2 ≤ coveredCount c log g row.decisionSrc op)) ↔
    SourcesAlike c m log := by
  unfold pp at h
  obtain ⟨dyn, hdyn, h⟩ := Option.bind_eq_some_iff.mp h
  split_ifs at h
  constructor
  · intro hrows l hl last hlast g hg hfield op
    have hsrc := mem_sources.mpr ⟨l, hl, rfl⟩
    obtain ⟨row, hrow⟩ := Loop.exists_mapM.mp ⟨rows, h⟩ l.decisionNode hsrc
    have hmem := (Loop.mem_mapM h).mpr ⟨l.decisionNode, hsrc, hrow⟩
    obtain ⟨e, he, hid⟩ := tableRow_entries hrow hg hfield
    obtain ⟨_, last', hlast', hcount⟩ := tableRow_dynamic hdyn hrow he hg hid
    obtain rfl := Option.mem_unique hlast hlast'
    rw [← hcount op, hrows row hmem e he g hg hid op, tableRow_src hrow]
  · intro halike row hmem e he g hg hid op
    obtain ⟨src, hsrc, hrow⟩ := (Loop.mem_mapM h).mp hmem
    obtain ⟨l, hl, rfl⟩ := mem_sources.mp hsrc
    obtain ⟨hfield, last, hlast, hcount⟩ := tableRow_dynamic hdyn hrow he hg hid
    rw [hcount, halike l hl last hlast g hg hfield op, tableRow_src hrow]

/-- One group with a single operand. -/
def oneGroup : GroupMap where
  items := [⟨"1", .rs1, "LW"⟩]
  nodup := by decide

/-- Verdicts in which the given decisions are covered. -/
def coveredAt (cnts : List String) : Csvs where
  group _ _ cnt := some (if cnt ∈ cnts then .covered else .unreachable)
  perfield _ _ _ := none

/-- Two sources with two decisions each. -/
def twoSources : List Line := [⟨"0", "a"⟩, ⟨"1", "a"⟩, ⟨"2", "b"⟩, ⟨"3", "b"⟩]

/-- What `pp` prints for them: one row for each source, both with these dynamic entries. -/
def bothRows (dynamic : Bits) : List Row :=
  [⟨"a", [⟨"1", ('0', '0'), dynamic⟩]⟩, ⟨"b", [⟨"1", ('0', '0'), dynamic⟩]⟩]

theorem dynamic_entries_alike :
    pp "ADD" (coveredAt ["0", "1", "2", "3"]) oneGroup twoSources [] =
      some (bothRows ⟨true, false⟩) ∧
    ∀ row ∈ bothRows ⟨true, false⟩, ∀ e ∈ row.entries, ∀ g ∈ oneGroup.items,
      e.groupId = g.groupId → ∀ op, (e.dynamic.get op = true ↔
        2 ≤ coveredCount (coveredAt ["0", "1", "2", "3"]) twoSources g row.decisionSrc op) := by
  have hrun : pp "ADD" (coveredAt ["0", "1", "2", "3"]) oneGroup twoSources [] =
      some (bothRows ⟨true, false⟩) := by
    decide +kernel
  refine ⟨hrun, (dynamic_entries_iff hrun).mpr ?_⟩
  have halike (op : Operand) : ∀ l ∈ twoSources, ∀ last ∈ twoSources.getLast?,
      ∀ g ∈ oneGroup.items,
        (2 ≤ coveredCount (coveredAt ["0", "1", "2", "3"]) twoSources g last.decisionNode op ↔
          2 ≤ coveredCount (coveredAt ["0", "1", "2", "3"]) twoSources g l.decisionNode op) := by
    cases op <;> decide +kernel
  intro l hl last hlast g hg _ op
  exact halike op l hl last hlast g hg

/-- Both decisions of the first source are covered, and its row says they are not. -/
theorem row_of_other_source :
    pp "ADD" (coveredAt ["0", "1"]) oneGroup twoSources [] = some (bothRows ⟨false, false⟩) ∧
    coveredCount (coveredAt ["0", "1"]) twoSources ⟨"1", .rs1, "LW"⟩ "a" .rs1 = 2 := by
  decide +kernel

end Rows

end DynPerfield

end SynthLC
