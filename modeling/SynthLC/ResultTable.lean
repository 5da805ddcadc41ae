import SynthLC.Dict
import SynthLC.Gconsts

/-! `run_per_decisions_col.py` and `plot.py`: the decision sources of a transponder group one after
another, and the text file `table_6_<nm>.txt` to which each of them adds a column. -/
namespace SynthLC.ResultTable

open Loop

abbrev Text := List Char

/-! ### `plot_table` -/

def transmitters : List String := ["Branch", "DIV*", "JALR", "Load", "REM*", "Store"]

/-- The rows with the three cells that label them. -/
def labels : List (List Text) :=
  [[], [], []] :: transmitters.flatMap fun itm =>
    ["N", "D"].flatMap fun lb => ["rs1", "rs2"].map fun op => [itm.toList, lb.toList, op.toList]

/-- `rows[idx] += ...` for one row after another; there may not be more of them than labels. -/
def extend : List (List Text) → List (List Text) → Option (List (List Text))
  | rows, [] => some rows
  | [], _ :: _ => none
  | row :: rows, cells :: rest => (extend rows rest).map ((row ++ cells) :: ·)

def readRows (t : Text) : List (List Text) :=
  (TextFile.lines '\n' t).map fun line => line.dropLast.splitOn ','

/-- The file after the call, from the one before it, if there was one. -/
def plotTable (tablef : Option Text) (retArr : List Int) : Option Text := do
  let rows ← extend labels ((tablef.map readRows).getD [])
  let rows ← extend rows (retArr.map fun itm => [TextFile.intText itm])
  some (rows.flatMap fun itm => [','].intercalate (itm.drop 3) ++ ['\n'])

/-! ### The script -/

/-- `(i_p_id, decision_src)` -/
structure Key where
  ipId : Text
  decisionSrc : String
  deriving DecidableEq

/-- A line of `batch_transponder_2.txt`. -/
structure Line where
  ipId : Text
  tInstns : Text

/-- The files that a run reads, and what the steps up to `post_proc_all` return. -/
structure World where
  batchTransponder : List Line
  decisionSrcOrderedList : Text → List String
  divNodeDecisionIso : Key → Bool
  postProcAll : Key → Option (List Int)

structure Options where
  ndecision : Int
  todolist : List Text
  nm : Option Text
  deriving DecidableEq

def iMapping : List (String × String) :=
  [("ADD", "3"), ("BEQ", "9"), ("DIV", "11"), ("Load", "18"), ("Store", "7")]

def argG (o : Options) (itm : Text) : Option Options :=
  if "--g".toList <:+: itm then
    (itm.splitOn '=')[1]?.map fun g => { o with todolist := [g] }
  else some o

/-- An instruction that is not in the mapping ends the script. -/
def argI (o : Options) (itm : Text) : Option Options :=
  if "--i".toList <:+: itm then
    (itm.splitOn '=')[1]?.bind fun instn =>
      (iMapping.lookup (String.ofList instn)).map fun id =>
        { o with todolist := [id.toList], nm := some instn }
  else some o

/-- `int` of decimal digits with or without a sign. -/
def signedInt : Text → Option Int
  | '-' :: cs => (pyInt cs).map fun n => -(n : Int)
  | '+' :: cs => (pyInt cs).map fun n => (n : Int)
  | cs => (pyInt cs).map fun n => (n : Int)

def argNum (o : Options) (itm : Text) : Option Options :=
  if "--num".toList <:+: itm then
    ((itm.splitOn '=')[1]?.bind signedInt).map fun cnt => { o with ndecision := cnt }
  else some o

/-- The two loops over `sys.argv[1:]`. -/
def parseArgs (argv : List Text) : Option Options :=
  argv.foldlM (fun o itm => ((argG o itm).bind (argI · itm)).bind (argNum · itm))
    ⟨if "--all".toList ∈ argv then 1000 else 2, [], none⟩

/-- `nm`, which without `--i` is the first letter of the first line's instructions. -/
def Options.name (o : Options) (first : Line) : Option Text :=
  o.nm.or (first.tInstns.head?.map fun c => [c])

/-- Before any call. -/
def noTables : Text → Option Text := fun _ => none

structure State where
  resultMap : List (Key × List Int)
  tables : Text → Option Text

/-- `ret_arr[0] -= 1` -/
def lowerHead : List Int → Option (List Int)
  | [] => none
  | n :: rest => some ((n - 1) :: rest)

/-- The list that is plotted is the one that the map holds, so the map has it lowered too. -/
def retArr (w : World) (st : State) (k : Key) : Option (List Int) :=
  match st.resultMap.lookup k with
  | some ret => lowerHead ret
  | none => w.postProcAll k

def plotSrc (w : World) (nm : Text) (st : State) (k : Key) : Option State := do
  let ret ← retArr w st k
  let t ← plotTable (st.tables nm) ret
  some ⟨Dict.upsert k (fun _ => ret) ret st.resultMap, Function.update st.tables nm (some t)⟩

/-- One round of the loop over the sources, with `tmp_cntr`. -/
def runSrc (w : World) (o : Options) (nm ipId : Text) (st : State) (x : String × Nat) :
    Option State :=
  if w.divNodeDecisionIso ⟨ipId, x.1⟩ then
    if o.ndecision ≤ x.2 then some st else plotSrc w nm st ⟨ipId, x.1⟩
  else none

def runGroup (w : World) (o : Options) (nm : Text) (st : State) (batchItm : Line) : Option State :=
  if batchItm.ipId ∈ o.todolist then
    (w.decisionSrcOrderedList batchItm.ipId).zipIdx.foldlM (runSrc w o nm batchItm.ipId) st
  else some st

/-- One call of the script. -/
def run (w : World) (argv : List Text) (tables : Text → Option Text) :
    Option (Text → Option Text) := do
  let o ← parseArgs argv
  match w.batchTransponder with
  | [] => some tables
  | first :: rest =>
    let nm ← o.name first
    let st ← (first :: rest).foldlM (runGroup w o nm) ⟨[], tables⟩
    some st.tables

/-! ### Columns -/

/-- A column with an entry for each row. -/
structure Column where
  cells : List Int
  full : cells.length = labels.length

namespace Column

def cell (c : Column) (i : Nat) : Text := TextFile.intText (c.cells.getD i 0)

/-- The column with its first entry lowered, for a source that comes again. -/
def lowered (c : Column) (n : Nat) : Column where
  cells := c.cells.modifyHead (· - n)
  full := by rw [List.length_modifyHead, c.full]

end Column

/-- The file with these columns. -/
def tableText (cs : List Column) : Text :=
  (List.range labels.length).flatMap fun i => [','].intercalate (cs.map (·.cell i)) ++ ['\n']

/-- Before the first column there is no file. -/
def stored (cs : List Column) : Option Text := if cs = [] then none else some (tableText cs)

/-- The rows that a file with columns is read as. -/
theorem readRows_tableText {cs : List Column} (h : cs ≠ []) :
    readRows (tableText cs) = (List.range labels.length).map fun i => cs.map (·.cell i) := by
  have hcell {c : Char} (hdigit : c.isDigit = false) (hminus : c ≠ '-') (i : Nat) :
      ∀ t ∈ cs.map (·.cell i), c ∉ t := by
    intro t ht
    have ⟨col, _, hcol⟩ := List.mem_map.mp ht
    rw [← hcol]
    exact TextFile.not_mem_intText hdigit hminus _
  have hline : ∀ i ∈ List.range labels.length, '\n' ∉ [','].intercalate (cs.map (·.cell i)) :=
    fun i _ => TextFile.not_mem_intercalate (by decide) (hcell (by decide) (by decide) i)
  rw [readRows, tableText, TextFile.lines_flatMap _ hline, List.map_map]
  apply List.map_congr_left
  intro i _
  rw [Function.comp_apply, List.dropLast_concat]
  exact List.splitOn_intercalate ',' (hcell (by decide) (by decide) i) (by simpa using h)

theorem extend_nil (rows : List (List Text)) : extend rows [] = some rows := by
  cases rows <;> rfl

theorem extend_map {ι : Type} (is : List ι) (f g : ι → List Text) :
    extend (is.map f) (is.map g) = some (is.map fun i => f i ++ g i) := by
  induction is with
  | nil => rfl
  | cons i is ih =>
    rw [List.map_cons, List.map_cons, extend, ih]
    rfl

theorem map_range_getD {α : Type} (xs : List α) (d : α) :
    (List.range xs.length).map (fun i => xs.getD i d) = xs := by
  apply List.ext_getElem
  · simp
  · intro i h _
    rw [List.length_map, List.length_range] at h
    simp [h]

theorem labels_length_three : ∀ row ∈ labels, row.length = 3 := by decide

/-- One call adds one column, with an entry for each row. -/
theorem plotTable_stored (cs : List Column) (c : Column) :
    plotTable (stored cs) c.cells = some (tableText (cs ++ [c])) := by
  have hlabels := map_range_getD labels []
  have hold : extend labels (((stored cs).map readRows).getD []) =
      some ((List.range labels.length).map fun i => labels.getD i [] ++ cs.map (·.cell i)) := by
    unfold stored
    split_ifs with hcs
    · rw [hcs]
      simp only [Option.map_none, Option.getD_none, extend_nil, List.map_nil, List.append_nil]
      rw [hlabels]
    · rw [Option.map_some, Option.getD_some, readRows_tableText hcs]
      have hrows := extend_map (List.range labels.length) (labels.getD · []) fun i =>
        cs.map (·.cell i)
      rwa [hlabels] at hrows
  have hnew : (c.cells.map fun itm => [TextFile.intText itm]) =
      (List.range labels.length).map fun i => [c.cell i] := by
    conv_lhs => rw [← map_range_getD c.cells 0, c.full, List.map_map]
    rfl
  have hrow : ∀ i ∈ List.range labels.length,
      ((labels.getD i [] ++ cs.map (·.cell i)) ++ [c.cell i]).drop 3 =
        (cs ++ [c]).map (·.cell i) := by
    intro i hi
    have hthree : (labels.getD i []).length = 3 := by
      rw [List.getD_eq_getElem _ _ (List.mem_range.mp hi)]
      exact labels_length_three _ (List.getElem_mem _)
    rw [List.append_assoc, List.drop_append_of_le_length hthree.ge, ← hthree, List.drop_length,
      List.nil_append, List.map_append]
    rfl
  rw [plotTable, hold, hnew]
  simp only [Option.bind_eq_bind, Option.bind_some, extend_map, List.flatMap_map]
  rw [tableText]
  congr 1
  apply List.flatMap_congr
  intro i hi
  rw [hrow i hi]

/-! ### Calls of the script -/

section Run

variable (w : World) (o : Options) (col : Key → Column)

/-- The sources of a group that a call plots; below zero the number allows none. -/
def World.keysOf (l : Line) : List Key :=
  ((w.decisionSrcOrderedList l.ipId).take o.ndecision.toNat).map fun src => ⟨l.ipId, src⟩

/-- The sources that a call plots, in order. -/
def World.keys : List Key :=
  w.batchTransponder.flatMap fun l => if l.ipId ∈ o.todolist then w.keysOf o l else []

/-- The sources that are asked for have decisions and give columns. -/
structure Works : Prop where
  known : ∀ l ∈ w.batchTransponder, l.ipId ∈ o.todolist →
    ∀ src ∈ w.decisionSrcOrderedList l.ipId, w.divNodeDecisionIso ⟨l.ipId, src⟩ = true
  column : ∀ k ∈ w.keys o, w.postProcAll k = some (col k).cells

/-- A source that comes again has its first entry lowered by one each time. -/
def columnsOf (ks : List Key) : List Column :=
  ks.zipIdx.map fun x => (col x.1).lowered ((ks.take x.2).count x.1)

/-- The state after some sources have been plotted. -/
structure After (nm : Text) (old : List Column) (tables : Text → Option Text) (ks : List Key)
    (st : State) : Prop where
  table : st.tables nm = stored (old ++ columnsOf col ks)
  others : ∀ x, x ≠ nm → st.tables x = tables x
  results : ∀ k, st.resultMap.lookup k =
    if k ∈ ks then some ((col k).lowered (ks.count k - 1)).cells else none

variable {w o col} {nm : Text} {old : List Column} {tables : Text → Option Text} {ks : List Key}
  {st : State}

theorem columnsOf_concat (k : Key) :
    columnsOf col (ks ++ [k]) = columnsOf col ks ++ [(col k).lowered (ks.count k)] := by
  unfold columnsOf
  rw [List.zipIdx_append, List.map_append]
  congr 1
  · apply List.map_congr_left
    intro x hx
    have hlt : x.2 < ks.length := by
      have hidx := List.mem_zipIdx hx
      omega
    rw [List.take_append_of_le_length hlt.le]
  · simp

theorem getElem?_columnsOf {j : Nat} {k : Key} (hj : ks[j]? = some k) :
    (columnsOf col ks)[j]? = some ((col k).lowered ((ks.take j).count k)) := by
  simp [columnsOf, hj]

theorem lowered_zero (c : Column) : (c.lowered 0).cells = c.cells := by
  change c.cells.modifyHead (· - ((0 : Nat) : Int)) = c.cells
  cases c.cells with
  | nil => rfl
  | cons n rest => simp

theorem lowerHead_lowered (c : Column) {n : Nat} (hn : 0 < n) :
    lowerHead (c.lowered (n - 1)).cells = some (c.lowered n).cells := by
  change lowerHead (c.cells.modifyHead (· - ((n - 1 : Nat) : Int))) =
    some (c.cells.modifyHead (· - (n : Int)))
  have hpos : 0 < c.cells.length := by
    rw [c.full]
    decide
  obtain ⟨m, rest, hcells⟩ := List.exists_cons_of_length_pos hpos
  rw [hcells]
  simp only [List.modifyHead_cons, lowerHead, Option.some.injEq, List.cons.injEq, and_true]
  omega

theorem retArr_after (h : After col nm old tables ks st) {k : Key}
    (hk : w.postProcAll k = some (col k).cells) :
    retArr w st k = some ((col k).lowered (ks.count k)).cells := by
  unfold retArr
  rw [h.results k]
  by_cases hmem : k ∈ ks
  · rw [if_pos hmem]
    exact lowerHead_lowered _ (List.count_pos_iff.mpr hmem)
  · rw [if_neg hmem, List.count_eq_zero_of_not_mem hmem, lowered_zero]
    exact hk

/-- One source adds one column to the table of the call, and to no other. -/
theorem plotSrc_after (h : After col nm old tables ks st) {k : Key}
    (hk : w.postProcAll k = some (col k).cells) :
    ∃ st', plotSrc w nm st k = some st' ∧ After col nm old tables (ks ++ [k]) st' := by
  have hplot := plotTable_stored (old ++ columnsOf col ks) ((col k).lowered (ks.count k))
  rw [← h.table] at hplot
  unfold plotSrc
  rw [retArr_after h hk, Option.bind_eq_bind, Option.bind_some, hplot]
  refine ⟨_, rfl, ?_, ?_, ?_⟩
  · have hne : old ++ columnsOf col (ks ++ [k]) ≠ [] := by simp [columnsOf_concat]
    rw [stored, if_neg hne, columnsOf_concat, ← List.append_assoc]
    exact Function.update_self nm _ st.tables
  · intro x hx
    exact (Function.update_of_ne hx _ _).trans (h.others x hx)
  · intro k'
    rw [Dict.lookup_set, h.results k']
    by_cases hk' : k' = k
    · subst hk'
      simp
    · have hcount : (ks ++ [k]).count k' = ks.count k' := by
        simp [List.count_append, Ne.symm hk']
      rw [if_neg hk', hcount]
      simp [hk']

theorem flatMap_zipIdx_take {α β : Type} (f : α → β) (n : Int) (xs : List α) (i : Nat) :
    ((xs.zipIdx i).flatMap fun x => if n ≤ x.2 then [] else [f x.1]) =
      (xs.take (n.toNat - i)).map f := by
  induction xs generalizing i with
  | nil => simp
  | cons x xs ih =>
    rw [List.zipIdx_cons, List.flatMap_cons, ih]
    by_cases hi : n ≤ i
    · have hnone : n.toNat - i = 0 := by omega
      have hrest : n.toNat - (i + 1) = 0 := by omega
      simp [hi, hnone, hrest]
    · have hsub : n.toNat - i = (n.toNat - (i + 1)) + 1 := by omega
      rw [if_neg hi, hsub, List.take_succ_cons]
      rfl

theorem runSrc_after {ipId : Text} {x : String × Nat} (h : After col nm old tables ks st)
    (hknown : w.divNodeDecisionIso ⟨ipId, x.1⟩ = true)
    (hcol : ¬o.ndecision ≤ x.2 → w.postProcAll ⟨ipId, x.1⟩ = some (col ⟨ipId, x.1⟩).cells) :
    ∃ st', runSrc w o nm ipId st x = some st' ∧ After col nm old tables
      (ks ++ if o.ndecision ≤ x.2 then [] else [⟨ipId, x.1⟩]) st' := by
  unfold runSrc
  rw [if_pos hknown]
  split_ifs with hlt
  · exact ⟨st, rfl, by rwa [List.append_nil]⟩
  · exact plotSrc_after h (hcol hlt)

theorem runGroup_after (hw : Works w o col) {l : Line} (hl : l ∈ w.batchTransponder)
    (h : After col nm old tables ks st) :
    ∃ st', runGroup w o nm st l = some st' ∧ After col nm old tables
      (ks ++ if l.ipId ∈ o.todolist then w.keysOf o l else []) st' := by
  unfold runGroup
  split_ifs with hin
  · have hkeys := flatMap_zipIdx_take (fun src => (⟨l.ipId, src⟩ : Key)) o.ndecision
      (w.decisionSrcOrderedList l.ipId) 0
    have hplotted : ∀ x ∈ (w.decisionSrcOrderedList l.ipId).zipIdx, ¬o.ndecision ≤ x.2 →
        (⟨l.ipId, x.1⟩ : Key) ∈ w.keys o := by
      intro x hx hlt
      refine List.mem_flatMap.mpr ⟨l, hl, ?_⟩
      rw [if_pos hin]
      change _ ∈ ((w.decisionSrcOrderedList l.ipId).take (o.ndecision.toNat - 0)).map _
      rw [← hkeys]
      exact List.mem_flatMap.mpr ⟨x, hx, by simp [hlt]⟩
    have hstep (ks : List Key) (st : State) (h : After col nm old tables ks st) (x : String × Nat)
        (hx : x ∈ (w.decisionSrcOrderedList l.ipId).zipIdx) :
        ∃ st', runSrc w o nm l.ipId st x = some st' ∧ After col nm old tables
          (ks ++ if o.ndecision ≤ x.2 then [] else [⟨l.ipId, x.1⟩]) st' :=
      runSrc_after h (hw.known l hl hin x.1 (List.fst_mem_of_mem_zipIdx hx)) fun hlt =>
        hw.column _ (hplotted x hx hlt)
    have ⟨st', hrun, hafter⟩ := foldlM_collects hstep h
    rw [hkeys] at hafter
    exact ⟨st', hrun, hafter⟩
  · exact ⟨st, rfl, by rwa [List.append_nil]⟩

/-- A call adds the columns of its sources to its own table. -/
theorem run_adds {argv : List Text} {first : Line} {rest : List Line}
    (hbatch : w.batchTransponder = first :: rest) (hargs : parseArgs argv = some o)
    (hname : o.name first = some nm) (hw : Works w o col) (hold : tables nm = stored old) :
    ∃ tables', run w argv tables = some tables' ∧
      tables' nm = stored (old ++ columnsOf col (w.keys o)) ∧
      ∀ x, x ≠ nm → tables' x = tables x := by
  have hstart : After col nm old tables [] ⟨[], tables⟩ :=
    ⟨by simpa [columnsOf] using hold, fun _ _ => rfl, fun k => by simp⟩
  have hstep (ks : List Key) (st : State) (h : After col nm old tables ks st) (l : Line)
      (hl : l ∈ w.batchTransponder) : ∃ st', runGroup w o nm st l = some st' ∧
        After col nm old tables (ks ++ if l.ipId ∈ o.todolist then w.keysOf o l else []) st' :=
    runGroup_after hw hl h
  have ⟨st, hrun, hafter⟩ := foldlM_collects hstep hstart
  refine ⟨st.tables, ?_, hafter.table, hafter.others⟩
  rw [hbatch] at hrun
  simp only [run, hargs, hbatch, hname, hrun, Option.bind_eq_bind, Option.bind_some]

end Run

/-- A call of the script whose sources give columns. -/
structure Call (w : World) (col : Key → Column) where
  argv : List Text
  options : Options
  name : Text
  parsed : parseArgs argv = some options
  named : ∃ first ∈ w.batchTransponder.head?, options.name first = some name
  works : Works w options col

/-- The columns of a call. -/
def Call.columns {w : World} {col : Key → Column} (c : Call w col) : List Column :=
  columnsOf col (w.keys c.options)

/-- The columns of the calls that write to a table, one call after another. -/
def columnsIn {w : World} {col : Key → Column} (calls : List (Call w col)) (x : Text) :
    List Column :=
  (calls.filter (·.name = x)).flatMap Call.columns

theorem call_adds {w : World} {col : Key → Column} {calls : List (Call w col)} (c : Call w col)
    {tables : Text → Option Text} (h : ∀ x, tables x = stored (columnsIn calls x)) :
    ∃ tables', run w c.argv tables = some tables' ∧
      ∀ x, tables' x = stored (columnsIn (calls ++ [c]) x) := by
  obtain ⟨first, hfirst, hname⟩ := c.named
  obtain ⟨rest, hbatch⟩ := List.head?_eq_some_iff.mp hfirst
  have ⟨tables', hrun, htable, hothers⟩ := run_adds hbatch c.parsed hname c.works (h c.name)
  refine ⟨tables', hrun, ?_⟩
  intro x
  unfold columnsIn
  by_cases hx : x = c.name
  · rw [hx, htable, List.filter_append, List.flatMap_append, List.filter_singleton]
    simp [columnsIn, Call.columns]
  · rw [hothers x hx, h x, List.filter_append, List.filter_singleton]
    simp [columnsIn, Ne.symm hx]

/-- After any calls of the script, each table has the columns of the calls that wrote to it, in the
order of the calls and of their sources. -/
theorem tables_keep_columns {w : World} {col : Key → Column} (calls : List (Call w col)) :
    ∃ tables, calls.foldlM (fun tables c => run w c.argv tables) noTables = some tables ∧
      ∀ x, tables x = stored (columnsIn calls x) := by
  have hstep (done : List (Call w col)) (tables : Text → Option Text)
      (h : ∀ x, tables x = stored (columnsIn done x)) (c : Call w col) (_ : c ∈ calls) :
      ∃ tables', run w c.argv tables = some tables' ∧
        ∀ x, tables' x = stored (columnsIn (done ++ [c]) x) :=
    call_adds c h
  have hstart (x : Text) : noTables x = stored (columnsIn ([] : List (Call w col)) x) := rfl
  have ⟨tables, hrun, hend⟩ := foldlM_collects hstep hstart
  refine ⟨tables, hrun, ?_⟩
  simpa using hend

def noTaint : Column := ⟨2 :: List.replicate 24 0, rfl⟩

/-- Two groups, and a source that has two decisions and is listed twice. -/
def twoGroups : World where
  batchTransponder := [⟨['2'], "ADDIW,SLLIW".toList⟩, ⟨['3'], "ADD,SUB".toList⟩]
  decisionSrcOrderedList := fun _ => ["id_stage_s1", "id_stage_s1"]
  divNodeDecisionIso := fun _ => true
  postProcAll := fun _ => some noTaint.cells

theorem twoGroups_works (o : Options) : Works twoGroups o fun _ => noTaint :=
  ⟨fun _ _ _ _ _ => rfl, fun _ _ => rfl⟩

def byInstn : Call twoGroups fun _ => noTaint where
  argv := ["--i=ADD".toList]
  options := ⟨2, [['3']], some "ADD".toList⟩
  name := "ADD".toList
  parsed := by decide +kernel
  named := ⟨_, rfl, rfl⟩
  works := twoGroups_works _

def byGroup : Call twoGroups fun _ => noTaint where
  argv := ["--g=3".toList]
  options := ⟨2, [['3']], none⟩
  name := ['A']
  parsed := by decide +kernel
  named := ⟨_, rfl, rfl⟩
  works := twoGroups_works _

/-- The group's number alone sends the columns to a table named by a letter of the first line. -/
theorem two_calls_two_tables : ∃ tables,
    [byInstn, byGroup].foldlM (fun tables c => run twoGroups c.argv tables) noTables = some tables ∧
      tables "ADD".toList = stored [noTaint.lowered 0, noTaint.lowered 1] ∧
      tables ['A'] = stored [noTaint.lowered 0, noTaint.lowered 1] := by
  obtain ⟨tables, hrun, htables⟩ := tables_keep_columns [byInstn, byGroup]
  refine ⟨tables, hrun, ?_, ?_⟩
  · rw [htables]
    rfl
  · rw [htables]
    rfl

end SynthLC.ResultTable
