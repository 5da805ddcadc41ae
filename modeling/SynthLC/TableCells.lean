import SynthLC.IntrinRuns
import SynthLC.ResultTable

/-! What the cells of `table_6_<nm>.txt` say.  For each decision source the steps for the operands
of the transponder itself and those for pairs of transponder and transmitter are run, their flags
are put into a column, and the column is added to the table.  The table is compared with asking
each instruction, decision and operand. -/
namespace SynthLC.TableCells

open ResultTable
open BatchRun (Disk Path Steady)

/-- `int` of a flag. -/
def bit (b : Bool) : Int := if b then 1 else 0

/-- `ret_arr` as the table gets it. -/
def retArrOf (out : Nat × List Dyn.Entry) : List Int :=
  (out.1 : Int) :: out.2.flatMap fun e =>
    [bit e.intrinsic.rs1, bit e.intrinsic.rs2, bit e.dynamic.rs1, bit e.dynamic.rs2]

/-- One decision source, with a run of the steps for the operands themselves, in any interleaving of
the workers, whose flags the other steps are given.  All groups of the table are in the map and have
operands. -/
structure Source where
  call : Intrin.Call
  covered : Dyn.Taint → Dyn.Side → Dyn.Decision → Bool
  oracle : Dyn.Oracle call.toSetup
  want : List (Path × Intrin.SvFile)
  before : Disk Intrin.SvFile
  after : Disk Intrin.SvFile
  monotone : Intrin.Monotone call covered
  wanted : call.wanted ⊆ want
  steady : Steady (Intrin.jobs call.ipId) want before
  ran : Intrin.Ran call covered before (some call.intrinRes) after
  plain : Dyn.OpcodesPlain call.toSetup oracle.covered
  listed : ∀ id ∈ Dyn.tableIn, ∃ g ∈ call.groups, g.id = id ∧ g.field ≠ .none

/-- What the steps up to `post_proc_all` return. -/
def Source.retArr (x : Source) : Option (List Int) :=
  (Dyn.allSteps x.call.toSetup x.oracle.covered).map retArrOf

/-- The place of a flag within the block of its group. -/
def offset (dynamic : Bool) (op : Operand) : Nat :=
  (if dynamic then 2 else 0) + match op with | .rs1 => 0 | .rs2 => 1

/-- The row for the transmitters at a place of the table: `N` or `D`, and the operand. -/
def rowOf (i : Nat) (dynamic : Bool) (op : Operand) : Nat := 4 * i + offset dynamic op + 1

def labelOf (i : Nat) (dynamic : Bool) (op : Operand) : List Text :=
  [(transmitters.getD i "").toList, (if dynamic then "D" else "N").toList,
    (match op with | .rs1 => "rs1" | .rs2 => "rs2").toList]

/-- What is in a row and a column of the file. -/
def cellAt (t : Text) (i j : Nat) : Option Text := (readRows t)[i]?.bind fun row => row[j]?

/-- The intrinsic flag for a group of transmitters. -/
def Source.intrinsic (x : Source) (g : Group) (op : Operand) : Bool :=
  decide (x.call.ipId = g.id ∨ x.call.ipInstns.Perm g.instns) &&
    Intrin.exhaustive x.call x.covered op

/-- The flags of a group, asked one by one, in the order of the rows. -/
def Source.block (x : Source) (g : Group) : List Int :=
  [bit (x.intrinsic g .rs1), bit (x.intrinsic g .rs2),
    bit (Dyn.exhaustive x.call.toSetup x.oracle.covered g .rs1),
    bit (Dyn.exhaustive x.call.toSetup x.oracle.covered g .rs2)]

/-! ### One column -/

section Column

variable (x : Source)

theorem Source.intrinRes_eq : x.call.intrinRes =
    ⟨Intrin.exhaustive x.call x.covered .rs1, Intrin.exhaustive x.call x.covered .rs2⟩ := by
  obtain ⟨_, hflags⟩ := x.ran.eq_flags x.steady x.wanted
  split at hflags
  · rw [Option.some.inj hflags, Intrin.flags, Intrin.tainted_eq x.monotone,
      Intrin.tainted_eq x.monotone]
  · cases hflags

/-- The cells of a group in the table. -/
def Source.blockOf (id : Nat) : List Int :=
  (Dyn.entries x.call.toSetup x.oracle.covered id).flatMap fun e =>
    [bit e.intrinsic.rs1, bit e.intrinsic.rs2, bit e.dynamic.rs1, bit e.dynamic.rs2]

theorem Source.blockOf_eq {g : Group} (hg : g ∈ x.call.groups) (hfield : g.field ≠ .none)
    (hid : g.id ∈ Dyn.tableIn) : x.blockOf g.id = x.block g := by
  have hentries : Dyn.entries x.call.toSetup x.oracle.covered g.id =
      [⟨g.id, Dyn.intrinsicResult x.call.toSetup g.id g,
        ⟨Dyn.exhaustive x.call.toSetup x.oracle.covered g .rs1,
          Dyn.exhaustive x.call.toSetup x.oracle.covered g .rs2⟩⟩] := by
    simp only [Dyn.entries, Dyn.findGroup_of_mem hg]
    exact if_pos ⟨hfield, hid⟩
  have hintrinsic : Dyn.intrinsicResult x.call.toSetup g.id g =
      ⟨x.intrinsic g .rs1, x.intrinsic g .rs2⟩ := by
    unfold Dyn.intrinsicResult Source.intrinsic
    rw [x.intrinRes_eq]
    split_ifs with hsame
    · simp [hsame]
    · simp [hsame]
  rw [blockOf, hentries, hintrinsic]
  rfl

theorem Source.readable : ∀ id ∈ Dyn.tableIn, Dyn.Readable x.call.toSetup id := by
  intro id hid
  obtain ⟨g, hg, hgid, _⟩ := x.listed id hid
  exact .inl ⟨g, hg, hgid⟩

/-- Only the groups of the table add to a column. -/
theorem Source.retArr_eq : x.retArr =
    some ((x.call.cntFollowerSets.length : Int) :: Dyn.tableIn.flatMap x.blockOf) := by
  obtain ⟨fs₂, hrun₂, hdone₂⟩ := Dyn.step2Done (Dyn.step1Done x.call.toSetup) x.plain
  obtain ⟨fs₃, hrun₃, hdone₃⟩ := Dyn.step3Done x.oracle hdone₂
  have hsteps := Dyn.allSteps_eq_some_iff.mpr
    ⟨fs₂, fs₃, hrun₂, hrun₃, Dyn.postProcAll_eq x.oracle hdone₃ x.readable⟩
  obtain ⟨rest, horder, hrest⟩ :=
    Loop.foldl_insertNew_eq_append (x.call.groups.map Group.id) Dyn.tableIn
  have hout : rest.flatMap x.blockOf = [] := by
    apply List.flatMap_eq_nil_iff.mpr
    intro id hid
    have hnone : Dyn.entries x.call.toSetup x.oracle.covered id = [] := by
      unfold Dyn.entries
      split
      · rfl
      · exact if_neg fun h => hrest id hid h.2
    rw [blockOf, hnone]
    rfl
  have htable : x.call.toSetup.tableOrder.flatMap x.blockOf = Dyn.tableIn.flatMap x.blockOf := by
    rw [Dyn.Setup.tableOrder, horder, List.flatMap_append, hout, List.append_nil]
  rw [retArr, hsteps, Option.map_some, retArrOf, List.flatMap_assoc, ← htable]
  rfl

theorem Source.length_blockOf : ∀ id ∈ Dyn.tableIn, (x.blockOf id).length = 4 := by
  intro id hid
  obtain ⟨g, hg, hgid, hfield⟩ := x.listed id hid
  subst hgid
  rw [x.blockOf_eq hg hfield hid]
  rfl

/-- The column of a source. -/
def Source.column : ResultTable.Column where
  cells := (x.call.cntFollowerSets.length : Int) :: Dyn.tableIn.flatMap x.blockOf
  full := by
    have hsum : (Dyn.tableIn.map fun id => (x.blockOf id).length) = Dyn.tableIn.map fun _ => 4 :=
      List.map_congr_left x.length_blockOf
    rw [List.length_cons, List.length_flatMap, hsum]
    rfl

theorem offset_lt (dynamic : Bool) (op : Operand) : offset dynamic op < 4 := by
  cases dynamic <;> cases op <;> decide

/-- A flag of a group, asked for all its instructions. -/
def Source.flag (x : Source) (g : Group) (dynamic : Bool) (op : Operand) : Bool :=
  if dynamic then Dyn.exhaustive x.call.toSetup x.oracle.covered g op else x.intrinsic g op

theorem Source.block_offset (g : Group) (dynamic : Bool) (op : Operand) :
    (x.block g)[offset dynamic op]? = some (bit (x.flag g dynamic op)) := by
  cases dynamic <;> cases op <;> rfl

theorem Source.column_row {i : Nat} {g : Group} (hg : g ∈ x.call.groups)
    (hid : Dyn.tableIn[i]? = some g.id) (dynamic : Bool) (op : Operand) :
    x.column.cells[rowOf i dynamic op]? = some (bit (x.flag g dynamic op)) := by
  have hmem : g.id ∈ Dyn.tableIn := List.mem_of_getElem? hid
  obtain ⟨g', hg', hsame, hfield⟩ := x.listed g.id hmem
  obtain rfl : g' = g := Dyn.eq_of_id hg' hg hsame
  change (Dyn.tableIn.flatMap x.blockOf)[4 * i + offset dynamic op]? = _
  rw [Loop.getElem?_flatMap_blocks (offset_lt dynamic op) x.length_blockOf, hid, Option.bind_some,
    x.blockOf_eq hg hfield hmem, x.block_offset]

end Column

/-! ### The table -/

section Table

theorem cellAt_tableText {cs : List ResultTable.Column} {j : Nat} {c : ResultTable.Column}
    (hj : cs[j]? = some c) {i : Nat} {n : Int} (hi : c.cells[i]? = some n) :
    cellAt (tableText cs) i j = some (TextFile.intText n) := by
  have hne : cs ≠ [] := by
    intro h
    rw [h] at hj
    cases hj
  have hlt : i < labels.length := by
    rw [← c.full]
    exact (List.getElem?_eq_some_iff.mp hi).1
  rw [cellAt, readRows_tableText hne, List.getElem?_map, List.getElem?_range hlt, Option.map_some,
    Option.bind_some, List.getElem?_map, hj, Option.map_some, ResultTable.Column.cell,
    List.getD_eq_getElem?_getD, hi]
  rfl

theorem labels_rowOf {i : Nat} {id : Nat} (hid : Dyn.tableIn[i]? = some id) (dynamic : Bool)
    (op : Operand) : labels[rowOf i dynamic op]? = some (labelOf i dynamic op) := by
  have hall : ∀ i < Dyn.tableIn.length,
      labels[rowOf i dynamic op]? = some (labelOf i dynamic op) := by
    cases dynamic <;> cases op <;> decide
  exact hall i (List.getElem?_eq_some_iff.mp hid).1

variable {w : World} {o : Options} {src : Key → Source} {argv : List Text} {first : Line}
  {rest : List Line} {nm : Text} {tables : Text → Option Text} {old : List ResultTable.Column}

/-- Group 3 with the decisions at `issue_s1`, whose own `rs1` decides them. -/
def addCall : Intrin.Call where
  toSetup := { Dyn.twoDecisions with intrinRes := ⟨true, false⟩ }
  fieldIp := .rs1rs2

/-- Loads taint the decisions through `rs1`. -/
def loadsOracle : Dyn.Oracle addCall.toSetup :=
  { Dyn.throughRs1Oracle fun i => i ∈ [.LB, .LW] with }

theorem addCall_monotone : Intrin.Monotone addCall Intrin.issueRs1 where
  group := fun _ _ _ _ h => h
  both := by
    intro op side dec h
    simp only [Intrin.issueRs1, Bool.and_eq_true, decide_eq_true_eq] at h ⊢
    exact ⟨by simp, h.2⟩
  store := by
    have hnone : ∀ ip ∈ addCall.ipInstns, ip ∉ Dyn.stores := by decide
    intro ip hip hstore
    exact absurd hstore (hnone ip hip)

theorem addCall_steady : Steady (Intrin.jobs addCall.ipId) addCall.wanted BatchRun.emptyDisk := by
  have hgroup : Intrin.OfGroup 3 [addCall] := ⟨by simp [addCall, Dyn.twoDecisions], by decide⟩
  have hsteady := hgroup.steady_empty
  rwa [List.flatMap_singleton] at hsteady

/-- A run of the steps for the operands themselves. -/
theorem addCall_ran : ∃ d, Intrin.Ran addCall Intrin.issueRs1 BatchRun.emptyDisk
    (some addCall.intrinRes) d := by
  obtain ⟨r, d, hran⟩ := Intrin.exists_ran addCall Intrin.issueRs1 BatchRun.emptyDisk
  have hflags : (if Intrin.storesPass addCall Intrin.issueRs1 then
      some (Intrin.flags addCall Intrin.issueRs1) else none) = some addCall.intrinRes := by
    decide +kernel
  rw [(hran.eq_flags addCall_steady (List.Subset.refl _)).2, hflags] at hran
  exact ⟨d, hran⟩

theorem loads_plain : Dyn.OpcodesPlain addCall.toSetup loadsOracle.covered := by
  have hfiles : ∀ x ∈ addCall.toSetup.todo,
      Dyn.groupCov addCall.toSetup (Dyn.throughRs1 fun i => i ∈ [.LB, .LW]) x = true →
        ∀ i ∈ addCall.ipInstns ++ x.2.instns, (Dyn.getIConstraint i).isSome := by
    decide +kernel
  intro x hx hcov i hi
  exact Dyn.getIConstraint_iff.mp (Option.isSome_iff_exists.mp (hfiles x hx hcov i hi))

/-- The group's line, with a source that has two decisions and is listed twice. -/
def addWorld : World where
  batchTransponder := [⟨['3'], "ADD,SUB,SLL,SLT,SLTU,XOR,SRL,SRA,OR,AND".toList⟩]
  decisionSrcOrderedList := fun _ => ["issue_s1", "issue_s1"]
  divNodeDecisionIso := fun _ => true
  postProcAll := fun _ => (Dyn.allSteps addCall.toSetup loadsOracle.covered).map retArrOf

def addOptions : Options := ⟨2, [['3']], some "ADD".toList⟩

theorem addOptions_parsed : parseArgs ["--i=ADD".toList] = some addOptions := by decide +kernel

theorem addWorld_keys : (addWorld.keys addOptions)[1]? = some ⟨['3'], "issue_s1"⟩ ∧
    ((addWorld.keys addOptions).take 1).count ⟨['3'], "issue_s1"⟩ = 1 := by
  decide +kernel

theorem addCall_listed : ∀ id ∈ Dyn.tableIn, ∃ g ∈ addCall.groups, g.id = id ∧ g.field ≠ .none := by
  decide

def addSource (d : Disk Intrin.SvFile)
    (ran : Intrin.Ran addCall Intrin.issueRs1 BatchRun.emptyDisk (some addCall.intrinRes) d) :
    Source where
  call := addCall
  covered := Intrin.issueRs1
  oracle := loadsOracle
  want := addCall.wanted
  before := BatchRun.emptyDisk
  after := d
  monotone := addCall_monotone
  wanted := List.Subset.refl _
  steady := addCall_steady
  ran := ran
  plain := loads_plain
  listed := addCall_listed

def loadGroup : Group := ⟨4, .rs1, [.LB, .LH, .LW, .LBU, .LHU, .LWU, .LD]⟩

theorem loadGroup_mem : loadGroup ∈ addCall.groups := by
  simp [addCall, Dyn.twoDecisions, Opcodes.groupMap, loadGroup]

theorem loads_exhaustive :
    Dyn.exhaustive addCall.toSetup loadsOracle.covered loadGroup .rs1 = true := by
  decide +kernel

end Table

end SynthLC.TableCells
