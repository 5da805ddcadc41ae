import Mathlib.Data.List.TakeWhile
import SynthLC.DynSteps
import SynthLC.Loop
import SynthLC.SvExpr

/-! `get_i_constraint` of `synthlc_full/src/util.py`: the assumptions in an opcode file become one
expression over the signal that is asked for, line by line and as text. -/
namespace SynthLC.ConstraintText

open TextFile SvExpr Loop

/-! ### The reader -/

/-- `re.search("\((.*)\)", line).group(0)`: from the first opening bracket to the last closing
one. -/
def bracketed (line : List Char) : Option (List Char) :=
  let part := ((line.dropWhile (· ≠ '(')).reverse.dropWhile (· ≠ ')')).reverse
  if part = [] then none else some part

/-- `i0` -/
def i0 : List Char := ['i', '0']

/-- Where the expression finds no brackets, `group` is asked of `None`. -/
def getIConstraint (text iseq : List Char) : Option (List Char) :=
  ((lines '\n' (universalNewlines text)).mapM fun line =>
    (bracketed line).map fun t => replace i0 iseq t ++ [' ', '&', '&', ' ']).map fun parts =>
      ['(', ' '] ++ (parts.flatten ++ [' ', '1', '\'', 'b', '1', ' ', ')'])

/-! ### The files -/

abbrev Ident := { s : List Char // IsSignal s }

/-- The kinds of lines of an opcode file (`FENCEI.sv` ends with an empty one). -/
inductive FileLine where
  | define (name : Ident)
  | assume (label : Ident) (cond : Expr .disj)
  | blank

/-- What stands before the name of a define, and after the label of an assumption. -/
def defineText : List Char := "`define ".toList

def assumeText : List Char := ": assume property ".toList

def condText (cond : Expr .disj) : List Char := cond.text [' '] i0

def FileLine.text : FileLine → List Char
  | .define name => defineText ++ name.1
  | .assume label cond => label.1 ++ (assumeText ++ '(' :: (condText cond ++ ')' :: [';']))
  | .blank => []

def fileText (file : List FileLine) : List Char := file.flatMap fun line => line.text ++ ['\n']

def FileLine.cond? : FileLine → Option (Expr .disj)
  | .define _ => none
  | .assume _ cond => some cond
  | .blank => none

def conds (file : List FileLine) : List (Expr .disj) := file.filterMap FileLine.cond?

/-- The word satisfies the expression that the text stands for, with the signal `s` for the word. -/
def Satisfies (s t : List Char) (w : BitVec 32) : Prop :=
  ∃ e, readExpr s t = some e ∧ e.eval w = true

theorem isSignal_i0 : IsSignal i0 := ⟨⟨'i', rfl, by decide⟩, by decide⟩

/-! ### One line -/

section Line

variable {s : List Char}

theorem dropWhile_append_cons {c : Char} {xs : List Char} (h : c ∉ xs) (ys : List Char) :
    (xs ++ c :: ys).dropWhile (· ≠ c) = c :: ys := by
  have hall : ∀ x ∈ xs, decide (x ≠ c) = true := by
    intro x hx
    exact decide_eq_true fun heq => h (heq ▸ hx)
  rw [List.dropWhile_append_of_pos hall, List.dropWhile_cons_of_neg (by simp)]

/-- Characters of names and expressions are no brackets other than their own and no line ends. -/
theorem Ident.not_mem (x : Ident) {c : Char}
    (hc : (c.isAlphanum || c == '_' || c == '$' || c == '.') = false) : c ∉ x.1 := by
  intro hmem
  have hchar := x.2.chars c hmem
  revert hchar
  simpa [and_assoc] using hc

theorem not_mem_condText {c : Char} (cond : Expr .disj) (hi0 : c ∉ i0) (hsp : c ≠ ' ')
    (hc : c ∉ alphabet) : c ∉ condText cond := by
  intro hmem
  rcases Expr.mem_text hmem with h | h | h
  · exact hi0 h
  · exact hsp (List.mem_singleton.mp h)
  · exact hc h

theorem FileLine.not_mem_text (line : FileLine) {c : Char} (hc : c = '\n' ∨ c = '\r') :
    c ∉ line.text := by
  intro hmem
  cases line with
  | define name =>
    rcases List.mem_append.mp hmem with h | h
    · rcases hc with rfl | rfl <;> exact absurd h (by decide)
    · rcases hc with rfl | rfl <;> exact Ident.not_mem name (by decide) h
  | assume label cond =>
    simp only [FileLine.text, List.mem_append, List.mem_cons, List.not_mem_nil, or_false] at hmem
    rcases hmem with h | h | h | h | h | h
    · rcases hc with rfl | rfl <;> exact Ident.not_mem label (by decide) h
    · rcases hc with rfl | rfl <;> exact absurd h (by decide)
    · rcases hc with rfl | rfl <;> exact absurd h (by decide)
    · rcases hc with rfl | rfl <;>
        exact not_mem_condText cond (by decide) (by decide) (by decide) h
    · rcases hc with rfl | rfl <;> exact absurd h (by decide)
    · rcases hc with rfl | rfl <;> exact absurd h (by decide)
  | blank => exact List.not_mem_nil hmem

theorem bracketed_define (name : Ident) :
    bracketed ((FileLine.define name).text ++ ['\n']) = none := by
  have hfree : ∀ c ∈ (FileLine.define name).text ++ ['\n'], decide (c ≠ '(') = true := by
    intro c hc
    apply decide_eq_true
    intro heq
    rw [heq] at hc
    simp only [FileLine.text, List.mem_append] at hc
    rcases hc with (h | h) | h
    · exact absurd h (by decide)
    · exact Ident.not_mem name (by decide) h
    · exact absurd h (by decide)
  unfold bracketed
  rw [List.dropWhile_eq_nil_iff.mpr hfree]
  rfl

theorem bracketed_assume (label : Ident) (cond : Expr .disj) :
    bracketed ((FileLine.assume label cond).text ++ ['\n']) =
      some ('(' :: (condText cond ++ [')'])) := by
  have htext : (FileLine.assume label cond).text ++ ['\n'] =
      (label.1 ++ assumeText) ++ '(' :: (condText cond ++ ')' :: [';', '\n']) := by
    simp [FileLine.text]
  have hfree : '(' ∉ label.1 ++ assumeText := by
    rw [List.mem_append, not_or]
    exact ⟨Ident.not_mem label (by decide), by decide⟩
  have hrev : ('(' :: (condText cond ++ ')' :: [';', '\n'])).reverse =
      ['\n', ';'] ++ ')' :: ('(' :: condText cond).reverse := by simp
  unfold bracketed
  rw [htext, dropWhile_append_cons hfree, hrev, dropWhile_append_cons (by decide),
    List.reverse_cons, List.reverse_reverse]
  simp

/-- The line's condition with its brackets and over the signal. -/
theorem replace_cond (cond : Expr .disj) :
    replace i0 s ('(' :: (condText cond ++ [')'])) = '(' :: (cond.text [' '] s ++ [')']) := by
  have hopen : ¬i0 <+: '(' :: (condText cond ++ [')']) := by
    intro h
    exact absurd (List.cons_prefix_cons.mp h).1 (by decide)
  have hclose : replace i0 s [')'] = [')'] := by
    unfold i0
    rfl
  have hbody : replace i0 s (condText cond ++ [')']) = cond.text [' '] s ++ replace i0 s [')'] :=
    Expr.replace_text (by decide) (by decide) cond [')']
  rw [replace_cons_of_not_starts hopen, hbody, hclose]

end Line

/-! ### Whole files -/

section File

variable {s : List Char} {file : List FileLine}

theorem lines_fileText (file : List FileLine) :
    lines '\n' (universalNewlines (fileText file)) = file.map fun line => line.text ++ ['\n'] := by
  have hcr : '\r' ∉ fileText file := by
    intro hmem
    have ⟨line, _, hline⟩ := List.mem_flatMap.mp hmem
    rcases List.mem_append.mp hline with h | h
    · exact line.not_mem_text (.inr rfl) h
    · exact absurd h (by decide)
  rw [universalNewlines_of_not_mem hcr]
  exact lines_flatMap FileLine.text fun line _ => line.not_mem_text (.inl rfl)

/-- What a line adds to the result. -/
def inlined (s : List Char) (cond : Expr .disj) : List Char :=
  '(' :: (cond.text [' '] s ++ [')']) ++ [' ', '&', '&', ' ']

theorem inlined_eq (s : List Char) (cond : Expr .disj) :
    inlined s cond = ['('] ++ (cond.text [' '] s ++ [')', ' ', '&', '&', ' ']) := by
  simp [inlined]

def resultText (s : List Char) (cs : List (Expr .disj)) : List Char :=
  ['(', ' '] ++ ((cs.flatMap (inlined s)) ++ [' ', '1', '\'', 'b', '1', ' ', ')'])

/-- The result, as long as every line is an assumption. -/
theorem getIConstraint_eq (s : List Char) (file : List FileLine) :
    getIConstraint (fileText file) s = (file.mapM FileLine.cond?).map (resultText s) := by
  have hline (line : FileLine) : (bracketed (line.text ++ ['\n'])).map
      (fun t => replace i0 s t ++ [' ', '&', '&', ' ']) = line.cond?.map (inlined s) := by
    cases line with
    | define name =>
      rw [bracketed_define]
      rfl
    | assume label cond =>
      rw [bracketed_assume, Option.map_some, replace_cond]
      rfl
    | blank => rfl
  have hmapM (file : List FileLine) : (file.map fun line => line.text ++ ['\n']).mapM
      (fun line => (bracketed line).map fun t => replace i0 s t ++ [' ', '&', '&', ' ']) =
        (file.mapM FileLine.cond?).map (List.map (inlined s)) := by
    induction file with
    | nil => rfl
    | cons line file ih =>
      rw [List.map_cons, List.mapM_cons, List.mapM_cons, hline, ih]
      cases line.cond? with
      | none => rfl
      | some c => cases file.mapM FileLine.cond? <;> rfl
  unfold getIConstraint
  rw [lines_fileText, hmapM, Option.map_map]
  rfl

/-- All assumptions, and the one at the end. -/
def conjoined : List (Expr .disj) → Expr .conj
  | [] => .single .one
  | c :: cs => .and (.group c) (conjoined cs)

def whole (cs : List (Expr .disj)) : Expr .disj :=
  .alone (.single (.group (.alone (conjoined cs))))

theorem eval_conjoined (w : BitVec 32) (cs : List (Expr .disj)) :
    (conjoined cs).eval w = cs.all fun c => c.eval w := by
  induction cs with
  | nil => rfl
  | cons c cs ih => rw [conjoined, Expr.eval, Expr.eval, ih, List.all_cons]

theorem squeeze_resultText (hs : ' ' ∉ s) (cs : List (Expr .disj)) :
    squeeze (resultText s cs) = (whole cs).text [] s := by
  have hbody : squeeze (cs.flatMap (inlined s) ++ [' ', '1', '\'', 'b', '1', ' ', ')']) =
      (conjoined cs).text [] s ++ [')'] := by
    induction cs with
    | nil => rfl
    | cons c cs ih =>
      have hhead : squeeze (inlined s c) = '(' :: (c.text [] s ++ [')']) ++ ['&', '&'] := by
        rw [inlined_eq, squeeze_append, squeeze_append, Expr.squeeze_text hs]
        simp [squeeze]
      rw [List.flatMap_cons, List.append_assoc, squeeze_append, ih, hhead]
      simp [conjoined, Expr.text]
  show squeeze (['(', ' '] ++ _) = _
  rw [squeeze_append, hbody]
  rfl

theorem readExpr_resultText (hs : IsSignal s) (cs : List (Expr .disj)) :
    readExpr s (resultText s cs) = some (whole cs) :=
  readExpr_of_squeeze hs (squeeze_resultText hs.no_space cs)

theorem satisfies_resultText (hs : IsSignal s) (cs : List (Expr .disj)) (w : BitVec 32) :
    Satisfies s (resultText s cs) w ↔ (cs.all fun c => c.eval w) = true := by
  have heval : (whole cs).eval w = cs.all fun c => c.eval w := eval_conjoined w cs
  unfold Satisfies
  rw [readExpr_resultText hs, ← heval]
  simp

theorem mapM_cond (h : ∀ line ∈ file, line.cond? ≠ none) :
    file.mapM FileLine.cond? = some (conds file) := by
  induction file with
  | nil => rfl
  | cons line file ih =>
    cases line with
    | define name => exact absurd rfl (h (.define name) (by simp))
    | blank => exact absurd rfl (h .blank (by simp))
    | assume label cond =>
      have hrest := ih fun line hline => h line (by simp [hline])
      rw [List.mapM_cons, hrest]
      rfl

theorem readExpr_condText (cond : Expr .disj) : readExpr i0 (condText cond) = some cond :=
  readExpr_of_squeeze isSignal_i0 (Expr.squeeze_text isSignal_i0.no_space cond)

/-- The script gets past a file exactly if every line is an assumption, and then the text it returns
stands for all conditions of the file, over the signal. -/
theorem constraint_inlined_iff (file : List FileLine) (hs : IsSignal s) :
    (∃ t, getIConstraint (fileText file) s = some t ∧ (∃ e, readExpr s t = some e) ∧
      ∀ w, Satisfies s t w ↔ ∀ c ∈ conds file, Satisfies i0 (condText c) w) ↔
    ∀ line ∈ file, line.cond? ≠ none := by
  constructor
  · intro ⟨t, ht, _⟩ line hline
    rw [getIConstraint_eq] at ht
    have ⟨cs, hcs, _⟩ := Option.map_eq_some_iff.mp ht
    have ⟨c, hc⟩ := exists_mapM.mp ⟨cs, hcs⟩ line hline
    rw [hc]
    simp
  · intro h
    refine ⟨resultText s (conds file), ?_, ⟨_, readExpr_resultText hs (conds file)⟩, ?_⟩
    · rw [getIConstraint_eq, mapM_cond h, Option.map_some]
    · intro w
      rw [satisfies_resultText hs, List.all_eq_true]
      simp [Satisfies, readExpr_condText]

/-- The line of a file and the line it is modelled as. -/
def Renders : FileLine → Opcodes.Line → Prop
  | .define _, .define => True
  | .assume _ cond, .assume t => ∀ w : BitVec 32, cond.eval w = t.holds w
  | .blank, .blank => True
  | _, _ => False

theorem mapM_renders {ls : List Opcodes.Line} (h : List.Forall₂ Renders file ls) :
    (file.mapM FileLine.cond? = none ∧ ls.mapM Opcodes.Line.test? = none) ∨
    ∃ cs ts, file.mapM FileLine.cond? = some cs ∧ ls.mapM Opcodes.Line.test? = some ts ∧
      ∀ w : BitVec 32, (cs.all fun c => c.eval w) = BitField.allHold w ts := by
  induction h with
  | nil => exact .inr ⟨[], [], rfl, rfl, fun _ => rfl⟩
  | @cons line l file ls hline _ ih =>
    rw [List.mapM_cons, List.mapM_cons]
    cases line with
    | define name =>
      cases l with
      | define => exact .inl ⟨rfl, rfl⟩
      | assume t => exact hline.elim
      | blank => exact hline.elim
    | assume label cond =>
      cases l with
      | define => exact hline.elim
      | assume t =>
        rcases ih with ⟨hfile, hls⟩ | ⟨cs, ts, hfile, hls, hall⟩
        · rw [hfile, hls]
          exact .inl ⟨rfl, rfl⟩
        · rw [hfile, hls]
          refine .inr ⟨cond :: cs, t :: ts, rfl, rfl, ?_⟩
          intro w
          rw [List.all_cons, hall w, hline w]
          rfl
      | blank => exact hline.elim
    | blank =>
      cases l with
      | define => exact hline.elim
      | assume t => exact hline.elim
      | blank => exact .inl ⟨rfl, rfl⟩

/-- The list of tests that the queries are made with is what the text says. -/
theorem getIConstraint_renders {i : Instn} (hs : IsSignal s)
    (h : List.Forall₂ Renders file (Opcodes.opcodesGenAll i)) :
    (Dyn.getIConstraint i = none ∧ getIConstraint (fileText file) s = none) ∨
    ∃ ts t, Dyn.getIConstraint i = some ts ∧ getIConstraint (fileText file) s = some t ∧
      ∀ w, Satisfies s t w ↔ BitField.allHold w ts = true := by
  rw [getIConstraint_eq]
  rcases mapM_renders h with ⟨hfile, hls⟩ | ⟨cs, ts, hfile, hls, hall⟩
  · refine .inl ⟨hls, ?_⟩
    rw [hfile]
    rfl
  · refine .inr ⟨ts, resultText s cs, hls, by rw [hfile, Option.map_some], ?_⟩
    intro w
    rw [satisfies_resultText hs, hall w]

end File

/-- A condition that compares bits with a binary literal. -/
def bits (hi lo width : Digits decimalDigits) (digits : Digits Base.bin.digits) : Expr .disj :=
  .alone (.single (.cmp ⟨some (hi, lo), true, width, .bin, digits⟩))

/-- `i0[14:12] == 3'b` and `i0[6:0] == 7'b`, the two fields of an instruction without `rd`. -/
def funct3Cond (digits : Digits Base.bin.digits) : Expr .disj :=
  bits ⟨['1', '4'], by decide⟩ ⟨['1', '2'], by decide⟩ ⟨['3'], by decide⟩ digits

def opcodeCond (digits : Digits Base.bin.digits) : Expr .disj :=
  bits ⟨['6'], by decide⟩ ⟨['0'], by decide⟩ ⟨['7'], by decide⟩ digits

/-- `JALR.sv` -/
def jalr : List FileLine :=
  [.assume ⟨"i_JALR_0".toList, ⟨'i', rfl, by decide⟩, by decide⟩
      (funct3Cond ⟨"000".toList, by decide⟩),
    .assume ⟨"i_JALR_1".toList, ⟨'i', rfl, by decide⟩, by decide⟩
      (opcodeCond ⟨"1100111".toList, by decide⟩)]

theorem constraint_inlined_jalr : IsSignal ['i', '1'] ∧
    getIConstraint (fileText jalr) ['i', '1'] =
      some "( (i1[14:12] == 3'b000) && (i1[6:0] == 7'b1100111) &&  1'b1 )".toList ∧
    ∃ t, getIConstraint (fileText jalr) ['i', '1'] = some t ∧
      (∃ e, readExpr ['i', '1'] t = some e) ∧
      ∀ w, Satisfies ['i', '1'] t w ↔ ∀ c ∈ conds jalr, Satisfies i0 (condText c) w := by
  have hs : IsSignal ['i', '1'] := ⟨⟨'i', rfl, by decide⟩, by decide⟩
  refine ⟨hs, by decide +kernel, (constraint_inlined_iff jalr hs).mpr ?_⟩
  intro line hline
  rcases List.mem_cons.mp hline with rfl | hline
  · simp [FileLine.cond?]
  · rw [List.mem_singleton.mp hline]
    simp [FileLine.cond?]

example : List.Forall₂ Renders jalr (Opcodes.opcodesGenAll .JALR) :=
  .cons (fun _ => rfl) (.cons (fun _ => rfl) .nil)

/-- `CSRRW.sv` -/
def csrrw : List FileLine :=
  [.define ⟨"SYSINSN".toList, ⟨'S', rfl, by decide⟩, by decide⟩,
    .assume ⟨"i_CSRRW_0".toList, ⟨'i', rfl, by decide⟩, by decide⟩
      (funct3Cond ⟨"001".toList, by decide⟩),
    .assume ⟨"i_CSRRW_2".toList, ⟨'i', rfl, by decide⟩, by decide⟩
      (opcodeCond ⟨"1110011".toList, by decide⟩)]

/-- The define has no brackets, and the script stops. -/
theorem define_has_no_brackets :
    fileText csrrw = ("`define SYSINSN\ni_CSRRW_0: assume property (i0[14:12] == 3'b001);\n" ++
      "i_CSRRW_2: assume property (i0[6:0] == 7'b1110011);\n").toList ∧
    getIConstraint (fileText csrrw) i0 = none := by
  decide +kernel

end SynthLC.ConstraintText
