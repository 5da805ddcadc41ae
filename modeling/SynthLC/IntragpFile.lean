import SynthLC.ConstraintText
import SynthLC.Dict
import SynthLC.Gconsts

/-! The files `<group>_<cnt>_intragp.sv`: `dyn_step2.py` writes a header and one cover property for
each pair of instructions, `dyn_step3.py` reads the file back and takes it apart. -/
namespace SynthLC.Intragp

open TextFile ConstraintText Opcodes

/-! ### The texts of a decision -/

/-- `transform_disjunc` -/
def transformDisjunc (isopl : String) : Option (List Char) :=
  if isoMark <:+: isopl.toList then
    (classNames isopl).map fun names =>
      '(' :: (names.flatMap (fun n => n.toList ++ " || ".toList) ++ " 1'b0)".toList)
  else some isopl.toList

/-- Terms with a comma between them. -/
def listed (terms : List (List Char)) : List Char := [' ', ','].intercalate terms

/-- `transform_iso_t0` -/
def transformIsoT0 (isopl : String) : Option (List Char) :=
  let term (n : String) := '(' :: (n.toList ++ " & ".toList ++ n.toList ++ "_t0 )".toList)
  if isoMark <:+: isopl.toList then (classNames isopl).map fun names => listed (names.map term)
  else some (term isopl)

/-- `transform_iso_t0_neg` -/
def transformIsoT0Neg (isopl decisionNode : String) : Option (List Char) := do
  let decNode ← decNodeSet decisionNode
  if isoMark <:+: isopl.toList then
    let plG ← isoIndex isopl
    let names ← classNames isopl
    match decNode.filter fun x => sameUfsm.any fun itm => x.1 ∈ itm ∧ plG ∈ itm with
    | some (_, decNames) =>
      some (listed ((decNames.zip names).map fun x =>
        "($past(".toList ++ x.1.toList ++ ") & ".toList ++ x.2.toList ++ "_t0 )".toList))
    | none => some (listed (names.map fun n => n.toList ++ "_t0 ".toList))
  else some (isopl.toList ++ "_t0".toList)

structure DecisionTexts where
  decnode : List Char
  followerset : List Char
  t0 : List Char
  deriving DecidableEq

def literalText (afset : List String) (n : String) : Option (List Char) :=
  (transformDisjunc n).map fun t => (if n ∈ afset then t else '!' :: t) ++ " && ".toList

/-- `followerset` -/
def followersetText (decisionSrc : String) (uniq afset : List String) : Option (List Char) :=
  (((if decisionSrc ∈ afset then [] else [decisionSrc]) ++ uniq.filter (· ≠ "")).mapM
    (literalText afset)).map fun ts => '(' :: (ts.flatten ++ " 1'b1".toList ++ [')'])

/-- `t0` -/
def t0Text (decisionSrc : String) (uniq afset : List String) : Option (List Char) :=
  (if afset = [] then (uniq.filter (· ≠ "")).mapM (transformIsoT0Neg · decisionSrc)
    else afset.mapM transformIsoT0).map fun ts =>
      '|' :: ('\x7b' :: (ts.flatMap (· ++ [' ', ',']) ++ "1'b0".toList) ++ ['\x7d'])

def decisionTexts (decisionSrc : String) (uniq afset : List String) : Option DecisionTexts := do
  let followerset ← followersetText decisionSrc uniq afset
  let t0 ← t0Text decisionSrc uniq afset
  let decnode ← transformDisjunc decisionSrc
  some ⟨decnode, followerset, t0⟩

/-! ### The templates -/

def opTaintMark : List Char := "OP_TAINT".toList
def instnMark : List Char := "INSTN_CONSTRAINT".toList
def i1Mark : List Char := "I1_CONSTRAINT".toList
def fieldMark : List Char := "FIELD".toList
def decnodeMark : List Char := "DECNODE".toList
def followersetMark : List Char := "FOLLOWERSET".toList
def t0Mark : List Char := "TT0".toList

/-- The lines of `dynamic_template_header`. -/
def headerRows : List (List Char) :=
  ["", "`define T_FROM_I", "`define DYNAMIC", "OP_TAINT", "",
    "OVERLAP: assume property (@(posedge clk_i) ", "    DECNODE |-> ", "    (i1_in_some_pl)",
    ");"].map String.toList

/-- The lines of `decision_template` after the blank one and that of the name. -/
def bodyRows : List (List Char) :=
  ["    (INSTN_CONSTRAINT &&", "    I1_CONSTRAINT &&", "    DECNODE) ##1 ", "    // follower set",
    "    (", "        (", "          FOLLOWERSET", "        ) && ", "        (TT0", "        )",
    "    )", ");"].map String.toList

def nameRow : List Char := "DEP_I_FIELD: cover property (@(posedge clk_i)".toList

def decisionRows : List (List Char) := [] :: nameRow :: bodyRows

/-- A template is its lines. -/
def ofRows (rows : List (List Char)) : List Char := rows.flatMap (· ++ ['\n'])

/-- `DEFINEOPTAINT` -/
def defineOpTaint : OpField → List Char
  | .rs1 => "`define RS1".toList
  | _ => "`define BORTHRS".toList

def headerReps (f : OpField) (d : DecisionTexts) : List (List Char × List Char) :=
  [(opTaintMark, defineOpTaint f), (decnodeMark, d.decnode)]

def headerText (f : OpField) (d : DecisionTexts) : List Char :=
  fill (headerReps f d) (ofRows headerRows)

/-- `i_p + "_" + i_t` -/
def field (p : Instn × Instn) : List Char := p.1.name.toList ++ '_' :: p.2.name.toList

def pairReps (d : DecisionTexts) (c0 c1 : List Char) (p : Instn × Instn) :
    List (List Char × List Char) :=
  [(instnMark, c0), (i1Mark, c1), (fieldMark, field p), (decnodeMark, d.decnode),
    (followersetMark, d.followerset), (t0Mark, d.t0)]

/-- One property, from the files of the two instructions. -/
def propertyText (files : Instn → List FileLine) (d : DecisionTexts) (p : Instn × Instn) :
    Option (List Char) := do
  let c0 ← getIConstraint (fileText (files p.1)) i0
  let c1 ← getIConstraint (fileText (files p.2)) ['i', '1']
  some (fill (pairReps d c0 c1 p) (ofRows decisionRows))

/-- The file that `dyn_step2.py` writes. -/
def intragpText (files : Instn → List FileLine) (f : OpField) (d : DecisionTexts)
    (pairs : List (Instn × Instn)) : Option (List Char) :=
  (pairs.mapM (propertyText files d)).map fun props => headerText f d ++ props.flatten

/-! ### The reader -/

def cover : List Char := "cover".toList

def coverProperty : List Char := "cover property".toList

/-- The variables of the loop in `dyn_step3.py`. -/
structure Scan where
  header : List Char
  propStart : Bool
  curProp : Option String
  acc : List Char
  propsMeta : List (String × List Char)

namespace Scan

def init : Scan := ⟨[], false, none, [], []⟩

/-- The property that has been read so far gets its entry. -/
def saved (st : Scan) : List (String × List Char) :=
  match st.curProp with
  | none => st.propsMeta
  | some k => Dict.upsert k (fun _ => st.acc) st.acc st.propsMeta

def line (st : Scan) (line : List Char) : Scan :=
  let st := if coverProperty <:+: line then { st with propStart := true } else st
  if st.propStart then
    if cover <:+: line then
      { st with
        propsMeta := st.saved
        curProp := some (String.ofList (line.takeWhile (· ≠ ':')))
        acc := line }
    else { st with acc := st.acc ++ line }
  else { st with header := st.header ++ line }

/-- The lines of a text. -/
def text (st : Scan) (t : List Char) : Scan := (lines '\n' t).foldl line st

end Scan

/-- `header` and `props_meta` of a file. -/
def readProps (t : List Char) : List Char × List (String × List Char) :=
  let st := Scan.init.text (universalNewlines t)
  (st.header, st.saved)

theorem readProps_eq (t : List Char) : readProps t =
    ((Scan.init.text (universalNewlines t)).header, (Scan.init.text (universalNewlines t)).saved) :=
  rfl

/-! ### What is written -/

/-- The text lacks letters of every word that is looked for, in the templates and in the file. -/
def Plain (t : List Char) : Prop := 'N' ∉ t ∧ 'L' ∉ t ∧ 'T' ∉ t ∧ 'o' ∉ t

theorem Plain.append {t u : List Char} (ht : Plain t) (hu : Plain u) : Plain (t ++ u) := by
  unfold Plain at ht hu ⊢
  simp only [List.mem_append]
  exact ⟨not_or.mpr ⟨ht.1, hu.1⟩, not_or.mpr ⟨ht.2.1, hu.2.1⟩, not_or.mpr ⟨ht.2.2.1, hu.2.2.1⟩,
    not_or.mpr ⟨ht.2.2.2, hu.2.2.2⟩⟩

/-- A constraint is made of digits, brackets and operators. -/
theorem plain_constraint {file : List FileLine} {s t : List Char} (hs : Plain s)
    (h : getIConstraint (fileText file) s = some t) : Plain t := by
  rw [getIConstraint_eq] at h
  obtain ⟨cs, _, rfl⟩ := Option.map_eq_some_iff.mp h
  have hcond (cond : SvExpr.Expr .disj) : Plain (cond.text [' '] s) := by
    have hother : ∀ x ∈ ['N', 'L', 'T', 'o'], x ∉ [' '] ∧ x ∉ SvExpr.alphabet := by decide
    have hno (x : Char) (hx : x ∈ ['N', 'L', 'T', 'o']) (hxs : x ∉ s) : x ∉ cond.text [' '] s := by
      intro hmem
      rcases SvExpr.Expr.mem_text hmem with hmem | hmem | hmem
      · exact hxs hmem
      · exact (hother x hx).1 hmem
      · exact (hother x hx).2 hmem
    exact ⟨hno _ (by decide) hs.1, hno _ (by decide) hs.2.1, hno _ (by decide) hs.2.2.1,
      hno _ (by decide) hs.2.2.2⟩
  have hparts (cs : List (SvExpr.Expr .disj)) : Plain (cs.flatMap (inlined s)) := by
    induction cs with
    | nil => simp [Plain]
    | cons cond cs ih =>
      have hone : Plain (inlined s cond) := by
        rw [inlined_eq]
        exact Plain.append (by unfold Plain; decide)
          ((hcond cond).append (by unfold Plain; decide))
      rw [List.flatMap_cons]
      exact hone.append ih
  exact Plain.append (by unfold Plain; decide) ((hparts cs).append (by unfold Plain; decide))

section Rows

variable {d : DecisionTexts} {c0 c1 : List Char} {p : Instn × Instn}

theorem name_short (i : Instn) : i.name.toList.length ≤ 6 ∧
    ∀ c ∈ i.name.toList, c.isUpper = true := by
  have hall : ∀ i ∈ opcodeFiles, i.name.toList.length ≤ 6 ∧
      ∀ c ∈ i.name.toList, c.isUpper = true := by decide +kernel
  exact hall i (mem_opcodeFiles i)

/-- The names are too short or have too few letters for the words of the templates. -/
theorem not_infix_name {w : List Char} (hw : 6 < w.length ∨ ∃ c ∈ w, c.isUpper = false)
    (i : Instn) : ¬w <:+: i.name.toList := by
  have ⟨hlen, hupper⟩ := name_short i
  intro hin
  rcases hw with hlong | ⟨c, hc, hlower⟩
  · have hle := hin.length_le
    omega
  · have htrue := hupper c (hin.subset hc)
    rw [hlower] at htrue
    cases htrue

/-- What stands around the instructions of a property's name. -/
def depI : List Char := "DEP_I_".toList

def nameRest : List Char := " cover property (@(posedge clk_i)".toList

/-- The line with the name of a property. -/
def nameLine (p : Instn × Instn) : List Char := depI ++ (field p ++ ':' :: nameRest)

theorem nameLine_free {w : List Char} (hw : w ∈ [decnodeMark, followersetMark, t0Mark])
    (p : Instn × Instn) : ¬w <:+: nameLine p := by
  have hall : ∀ w ∈ [decnodeMark, followersetMark, t0Mark], w ≠ [] ∧ '_' ∉ w ∧ ':' ∉ w ∧
      (6 < w.length ∨ ∃ c ∈ w, c.isUpper = false) ∧ ¬w <:+: "DEP".toList ∧ ¬w <:+: "I".toList ∧
      ¬w <:+: nameRest := by decide
  have ⟨hne, hbar, hcolon, hname, hdep, hi, hrest⟩ := hall w hw
  have hline : nameLine p = "DEP".toList ++ '_' :: ("I".toList ++ '_' :: (p.1.name.toList ++ '_' ::
      (p.2.name.toList ++ ':' :: nameRest))) := by
    unfold nameLine field
    rw [List.append_assoc, List.cons_append]
    rfl
  rw [hline, Occurs.infix_append_cons hbar hne, Occurs.infix_append_cons hbar hne,
    Occurs.infix_append_cons hbar hne, Occurs.infix_append_cons hcolon hne]
  simp only [not_or]
  exact ⟨hdep, hi, not_infix_name hname p.1, not_infix_name hname p.2, hrest⟩

theorem fill_name : fill (pairReps d c0 c1 p) nameRow = nameLine p := by
  have hrow : fill (pairReps d c0 c1 p) nameRow =
      fill ((pairReps d c0 c1 p).drop 3) (nameLine p) :=
    fill_row ((pairReps d c0 c1 p).take 2) _ depI (':' :: nameRest) (by decide)
      (show ∀ v ∈ [instnMark, i1Mark], ¬v <:+: nameRow by decide) (by decide) (by decide)
      (by decide)
  rw [hrow]
  apply fill_of_free
  intro w hw
  exact nameLine_free hw p

theorem fill_plain {reps : List (List Char × List Char)} {t : List Char} (ht : Plain t)
    (h : ∀ w ∈ reps.map Prod.fst, 'N' ∈ w ∨ 'L' ∈ w ∨ 'T' ∈ w) : fill reps t = t := by
  apply fill_of_free
  intro w hw
  rcases h w hw with hmem | hmem | hmem
  · exact Occurs.not_infix_of_not_mem hmem ht.1
  · exact Occurs.not_infix_of_not_mem hmem ht.2.1
  · exact Occurs.not_infix_of_not_mem hmem ht.2.2.1

theorem fill_instn (h : Plain c0) : fill (pairReps d c0 c1 p) "    (INSTN_CONSTRAINT &&".toList =
    "    (".toList ++ (c0 ++ " &&".toList) := by
  have hrow : fill (pairReps d c0 c1 p) "    (INSTN_CONSTRAINT &&".toList =
      fill ((pairReps d c0 c1 p).drop 1) ("    (".toList ++ (c0 ++ " &&".toList)) :=
    fill_row [] _ "    (".toList " &&".toList (by decide) (by simp) (by decide) (by decide)
      (by decide)
  rw [hrow]
  exact fill_plain (Plain.append (by unfold Plain; decide) (h.append (by unfold Plain; decide)))
    (show ∀ w ∈ [i1Mark, fieldMark, decnodeMark, followersetMark, t0Mark],
      'N' ∈ w ∨ 'L' ∈ w ∨ 'T' ∈ w by decide)

theorem fill_i1 (h : Plain c1) : fill (pairReps d c0 c1 p) "    I1_CONSTRAINT &&".toList =
    "    ".toList ++ (c1 ++ " &&".toList) := by
  have hrow : fill (pairReps d c0 c1 p) "    I1_CONSTRAINT &&".toList =
      fill ((pairReps d c0 c1 p).drop 2) ("    ".toList ++ (c1 ++ " &&".toList)) :=
    fill_row ((pairReps d c0 c1 p).take 1) _ "    ".toList " &&".toList (by decide)
      (show ∀ v ∈ [instnMark], ¬v <:+: "    I1_CONSTRAINT &&".toList by decide) (by decide)
      (by decide) (by decide)
  rw [hrow]
  exact fill_plain (Plain.append (by unfold Plain; decide) (h.append (by unfold Plain; decide)))
    (show ∀ w ∈ [fieldMark, decnodeMark, followersetMark, t0Mark],
      'N' ∈ w ∨ 'L' ∈ w ∨ 'T' ∈ w by decide)

theorem fill_decnode : fill (pairReps d c0 c1 p) "    DECNODE) ##1 ".toList =
    replace t0Mark d.t0 (replace followersetMark d.followerset
      ("    ".toList ++ (d.decnode ++ ") ##1 ".toList))) :=
  fill_row ((pairReps d c0 c1 p).take 3) _ "    ".toList ") ##1 ".toList (by decide)
    (show ∀ v ∈ [instnMark, i1Mark, fieldMark], ¬v <:+: "    DECNODE) ##1 ".toList by decide)
    (by decide) (by decide) (by decide)

theorem fill_followerset : fill (pairReps d c0 c1 p) "          FOLLOWERSET".toList =
    replace t0Mark d.t0 ("          ".toList ++ d.followerset) := by
  have hrow : fill (pairReps d c0 c1 p) "          FOLLOWERSET".toList =
      fill [(t0Mark, d.t0)] ("          ".toList ++ (d.followerset ++ [])) :=
    fill_row ((pairReps d c0 c1 p).take 4) _ "          ".toList [] (by decide)
      (show ∀ v ∈ [instnMark, i1Mark, fieldMark, decnodeMark],
        ¬v <:+: "          FOLLOWERSET".toList by decide) (by decide) (by decide) (by decide)
  rw [hrow, List.append_nil]
  rfl

theorem fill_t0 : fill (pairReps d c0 c1 p) "        (TT0".toList = "        (".toList ++ d.t0 := by
  have hrow : fill (pairReps d c0 c1 p) "        (TT0".toList =
      fill [] ("        (".toList ++ (d.t0 ++ [])) :=
    fill_row ((pairReps d c0 c1 p).take 5) _ "        (".toList [] (by decide)
      (show ∀ v ∈ [instnMark, i1Mark, fieldMark, decnodeMark, followersetMark],
        ¬v <:+: "        (TT0".toList by decide) (by decide) (by decide) (by decide)
  rw [hrow, List.append_nil]
  rfl

end Rows

/-- No text of the decision has the word `cover`, and two of them stand in brackets. -/
structure Coverless (d : DecisionTexts) : Prop where
  decnode : ¬cover <:+: d.decnode
  followerset : ¬cover <:+: d.followerset
  t0 : ¬cover <:+: d.t0
  brackets : ∃ mid, d.followerset = '(' :: (mid ++ [')'])
  braces : ∃ mid, d.t0 = '|' :: (mid ++ ['\x7d'])

/-- A blank or a bracket keeps an insertion apart from the text before and after it. -/
theorem not_cover_after (pre : List Char) (b : Char) {t : List Char} (hb : b ∉ cover)
    (hpre : ¬cover <:+: pre) (ht : ¬cover <:+: t) : ¬cover <:+: pre ++ b :: t := by
  rw [Occurs.infix_append_cons hb (by decide), not_or]
  exact ⟨hpre, ht⟩

theorem not_cover_between (pre : List Char) (b e : Char) (post : List Char) {t : List Char}
    (hb : b ∉ cover) (he : e ∉ cover) (hpre : ¬cover <:+: pre) (hpost : ¬cover <:+: post)
    (ht : ¬cover <:+: t) : ¬cover <:+: pre ++ b :: (t ++ e :: post) :=
  not_cover_after pre b hb hpre (not_cover_after t e he ht hpost)

/-- No class of locations has the word in its names. -/
theorem class_coverless {theset : List String} (h : theset ∈ isomorphicSets) : ¬cover <:+:
    '(' :: ((theset.insertionSort (· ≤ ·)).flatMap (fun n => n.toList ++ " || ".toList) ++
      " 1'b0)".toList) := by
  have hnames : ∀ theset ∈ isomorphicSets, ∀ n ∈ theset, ¬cover <:+: n.toList := by decide +kernel
  have hterms (names : List String) (hfree : ∀ n ∈ names, ¬cover <:+: n.toList) :
      ¬cover <:+: names.flatMap (fun n => n.toList ++ " || ".toList) ++ " 1'b0)".toList := by
    induction names with
    | nil => decide
    | cons n names ih =>
      have hrest := ih fun n' hn' => hfree n' (by simp [hn'])
      rw [List.flatMap_cons, List.append_assoc, List.append_assoc]
      exact not_cover_after n.toList ' ' (by decide) (hfree n (by simp))
        (not_cover_after "||".toList ' ' (by decide) (by decide) hrest)
  apply not_cover_after [] '(' (by decide) (by decide)
  apply hterms
  intro n hn
  exact hnames theset h n ((List.mem_insertionSort _).mp hn)

theorem transformDisjunc_class {isopl : String} (hiso : isoMark <:+: isopl.toList)
    {dec : List Char} (h : transformDisjunc isopl = some dec) : ¬cover <:+: dec := by
  rw [transformDisjunc, if_pos hiso] at h
  obtain ⟨names, hnames, rfl⟩ := Option.map_eq_some_iff.mp h
  obtain ⟨idx, _, hnames⟩ := Option.bind_eq_some_iff.mp hnames
  obtain ⟨theset, hset, hnames⟩ := Option.bind_eq_some_iff.mp hnames
  obtain rfl := Option.some.inj hnames
  exact class_coverless (List.mem_of_getElem? hset)

section Texts

variable {decisionSrc : String} {uniq afset : List String} {dec t : List Char}

/-- A source outside the follower set stands in its text, negated ... -/
theorem decnode_within_followerset (hout : decisionSrc ∉ afset)
    (hdec : transformDisjunc decisionSrc = some dec)
    (h : followersetText decisionSrc uniq afset = some t) : dec <:+: t := by
  obtain ⟨ts, hts, rfl⟩ := Option.map_eq_some_iff.mp h
  have hmem : decisionSrc ∈ (if decisionSrc ∈ afset then [] else [decisionSrc]) ++
      uniq.filter (· ≠ "") := by
    simp [hout]
  have hlit : literalText afset decisionSrc = some ('!' :: dec ++ " && ".toList) := by
    rw [literalText, hdec, Option.map_some, if_neg hout]
  have hpart := List.infix_of_mem_flatten ((Loop.mem_mapM hts).mpr ⟨_, hmem, hlit⟩)
  have hdecIn : dec <:+: '!' :: dec ++ " && ".toList := ⟨['!'], " && ".toList, rfl⟩
  refine (hdecIn.trans hpart).trans ?_
  exact ⟨['('], " 1'b1".toList ++ [')'], by simp⟩

/-- ... and one inside it in the text of the taint. -/
theorem decnode_within_t0 (hin : decisionSrc ∈ afset) (hplain : ¬isoMark <:+: decisionSrc.toList)
    (h : t0Text decisionSrc uniq afset = some t) : decisionSrc.toList <:+: t := by
  obtain ⟨ts, hts, rfl⟩ := Option.map_eq_some_iff.mp h
  rw [if_neg (List.ne_nil_of_mem hin)] at hts
  have ⟨term, hterm, hname⟩ : ∃ term, transformIsoT0 decisionSrc = some term ∧
      decisionSrc.toList <:+: term :=
    ⟨_, if_neg hplain, ['('], _, by simp only [List.append_assoc]; rfl⟩
  have hmem := (Loop.mem_mapM hts).mpr ⟨_, hin, hterm⟩
  have hpart : term ++ [' ', ','] <:+: ts.flatMap (· ++ [' ', ',']) := by
    rw [List.flatMap_def]
    exact List.infix_of_mem_flatten (List.mem_map.mpr ⟨term, hmem, rfl⟩)
  refine (hname.trans (List.prefix_append term _).isInfix).trans (hpart.trans ?_)
  exact ⟨['|', '\x7b'], "1'b0".toList ++ ['\x7d'], by simp⟩

theorem decnode_coverless (hdec : transformDisjunc decisionSrc = some dec) {fset t0 : List Char}
    (hf : followersetText decisionSrc uniq afset = some fset)
    (ht : t0Text decisionSrc uniq afset = some t0) (hfset : ¬cover <:+: fset)
    (ht0 : ¬cover <:+: t0) : ¬cover <:+: dec := by
  by_cases hiso : isoMark <:+: decisionSrc.toList
  · exact transformDisjunc_class hiso hdec
  · intro hcover
    by_cases hin : decisionSrc ∈ afset
    · have hname : decisionSrc.toList = dec := by
        rw [transformDisjunc, if_neg hiso] at hdec
        exact Option.some.inj hdec
      rw [← hname] at hcover
      exact ht0 (hcover.trans (decnode_within_t0 hin hiso ht))
    · exact hfset (hcover.trans (decnode_within_followerset hin hdec hf))

theorem coverless {d : DecisionTexts} (hd : decisionTexts decisionSrc uniq afset = some d)
    (hfset : ¬cover <:+: d.followerset) (ht0 : ¬cover <:+: d.t0) : Coverless d := by
  obtain ⟨fset, hf, hd⟩ := Option.bind_eq_some_iff.mp hd
  obtain ⟨t0, ht, hd⟩ := Option.bind_eq_some_iff.mp hd
  obtain ⟨dec, hdec, hd⟩ := Option.bind_eq_some_iff.mp hd
  obtain rfl := Option.some.inj hd
  refine ⟨decnode_coverless hdec hf ht hfset ht0, hfset, ht0, ?_, ?_⟩
  · obtain ⟨ts, _, rfl⟩ := Option.map_eq_some_iff.mp hf
    exact ⟨_, rfl⟩
  · obtain ⟨ts, _, rfl⟩ := Option.map_eq_some_iff.mp ht
    exact ⟨_, rfl⟩

end Texts

section Written

variable {d : DecisionTexts} {c0 c1 : List Char} {p : Instn × Instn}

theorem Coverless.replace_t0 (h : Coverless d) {t : List Char} (ht : ¬cover <:+: t) :
    ¬cover <:+: replace t0Mark d.t0 t := by
  have ⟨mid, hmid⟩ := h.braces
  have ht0 := h.t0
  rw [hmid] at ht0 ⊢
  exact not_infix_replace (by decide) (by decide) (by decide) ht0 ht

theorem Coverless.replace_followerset (h : Coverless d) {t : List Char} (ht : ¬cover <:+: t) :
    ¬cover <:+: replace followersetMark d.followerset t := by
  have ⟨mid, hmid⟩ := h.brackets
  have hfset := h.followerset
  rw [hmid] at hfset ⊢
  exact not_infix_replace (by decide) (by decide) (by decide) hfset ht

/-- A line without words to replace stays as it is. -/
theorem fill_coverless {reps : List (List Char × List Char)} {row : List Char}
    (hfree : ∀ w ∈ reps.map Prod.fst, ¬w <:+: row) (hrow : ¬cover <:+: row) :
    ¬cover <:+: fill reps row := by
  rw [fill_of_free hfree]
  exact hrow

/-- No line below the one with the name has the word. -/
theorem bodyRows_coverless (h : Coverless d) (h0 : Plain c0) (h1 : Plain c1) :
    ∀ row ∈ bodyRows, ¬cover <:+: fill (pairReps d c0 c1 p) row := by
  have hplain {t : List Char} (ht : Plain t) : ¬cover <:+: t :=
    Occurs.not_infix_of_not_mem (by decide) ht.2.2.2
  have hmarks : ∀ row ∈ bodyRows, ((∀ w ∈ [instnMark, i1Mark, fieldMark, decnodeMark,
      followersetMark, t0Mark], ¬w <:+: row) ∧ ¬cover <:+: row) ∨
      row ∈ ["    (INSTN_CONSTRAINT &&".toList, "    I1_CONSTRAINT &&".toList,
        "    DECNODE) ##1 ".toList, "          FOLLOWERSET".toList, "        (TT0".toList] := by
    decide +kernel
  intro row hrow
  rcases hmarks row hrow with hfree | hmarked
  · exact fill_coverless hfree.1 hfree.2
  simp only [List.mem_cons, List.not_mem_nil, or_false] at hmarked
  rcases hmarked with rfl | rfl | rfl | rfl | rfl
  · rw [fill_instn h0]
    exact not_cover_between "    ".toList '(' ' ' "&&".toList (by decide) (by decide) (by decide)
      (by decide) (hplain h0)
  · rw [fill_i1 h1]
    exact not_cover_between "   ".toList ' ' ' ' "&&".toList (by decide) (by decide) (by decide)
      (by decide) (hplain h1)
  · rw [fill_decnode]
    apply h.replace_t0
    apply h.replace_followerset
    exact not_cover_between "   ".toList ' ' ')' " ##1 ".toList (by decide) (by decide) (by decide)
      (by decide) h.decnode
  · rw [fill_followerset]
    apply h.replace_t0
    exact not_cover_after "         ".toList ' ' (by decide) (by decide) h.followerset
  · rw [fill_t0]
    exact not_cover_after "        ".toList '(' (by decide) (by decide) h.t0

theorem headerText_eq (f : OpField) (d : DecisionTexts) : headerText f d =
    (headerRows.map (fill (headerReps f d))).flatMap (· ++ ['\n']) := by
  have hmarks : ∀ w ∈ [opTaintMark, decnodeMark], w ≠ [] ∧ '\n' ∉ w := by decide
  exact fill_flatMap_end hmarks headerRows

/-- The header has the word nowhere. -/
theorem headerText_coverless (h : Coverless d) (f : OpField) : ¬cover <:+: headerText f d := by
  have hmarks : ∀ row ∈ headerRows, ((∀ w ∈ [opTaintMark, decnodeMark], ¬w <:+: row) ∧
      ¬cover <:+: row) ∨ row ∈ [opTaintMark, "    DECNODE |-> ".toList] := by decide +kernel
  have hrows : ∀ row ∈ headerRows, ¬cover <:+: fill (headerReps f d) row := by
    intro row hrow
    rcases hmarks row hrow with hfree | hmarked
    · exact fill_coverless hfree.1 hfree.2
    simp only [List.mem_cons, List.not_mem_nil, or_false] at hmarked
    rcases hmarked with rfl | rfl
    · have htaint : ∀ f, ¬decnodeMark <:+: defineOpTaint f ++ [] ∧
          ¬cover <:+: defineOpTaint f ++ [] := by
        intro f
        cases f <;> decide
      show ¬cover <:+: replace decnodeMark d.decnode (defineOpTaint f ++ [])
      rw [replace_of_free (htaint f).1]
      exact (htaint f).2
    · exact not_cover_between "   ".toList ' ' ' ' "|-> ".toList (by decide) (by decide) (by decide)
        (by decide) h.decnode
  rw [headerText_eq]
  apply Occurs.not_infix_flatMap_end (by decide) (by decide)
  simpa using hrows

/-- What follows the line with the name. -/
def tailText (reps : List (List Char × List Char)) : List Char :=
  (bodyRows.map (fill reps)).flatMap (· ++ ['\n'])

/-- A property begins with a blank line and the line with its name. -/
theorem property_eq : fill (pairReps d c0 c1 p) (ofRows decisionRows) =
    '\n' :: (nameLine p ++ '\n' :: tailText (pairReps d c0 c1 p)) := by
  have hmarks : ∀ w ∈ [instnMark, i1Mark, fieldMark, decnodeMark, followersetMark, t0Mark],
      w ≠ [] ∧ '\n' ∉ w := by decide
  have hfill : fill (pairReps d c0 c1 p) (ofRows decisionRows) =
      (decisionRows.map (fill (pairReps d c0 c1 p))).flatMap (· ++ ['\n']) :=
    fill_flatMap_end hmarks decisionRows
  rw [hfill, decisionRows, List.map_cons, List.map_cons, fill_nil, fill_name, List.flatMap_cons,
    List.flatMap_cons, List.nil_append, List.singleton_append, List.append_assoc]
  rfl

theorem tailText_coverless (h : Coverless d) (h0 : Plain c0) (h1 : Plain c1) :
    ¬cover <:+: tailText (pairReps d c0 c1 p) := by
  apply Occurs.not_infix_flatMap_end (by decide) (by decide)
  simpa using bodyRows_coverless h h0 h1

end Written

/-! ### What is read -/

namespace Scan

variable {st : Scan} {t u : List Char}

theorem text_append (h : Ended t) (st : Scan) : st.text (t ++ u) = (st.text t).text u := by
  unfold text
  rw [h.lines_append, List.foldl_append]

theorem coverProperty_free (h : ¬cover <:+: t) : ¬coverProperty <:+: t := by
  have hpart : cover <:+: coverProperty := by decide
  exact fun hin => h (hpart.trans hin)

theorem foldl_line_started (hst : st.propStart = true) {ls : List (List Char)}
    (h : ∀ l ∈ ls, ¬cover <:+: l) : ls.foldl line st = { st with acc := st.acc ++ ls.flatten } := by
  induction ls generalizing st with
  | nil => simp
  | cons l ls ih =>
    have hl := h l (by simp)
    have hstep : st.line l = { st with acc := st.acc ++ l } := by
      unfold line
      rw [if_neg (coverProperty_free hl), if_pos hst, if_neg hl]
    have hrest := @ih { st with acc := st.acc ++ l } hst fun l' hl' => h l' (by simp [hl'])
    rw [List.foldl_cons, hstep, hrest, List.flatten_cons, List.append_assoc]

/-- Text without the word goes to the property that is being read ... -/
theorem text_started (hst : st.propStart = true) (h : ¬cover <:+: t) :
    st.text t = { st with acc := st.acc ++ t } := by
  have hfree : ∀ l ∈ lines '\n' t, ¬cover <:+: l := fun l hl => not_infix_line h hl
  rw [text, foldl_line_started hst hfree, flatten_lines]

theorem foldl_line_header (hst : st.propStart = false) {ls : List (List Char)}
    (h : ∀ l ∈ ls, ¬cover <:+: l) :
    ls.foldl line st = { st with header := st.header ++ ls.flatten } := by
  induction ls generalizing st with
  | nil => simp
  | cons l ls ih =>
    have hl := h l (by simp)
    have hstep : st.line l = { st with header := st.header ++ l } := by
      unfold line
      rw [if_neg (coverProperty_free hl), if_neg (by simp [hst])]
    have hrest := @ih { st with header := st.header ++ l } hst fun l' hl' => h l' (by simp [hl'])
    rw [List.foldl_cons, hstep, hrest, List.flatten_cons, List.append_assoc]

/-- ... and before the first property to the header. -/
theorem text_header (hst : st.propStart = false) (h : ¬cover <:+: t) :
    st.text t = { st with header := st.header ++ t } := by
  have hfree : ∀ l ∈ lines '\n' t, ¬cover <:+: l := fun l hl => not_infix_line h hl
  rw [text, foldl_line_header hst hfree, flatten_lines]

end Scan

/-- `DEP_I_<i_p>_<i_t>` -/
def propName (p : Instn × Instn) : String := String.ofList (depI ++ field p)

theorem not_mem_name {c : Char} (hc : c.isUpper = false) (i : Instn) : c ∉ i.name.toList := by
  intro hmem
  have hupper := (name_short i).2 c hmem
  rw [hc] at hupper
  cases hupper

theorem not_mem_field {c : Char} (hc : c.isUpper = false) (hbar : c ≠ '_') (p : Instn × Instn) :
    c ∉ field p := by
  unfold field
  rw [List.mem_append, List.mem_cons]
  simp [not_mem_name hc, hbar]

/-- The line with the name starts the property. -/
theorem Scan.line_name (st : Scan) (p : Instn × Instn) : st.line (nameLine p ++ ['\n']) =
    { st with
      propStart := true
      propsMeta := st.saved
      curProp := some (propName p)
      acc := nameLine p ++ ['\n'] } := by
  have hline : nameLine p ++ ['\n'] = depI ++ field p ++ ':' :: (nameRest ++ ['\n']) := by
    simp only [nameLine, List.append_assoc, List.cons_append]
  have hrest : coverProperty <:+: nameRest := by decide
  have hcover : coverProperty <:+: nameLine p ++ ['\n'] := by
    rw [hline]
    exact hrest.trans ⟨depI ++ field p ++ [':'], ['\n'], by simp⟩
  have hword : cover <:+: nameLine p ++ ['\n'] := by
    have hpart : cover <:+: coverProperty := by decide
    exact hpart.trans hcover
  have hname : (nameLine p ++ ['\n']).takeWhile (· ≠ ':') = depI ++ field p := by
    have hfree : ∀ c ∈ depI ++ field p, decide (c ≠ ':') = true := by
      intro c hc
      apply decide_eq_true
      intro heq
      rw [heq] at hc
      rcases List.mem_append.mp hc with hc | hc
      · exact absurd hc (by decide)
      · exact not_mem_field (by decide) (by decide) p hc
    rw [hline, List.takeWhile_append_of_pos hfree, List.takeWhile_cons_of_neg (by simp),
      List.append_nil]
  unfold line
  rw [if_pos hcover, if_pos rfl, if_pos hword, hname]
  rfl

/-- One property as it is read: the pair, and what follows the line with the name. -/
abbrev Block := (Instn × Instn) × List Char

def Block.body (x : Block) : List Char := nameLine x.1 ++ '\n' :: x.2

def Block.text (x : Block) : List Char := '\n' :: x.body

def Block.entry (x : Block) : String × List Char := (propName x.1, x.body)

/-- The entries with the blank lines between them: each property but the last takes that of the
next one. -/
def recovered : List (String × List Char) → List (String × List Char)
  | [] => []
  | [x] => [x]
  | x :: y :: xs => (x.1, x.2 ++ ['\n']) :: recovered (y :: xs)

theorem newline_not_mem_nameLine (p : Instn × Instn) : '\n' ∉ nameLine p := by
  unfold nameLine
  rw [List.mem_append, List.mem_append, not_or, not_or]
  exact ⟨by decide, not_mem_field (by decide) (by decide) p, by decide⟩

theorem Block.ended {x : Block} (h : Ended x.2) : Ended x.text := by
  have ⟨t, ht⟩ := h
  refine ⟨'\n' :: (nameLine x.1 ++ '\n' :: t), ?_⟩
  simp [Block.text, Block.body, ht]

section Blocks

variable {st : Scan} {x : Block}

/-- A property closes the one before and becomes the current one. -/
theorem Scan.text_block (st : Scan) (hx : ¬cover <:+: x.2) : st.text x.text =
    { st.text ['\n'] with
      propStart := true
      propsMeta := (st.text ['\n']).saved
      curProp := some (propName x.1)
      acc := x.body } := by
  have hblank : st.text x.text = (st.text ['\n']).text x.body :=
    Scan.text_append (t := ['\n']) ⟨[], rfl⟩ st
  have hname : (st.text ['\n']).text x.body =
      ((st.text ['\n']).line (nameLine x.1 ++ ['\n'])).text x.2 := by
    unfold Scan.text Block.body
    rw [lines_append_end (newline_not_mem_nameLine x.1), List.foldl_cons]
  rw [hblank, hname, Scan.line_name, Scan.text_started rfl hx]
  simp [Block.body]

/-- The properties of a text, after one that is being read. -/
theorem Scan.text_blocks {k : String} (hst : st.propStart = true) (hk : st.curProp = some k)
    (xs : List Block) (hfree : ∀ x ∈ xs, ¬cover <:+: x.2 ∧ Ended x.2)
    (hnd : (st.propsMeta.map Prod.fst ++ k :: xs.map fun x => propName x.1).Nodup) :
    (st.text (xs.flatMap Block.text)).header = st.header ∧
    (st.text (xs.flatMap Block.text)).saved =
      st.propsMeta ++ recovered ((k, st.acc) :: xs.map Block.entry) := by
  have hsaved {st : Scan} {k : String} (hk : st.curProp = some k)
      (hnew : k ∉ st.propsMeta.map Prod.fst) : st.saved = st.propsMeta ++ [(k, st.acc)] := by
    unfold Scan.saved
    rw [hk]
    exact Dict.upsert_of_not_mem hnew
  induction xs generalizing st k with
  | nil =>
    have hnew : k ∉ st.propsMeta.map Prod.fst := by
      intro hmem
      exact (List.nodup_append.mp hnd).2.2 k hmem k (by simp) rfl
    exact ⟨rfl, hsaved hk hnew⟩
  | cons x xs ih =>
    have hx := hfree x (by simp)
    have hended : Ended x.text := Block.ended hx.2
    have hblank : st.text ['\n'] = { st with acc := st.acc ++ ['\n'] } :=
      Scan.text_started hst (by decide)
    have hnew : k ∉ st.propsMeta.map Prod.fst := by
      intro hmem
      exact (List.nodup_append.mp hnd).2.2 k hmem k (by simp) rfl
    have hclosed : (st.text ['\n']).saved = st.propsMeta ++ [(k, st.acc ++ ['\n'])] := by
      rw [hblank]
      exact hsaved hk hnew
    have hnd' : ((st.propsMeta ++ [(k, st.acc ++ ['\n'])]).map Prod.fst ++
        propName x.1 :: xs.map fun x => propName x.1).Nodup := by
      simpa using hnd
    have hrest := @ih
      { st with
        propStart := true
        propsMeta := st.propsMeta ++ [(k, st.acc ++ ['\n'])]
        curProp := some (propName x.1)
        acc := x.body } (propName x.1) rfl rfl (fun y hy => hfree y (by simp [hy])) hnd'
    rw [List.flatMap_cons, Scan.text_append hended, Scan.text_block st hx.1, hclosed, hblank]
    refine ⟨hrest.1, ?_⟩
    rw [hrest.2, List.map_cons, recovered, List.append_assoc]
    rfl

end Blocks

/-- The header and the properties of a text. -/
theorem Scan.init_text {header : List Char} {x : Block} {xs : List Block} (hended : Ended header)
    (hheader : ¬cover <:+: header) (hfree : ∀ y ∈ x :: xs, ¬cover <:+: y.2 ∧ Ended y.2)
    (hnd : ((x :: xs).map fun y => propName y.1).Nodup) :
    (Scan.init.text (header ++ (x :: xs).flatMap Block.text)).header = header ++ ['\n'] ∧
    (Scan.init.text (header ++ (x :: xs).flatMap Block.text)).saved =
      recovered ((x :: xs).map Block.entry) := by
  have hx := hfree x (by simp)
  have hstart : Scan.init.text header = { Scan.init with header := header } :=
    Scan.text_header rfl hheader
  have hblank : Scan.text { Scan.init with header := header } ['\n'] =
      { Scan.init with header := header ++ ['\n'] } := Scan.text_header rfl (by decide)
  have hrest := @Scan.text_blocks ⟨header ++ ['\n'], true, some (propName x.1), x.body, []⟩
    (propName x.1) rfl rfl xs (fun y hy => hfree y (by simp [hy])) (by simpa using hnd)
  rw [Scan.text_append hended, List.flatMap_cons, Scan.text_append (Block.ended hx.2), hstart,
    Scan.text_block _ hx.1, hblank]
  exact hrest

/-! ### The round trip -/

theorem name_injective {i j : Instn} (h : i.name = j.name) : i = j := by
  have hnd : (opcodeFiles.map Instn.name).Nodup := by decide +kernel
  exact List.inj_on_of_nodup_map hnd (mem_opcodeFiles i) (mem_opcodeFiles j) h

theorem propName_injective {p q : Instn × Instn} (h : propName p = propName q) : p = q := by
  have hfield : field p = field q := List.append_cancel_left (String.ofList_injective h)
  have hbar (i : Instn) : '_' ∉ i.name.toList := not_mem_name (by decide) i
  have ⟨h1, _, h2⟩ := (List.append_cons_inj_of_notMem (hbar p.1) (hbar p.2)).mp hfield
  exact Prod.ext (name_injective (String.toList_inj.mp h1))
    (name_injective (String.toList_inj.mp h2))

section RoundTrip

variable {files : Instn → List FileLine} {d : DecisionTexts} {p : Instn × Instn}

/-- A property that has been written. -/
theorem propertyText_eq (h : Coverless d) {t : List Char} (ht : propertyText files d p = some t) :
    ∃ tl, t = '\n' :: (nameLine p ++ '\n' :: tl) ∧ ¬cover <:+: tl ∧ Ended tl := by
  obtain ⟨c0, h0, ht⟩ := Option.bind_eq_some_iff.mp ht
  obtain ⟨c1, h1, ht⟩ := Option.bind_eq_some_iff.mp ht
  obtain rfl := Option.some.inj ht
  have hplain0 : Plain c0 := plain_constraint (by unfold Plain; decide) h0
  have hplain1 : Plain c1 := plain_constraint (by unfold Plain; decide) h1
  have hrows : bodyRows ≠ [] := by decide
  exact ⟨_, property_eq, tailText_coverless h hplain0 hplain1,
    Ended.flatMap (mt List.map_eq_nil_iff.mp hrows)⟩

/-- In text mode it is a block. -/
theorem universalNewlines_property (p : Instn × Instn) (tl : List Char) :
    universalNewlines ('\n' :: (nameLine p ++ '\n' :: tl)) =
      Block.text (p, universalNewlines tl) := by
  have hname : '\r' ∉ nameLine p ++ ['\n'] := by
    unfold nameLine
    rw [List.mem_append, List.mem_append, List.mem_append, not_or, not_or, not_or]
    exact ⟨⟨by decide, not_mem_field (by decide) (by decide) p, by decide⟩, by decide⟩
  rw [universalNewlines_cons (by decide), universalNewlines_append (by decide),
    universalNewlines_of_not_mem hname]
  simp [Block.text, Block.body]

theorem universalNewlines_properties (tl : Instn × Instn → List Char)
    {pairs : List (Instn × Instn)} (h : ∀ p ∈ pairs, Ended (tl p)) :
    universalNewlines (pairs.flatMap fun p => '\n' :: (nameLine p ++ '\n' :: tl p)) =
      (pairs.map fun p => (p, universalNewlines (tl p))).flatMap Block.text := by
  induction pairs with
  | nil => rfl
  | cons p pairs ih =>
    have hended : Ended ('\n' :: (nameLine p ++ '\n' :: tl p)) :=
      Block.ended (x := (p, tl p)) (h p (by simp))
    rw [List.flatMap_cons, hended.universalNewlines_append, universalNewlines_property,
      ih fun q hq => h q (by simp [hq]), List.map_cons, List.flatMap_cons]

theorem ended_headerText (f : OpField) (d : DecisionTexts) : Ended (headerText f d) := by
  have hrows : headerRows ≠ [] := by decide
  rw [headerText_eq]
  exact Ended.flatMap (mt List.map_eq_nil_iff.mp hrows)

/-- Reading back a file of properties whose texts do not have the word `cover` gives the text before
the first name and, under the name of each pair, the text of its property. -/
theorem split_recovers_parts {decisionSrc : String} {uniq afset : List String}
    (hd : decisionTexts decisionSrc uniq afset = some d) (hfset : ¬cover <:+: d.followerset)
    (ht0 : ¬cover <:+: d.t0) {f : OpField} {pairs : List (Instn × Instn)} (hne : pairs ≠ [])
    (hnd : pairs.Nodup) {t : List Char} (ht : intragpText files f d pairs = some t) :
    ∃ prop body : Instn × Instn → List Char,
      (∀ p ∈ pairs, propertyText files d p = some (prop p) ∧
        universalNewlines (prop p) = '\n' :: body p) ∧
      t = headerText f d ++ pairs.flatMap prop ∧
      readProps t = (universalNewlines (headerText f d) ++ ['\n'],
        recovered (pairs.map fun p => (propName p, body p))) ∧
      (pairs.map propName).Nodup := by
  have hcoverless := coverless hd hfset ht0
  obtain ⟨props, hprops, rfl⟩ := Option.map_eq_some_iff.mp ht
  have hwritten : ∀ p ∈ pairs, ∃ tl, propertyText files d p =
      some ('\n' :: (nameLine p ++ '\n' :: tl)) ∧ ¬cover <:+: tl ∧ Ended tl := by
    intro p hp
    have ⟨u, hu⟩ := Loop.exists_mapM.mp ⟨props, hprops⟩ p hp
    have ⟨tl, heq, htl⟩ := propertyText_eq hcoverless hu
    exact ⟨tl, heq ▸ hu, htl⟩
  choose! tl htl using hwritten
  rw [Loop.mapM_eq_map fun p hp => (htl p hp).1] at hprops
  obtain rfl := Option.some.inj hprops
  let prop (p : Instn × Instn) : List Char := '\n' :: (nameLine p ++ '\n' :: tl p)
  let block (p : Instn × Instn) : Block := (p, universalNewlines (tl p))
  have hkeys : (pairs.map propName).Nodup := hnd.map fun _ _ h => propName_injective h
  have hblocks : universalNewlines (pairs.flatMap prop) = (pairs.map block).flatMap Block.text :=
    universalNewlines_properties tl fun p hp => (htl p hp).2.2
  have htext : headerText f d ++ (pairs.map prop).flatten =
      headerText f d ++ pairs.flatMap prop := by
    rw [List.flatMap_def]
  refine ⟨prop, fun p => (block p).body, ?_, htext, ?_, hkeys⟩
  · intro p hp
    exact ⟨(htl p hp).1, universalNewlines_property p (tl p)⟩
  · have hsome : pairs.map block ≠ [] := mt List.map_eq_nil_iff.mp hne
    have ⟨x, xs, hxs⟩ := List.exists_cons_of_ne_nil hsome
    have hfree : ∀ y ∈ x :: xs, ¬cover <:+: y.2 ∧ Ended y.2 := by
      rw [← hxs, List.forall_mem_map]
      intro p hp
      exact ⟨not_infix_universalNewlines (by decide) (by decide) (htl p hp).2.1,
        (htl p hp).2.2.universalNewlines⟩
    have hnames : ((x :: xs).map fun y => propName y.1).Nodup := by
      rw [← hxs, List.map_map]
      exact hkeys
    have hheader : ¬cover <:+: universalNewlines (headerText f d) :=
      not_infix_universalNewlines (by decide) (by decide) (headerText_coverless hcoverless f)
    have hscan := Scan.init_text (ended_headerText f d).universalNewlines hheader hfree hnames
    rw [← hxs, ← hblocks, ← (ended_headerText f d).universalNewlines_append, List.map_map] at hscan
    show readProps (headerText f d ++ (pairs.map prop).flatten) = _
    rw [htext, readProps_eq, hscan.1, hscan.2]
    rfl

end RoundTrip

/-- A decision of the source `a`, and two pairs. -/
theorem split_recovers_two :
    let d : DecisionTexts := ⟨"a".toList, "(!a && b && !c &&  1'b1)".toList,
      "|\x7b(b & b_t0 ) ,1'b0\x7d".toList⟩
    let pairs : List (Instn × Instn) := [(.JALR, .LW), (.JALR, .SW)]
    decisionTexts "a" ["b", "c"] ["b"] = some d ∧ ¬cover <:+: d.followerset ∧ ¬cover <:+: d.t0 ∧
    ∃ t, intragpText (fun _ => jalr) .rs1 d pairs = some t ∧
      ∃ prop body : Instn × Instn → List Char,
        (∀ p ∈ pairs, propertyText (fun _ => jalr) d p = some (prop p) ∧
          universalNewlines (prop p) = '\n' :: body p) ∧
        t = headerText .rs1 d ++ pairs.flatMap prop ∧
        readProps t = (universalNewlines (headerText .rs1 d) ++ ['\n'],
          [("DEP_I_JALR_LW", body (.JALR, .LW) ++ ['\n']),
            ("DEP_I_JALR_SW", body (.JALR, .SW))]) ∧
        (pairs.map propName).Nodup := by
  intro d pairs
  have hd : decisionTexts "a" ["b", "c"] ["b"] = some d := by decide +kernel
  have hfset : ¬cover <:+: d.followerset := by decide +kernel
  have ht0 : ¬cover <:+: d.t0 := by decide +kernel
  have hsome : (intragpText (fun _ => jalr) .rs1 d pairs).isSome = true := by decide +kernel
  have ⟨t, ht⟩ := Option.isSome_iff_exists.mp hsome
  have ⟨prop, body, hprop, htext, hread, hkeys⟩ :=
    split_recovers_parts hd hfset ht0 (by decide) (by decide) ht
  refine ⟨hd, hfset, ht0, t, ht, prop, body, hprop, htext, ?_, hkeys⟩
  have hlw : propName (.JALR, .LW) = "DEP_I_JALR_LW" := by decide +kernel
  have hsw : propName (.JALR, .SW) = "DEP_I_JALR_SW" := by decide +kernel
  rw [hread]
  simp only [pairs, List.map_cons, List.map_nil, recovered, hlw, hsw]

end SynthLC.Intragp
