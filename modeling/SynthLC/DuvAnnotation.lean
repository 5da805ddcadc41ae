import SynthLC.Dict
import SynthLC.DuvPls
import SynthLC.Gconsts

/-! The annotations `annotation_pcr_ufsms.txt` as `xDUVPLs/gen.py` reads them: blocks of lines, each
with a name, the register that holds the program counter and the micro-FSMs.  The widths of the
signals come from a file that the tool writes. -/
namespace SynthLC.DuvAnnotation

open DuvPls Loop

abbrev Text := List Char

def condMark : Text := ['=', '=']

/-- `"==" in sig`: the item is a condition, not a signal. -/
def IsCond (sig : Text) : Prop := condMark <:+: sig

instance decidableIsCond (sig : Text) : Decidable (IsCond sig) :=
  inferInstanceAs (Decidable (condMark <:+: sig))

/-- A comment or an empty line, with its line end. -/
def Closes (line : Text) : Prop := line.head? = some '#' ∨ line.dropLast = []

instance decidableCloses (line : Text) : Decidable (Closes line) :=
  inferInstanceAs (Decidable (line.head? = some '#' ∨ line.dropLast = []))

/-! ### `get_width` -/

/-- `CMD` for one signal: the text between braces and the one between quotes. -/
structure WidthQuery where
  braced : Text
  quoted : Text

/-- `re.sub(r'([\[\]])', r'\\\1', ufsm_sig)` -/
def escape (sig : Text) : Text := sig.flatMap fun c => if c = '[' ∨ c = ']' then ['\\', c] else [c]

structure Asking where
  nm : Option Text
  pcr : Option Text
  asked : List WidthQuery

def askLine (s : Asking) (line : Text) : Asking :=
  if Closes line then { s with nm := none, pcr := none }
  else
    match s.nm, s.pcr with
    | none, _ => { s with nm := some line.dropLast }
    | some _, none => { s with pcr := some line.dropLast }
    | some _, some _ =>
      let ufsmSig := (line.dropLast.splitOn ',').headD []
      if IsCond ufsmSig then s
      else { s with asked := s.asked ++ [⟨ufsmSig, escape ufsmSig⟩] }

/-- `get_sig_width.tcl` -/
def getWidth (inf : List Text) : List WidthQuery := (inf.foldl askLine ⟨none, none, []⟩).asked

/-- What the tool puts for a text between quotes.  An open bracket would start a command and a
dollar a variable; only the escapes that `escape` makes are modelled. -/
def tclQuoted : Text → Option Text
  | [] => some []
  | '\\' :: c :: cs => if c = '[' ∨ c = ']' then (tclQuoted cs).map (c :: ·) else none
  | c :: cs => if c ∈ ['\\', '[', '$', '"'] then none else (tclQuoted cs).map (c :: ·)

/-- The line of `sig_width.txt` for one signal. -/
def widthLine (W : Text → Nat) (q : WidthQuery) : Option Text :=
  (tclQuoted q.quoted).map fun sig => sig ++ ',' :: Nat.toDigits 10 (W q.braced) ++ ['\n']

/-- One line of `sig_width.txt` read back. -/
def readWidth (widths : List (Text × Nat)) (line : Text) : Option (List (Text × Nat)) := do
  let arr := line.dropLast.splitOn ','
  let w ← arr[1]?.bind pyInt
  some (Dict.upsert (arr.headD []) (fun _ => w) w widths)

def sigWidthMap (widthf : List Text) : Option (List (Text × Nat)) := widthf.foldlM readWidth []

/-! ### The loop over the blocks -/

/-- The block the loop is in.  The dictionary of the conditions is never cleared. -/
structure Reading where
  nm : Option Text
  pcr : Option Text
  ufsms : List (Ufsm Text)
  ufsmsCond : List (Text × List Text)

/-- Between two blocks. -/
def idle (cond : List (Text × List Text)) : Reading := ⟨none, none, [], cond⟩

def fixVal : List Text → Option (Option Int)
  | [sig, v] => if IsCond sig then some none else (pyInt v).map fun n => some (Int.ofNat n)
  | _ => some none

def widthOf (widths : List (Text × Nat)) (sig : Text) : Option Nat :=
  if IsCond sig then some 1 else Dict.get widths sig

def readUfsm (widths : List (Text × Nat)) (arr : List Text) : Option (Ufsm Text) := do
  let f ← fixVal arr
  let w ← widthOf widths (arr.headD [])
  some ⟨arr.headD [], w, f⟩

def noteCond (cond : List (Text × List Text)) (arr : List Text) : List (Text × List Text) :=
  if IsCond (arr.headD []) then Dict.upsert (arr.headD []) (fun _ => arr.tail) arr.tail cond
  else cond

def readLine (widths : List (Text × Nat)) (s : Reading) (line : Text) : Option Reading :=
  match s.nm, s.pcr with
  | none, _ => some { s with nm := some line.dropLast }
  | some _, none => some { s with pcr := some line.dropLast }
  | some _, some _ =>
    let arr := line.dropLast.splitOn ','
    (readUfsm widths arr).map fun u =>
      { s with ufsms := s.ufsms ++ [u], ufsmsCond := noteCond s.ufsmsCond arr }

section Scan

variable {β : Type} (emit : Reading → List β) (widths : List (Text × Nat))

/-- One round of the loops of `gen_duv_pl_checks` and `gen_header`, which differ in what they write
at the end of a block. -/
def scanLine (s : Reading × List β) (line : Text) : Option (Reading × List β) :=
  if Closes line then
    some (idle s.1.ufsmsCond, if s.1.nm = none then s.2 else s.2 ++ emit s.1)
  else (readLine widths s.1 line).map fun r => (r, s.2)

def scan (inf : List Text) : Option (Reading × List β) :=
  inf.foldlM (scanLine emit widths) (idle [], [])

end Scan

/-! ### Annotations as they are meant -/

/-- A line of the file that belongs to a block. -/
def Plain (row : Text) : Prop := row ≠ [] ∧ row.head? ≠ some '#' ∧ '\n' ∉ row

instance decidablePlain (row : Text) : Decidable (Plain row) :=
  inferInstanceAs (Decidable (_ ∧ _ ∧ _))

/-- A comment or an empty line. -/
def Separates (row : Text) : Prop := (row.head? = some '#' ∨ row = []) ∧ '\n' ∉ row

/-- A micro-FSM, perhaps fixed to a constant, or a condition with the signals it is made of. -/
inductive Item where
  | signal (sig : Text) (fix : Option Nat)
  | cond (expr : Text) (sigs : List Text)

namespace Item

def sig : Item → Text
  | signal sig _ => sig
  | cond expr _ => expr

/-- The fields of the line after the first. -/
def more : Item → List Text
  | signal _ fix => fix.toList.map (Nat.toDigits 10)
  | cond _ sigs => sigs

def row (i : Item) : Text := [','].intercalate (i.sig :: i.more)

def width (W : Text → Nat) : Item → Nat
  | signal sig _ => W sig
  | cond _ _ => 1

def fix : Item → Option Nat
  | signal _ fix => fix
  | cond _ _ => none

def ufsm (W : Text → Nat) (i : Item) : Ufsm Text :=
  ⟨i.sig, i.width W, i.fix.map Int.ofNat⟩

/-- The text of a signal has nothing that Tcl would read otherwise. -/
def Kind : Item → Prop
  | signal sig _ => ¬IsCond sig ∧ ∀ c ∈ sig, c ≠ '\\' ∧ c ≠ '$' ∧ c ≠ '"'
  | cond expr sigs => IsCond expr ∧ ∀ s ∈ sigs, ',' ∉ s ∧ '\n' ∉ s

instance decidableKind (i : Item) : Decidable i.Kind :=
  match i with
  | signal _ _ => inferInstanceAs (Decidable (_ ∧ _))
  | cond _ _ => inferInstanceAs (Decidable (_ ∧ _))

def WF (i : Item) : Prop := Plain i.sig ∧ ',' ∉ i.sig ∧ i.Kind

instance decidableWF (i : Item) : Decidable i.WF := inferInstanceAs (Decidable (_ ∧ _ ∧ _))

end Item

/-- A block of the annotations. -/
structure Entry where
  nm : Text
  pcr : Text
  items : List Item
  nm_plain : Plain nm
  pcr_plain : Plain pcr
  items_wf : ∀ i ∈ items, i.WF
  items_nodup : (items.map Item.sig).Nodup

namespace Entry

def rows (e : Entry) : List Text := e.nm :: e.pcr :: e.items.map Item.row

def ufsms (W : Text → Nat) (e : Entry) : List (Ufsm Text) := e.items.map (Item.ufsm W)

/-- The signals of a condition of the block. -/
def condOf (e : Entry) (sig : Text) : Option (List Text) :=
  (e.items.find? fun i => i.sig = sig ∧ IsCond i.sig).map Item.more

end Entry

/-- The rows of a file with these blocks: every block but the last is closed by a comment or an
empty line, and there may be more of those anywhere between the blocks. -/
inductive Lays : List Entry → List Text → Prop
  | nil : Lays [] []
  | sep {es : List Entry} {rows : List Text} (row : Text) (hrow : Separates row)
      (h : Lays es rows) : Lays es (row :: rows)
  | entry {es : List Entry} {rows : List Text} (e : Entry) (h : Lays es rows)
      (hclosed : ∀ row ∈ rows.head?, Separates row) : Lays (e :: es) (e.rows ++ rows)

def fileOf (rows : List Text) : Text := rows.flatMap (· ++ ['\n'])

/-- The file as the loops go through it. -/
def linesOf (rows : List Text) : List Text := TextFile.lines '\n' (fileOf rows)

/-! ### Texts -/

theorem closes_of_separates {row : Text} (h : Separates row) : Closes (row ++ ['\n']) := by
  cases h.1 with
  | inl hhash =>
    left
    cases row with
    | nil => cases hhash
    | cons c cs => exact hhash
  | inr hnil =>
    right
    rw [hnil]
    rfl

theorem not_closes_of_plain {row : Text} (h : Plain row) : ¬Closes (row ++ ['\n']) := by
  obtain ⟨hne, hhash, _⟩ := h
  unfold Closes
  rw [List.dropLast_concat, List.head?_append_of_ne_nil row hne]
  exact not_or.mpr ⟨hhash, hne⟩

theorem pyInt_toDigits (n : Nat) : pyInt (Nat.toDigits 10 n) = some n := by
  have hne : Nat.toDigits 10 n ≠ [] := Nat.toDigits_ne_nil
  have hdigit : (Nat.toDigits 10 n).all Char.isDigit = true :=
    List.all_eq_true.mpr fun c hc => Nat.isDigit_of_mem_toDigits (by decide) (by decide) hc
  unfold pyInt
  rw [if_pos ⟨hne, hdigit⟩]
  exact congrArg some (Nat.ofDigitChars_toDigits (by decide) (by decide))

/-- The brackets that are escaped come back as they were. -/
theorem tclQuoted_escape {sig : Text} (h : ∀ c ∈ sig, c ≠ '\\' ∧ c ≠ '$' ∧ c ≠ '"') :
    tclQuoted (escape sig) = some sig := by
  induction sig with
  | nil => rfl
  | cons c cs ih =>
    obtain ⟨hslash, hdollar, hquote⟩ := h c List.mem_cons_self
    have hrest := ih fun d hd => h d (List.mem_cons_of_mem c hd)
    unfold escape at hrest ⊢
    rw [List.flatMap_cons]
    by_cases hb : c = '[' ∨ c = ']'
    · rw [if_pos hb, List.cons_append, List.singleton_append, tclQuoted, if_pos hb, hrest]
      rfl
    · have hopen : c ≠ '[' := fun hc => hb (.inl hc)
      have hfree : c ∉ ['\\', '[', '$', '"'] := by simp [hslash, hdollar, hquote, hopen]
      rw [if_neg hb, List.singleton_append, tclQuoted, if_neg hfree, hrest]
      · rfl
      · intro d ds hc _
        exact hslash hc

namespace Item

variable {i : Item} (h : i.WF)

include h

theorem more_free : ∀ s ∈ i.more, ',' ∉ s ∧ '\n' ∉ s := by
  cases i with
  | signal sig fix =>
    intro s hs
    have ⟨n, _, hn⟩ := List.mem_map.mp hs
    rw [← hn]
    exact ⟨TextFile.not_mem_toDigits (by decide) n, TextFile.not_mem_toDigits (by decide) n⟩
  | cond expr sigs => exact h.2.2.2

theorem splitOn_row : i.row.splitOn ',' = i.sig :: i.more := by
  apply List.splitOn_intercalate
  · intro s hs
    rcases List.mem_cons.mp hs with hs | hs
    · rw [hs]
      exact h.2.1
    · exact (more_free h s hs).1
  · simp

theorem row_plain : Plain i.row := by
  obtain ⟨hne, hhash, hline⟩ := h.1
  have hnl : '\n' ∉ i.row := by
    apply TextFile.not_mem_intercalate (by decide)
    intro s hs
    rcases List.mem_cons.mp hs with hs | hs
    · rw [hs]
      exact hline
    · exact (more_free h s hs).2
  have hstarts : ∃ t, i.row = i.sig ++ t := by
    unfold row
    cases i.more with
    | nil => exact ⟨[], by simp⟩
    | cons s rest => exact ⟨_, by rw [List.intercalate_cons_cons, List.append_assoc]⟩
  have ⟨t, ht⟩ := hstarts
  refine ⟨?_, ?_, hnl⟩
  · rw [ht]
    exact List.append_ne_nil_of_left_ne_nil hne t
  · rw [ht, List.head?_append_of_ne_nil i.sig hne]
    exact hhash

theorem fixVal_row : fixVal (i.sig :: i.more) = some (i.fix.map Int.ofNat) := by
  obtain ⟨_, _, hkind⟩ := h
  cases i with
  | signal sig fix =>
    cases fix with
    | none => rfl
    | some n =>
      have hval : fixVal [sig, Nat.toDigits 10 n] = (pyInt (Nat.toDigits 10 n)).map fun n =>
          some (Int.ofNat n) := if_neg hkind.1
      rw [pyInt_toDigits] at hval
      exact hval
  | cond expr sigs =>
    cases sigs with
    | nil => rfl
    | cons s rest =>
      cases rest with
      | nil => exact if_pos hkind.1
      | cons s' rest => rfl

end Item

/-! ### Reading a block -/

section Read

variable {W : Text → Nat} {m : List (Text × Nat)}

/-- The widths of the signals of a block are known. -/
def Knows (W : Text → Nat) (m : List (Text × Nat)) (e : Entry) : Prop :=
  ∀ i ∈ e.items, ¬IsCond i.sig → Dict.get m i.sig = some (W i.sig)

theorem widthOf_item {i : Item} (h : i.WF)
    (hm : ¬IsCond i.sig → Dict.get m i.sig = some (W i.sig)) :
    widthOf m i.sig = some (i.width W) := by
  obtain ⟨_, _, hkind⟩ := h
  unfold widthOf
  cases i with
  | signal sig fix => exact (if_neg hkind.1).trans (hm hkind.1)
  | cond expr sigs => exact if_pos hkind.1

theorem readUfsm_item {i : Item} (h : i.WF)
    (hm : ¬IsCond i.sig → Dict.get m i.sig = some (W i.sig)) :
    readUfsm m (i.sig :: i.more) = some (i.ufsm W) := by
  simp only [readUfsm, Item.fixVal_row h, List.headD_cons, widthOf_item h hm, Option.bind_eq_bind,
    Option.bind_some]
  rfl

/-- The dictionary after the items of a block. -/
def condAfter (cond : List (Text × List Text)) (items : List Item) : List (Text × List Text) :=
  items.foldl (fun d i => noteCond d (i.sig :: i.more)) cond

/-- The state at the end of a block. -/
def atEnd (W : Text → Nat) (e : Entry) (cond : List (Text × List Text)) : Reading :=
  ⟨some e.nm, some e.pcr, e.ufsms W, condAfter cond e.items⟩

variable {β : Type} {emit : Reading → List β}

theorem scanLine_plain {row : Text} (h : Plain row) (s : Reading × List β) :
    scanLine emit m s (row ++ ['\n']) = (readLine m s.1 (row ++ ['\n'])).map fun r => (r, s.2) :=
  if_neg (not_closes_of_plain h)

theorem scanLine_item {i : Item} (h : i.WF)
    (hm : ¬IsCond i.sig → Dict.get m i.sig = some (W i.sig)) {nm pcr : Text} {us : List (Ufsm Text)}
    {cond : List (Text × List Text)} {out : List β} :
    scanLine emit m (⟨some nm, some pcr, us, cond⟩, out) (i.row ++ ['\n']) =
      some (⟨some nm, some pcr, us ++ [i.ufsm W], noteCond cond (i.sig :: i.more)⟩, out) := by
  rw [scanLine_plain (Item.row_plain h)]
  simp only [readLine, List.dropLast_concat, Item.splitOn_row h, readUfsm_item h hm,
    Option.map_some]

theorem foldlM_items {items : List Item} (hwf : ∀ i ∈ items, i.WF)
    (hm : ∀ i ∈ items, ¬IsCond i.sig → Dict.get m i.sig = some (W i.sig)) {nm pcr : Text}
    {us : List (Ufsm Text)} {cond : List (Text × List Text)} {out : List β} :
    (items.map fun i => i.row ++ ['\n']).foldlM (scanLine emit m)
        (⟨some nm, some pcr, us, cond⟩, out) =
      some (⟨some nm, some pcr, us ++ items.map (Item.ufsm W), condAfter cond items⟩, out) := by
  induction items generalizing us cond with
  | nil =>
    rw [List.map_nil, List.map_nil, List.append_nil]
    rfl
  | cons i items ih =>
    rw [List.map_cons, List.foldlM_cons,
      scanLine_item (hwf i List.mem_cons_self) (hm i List.mem_cons_self), Option.bind_eq_bind,
      Option.bind_some, ih (fun j hj => hwf j (List.mem_cons_of_mem i hj))
        (fun j hj => hm j (List.mem_cons_of_mem i hj)), List.map_cons, List.append_assoc]
    rfl

theorem foldlM_entry {e : Entry} (hm : Knows W m e) (cond : List (Text × List Text))
    (out : List β) : (e.rows.map (· ++ ['\n'])).foldlM (scanLine emit m) (idle cond, out) =
      some (atEnd W e cond, out) := by
  unfold Entry.rows
  rw [List.map_cons, List.map_cons, List.map_map, List.foldlM_cons, scanLine_plain e.nm_plain,
    Option.bind_eq_bind]
  simp only [idle, readLine, List.dropLast_concat, Option.map_some, Option.bind_some]
  rw [List.foldlM_cons, scanLine_plain e.pcr_plain, Option.bind_eq_bind]
  simp only [readLine, List.dropLast_concat, Option.map_some, Option.bind_some]
  exact foldlM_items e.items_wf hm

theorem scanLine_separates {row : Text} (h : Separates row) (s : Reading × List β) :
    scanLine emit m s (row ++ ['\n']) =
      some (idle s.1.ufsmsCond, if s.1.nm = none then s.2 else s.2 ++ emit s.1) :=
  if_pos (closes_of_separates h)

theorem foldlM_lays {es : List Entry} {rows : List Text} (h : Lays es rows)
    (hm : ∀ e ∈ es, Knows W m e) {block : Entry → List β}
    (hemit : ∀ e ∈ es, ∀ cond, emit (atEnd W e cond) = block e)
    (hidle : ∀ cond, emit (idle cond) = []) (cond : List (Text × List Text)) (out : List β) :
    ∃ r out', (rows.map (· ++ ['\n'])).foldlM (scanLine emit m) (idle cond, out) = some (r, out') ∧
      out' ++ emit r = out ++ es.flatMap block := by
  induction h generalizing cond out with
  | nil => exact ⟨idle cond, out, rfl, by rw [hidle]; rfl⟩
  | sep row hrow _ ih =>
    have ⟨r, out', hrun, hout⟩ := ih hm hemit cond out
    refine ⟨r, out', ?_, hout⟩
    rw [List.map_cons, List.foldlM_cons, scanLine_separates hrow]
    exact hrun
  | @entry es rows e hrest hclosed ih =>
    have hblock : emit (atEnd W e cond) = block e := hemit e List.mem_cons_self cond
    -- what follows sees the state between two blocks, once a line has closed this one
    have ⟨r, out', hrun, hout⟩ := ih (fun e' he' => hm e' (List.mem_cons_of_mem e he'))
      (fun e' he' => hemit e' (List.mem_cons_of_mem e he')) (condAfter cond e.items)
      (out ++ block e)
    rw [List.append_assoc, ← List.flatMap_cons] at hout
    have hentry : ((e.rows ++ rows).map (· ++ ['\n'])).foldlM (scanLine emit m) (idle cond, out) =
        (rows.map (· ++ ['\n'])).foldlM (scanLine emit m) (atEnd W e cond, out) := by
      rw [List.map_append, List.foldlM_append, foldlM_entry (hm e List.mem_cons_self)]
      rfl
    cases rows with
    | nil =>
      have hlast := Prod.mk.inj (Option.some.inj hrun)
      refine ⟨atEnd W e cond, out, hentry, ?_⟩
      rw [← hout, ← hlast.1, ← hlast.2, hidle, hblock, List.append_nil]
    | cons row rows =>
      have hsep : Separates row := hclosed row rfl
      refine ⟨r, out', ?_, hout⟩
      rw [hentry, ← hrun, List.map_cons, List.foldlM_cons, List.foldlM_cons,
        scanLine_separates hsep, scanLine_separates hsep, ← hblock]
      rfl

end Read

theorem Lays.no_line_end {es : List Entry} {rows : List Text} (h : Lays es rows) :
    ∀ row ∈ rows, '\n' ∉ row := by
  induction h with
  | nil => simp
  | sep row hrow _ ih => exact List.forall_mem_cons.mpr ⟨hrow.2, ih⟩
  | entry e _ _ ih =>
    intro row hrow
    rcases List.mem_append.mp hrow with hrow | hrow
    · rcases List.mem_cons.mp hrow with rfl | hrow
      · exact e.nm_plain.2.2
      rcases List.mem_cons.mp hrow with rfl | hrow
      · exact e.pcr_plain.2.2
      · have ⟨i, hi, hrow⟩ := List.mem_map.mp hrow
        rw [← hrow]
        exact (Item.row_plain (e.items_wf i hi)).2.2
    · exact ih row hrow

theorem Lays.linesOf_eq {es : List Entry} {rows : List Text} (h : Lays es rows) :
    linesOf rows = rows.map (· ++ ['\n']) :=
  TextFile.lines_flatMap id h.no_line_end

/-- A whole file: at its end every block has been written, or is the one the loop is in. -/
theorem scan_lays {W : Text → Nat} {m : List (Text × Nat)} {β : Type} {emit : Reading → List β}
    {es : List Entry} {rows : List Text} (h : Lays es rows) (hm : ∀ e ∈ es, Knows W m e)
    {block : Entry → List β} (hemit : ∀ e ∈ es, ∀ cond, emit (atEnd W e cond) = block e)
    (hidle : ∀ cond, emit (idle cond) = []) :
    ∃ r out, scan emit m (linesOf rows) = some (r, out) ∧ out ++ emit r = es.flatMap block := by
  rw [h.linesOf_eq]
  exact foldlM_lays h hm hemit hidle [] []

/-! ### Widths -/

section Widths

/-- The signals of a block whose width is asked for. -/
def Entry.signals (e : Entry) : List Text := (e.items.map Item.sig).filter fun sig => ¬IsCond sig

def queryOf (sig : Text) : WidthQuery := ⟨sig, escape sig⟩

theorem askLine_plain {row : Text} (h : Plain row) (s : Asking) :
    askLine s (row ++ ['\n']) =
      match s.nm, s.pcr with
      | none, _ => { s with nm := some row }
      | some _, none => { s with pcr := some row }
      | some _, some _ =>
        if IsCond ((row.splitOn ',').headD []) then s
        else { s with asked := s.asked ++ [queryOf ((row.splitOn ',').headD [])] } := by
  unfold askLine
  rw [if_neg (not_closes_of_plain h), List.dropLast_concat]
  rfl

theorem foldl_askLine_items {items : List Item} (hwf : ∀ i ∈ items, i.WF) (nm pcr : Text)
    (qs : List WidthQuery) :
    (items.map fun i => i.row ++ ['\n']).foldl askLine ⟨some nm, some pcr, qs⟩ =
      ⟨some nm, some pcr,
        qs ++ ((items.map Item.sig).filter fun sig => ¬IsCond sig).map queryOf⟩ := by
  induction items generalizing qs with
  | nil => simp
  | cons i items ih =>
    have hi := hwf i List.mem_cons_self
    have hrest := ih fun j hj => hwf j (List.mem_cons_of_mem i hj)
    have hhead : (i.row.splitOn ',').headD [] = i.sig := by
      rw [Item.splitOn_row hi]
      rfl
    rw [List.map_cons, List.foldl_cons, askLine_plain (Item.row_plain hi), hhead]
    by_cases hcond : IsCond i.sig
    · simp only [if_pos hcond]
      rw [hrest, List.map_cons, List.filter_cons_of_neg (by simpa using hcond)]
    · simp only [if_neg hcond]
      rw [hrest, List.map_cons, List.filter_cons_of_pos (by simpa using hcond),
        List.map_cons, List.append_assoc, List.singleton_append]

theorem foldl_askLine {es : List Entry} {rows : List Text} (h : Lays es rows)
    (qs : List WidthQuery) :
    ((rows.map (· ++ ['\n'])).foldl askLine ⟨none, none, qs⟩).asked =
      qs ++ (es.flatMap Entry.signals).map queryOf := by
  induction h generalizing qs with
  | nil => simp
  | sep row hrow _ ih =>
    have hstep : askLine ⟨none, none, qs⟩ (row ++ ['\n']) = ⟨none, none, qs⟩ :=
      if_pos (closes_of_separates hrow)
    rw [List.map_cons, List.foldl_cons, hstep, ih]
  | @entry es rows e _ hclosed ih =>
    have hentry : (e.rows.map (· ++ ['\n'])).foldl askLine ⟨none, none, qs⟩ =
        ⟨some e.nm, some e.pcr, qs ++ e.signals.map queryOf⟩ := by
      unfold Entry.rows
      rw [List.map_cons, List.map_cons, List.foldl_cons, List.foldl_cons,
        askLine_plain e.nm_plain, askLine_plain e.pcr_plain, List.map_map]
      exact foldl_askLine_items e.items_wf e.nm e.pcr qs
    have hrest := ih (qs ++ e.signals.map queryOf)
    rw [List.append_assoc, ← List.map_append, ← List.flatMap_cons] at hrest
    rw [List.map_append, List.foldl_append, hentry, ← hrest]
    cases rows with
    | nil => rfl
    | cons row rows =>
      have hstep (s : Asking) : askLine s (row ++ ['\n']) = { s with nm := none, pcr := none } :=
        if_pos (closes_of_separates (hclosed row rfl))
      rw [List.map_cons, List.foldl_cons, List.foldl_cons, hstep, hstep]

theorem getWidth_lays {es : List Entry} {rows : List Text} (h : Lays es rows) :
    getWidth (linesOf rows) = (es.flatMap Entry.signals).map queryOf := by
  rw [h.linesOf_eq]
  exact foldl_askLine h []

/-- What `get_sig_width.tcl` writes. -/
def widthFile (W : Text → Nat) (qs : List WidthQuery) : Option Text :=
  (qs.mapM (widthLine W)).map List.flatten

variable {W : Text → Nat}

theorem mem_signals {e : Entry} {sig : Text} (h : sig ∈ e.signals) :
    ∃ i ∈ e.items, i.sig = sig ∧ ¬IsCond sig := by
  have ⟨hmem, hcond⟩ := List.mem_filter.mp h
  have ⟨i, hi, hsig⟩ := List.mem_map.mp hmem
  exact ⟨i, hi, hsig, of_decide_eq_true hcond⟩

/-- What a text may not have to go through Tcl and the file of widths. -/
def Passes (sig : Text) : Prop :=
  ',' ∉ sig ∧ '\n' ∉ sig ∧ ∀ c ∈ sig, c ≠ '\\' ∧ c ≠ '$' ∧ c ≠ '"'

theorem passes_signals {e : Entry} : ∀ sig ∈ e.signals, Passes sig := by
  intro sig hsig
  have ⟨i, hi, hi_sig, hcond⟩ := mem_signals hsig
  obtain ⟨⟨_, _, hline⟩, hcomma, hkind⟩ := e.items_wf i hi
  rw [← hi_sig]
  refine ⟨hcomma, hline, ?_⟩
  cases i with
  | signal sig fix => exact hkind.2
  | cond expr sigs =>
    rw [← hi_sig] at hcond
    exact absurd hkind.1 hcond

/-- The row of `sig_width.txt` for a signal. -/
def widthRow (W : Text → Nat) (sig : Text) : Text :=
  [','].intercalate [sig, Nat.toDigits 10 (W sig)]

theorem widthFile_eq {sigs : List Text} (h : ∀ sig ∈ sigs, Passes sig) :
    widthFile W (sigs.map queryOf) = some (sigs.flatMap fun sig => widthRow W sig ++ ['\n']) := by
  have hline : ∀ sig ∈ sigs, widthLine W (queryOf sig) = some (widthRow W sig ++ ['\n']) := by
    intro sig hsig
    simp only [widthLine, queryOf, tclQuoted_escape (h sig hsig).2.2, Option.map_some, widthRow]
    simp
  have hmap : (sigs.map queryOf).mapM (widthLine W) =
      some (sigs.map fun sig => widthRow W sig ++ ['\n']) := by
    rw [List.mapM_map]
    exact mapM_eq_map hline
  rw [widthFile, hmap, Option.map_some, List.flatMap_def]

theorem sigWidthMap_eq {sigs : List Text} (h : ∀ sig ∈ sigs, Passes sig) :
    sigWidthMap (TextFile.lines '\n' (sigs.flatMap fun sig => widthRow W sig ++ ['\n'])) =
      some (sigs.foldl (fun d sig => Dict.upsert sig (fun _ => W sig) (W sig) d) []) := by
  have hfields : ∀ sig ∈ sigs, ∀ t ∈ [sig, Nat.toDigits 10 (W sig)], ',' ∉ t ∧ '\n' ∉ t := by
    intro sig hsig t ht
    rcases List.mem_cons.mp ht with rfl | ht
    · exact ⟨(h t hsig).1, (h t hsig).2.1⟩
    · rw [List.mem_singleton.mp ht]
      exact ⟨TextFile.not_mem_toDigits (by decide) _, TextFile.not_mem_toDigits (by decide) _⟩
  have hline : ∀ sig ∈ sigs, '\n' ∉ widthRow W sig := fun sig hsig =>
    TextFile.not_mem_intercalate (by decide) fun t ht => (hfields sig hsig t ht).2
  rw [TextFile.lines_flatMap (widthRow W) hline, sigWidthMap, List.foldlM_map]
  apply foldlM_eq_foldl
  intro d sig hsig
  have hsplit : (widthRow W sig).splitOn ',' = [sig, Nat.toDigits 10 (W sig)] :=
    List.splitOn_intercalate ',' (fun t ht => (hfields sig hsig t ht).1) (by simp)
  simp only [readWidth, List.dropLast_concat, hsplit, List.headD_cons, List.getElem?_cons_succ,
    List.getElem?_cons_zero, Option.bind_some, pyInt_toDigits, Option.bind_eq_bind]

/-- The widths that come back are those of the signals of the annotations. -/
theorem widths_known {es : List Entry} {rows : List Text} (h : Lays es rows) :
    ∃ text m, widthFile W (getWidth (linesOf rows)) = some text ∧
      sigWidthMap (TextFile.lines '\n' text) = some m ∧ ∀ e ∈ es, Knows W m e := by
  have hpass : ∀ sig ∈ es.flatMap Entry.signals, Passes sig := by
    intro sig hsig
    have ⟨e, _, hsig⟩ := List.mem_flatMap.mp hsig
    exact passes_signals sig hsig
  rw [getWidth_lays h]
  refine ⟨_, _, widthFile_eq hpass, sigWidthMap_eq hpass, ?_⟩
  intro e he i hi hcond
  have hmem : i.sig ∈ es.flatMap Entry.signals := List.mem_flatMap.mpr ⟨e, he,
    List.mem_filter.mpr ⟨List.mem_map_of_mem hi, decide_eq_true hcond⟩⟩
  exact Dict.lookup_foldl_set id W hmem (fun sig _ hsame => congrArg W hsame) []

end Widths

end SynthLC.DuvAnnotation
