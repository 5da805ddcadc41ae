import SynthLC.BitField
import SynthLC.TextFile

/-! Boolean expressions over one signal as SystemVerilog text: comparisons of the signal or of a
part of it with sized literals, put together by negation, conjunction and disjunction. Apart from
its spaces a text can be read back, and renaming the signal in the text renames it in the
expression. -/
namespace SvExpr

open TextFile

/-! ### Syntax -/

def decimalDigits : List Char := "0123456789".toList

def hexDigits : List Char := "0123456789abcdefABCDEF".toList

/-- A text of one or more of the given digits. -/
abbrev Digits (ds : List Char) := { t : List Char // t ≠ [] ∧ ∀ c ∈ t, c ∈ ds }

inductive Base where
  | bin | dec | hex
  deriving DecidableEq

namespace Base

def radix : Base → Nat
  | .bin => 2
  | .dec => 10
  | .hex => 16

def letter : Base → Char
  | .bin => 'b'
  | .dec => 'd'
  | .hex => 'h'

def digits : Base → List Char
  | .bin => ['0', '1']
  | .dec => decimalDigits
  | .hex => hexDigits

def ofLetter (c : Char) : Option Base := [.bin, .dec, .hex].find? fun b => decide (b.letter = c)

theorem ofLetter_letter (b : Base) : ofLetter b.letter = some b := by
  cases b <;> decide

end Base

def digitValue (c : Char) : Nat :=
  if c ∈ decimalDigits then c.toNat - '0'.toNat else c.toLower.toNat - 'a'.toNat + 10

def valueIn (radix : Nat) (t : List Char) : Nat :=
  t.foldl (fun n c => radix * n + digitValue c) 0

/-- A sized literal such as `3'b001`. -/
structure Literal where
  width : Digits decimalDigits
  base : Base
  digits : Digits base.digits

def Literal.value (l : Literal) : Nat :=
  valueIn l.base.radix l.digits.1 % 2 ^ valueIn 10 l.width.1

/-- The signal, or the bits from the first index down to the second, compared with a literal. -/
structure Cmp where
  part : Option (Digits decimalDigits × Digits decimalDigits)
  equal : Bool
  literal : Literal

def Cmp.eval {n : Nat} (w : BitVec n) (c : Cmp) : Bool :=
  let value :=
    match c.part with
    | none => w.toNat
    | some (hi, lo) => BitField.slice w (valueIn 10 hi.1) (valueIn 10 lo.1)
  if c.equal then value == c.literal.value else value != c.literal.value

inductive Level where
  | unary | conj | disj
  deriving DecidableEq

/-- Expressions by the operator that binds least; a negation stands before brackets. -/
inductive Expr : Level → Type where
  | cmp (c : Cmp) : Expr .unary
  | one : Expr .unary
  | group (e : Expr .disj) : Expr .unary
  | not (e : Expr .disj) : Expr .unary
  | single (u : Expr .unary) : Expr .conj
  | and (u : Expr .unary) (c : Expr .conj) : Expr .conj
  | alone (c : Expr .conj) : Expr .disj
  | or (c : Expr .conj) (d : Expr .disj) : Expr .disj

def Expr.eval {n : Nat} (w : BitVec n) {l : Level} : Expr l → Bool
  | .cmp c => c.eval w
  | .one => true
  | .group e => e.eval w
  | .not e => !e.eval w
  | .single u => u.eval w
  | .and u c => u.eval w && c.eval w
  | .alone c => c.eval w
  | .or c d => c.eval w || d.eval w

/-! ### Text -/

def Literal.text (l : Literal) : List Char := l.width.1 ++ '\'' :: l.base.letter :: l.digits.1

def partText : Option (Digits decimalDigits × Digits decimalDigits) → List Char
  | none => []
  | some (hi, lo) => '[' :: (hi.1 ++ ':' :: (lo.1 ++ [']']))

def opText (equal : Bool) : List Char := if equal then ['=', '='] else ['!', '=']

section Text

-- the space around operators, and the name of the signal
variable (sp s : List Char)

def Cmp.text (c : Cmp) : List Char :=
  s ++ (partText c.part ++ (sp ++ (opText c.equal ++ (sp ++ c.literal.text))))

def Expr.text {l : Level} : Expr l → List Char
  | .cmp c => c.text sp s
  | .one => ['1', '\'', 'b', '1']
  | .group e => '(' :: (e.text ++ [')'])
  | .not e => '!' :: '(' :: (e.text ++ [')'])
  | .single u => u.text
  | .and u c => u.text ++ (sp ++ '&' :: '&' :: (sp ++ c.text))
  | .alone c => c.text
  | .or c d => c.text ++ (sp ++ '|' :: '|' :: (sp ++ d.text))

end Text

/-- The characters of an expression besides those of the signal's name and spaces. -/
def alphabet : List Char := hexDigits ++ "h'[]:=!&|()".toList

section Chars

variable {sp s : List Char} {c : Char}

theorem Base.digits_subset (b : Base) : b.digits ⊆ alphabet := by
  cases b <;> decide

theorem Base.letter_mem (b : Base) : b.letter ∈ alphabet := by
  cases b <;> decide

theorem Digits.mem_alphabet (d : Digits decimalDigits) (h : c ∈ d.1) : c ∈ alphabet :=
  Base.digits_subset .dec (d.2.2 c h)

theorem Literal.mem_text {l : Literal} (h : c ∈ l.text) : c ∈ alphabet := by
  unfold Literal.text at h
  rcases List.mem_append.mp h with h | h
  · exact Digits.mem_alphabet l.width h
  · rcases List.mem_cons.mp h with rfl | h
    · decide
    · rcases List.mem_cons.mp h with rfl | h
      · exact l.base.letter_mem
      · exact l.base.digits_subset (l.digits.2.2 c h)

theorem mem_partText {p : Option (Digits decimalDigits × Digits decimalDigits)}
    (h : c ∈ partText p) : c ∈ alphabet := by
  cases p with
  | none => simp [partText] at h
  | some p =>
    obtain ⟨hi, lo⟩ := p
    simp only [partText, List.mem_cons, List.mem_append, List.not_mem_nil, or_false] at h
    rcases h with rfl | h | rfl | h | rfl
    · decide
    · exact Digits.mem_alphabet hi h
    · decide
    · exact Digits.mem_alphabet lo h
    · decide

theorem mem_opText {equal : Bool} (h : c ∈ opText equal) : c ∈ alphabet := by
  have hall : ∀ equal, opText equal ⊆ alphabet := by decide
  exact hall equal h

theorem Cmp.mem_text {x : Cmp} (h : c ∈ x.text sp s) : c ∈ s ∨ c ∈ sp ∨ c ∈ alphabet := by
  simp only [Cmp.text, List.mem_append] at h
  rcases h with h | h | h | h | h | h
  · exact .inl h
  · exact .inr (.inr (mem_partText h))
  · exact .inr (.inl h)
  · exact .inr (.inr (mem_opText h))
  · exact .inr (.inl h)
  · exact .inr (.inr (Literal.mem_text h))

theorem Expr.mem_text {l : Level} {e : Expr l} (h : c ∈ e.text sp s) :
    c ∈ s ∨ c ∈ sp ∨ c ∈ alphabet := by
  have hin (x : Char) (hx : x ∈ alphabet) (heq : c = x) : c ∈ s ∨ c ∈ sp ∨ c ∈ alphabet :=
    .inr (.inr (heq ▸ hx))
  induction e with
  | cmp x => exact Cmp.mem_text h
  | one =>
    have hall : (Expr.one.text sp s) ⊆ alphabet := by
      show ['1', '\'', 'b', '1'] ⊆ alphabet
      decide
    exact .inr (.inr (hall h))
  | group e ih =>
    simp only [Expr.text, List.mem_cons, List.mem_append, List.not_mem_nil, or_false] at h
    rcases h with h | h | h
    · exact hin _ (by decide) h
    · exact ih h
    · exact hin _ (by decide) h
  | not e ih =>
    simp only [Expr.text, List.mem_cons, List.mem_append, List.not_mem_nil, or_false] at h
    rcases h with h | h | h | h
    · exact hin _ (by decide) h
    · exact hin _ (by decide) h
    · exact ih h
    · exact hin _ (by decide) h
  | single u ih => exact ih h
  | and u x ihu ihx =>
    simp only [Expr.text, List.mem_cons, List.mem_append] at h
    rcases h with h | h | h | h | h | h
    · exact ihu h
    · exact .inr (.inl h)
    · exact hin _ (by decide) h
    · exact hin _ (by decide) h
    · exact .inr (.inl h)
    · exact ihx h
  | alone x ih => exact ih h
  | or x d ihx ihd =>
    simp only [Expr.text, List.mem_cons, List.mem_append] at h
    rcases h with h | h | h | h | h | h
    · exact ihx h
    · exact .inr (.inl h)
    · exact hin _ (by decide) h
    · exact hin _ (by decide) h
    · exact .inr (.inl h)
    · exact ihd h

end Chars

/-! ### Renaming -/

section Rename

variable {sp s w : List Char} {c : Char}

/-- Replacing a name that begins with another character than all of the rest renames the signal. -/
theorem Expr.replace_text (hc : c ∉ alphabet) (hsp : c ∉ sp) {l : Level} (e : Expr l)
    (rest : List Char) : replace (c :: w) s (e.text sp (c :: w) ++ rest) =
      e.text sp s ++ replace (c :: w) s rest := by
  have hkeep (xs : List Char) (hxs : ∀ x ∈ xs, x ∈ sp ∨ x ∈ alphabet) (rest : List Char) :
      replace (c :: w) s (xs ++ rest) = xs ++ replace (c :: w) s rest := by
    apply replace_append_of_not_mem
    intro hmem
    exact (hxs c hmem).elim hsp hc
  have hone (x : Char) (hx : x ∈ alphabet) (rest : List Char) :
      replace (c :: w) s (x :: rest) = x :: replace (c :: w) s rest :=
    hkeep [x] (by simp [hx]) rest
  have hspace (rest : List Char) :
      replace (c :: w) s (sp ++ rest) = sp ++ replace (c :: w) s rest :=
    hkeep sp (fun x hx => .inl hx) rest
  induction e generalizing rest with
  | cmp x =>
    have htail : ∀ y ∈ partText x.part ++ (sp ++ (opText x.equal ++ (sp ++ x.literal.text))),
        y ∈ sp ∨ y ∈ alphabet := by
      intro y hy
      simp only [List.mem_append] at hy
      rcases hy with hy | hy | hy | hy | hy
      · exact .inr (mem_partText hy)
      · exact .inl hy
      · exact .inr (mem_opText hy)
      · exact .inl hy
      · exact .inr (Literal.mem_text hy)
    show replace (c :: w) s ((c :: w) ++ _ ++ rest) = _
    rw [List.append_assoc, replace_self_append (by simp), hkeep _ htail, ← List.append_assoc]
    rfl
  | one => exact hkeep ['1', '\'', 'b', '1'] (fun x hx => .inr (by revert x; decide)) rest
  | group e ih =>
    show replace (c :: w) s ('(' :: (e.text sp (c :: w) ++ [')'] ++ rest)) = _
    rw [hone _ (by decide), List.append_assoc, ih, List.singleton_append, hone _ (by decide)]
    simp [Expr.text]
  | not e ih =>
    show replace (c :: w) s ('!' :: '(' :: (e.text sp (c :: w) ++ [')'] ++ rest)) = _
    rw [hone _ (by decide), hone _ (by decide), List.append_assoc, ih, List.singleton_append,
      hone _ (by decide)]
    simp [Expr.text]
  | single u ih => exact ih rest
  | and u x ihu ihx =>
    show replace (c :: w) s (u.text sp (c :: w) ++ (sp ++ '&' :: '&' ::
      (sp ++ x.text sp (c :: w))) ++ rest) = _
    simp only [List.append_assoc, List.cons_append]
    rw [ihu, hspace, hone _ (by decide), hone _ (by decide), hspace, ihx]
    simp [Expr.text]
  | alone x ih => exact ih rest
  | or x d ihx ihd =>
    show replace (c :: w) s (x.text sp (c :: w) ++ (sp ++ '|' :: '|' ::
      (sp ++ d.text sp (c :: w))) ++ rest) = _
    simp only [List.append_assoc, List.cons_append]
    rw [ihx, hspace, hone _ (by decide), hone _ (by decide), hspace, ihd]
    simp [Expr.text]

end Rename

/-! ### Reading -/

/-- Drop the spaces, which only stand between operators and operands. -/
def squeeze (t : List Char) : List Char := t.filter (· ≠ ' ')

def readDigits (ds t : List Char) : Option (Digits ds × List Char) :=
  if h : t.takeWhile (· ∈ ds) ≠ [] then
    some (⟨t.takeWhile (· ∈ ds), h, fun c hc => by
      simpa using List.all_eq_true.mp List.all_takeWhile c hc⟩, t.dropWhile (· ∈ ds))
  else none

def readLiteral (t : List Char) : Option (Literal × List Char) := do
  let (width, t) ← readDigits decimalDigits t
  match t with
  | '\'' :: letter :: t => do
    let base ← Base.ofLetter letter
    let (digits, t) ← readDigits base.digits t
    some (⟨width, base, digits⟩, t)
  | _ => none

def readPart : List Char →
    Option (Option (Digits decimalDigits × Digits decimalDigits) × List Char)
  | '[' :: t => do
    let (hi, t) ← readDigits decimalDigits t
    match t with
    | ':' :: t => do
      let (lo, t) ← readDigits decimalDigits t
      match t with
      | ']' :: t => some (some (hi, lo), t)
      | _ => none
    | _ => none
  | t => some (none, t)

def readOp : List Char → Option (Bool × List Char)
  | '=' :: '=' :: t => some (true, t)
  | '!' :: '=' :: t => some (false, t)
  | _ => none

section Read

variable (s : List Char)

def readCmp (t : List Char) : Option (Cmp × List Char) :=
  if s.isPrefixOf t then do
    let (part, t) ← readPart (t.drop s.length)
    let (equal, t) ← readOp t
    let (literal, t) ← readLiteral t
    some (⟨part, equal, literal⟩, t)
  else none

def close {l : Level} (x : Expr l × List Char) : Option (Expr l × List Char) :=
  match x.2 with
  | ')' :: t => some (x.1, t)
  | _ => none

/-- An operand; `inner` reads what stands between brackets. -/
def readUnary (inner : List Char → Option (Expr .disj × List Char)) :
    List Char → Option (Expr .unary × List Char)
  | '(' :: t => (inner t).bind fun x => close (.group x.1, x.2)
  | '!' :: '(' :: t => (inner t).bind fun x => close (.not x.1, x.2)
  | '1' :: '\'' :: 'b' :: '1' :: t => some (.one, t)
  | t => (readCmp s t).map fun x => (.cmp x.1, x.2)

/-- Read an expression of a level, as far as it goes. -/
def read : Nat → (l : Level) → List Char → Option (Expr l × List Char)
  | 0, _, _ => none
  | n + 1, .unary, t => readUnary s (read n .disj) t
  | n + 1, .conj, t => do
    let (u, t) ← read n .unary t
    match t with
    | '&' :: '&' :: t => (read n .conj t).map fun x => (.and u x.1, x.2)
    | _ => some (.single u, t)
  | n + 1, .disj, t => do
    let (c, t) ← read n .conj t
    match t with
    | '|' :: '|' :: t => (read n .disj t).map fun x => (.or c x.1, x.2)
    | _ => some (.alone c, t)

/-- The expression that a text stands for. -/
def readExpr (t : List Char) : Option (Expr .disj) :=
  match read s (3 * (squeeze t).length) .disj (squeeze t) with
  | some (e, []) => some e
  | _ => none

end Read

/-- The name of a signal. -/
structure IsSignal (s : List Char) : Prop where
  head : ∃ c ∈ s.head?, c.isAlpha = true ∨ c = '_'
  chars : ∀ c ∈ s, c.isAlphanum = true ∨ c = '_' ∨ c = '$' ∨ c = '.'

/-- How many steps it takes to read the expression. -/
def Expr.depth {l : Level} : Expr l → Nat
  | .cmp _ => 1
  | .one => 1
  | .group e => e.depth + 1
  | .not e => e.depth + 1
  | .single u => u.depth + 1
  | .and u c => max u.depth c.depth + 1
  | .alone c => c.depth + 1
  | .or c d => max c.depth d.depth + 1

/-- What may follow an expression of a level. -/
def followers : Level → List Char
  | .unary => ['&', '|', ')']
  | .conj => ['|', ')']
  | .disj => [')']

def Stops (l : Level) (rest : List Char) : Prop := ∀ c ∈ rest.head?, c ∈ followers l

section RoundTrip

variable {s rest : List Char}

theorem readDigits_append {ds : List Char} (d : Digits ds) (h : ∀ c ∈ rest.head?, c ∉ ds) :
    readDigits ds (d.1 ++ rest) = some (d, rest) := by
  have hall : ∀ c ∈ d.1, decide (c ∈ ds) = true := fun c hc => decide_eq_true (d.2.2 c hc)
  have hstop : rest.takeWhile (· ∈ ds) = [] ∧ rest.dropWhile (· ∈ ds) = rest := by
    cases rest with
    | nil => exact ⟨rfl, rfl⟩
    | cons c rest =>
      have hc : c ∉ ds := h c (by simp)
      simp [hc]
  have heq : (d.1 ++ rest).takeWhile (· ∈ ds) = d.1 := by
    rw [List.takeWhile_append_of_pos hall, hstop.1, List.append_nil]
  have hrest : (d.1 ++ rest).dropWhile (· ∈ ds) = rest := by
    rw [List.dropWhile_append_of_pos hall, hstop.2]
  unfold readDigits
  simp only [heq, hrest, d.2.1, ne_eq, not_false_eq_true, dite_true]

theorem readLiteral_text (l : Literal) (h : ∀ c ∈ rest.head?, c ∉ l.base.digits) :
    readLiteral (l.text ++ rest) = some (l, rest) := by
  have hquote : ∀ c ∈ ('\'' :: l.base.letter :: (l.digits.1 ++ rest)).head?, c ∉ decimalDigits := by
    intro c hc
    obtain rfl : '\'' = c := by simpa using hc
    decide
  unfold readLiteral Literal.text
  rw [List.append_assoc, List.cons_append, List.cons_append, readDigits_append l.width hquote]
  simp only [Option.bind_eq_bind, Option.bind_some, Base.ofLetter_letter,
    readDigits_append l.digits h]

theorem readPart_text (p : Option (Digits decimalDigits × Digits decimalDigits))
    (h : ∀ c ∈ rest.head?, c ≠ '[') : readPart (partText p ++ rest) = some (p, rest) := by
  cases p with
  | none =>
    show readPart rest = _
    unfold readPart
    split
    · exact absurd rfl (h '[' (by simp))
    · rfl
  | some p =>
    obtain ⟨hi, lo⟩ := p
    have hcolon : ∀ c ∈ (':' :: (lo.1 ++ ']' :: rest)).head?, c ∉ decimalDigits := by
      intro c hc
      obtain rfl : ':' = c := by simpa using hc
      decide
    have hclose : ∀ c ∈ (']' :: rest).head?, c ∉ decimalDigits := by
      intro c hc
      obtain rfl : ']' = c := by simpa using hc
      decide
    have htext : partText (some (hi, lo)) ++ rest =
        '[' :: (hi.1 ++ ':' :: (lo.1 ++ ']' :: rest)) := by simp [partText]
    rw [htext, readPart, readDigits_append hi hcolon]
    simp only [Option.bind_eq_bind, Option.bind_some, readDigits_append lo hclose]

theorem readOp_text (equal : Bool) : readOp (opText equal ++ rest) = some (equal, rest) := by
  cases equal <;> rfl

theorem readCmp_text (x : Cmp) (h : Stops .unary rest) :
    readCmp s (x.text [] s ++ rest) = some (x, rest) := by
  have hstop : ∀ c ∈ rest.head?, c ∉ x.literal.base.digits := by
    intro c hc
    have hall : ∀ b : Base, ∀ c ∈ followers .unary, c ∉ b.digits := by
      intro b
      cases b <;> decide
    exact hall _ c (h c hc)
  have hop : ∀ c ∈ (opText x.equal ++ (x.literal.text ++ rest)).head?, c ≠ '[' := by
    intro c hc
    cases hx : x.equal <;> rw [hx] at hc <;> simp [opText] at hc <;> rw [← hc] <;> decide
  have htext : x.text [] s ++ rest =
      s ++ (partText x.part ++ (opText x.equal ++ (x.literal.text ++ rest))) := by
    simp [Cmp.text]
  have hpre : s.isPrefixOf (x.text [] s ++ rest) = true := by
    rw [htext, List.isPrefixOf_iff_prefix]
    exact List.prefix_append s _
  unfold readCmp
  rw [if_pos hpre, htext, List.drop_left, readPart_text _ hop]
  simp only [Option.bind_eq_bind, Option.bind_some, readOp_text, readLiteral_text _ hstop]

theorem Stops.cons {l : Level} {c : Char} (h : c ∈ followers l) : Stops l (c :: rest) := by
  intro x hx
  obtain rfl : c = x := by simpa using hx
  exact h

theorem Stops.ne_cons {l : Level} {c : Char} (h : Stops l rest) (hc : c ∉ followers l)
    (t : List Char) : rest ≠ c :: t := by
  intro heq
  exact hc (h c (by simp [heq]))

/-- A comparison begins with the name, which no other expression does. -/
theorem readUnary_cmp (hs : IsSignal s) (inner : List Char → Option (Expr .disj × List Char))
    (x : Cmp) (h : Stops .unary rest) :
    readUnary s inner (x.text [] s ++ rest) = some (.cmp x, rest) := by
  have ⟨c, hc, hname⟩ := hs.head
  have ⟨cs, hcs⟩ : ∃ cs, s = c :: cs := by
    cases s with
    | nil => simp at hc
    | cons d cs =>
      obtain rfl : d = c := by simpa using hc
      exact ⟨cs, rfl⟩
  have hother : c ≠ '(' ∧ c ≠ '!' ∧ c ≠ '1' := by
    refine ⟨?_, ?_, ?_⟩ <;>
    · intro heq
      rw [heq] at hname
      revert hname
      decide
  have hcmp : readCmp s (x.text [] s ++ rest) = some (x, rest) := readCmp_text x h
  have htext : x.text [] s ++ rest = c :: (cs ++ (partText x.part ++
      (opText x.equal ++ x.literal.text)) ++ rest) := by
    simp [Cmp.text, hcs]
  rw [htext] at hcmp ⊢
  unfold readUnary
  split
  · exact absurd (by assumption) (by simp [hother])
  · exact absurd (by assumption) (by simp [hother])
  · exact absurd (by assumption) (by simp [hother])
  · rw [hcmp]
    rfl

/-- What has been written for an expression is read as that expression. -/
theorem read_text (hs : IsSignal s) {l : Level} (e : Expr l) {n : Nat} (hn : e.depth ≤ n)
    (h : Stops l rest) : read s n l (e.text [] s ++ rest) = some (e, rest) := by
  have hsucc (k n : Nat) (hk : k + 1 ≤ n) : ∃ m, n = m + 1 ∧ k ≤ m :=
    ⟨n - 1, by omega, by omega⟩
  -- each reader spends one step and leaves the rest to the readers of the parts
  induction e generalizing n rest with
  | cmp x =>
    have ⟨m, hm, _⟩ := hsucc _ n hn
    rw [hm, read]
    exact readUnary_cmp hs _ x h
  | one =>
    have ⟨m, hm, _⟩ := hsucc _ n hn
    rw [hm, read]
    rfl
  | group e ih =>
    have ⟨m, hm, hle⟩ := hsucc _ n hn
    have hstop : Stops .disj (')' :: rest) := .cons (by decide)
    have htext : (Expr.group e).text [] s ++ rest = '(' :: (e.text [] s ++ ')' :: rest) := by
      simp [Expr.text]
    rw [hm, read, htext, readUnary, ih hle hstop]
    rfl
  | not e ih =>
    have ⟨m, hm, hle⟩ := hsucc _ n hn
    have hstop : Stops .disj (')' :: rest) := .cons (by decide)
    have htext : (Expr.not e).text [] s ++ rest = '!' :: '(' :: (e.text [] s ++ ')' :: rest) := by
      simp [Expr.text]
    rw [hm, read, htext, readUnary, ih hle hstop]
    rfl
  | single u ih =>
    have ⟨m, hm, hle⟩ := hsucc _ n hn
    have hstop : Stops .unary rest := fun c hc => by
      have hsub : followers .conj ⊆ followers .unary := by decide
      exact hsub (h c hc)
    have hu : read s m .unary ((Expr.single u).text [] s ++ rest) = some (u, rest) := ih hle hstop
    rw [hm, read, hu]
    simp only [Option.bind_eq_bind, Option.bind_some]
    split
    · exact absurd rfl (h.ne_cons (by decide) _)
    · rfl
  | and u x ihu ihx =>
    have ⟨m, hm, hle⟩ := hsucc _ n hn
    have hmax := Nat.max_le.mp hle
    have hstop : Stops .unary ('&' :: '&' :: (x.text [] s ++ rest)) := .cons (by decide)
    have htext : (Expr.and u x).text [] s ++ rest =
        u.text [] s ++ '&' :: '&' :: (x.text [] s ++ rest) := by simp [Expr.text]
    rw [hm, read, htext, ihu hmax.1 hstop]
    simp only [Option.bind_eq_bind, Option.bind_some, ihx hmax.2 h, Option.map_some]
  | alone x ih =>
    have ⟨m, hm, hle⟩ := hsucc _ n hn
    have hstop : Stops .conj rest := fun c hc => by
      have hsub : followers .disj ⊆ followers .conj := by decide
      exact hsub (h c hc)
    have hx : read s m .conj ((Expr.alone x).text [] s ++ rest) = some (x, rest) := ih hle hstop
    rw [hm, read, hx]
    simp only [Option.bind_eq_bind, Option.bind_some]
    split
    · exact absurd rfl (h.ne_cons (by decide) _)
    · rfl
  | or x d ihx ihd =>
    have ⟨m, hm, hle⟩ := hsucc _ n hn
    have hmax := Nat.max_le.mp hle
    have hstop : Stops .conj ('|' :: '|' :: (d.text [] s ++ rest)) := .cons (by decide)
    have htext : (Expr.or x d).text [] s ++ rest =
        x.text [] s ++ '|' :: '|' :: (d.text [] s ++ rest) := by simp [Expr.text]
    rw [hm, read, htext, ihx hmax.1 hstop]
    simp only [Option.bind_eq_bind, Option.bind_some, ihd hmax.2 h, Option.map_some]

/-- Steps by level: at most three for each character. -/
theorem Expr.depth_le (hs : s ≠ []) {l : Level} (e : Expr l) : e.depth + (match l with
    | .unary => 2
    | .conj => 1
    | .disj => 0) ≤ 3 * (e.text [] s).length := by
  have hpos := List.length_pos_iff.mpr hs
  induction e with
  | cmp x =>
    simp only [Expr.depth, Expr.text, Cmp.text, List.length_append]
    omega
  | one => simp [Expr.depth, Expr.text]
  | group e ih =>
    simp only [Expr.depth, Expr.text, List.length_cons, List.length_append] at ih ⊢
    omega
  | not e ih =>
    simp only [Expr.depth, Expr.text, List.length_cons, List.length_append] at ih ⊢
    omega
  | single u ih =>
    simp only [Expr.depth, Expr.text] at ih ⊢
    omega
  | and u x ihu ihx =>
    simp only [Expr.depth, Expr.text, List.length_cons, List.length_append] at ihu ihx ⊢
    omega
  | alone x ih =>
    simp only [Expr.depth, Expr.text] at ih ⊢
    omega
  | or x d ihx ihd =>
    simp only [Expr.depth, Expr.text, List.length_cons, List.length_append] at ihx ihd ⊢
    omega

theorem IsSignal.ne_nil (hs : IsSignal s) : s ≠ [] := by
  intro hnil
  have ⟨c, hc, _⟩ := hs.head
  rw [hnil] at hc
  cases hc

/-- A text that differs from that of an expression in its spaces only stands for it. -/
theorem readExpr_of_squeeze (hs : IsSignal s) {t : List Char} {e : Expr .disj}
    (h : squeeze t = e.text [] s) : readExpr s t = some e := by
  have hdepth : e.depth ≤ 3 * (e.text [] s).length := Expr.depth_le hs.ne_nil e
  have hread : read s (3 * (e.text [] s).length) .disj (e.text [] s ++ []) = some (e, []) :=
    read_text hs e hdepth (by simp [Stops])
  rw [List.append_nil] at hread
  unfold readExpr
  rw [h, hread]

theorem squeeze_append (t u : List Char) : squeeze (t ++ u) = squeeze t ++ squeeze u :=
  List.filter_append ..

theorem squeeze_cons {c : Char} (hc : c ≠ ' ') (t : List Char) :
    squeeze (c :: t) = c :: squeeze t :=
  List.filter_cons_of_pos (decide_eq_true hc)

theorem squeeze_of_not_mem {t : List Char} (h : ' ' ∉ t) : squeeze t = t := by
  unfold squeeze
  rw [List.filter_eq_self]
  intro c hc
  exact decide_eq_true fun heq => h (heq ▸ hc)

theorem IsSignal.no_space (hs : IsSignal s) : ' ' ∉ s := by
  intro hmem
  have hc := hs.chars ' ' hmem
  revert hc
  decide

theorem Expr.squeeze_text (hs : ' ' ∉ s) {l : Level} (e : Expr l) :
    squeeze (e.text [' '] s) = e.text [] s := by
  have hspace (t : List Char) : squeeze (' ' :: t) = squeeze t :=
    List.filter_cons_of_neg (by decide)
  have hplain : ' ' ∉ alphabet := by decide
  induction e with
  | cmp x =>
    simp only [Expr.text, Cmp.text, squeeze_append, squeeze_of_not_mem hs,
      squeeze_of_not_mem fun h => hplain (mem_partText h),
      squeeze_of_not_mem fun h => hplain (mem_opText h),
      squeeze_of_not_mem fun h => hplain (Literal.mem_text h)]
    rfl
  | one => rfl
  | group e ih =>
    simp only [Expr.text, squeeze_cons (by decide : '(' ≠ ' '), squeeze_append, ih]
    rfl
  | not e ih =>
    simp only [Expr.text, squeeze_cons (by decide : '!' ≠ ' '),
      squeeze_cons (by decide : '(' ≠ ' '), squeeze_append, ih]
    rfl
  | single u ih => exact ih
  | and u x ihu ihx =>
    simp only [Expr.text, squeeze_append, ihu, List.singleton_append, hspace,
      squeeze_cons (by decide : '&' ≠ ' '), ihx, List.nil_append]
  | alone x ih => exact ih
  | or x d ihx ihd =>
    simp only [Expr.text, squeeze_append, ihx, List.singleton_append, hspace,
      squeeze_cons (by decide : '|' ≠ ' '), ihd, List.nil_append]

end RoundTrip

end SvExpr
