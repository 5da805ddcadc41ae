import Mathlib.Data.Finset.Basic
import Mathlib.Data.List.GetD
import Mathlib.Data.List.Sort
import Mathlib.Data.String.Basic
import SynthLC.Sva
import SynthLC.TextFile

/-! `gconsts.py`: the locations that are copies of each other, the class of a location, and the
expression that a class stands for. -/
namespace SynthLC

open Sva

/-- `isomorphic_sets` of `gconsts.py`. -/
def isomorphicSets : List (List String) :=
  [ ["lsq_enq_0_s1", "lsq_enq_1_s1"],
    ["scb_0_s12", "scb_1_s12", "scb_2_s12", "scb_3_s12"],
    ["scb_0_s13", "scb_1_s13", "scb_2_s13", "scb_3_s13"],
    ["scb_0_s14", "scb_1_s14", "scb_2_s14", "scb_3_s14"],
    ["scb_0_s8", "scb_1_s8", "scb_2_s8", "scb_3_s8"],
    ["stb_com_0_s1", "stb_com_1_s1"],
    ["stb_spec_0_s1", "stb_spec_1_s1"],
    ["lsq_enq_0_s1___final", "lsq_enq_1_s1___final"],
    ["scb_0_s12___final", "scb_1_s12___final", "scb_2_s12___final", "scb_3_s12___final"],
    ["scb_0_s13___final", "scb_1_s13___final", "scb_2_s13___final", "scb_3_s13___final"],
    ["scb_0_s14___final", "scb_1_s14___final", "scb_2_s14___final", "scb_3_s14___final"],
    ["scb_0_s8___final", "scb_1_s8___final", "scb_2_s8___final", "scb_3_s8___final"],
    ["stb_com_0_s1___final", "stb_com_1_s1___final"],
    ["stb_spec_0_s1___final", "stb_spec_1_s1___final"] ]

/-- The class of a location. -/
def transform (pl : String) : String :=
  match isomorphicSets.findIdx? fun aset => decide (pl ∈ aset) with
  | some idx => "iso_" ++ toString idx
  | none => pl

def isoMark : List Char := ['i', 's', 'o', '_']

/-- `int` of a text of decimal digits, the only texts that follow the mark of a class. -/
def pyInt (cs : List Char) : Option Nat :=
  if cs ≠ [] ∧ cs.all Char.isDigit then
    some (cs.foldl (fun n c => 10 * n + (c.toNat - '0'.toNat)) 0)
  else none

/-- `int(isopl.split("iso_")[1])` -/
def isoIndex (isopl : String) : Option Nat :=
  pyInt (TextFile.before isoMark (TextFile.afterFirst isoMark isopl.toList))

/-- `sorted(list(theset))` -/
def classNames (isopl : String) : Option (List String) := do
  let idx ← isoIndex isopl
  let theset ← isomorphicSets[idx]?
  some (theset.insertionSort (· ≤ ·))

/-- `transform_disjunc`: a class is one of its locations. -/
def transformDisjunc (isopl : String) : Option (BExp String) :=
  if isoMark <:+: isopl.toList then
    (classNames isopl).map fun names => .any (names.map .sig)
  else some (.sig isopl)

def sameUfsm : List (List Nat) := [[0], [1, 2, 3, 4], [5], [6]]

/-- `decision_node_g` and the sorted `dec_node_set`, where the source is a class. -/
def decNodeSet (decisionNode : String) : Option (Option (Nat × List String)) :=
  if isoMark <:+: decisionNode.toList then do
    let g ← isoIndex decisionNode
    let names ← classNames decisionNode
    some (some (g, names))
  else some none

/-! ### Classes -/

theorem isoIndex_class : ∀ k < isomorphicSets.length, isoIndex ("iso_" ++ toString k) = some k := by
  decide

theorem isoMark_class : ∀ k < isomorphicSets.length,
    isoMark <:+: ("iso_" ++ toString k).toList := by
  decide

/-- No location is in two classes. -/
theorem transform_member : ∀ k < isomorphicSets.length, ∀ n ∈ isomorphicSets.getD k [],
    transform n = "iso_" ++ toString k := by
  decide

theorem transform_cases (pl : String) :
    (∃ k < isomorphicSets.length, pl ∈ isomorphicSets.getD k [] ∧
      transform pl = "iso_" ++ toString k) ∨ transform pl = pl := by
  unfold transform
  cases hidx : isomorphicSets.findIdx? fun aset => decide (pl ∈ aset) with
  | none => exact .inr rfl
  | some k =>
    have ⟨hlt, hmem, _⟩ := List.findIdx?_eq_some_iff_getElem.mp hidx
    refine .inl ⟨k, hlt, ?_, rfl⟩
    rw [List.getD_eq_getElem _ _ hlt]
    exact of_decide_eq_true hmem

/-- What the expression of a location's class says where the locations of some classes are
visited and no others. -/
theorem transformDisjunc_spec {pl : String} (hpl : ¬isoMark <:+: pl.toList) :
    ∃ b, transformDisjunc (transform pl) = some b ∧ ∀ A : Finset String,
      b.eval (fun _ x => decide (transform x ∈ A)) 0 = true ↔ transform pl ∈ A := by
  rcases transform_cases pl with ⟨k, hk, hmem, hpl'⟩ | hpl'
  · have hget : isomorphicSets[k]? = some (isomorphicSets.getD k []) := by
      rw [List.getD_eq_getElem _ _ hk, List.getElem?_eq_getElem hk]
    refine ⟨.any (((isomorphicSets.getD k []).insertionSort (· ≤ ·)).map .sig), ?_, ?_⟩
    · rw [hpl', transformDisjunc, if_pos (isoMark_class k hk), classNames, isoIndex_class k hk]
      simp only [Option.bind_eq_bind, Option.bind_some, hget, Option.map_some]
    · intro A
      simp only [eval_any, List.mem_map, List.mem_insertionSort, exists_exists_and_eq_and, eval_sig,
        decide_eq_true_eq]
      constructor
      · intro ⟨n, hn, hA⟩
        rwa [transform_member k hk n hn, ← hpl'] at hA
      · intro hA
        exact ⟨pl, hmem, hA⟩
  · refine ⟨.sig pl, ?_, ?_⟩
    · rw [hpl', transformDisjunc, if_neg hpl]
    · intro A
      simp only [eval_sig, decide_eq_true_eq]

end SynthLC
