import SynthLC.Dict
import SynthLC.TextFile
import SynthLC.Verdict
import SynthLC.Opcodes
import SynthLC.Gconsts

/-! `pruning_ufsm.py` and `skip_ufsm_based`: one taint cover for each instruction-id register,
its verdict written for the isomorphism classes of the locations that the register carries. -/
namespace SynthLC

namespace PruningUfsm

/-- `_t0`, which makes the name of a location the name of its taint. -/
def taintSuffix : List Char := ['_', 't', '0']

/-- `perfloc_signals.txt`: each location with the first of its signals, the instruction-id
register that carries it. A name with `_t0` inside is a taint's, not a location's. -/
structure PerflocSignals where
  items : List (String × String)
  nodup : (items.map Prod.fst).Nodup
  plain : ∀ e ∈ items, ¬taintSuffix <:+: e.1.toList

def withTaint (k : String) : String := String.ofList (k.toList ++ taintSuffix)

/-- `itm.split("_t0")[0]` -/
def cut (itm : String) : String := String.ofList (TextFile.before taintSuffix itm.toList)

structure Registers where
  iidMap : List (String × List String)
  iidMapRev : List (String × String)
  ufsmArr : List String

def registersStep (r : Registers) (kv : String × String) : Registers :=
  if kv.2 ∈ r.iidMap.map Prod.fst then
    { r with iidMap := Loop.push kv.2 kv.1 [kv.1] r.iidMap }
  else
    { iidMap := Loop.push kv.2 kv.1 [kv.1] r.iidMap
      iidMapRev := r.iidMapRev ++ [(kv.1, kv.2)]
      ufsmArr := r.ufsmArr ++ [withTaint kv.1] }

def registers (t : PerflocSignals) : Registers := t.items.foldl registersStep ⟨[], [], []⟩

/-- One of the two set to 1. -/
def raise (b : Bits) : Operand → Bits
  | .rs1 => { b with rs1 := true }
  | .rs2 => { b with rs2 := true }

/-- Verdicts of the taint covers `C_<idx>` of one instruction, none of them missing. -/
structure Verdicts where
  csv : Operand → Nat → Result
  answered : ∀ op idx, csv op idx ≠ .err

/-- One verdict of the loop that fills `res_itm_map`. -/
def recordStep (r : Registers) (csv : Operand → Nat → Result) (d : List (String × Bits))
    (x : Operand × String × Nat) : Option (List (String × Bits)) := do
  let res ← dfQuery (csv x.1 x.2.2)
  let k ← r.iidMapRev.lookup (cut x.2.1)
  let mark (b : Bits) : Bits := if res = .covered then raise b x.1 else b
  pure (Dict.upsert k mark (mark ⟨false, false⟩) d)

def resItmMap (r : Registers) (csv : Operand → Nat → Result) : Option (List (String × Bits)) :=
  ([Operand.rs1, .rs2].flatMap fun op => r.ufsmArr.zipIdx.map fun x => (op, x)).foldlM
    (recordStep r csv) []

/-- `<instn>_res.txt`: a class is written once, with what its first register says. -/
def resRows (r : Registers) (res : List (String × Bits)) : Option (List (String × Bits)) := do
  let blocks ← res.mapM fun kv => do
    let pls ← r.iidMap.lookup kv.1
    pure (pls.map fun pl => (transform pl, kv.2))
  pure (blocks.flatten.foldl (fun rows x => Dict.upsert x.1 id x.2 rows) [])

def todoInstns : List Instn := [.SB, .SH, .SW, .SD]

/-- `group_items_transmitter[instn]` -/
def fieldOf (instn : Instn) : Option OpField :=
  (Opcodes.groupMap.reverse.find? fun g => decide (instn ∈ g.instns)).map Group.field

/-- The files of `xPruning`. -/
abbrev Files := List (Instn × List (String × Bits))

/-- One instruction of the last loop; those with a single operand have no file. -/
def instnFile (t : PerflocSignals) (v : Instn → Verdicts) (instn : Instn) :
    Option (Option (Instn × List (String × Bits))) := do
  let field ← fieldOf instn
  if field = .rs1 then pure none
  else
    let res ← resItmMap (registers t) (v instn).csv
    let rows ← resRows (registers t) res
    pure (some (instn, rows))

def pruningUfsm (t : PerflocSignals) (v : Instn → Verdicts) : Option Files := do
  let files ← todoInstns.mapM (instnFile t v)
  pure (files.filterMap id)

/-- The inner loop of `skip_ufsm_based`; an instruction without a file ends it. -/
def skipClass (files : Files) (eachN : String) : List Instn → Bits → Option Bits
  | [], skip => some skip
  | inst :: instns, skip =>
    match files.lookup inst with
    | none => some ⟨false, false⟩
    | some rows => do
      let b ← rows.lookup eachN
      skipClass files eachN instns ⟨skip.rs1 && !b.rs1, skip.rs2 && !b.rs2⟩

def skipUfsmBased (files : Files) (instns : List Instn) (afset : List String) : Option Bits :=
  afset.foldlM (fun skip eachN => skipClass files eachN instns skip) ⟨true, true⟩

section Build

/-- Registers in the order of their first locations. -/
def regOrder (items : List (String × String)) : List String :=
  (items.map Prod.snd).foldl Loop.insertNew []

/-- What the registers hold for the lines read so far. -/
structure Built (items : List (String × String)) (r : Registers) : Prop where
  keys : r.iidMap.map Prod.fst = regOrder items
  lists : ∀ reg pl, Loop.Lists r.iidMap reg pl ↔ (pl, reg) ∈ items
  rev : r.iidMapRev.map Prod.snd = regOrder items
  sub : r.iidMapRev.Sublist items
  arr : r.ufsmArr = r.iidMapRev.map fun e => withTaint e.1

theorem regOrder_append (items : List (String × String)) (kv : String × String) :
    regOrder (items ++ [kv]) = Loop.insertNew (regOrder items) kv.2 := by
  simp [regOrder]

theorem Built.step {items : List (String × String)} {r : Registers} (h : Built items r)
    (kv : String × String) : Built (items ++ [kv]) (registersStep r kv) := by
  have hlists (reg pl : String) :
      Loop.Lists (Loop.push kv.2 kv.1 [kv.1] r.iidMap) reg pl ↔ (pl, reg) ∈ items ++ [kv] := by
    rw [Loop.lists_push_self, h.lists]
    simp [Prod.ext_iff, and_comm]
  have hkeys : (Loop.push kv.2 kv.1 [kv.1] r.iidMap).map Prod.fst = regOrder (items ++ [kv]) := by
    rw [Loop.keys_push, regOrder_append, Loop.insertNew, h.keys]
  unfold registersStep
  split_ifs with hold
  · refine ⟨hkeys, hlists, ?_, h.sub.trans (List.sublist_append_left _ _), h.arr⟩
    rw [regOrder_append, Loop.insertNew, ← h.keys, if_pos hold, h.keys, h.rev]
  · refine ⟨hkeys, hlists, ?_, h.sub.append (List.Sublist.refl _), ?_⟩
    · rw [regOrder_append, Loop.insertNew, ← h.keys, if_neg hold, h.keys, List.map_append, h.rev]
      rfl
    · rw [List.map_append, h.arr]
      rfl

theorem built_foldl {items : List (String × String)} {r : Registers} (h : Built items r)
    (rest : List (String × String)) : Built (items ++ rest) (rest.foldl registersStep r) := by
  induction rest generalizing items r with
  | nil => simpa using h
  | cons kv rest ih =>
    have hrest := ih (h.step kv)
    rwa [List.append_assoc, List.singleton_append] at hrest

variable (t : PerflocSignals)

theorem built : Built t.items (registers t) := by
  have hstart : Built [] ⟨[], [], []⟩ :=
    ⟨rfl, by simp [Loop.Lists], rfl, List.Sublist.refl _, rfl⟩
  exact built_foldl hstart t.items

theorem nodup_regOrder : (regOrder t.items).Nodup := Loop.nodup_foldl_insertNew List.nodup_nil

/-- Cutting a taint's name gives the location back. -/
theorem cut_withTaint {k : String} (h : ¬taintSuffix <:+: k.toList) : cut (withTaint k) = k := by
  unfold cut withTaint
  rw [String.toList_ofList, TextFile.before_append_self, String.ofList_toList]
  intro ys hsuffix hne hprefix
  match ys, hne with
  | [c], _ => simp [taintSuffix] at hprefix
  | [c, c'], _ => simp [taintSuffix] at hprefix
  | c :: c' :: c'' :: ys, _ =>
    apply h
    simp only [taintSuffix, List.cons_append, List.cons_prefix_cons, List.nil_prefix] at hprefix
    obtain ⟨rfl, rfl, rfl, _⟩ := hprefix
    apply List.IsInfix.trans _ hsuffix.isInfix
    exact ⟨[], ys, rfl⟩

/-- The register whose verdict a cover gives. -/
def owner (itm : String) : String := ((registers t).iidMapRev.lookup (cut itm)).getD ""

theorem lookup_iidMapRev {itm : String} (h : itm ∈ (registers t).ufsmArr) :
    (registers t).iidMapRev.lookup (cut itm) = some (owner t itm) := by
  have hb := built t
  rw [hb.arr] at h
  obtain ⟨⟨pl, reg⟩, hmem, rfl⟩ := List.mem_map.mp h
  have hnd : ((registers t).iidMapRev.map Prod.fst).Nodup := t.nodup.sublist (hb.sub.map _)
  have hlookup := (Dict.mem_iff_lookup hnd).mp hmem
  have hcut : cut (withTaint pl) = pl := cut_withTaint (t.plain (pl, reg) (hb.sub.subset hmem))
  rw [owner, hcut, hlookup]
  rfl

theorem map_owner : (registers t).ufsmArr.map (owner t) = regOrder t.items := by
  have hb := built t
  rw [← hb.rev, hb.arr, List.map_map]
  apply List.map_congr_left
  intro e he
  have hnd : ((registers t).iidMapRev.map Prod.fst).Nodup := t.nodup.sublist (hb.sub.map _)
  have hcut : cut (withTaint e.1) = e.1 := cut_withTaint (t.plain e (hb.sub.subset he))
  rw [Function.comp_apply, owner, hcut, (Dict.mem_iff_lookup hnd).mp he]
  rfl

end Build

section Verdicts

variable (t : PerflocSignals) (v : Verdicts)

/-- The cover of a register is covered for an operand. -/
def covered (r : String) (op : Operand) : Bool :=
  (regOrder t.items).zipIdx.any fun x => decide (x.1 = r ∧ v.csv op x.2 = .covered)

/-- Some location of a class is carried by a register. -/
def carries (c r : String) : Bool := t.items.any fun e => decide (e.2 = r ∧ transform e.1 = c)

/-- Both verdicts of a register. -/
def said (r : String) : Bits := ⟨covered t v r .rs1, covered t v r .rs2⟩

theorem said_get (r : String) (op : Operand) : (said t v r).get op = covered t v r op := by
  cases op <;> rfl

/-- What one verdict does to the pair of its register. -/
def mark (csv : Operand → Nat → Result) (x : Operand × String × Nat) (b : Bits) : Bits :=
  if csv x.1 x.2.2 = .covered then raise b x.1 else b

theorem mark_get (csv : Operand → Nat → Result) (x : Operand × String × Nat) (b : Bits)
    (op : Operand) :
    (mark csv x b).get op = (b.get op || decide (x.1 = op ∧ csv x.1 x.2.2 = .covered)) := by
  unfold mark
  split_ifs with hc
  · simp only [hc, and_true]
    cases x.1 <;> cases op <;> simp [raise, Bits.get]
  · simp [hc]

/-- The verdicts of one register, whatever their order. -/
theorem get_foldl_mark (csv : Operand → Nat → Result) (xs : List (Operand × String × Nat))
    (o : Option Bits) (op : Operand) :
    ((xs.foldl (fun o x => some ((o.map (mark csv x)).getD (mark csv x ⟨false, false⟩))) o).getD
      ⟨false, false⟩).get op =
    ((o.getD ⟨false, false⟩).get op ||
      xs.any fun x => decide (x.1 = op ∧ csv x.1 x.2.2 = .covered)) := by
  induction xs generalizing o with
  | nil => simp
  | cons x xs ih =>
    have hstep : (some ((o.map (mark csv x)).getD (mark csv x ⟨false, false⟩))).getD ⟨false, false⟩ =
        mark csv x (o.getD ⟨false, false⟩) := by
      cases o <;> rfl
    rw [List.foldl_cons, ih, hstep, mark_get, List.any_cons, Bool.or_assoc]

/-- All covers of the two operands, in the order they are read. -/
def events : List (Operand × String × Nat) :=
  [Operand.rs1, .rs2].flatMap fun op => (registers t).ufsmArr.zipIdx.map fun x => (op, x)

theorem mem_events {op : Operand} {itm : String} {idx : Nat} :
    (op, itm, idx) ∈ events t ↔ (itm, idx) ∈ (registers t).ufsmArr.zipIdx := by
  cases op <;> simp [events]

theorem keys_events : (events t).map (fun x => owner t x.2.1) =
    regOrder t.items ++ regOrder t.items := by
  have hpass (op : Operand) : ((registers t).ufsmArr.zipIdx.map fun x => (op, x)).map
      (fun x => owner t x.2.1) = regOrder t.items := by
    rw [List.map_map, ← map_owner, ← List.zipIdx_map_fst 0 (registers t).ufsmArr, List.map_map]
    simp
  rw [events, List.flatMap_cons, List.flatMap_cons, List.flatMap_nil, List.append_nil,
    List.map_append, hpass, hpass]

theorem recordStep_eq {x : Operand × String × Nat} (hx : x ∈ events t) (d : List (String × Bits)) :
    recordStep (registers t) v.csv d x =
      some (Dict.upsert (owner t x.2.1) (mark v.csv x) (mark v.csv x ⟨false, false⟩) d) := by
  obtain ⟨op, itm, idx⟩ := x
  have hitm : itm ∈ (registers t).ufsmArr := List.fst_mem_of_mem_zipIdx ((mem_events t).mp hx)
  unfold recordStep
  rw [dfQuery, if_neg (v.answered op idx), lookup_iidMapRev t hitm]
  rfl

theorem any_events (r : String) (op : Operand) :
    (((events t).filter (owner t ·.2.1 = r)).any fun x =>
      decide (x.1 = op ∧ v.csv x.1 x.2.2 = .covered)) = covered t v r op := by
  rw [Bool.eq_iff_iff, covered, ← map_owner, List.zipIdx_map]
  simp only [List.any_eq_true, List.mem_filter, decide_eq_true_eq, List.mem_map]
  constructor
  · intro ⟨⟨op', itm, idx⟩, ⟨hmem, howner⟩, hop, hcov⟩
    subst hop
    exact ⟨_, ⟨(itm, idx), (mem_events t).mp hmem, rfl⟩, howner, hcov⟩
  · intro ⟨_, ⟨⟨itm, idx⟩, hmem, rfl⟩, howner, hcov⟩
    exact ⟨(op, itm, idx), ⟨(mem_events t).mpr hmem, howner⟩, rfl, hcov⟩

/-- Each register is entered once, with its two verdicts. -/
theorem resItmMap_eq : resItmMap (registers t) v.csv =
    some ((regOrder t.items).map fun r => (r, said t v r)) := by
  have hrun : resItmMap (registers t) v.csv = some ((events t).foldl (fun d x =>
      Dict.upsert (owner t x.2.1) (mark v.csv x) (mark v.csv x ⟨false, false⟩) d) []) :=
    Loop.foldlM_eq_foldl (fun d x hx => recordStep_eq t v hx d) []
  rw [hrun]
  congr 1
  have hnd := nodup_regOrder t
  have hfirst : (regOrder t.items).foldl Loop.insertNew [] = regOrder t.items :=
    Loop.foldl_insertNew_of_nodup (l := []) hnd
  have hkeys := Dict.keys_foldl_upsert (fun x => owner t x.2.1) (mark v.csv)
    (fun x => mark v.csv x ⟨false, false⟩) (events t) []
  rw [keys_events, List.foldl_append, List.map_nil, hfirst,
    Loop.foldl_insertNew_of_subset (List.Subset.refl _)] at hkeys
  apply Dict.eq_map_of_lookup hkeys hnd
  intro r hr
  obtain ⟨b, hb⟩ := Dict.lookup_isSome_iff.mpr (hkeys ▸ hr)
  rw [hb]
  congr 1
  apply Bits.ext_get
  intro op
  have hget := get_foldl_mark v.csv ((events t).filter (owner t ·.2.1 = r)) none op
  have hclear : (Bits.mk false false).get op = false := by
    cases op <;> rfl
  rw [Dict.lookup_foldl_upsert, List.lookup_nil] at hb
  rw [hb, any_events, Option.getD_some, Option.getD_none, hclear, Bool.false_or] at hget
  rw [hget, said_get]

theorem mem_iidMap {r : String} {pls : List String}
    (h : (registers t).iidMap.lookup r = some pls) (c : String) :
    decide (c ∈ pls.map transform) = carries t c r := by
  have hb := built t
  have hnd : ((registers t).iidMap.map Prod.fst).Nodup := hb.keys ▸ nodup_regOrder t
  rw [Bool.eq_iff_iff]
  simp only [decide_eq_true_eq, List.mem_map, carries, List.any_eq_true]
  constructor
  · intro ⟨pl, hpl, hc⟩
    exact ⟨(pl, r), (hb.lists r pl).mp ⟨pls, (Dict.mem_iff_lookup hnd).mpr h, hpl⟩, rfl, hc⟩
  · intro ⟨e, he, hr, hc⟩
    obtain ⟨pls', hpls', hpl⟩ := (hb.lists e.2 e.1).mpr he
    rw [Dict.mem_iff_lookup hnd, hr, h] at hpls'
    exact ⟨e.1, Option.some.inj hpls' ▸ hpl, hc⟩

/-- A class is written once, with the verdicts of the first register that carries it. -/
theorem resRows_spec : ∃ rows,
    resRows (registers t) ((regOrder t.items).map fun r => (r, said t v r)) = some rows ∧
    (rows.map Prod.fst).Nodup ∧
    ∀ c, rows.lookup c = ((regOrder t.items).find? (carries t c)).map (said t v) := by
  have hb := built t
  let pls (r : String) : List String := ((registers t).iidMap.lookup r).getD []
  have hpls (r : String) (hr : r ∈ regOrder t.items) :
      (registers t).iidMap.lookup r = some (pls r) := by
    obtain ⟨ls, hls⟩ := Dict.lookup_isSome_iff.mpr (hb.keys ▸ hr)
    simp [pls, hls]
  have hblocks : ((regOrder t.items).map fun r => (r, said t v r)).mapM (fun kv => do
      let pls ← (registers t).iidMap.lookup kv.1
      pure (pls.map fun pl => (transform pl, kv.2))) =
      some (((regOrder t.items).map fun r => (r, said t v r)).map fun kv =>
        (pls kv.1).map fun pl => (transform pl, kv.2)) := by
    apply Loop.mapM_eq_map
    intro kv hkv
    obtain ⟨r, hr, rfl⟩ := List.mem_map.mp hkv
    simp [hpls r hr]
  refine ⟨_, by rw [resRows, hblocks]; rfl, ?_, ?_⟩
  · rw [Dict.keys_foldl_upsert]
    exact Loop.nodup_foldl_insertNew List.nodup_nil
  · intro c
    have hflat : (((regOrder t.items).map fun r => (r, said t v r)).map fun kv =>
        (pls kv.1).map fun pl => (transform pl, kv.2)).flatten =
        (regOrder t.items).flatMap fun r => ((pls r).map transform).map fun k => (k, said t v r) := by
      simp [List.flatMap_def, Function.comp_def]
    rw [Dict.lookup_foldl_first, hflat, Dict.lookup_flatMap_map]
    congr 1
    rw [← List.head?_filter, ← List.head?_filter]
    congr 1
    apply List.filter_congr
    intro r hr
    exact mem_iidMap t (hpls r hr) c

/-- A location of the class is carried by a register whose cover is covered. -/
def taintable (c : String) (op : Operand) : Bool :=
  (regOrder t.items).any fun r => carries t c r && covered t v r op

/-- The first register that carries a class is covered if any of them is. -/
def FirstSpeaks : Prop :=
  ∀ c op r, (regOrder t.items).find? (carries t c) = some r → taintable t v c op = true →
    covered t v r op = true

end Verdicts

section Soundness

variable {t : PerflocSignals} {v : Instn → Verdicts} {files : Files}

/-- A zero in a file is written only for a class none of whose registers is covered. -/
def WritesSound (t : PerflocSignals) (v : Instn → Verdicts) (files : Files) : Prop :=
  ∀ instn rows, (instn, rows) ∈ files → ∀ row ∈ rows, ∀ op, row.2.get op = false →
    taintable t (v instn) row.1 op = false

/-- An operand is skipped only if no class of the follower set can be tainted by it. -/
def SkipSound (t : PerflocSignals) (v : Instn → Verdicts) (files : Files) : Prop :=
  ∀ instns afset skip, skipUfsmBased files instns afset = some skip → ∀ op, skip.get op = true →
    ∀ c ∈ afset, ∀ instn ∈ instns, taintable t (v instn) c op = false

/-- The files of a run: one for each store. -/
structure Written (t : PerflocSignals) (v : Instn → Verdicts) (files : Files) : Prop where
  instns : files.map Prod.fst = todoInstns
  nodup : ∀ instn rows, (instn, rows) ∈ files → (rows.map Prod.fst).Nodup
  lookup : ∀ instn rows, (instn, rows) ∈ files → ∀ c, rows.lookup c =
    ((regOrder t.items).find? (carries t c)).map (said t (v instn))

theorem pruningUfsm_written (t : PerflocSignals) (v : Instn → Verdicts) :
    ∃ files, pruningUfsm t v = some files ∧ Written t v files := by
  choose rows hrows hnodup hlookup using fun instn => resRows_spec t (v instn)
  have hfield : ∀ instn ∈ todoInstns, fieldOf instn = some .rs1rs2 := by decide
  have hfile (instn : Instn) (hinstn : instn ∈ todoInstns) :
      instnFile t v instn = some (some (instn, rows instn)) := by
    simp [instnFile, hfield instn hinstn, resItmMap_eq, hrows]
  have hfiles : pruningUfsm t v = some (todoInstns.map fun instn => (instn, rows instn)) := by
    rw [pruningUfsm, Loop.mapM_eq_map hfile]
    rfl
  refine ⟨_, hfiles, rfl, ?_, ?_⟩
  · intro instn rows' hmem
    obtain ⟨_, _, heq⟩ := List.mem_map.mp hmem
    obtain ⟨rfl, rfl⟩ := Prod.mk.inj heq
    exact hnodup _
  · intro instn rows' hmem
    obtain ⟨_, _, heq⟩ := List.mem_map.mp hmem
    obtain ⟨rfl, rfl⟩ := Prod.mk.inj heq
    exact hlookup _

/-- The row of a class, by the register that speaks for it. -/
theorem Written.mem_iff (h : Written t v files) {instn : Instn} {rows : List (String × Bits)}
    (hmem : (instn, rows) ∈ files) {c : String} {b : Bits} :
    (c, b) ∈ rows ↔ ∃ r, (regOrder t.items).find? (carries t c) = some r ∧
      b = said t (v instn) r := by
  rw [Dict.mem_iff_lookup (h.nodup instn rows hmem), h.lookup instn rows hmem,
    Option.map_eq_some_iff]
  simp only [eq_comm]

theorem writesSound_iff (h : Written t v files) :
    WritesSound t v files ↔ ∀ instn ∈ todoInstns, FirstSpeaks t (v instn) := by
  constructor
  · intro hsound instn hinstn c op r hfirst htaint
    rw [← h.instns] at hinstn
    obtain ⟨⟨instn', rows⟩, hmem, rfl⟩ := List.mem_map.mp hinstn
    have hrow := (h.mem_iff hmem).mpr ⟨r, hfirst, rfl⟩
    by_contra hnot
    rw [Bool.not_eq_true, ← said_get] at hnot
    have hclear := hsound instn' rows hmem _ hrow op hnot
    rw [htaint] at hclear
    cases hclear
  · intro hfirst instn rows hmem row hrow op hzero
    have hinstn : instn ∈ todoInstns := h.instns ▸ List.mem_map_of_mem hmem
    obtain ⟨r, hr, hbits⟩ := (h.mem_iff hmem).mp hrow
    rw [hbits, said_get] at hzero
    by_contra hnot
    rw [Bool.not_eq_false] at hnot
    rw [hfirst instn hinstn row.1 op r hr hnot] at hzero
    cases hzero

/-- What the inner loop has looked at when it leaves an operand to be skipped. -/
theorem skipClass_spec {eachN : String} {instns : List Instn} {skip skip' : Bits} {op : Operand}
    (h : skipClass files eachN instns skip = some skip') (hop : skip'.get op = true) :
    skip.get op = true ∧ ∀ instn ∈ instns, ∃ rows b, files.lookup instn = some rows ∧
      rows.lookup eachN = some b ∧ b.get op = false := by
  induction instns generalizing skip with
  | nil =>
    obtain rfl := Option.some.inj h
    exact ⟨hop, by simp⟩
  | cons inst instns ih =>
    unfold skipClass at h
    split at h
    · obtain rfl := Option.some.inj h
      cases op <;> cases hop
    · rename_i rows hrows
      obtain ⟨b, hb, hrest⟩ := Option.bind_eq_some_iff.mp h
      obtain ⟨hskip, hall⟩ := ih hrest
      have hget : skip.get op = true ∧ b.get op = false := by
        cases op <;> simpa [Bits.get] using hskip
      refine ⟨hget.1, ?_⟩
      intro instn hinstn
      rcases List.mem_cons.mp hinstn with rfl | hinstn
      · exact ⟨rows, b, hrows, hb, hget.2⟩
      · exact hall instn hinstn

theorem skipUfsmBased_spec {instns : List Instn} {afset : List String} {skip skip' : Bits}
    {op : Operand} (h : afset.foldlM (fun skip eachN => skipClass files eachN instns skip) skip =
      some skip') (hop : skip'.get op = true) :
    skip.get op = true ∧ ∀ c ∈ afset, ∀ instn ∈ instns, ∃ rows b,
      files.lookup instn = some rows ∧ rows.lookup c = some b ∧ b.get op = false := by
  induction afset generalizing skip with
  | nil =>
    obtain rfl := Option.some.inj h
    exact ⟨hop, by simp⟩
  | cons c afset ih =>
    rw [List.foldlM_cons] at h
    obtain ⟨mid, hmid, hrest⟩ := Option.bind_eq_some_iff.mp h
    obtain ⟨hop', hall⟩ := ih hrest
    obtain ⟨hskip, hfirst⟩ := skipClass_spec hmid hop'
    refine ⟨hskip, ?_⟩
    intro c' hc'
    rcases List.mem_cons.mp hc' with rfl | hc'
    · exact hfirst
    · exact hall c' hc'

/-- Where each class asked about was recorded as `1,0`, only `rs2` is skipped. -/
theorem skipUfsmBased_of_rows {it : Instn} {rows : List (String × Bits)}
    (hrows : files.lookup it = some rows) {pls : List String} (hne : pls ≠ [])
    (hrow : ∀ pl ∈ pls, rows.lookup pl = some ⟨true, false⟩) :
    skipUfsmBased files [it] pls = some ⟨false, true⟩ := by
  have hclass (skip : Bits) (pl : String) (hpl : pl ∈ pls) :
      skipClass files pl [it] skip = some ⟨false, skip.rs2⟩ := by
    simp [skipClass, hrows, hrow pl hpl]
  obtain ⟨pl, rest, rfl⟩ := List.exists_cons_of_ne_nil hne
  rw [skipUfsmBased, Loop.foldlM_eq_foldl hclass, List.foldl_cons, List.foldl_fixed' fun _ => rfl]

theorem Written.nodup_instns (h : Written t v files) : (files.map Prod.fst).Nodup := by
  rw [h.instns]
  decide

theorem skipSound_iff (h : Written t v files) : SkipSound t v files ↔ WritesSound t v files := by
  constructor
  · intro hskip instn rows hmem row hrow op hzero
    -- skipping for this instruction and class alone
    have hfile := (Dict.mem_iff_lookup h.nodup_instns).mp hmem
    have hrow' := (Dict.mem_iff_lookup (h.nodup instn rows hmem)).mp hrow
    have hrun : skipUfsmBased files [instn] [row.1] = some ⟨!row.2.rs1, !row.2.rs2⟩ := by
      simp [skipUfsmBased, skipClass, hfile, hrow']
    have hop : (Bits.mk (!row.2.rs1) (!row.2.rs2)).get op = true := by
      cases op <;> simpa [Bits.get] using hzero
    exact hskip _ _ _ hrun op hop row.1 (by simp) instn (by simp)
  · intro hwrites instns afset skip hrun op hop c hc instn hinstn
    obtain ⟨rows, b, hfile, hrow, hzero⟩ := (skipUfsmBased_spec hrun hop).2 c hc instn hinstn
    have hmem := (Dict.mem_iff_lookup h.nodup_instns).mpr hfile
    have hrow' := (Dict.mem_iff_lookup (h.nodup instn rows hmem)).mpr hrow
    exact hwrites instn rows hmem (c, b) hrow' op hzero

/-- The pruning runs on every table, and both its zeros and the skips based on them are sound
exactly if, for each store, class and operand, the first register of the class speaks for all. -/
theorem pruning_sound_iff (t : PerflocSignals) (v : Instn → Verdicts) :
    ∃ files, pruningUfsm t v = some files ∧
      (WritesSound t v files ↔ ∀ instn ∈ todoInstns, FirstSpeaks t (v instn)) ∧
      (SkipSound t v files ↔ ∀ instn ∈ todoInstns, FirstSpeaks t (v instn)) := by
  obtain ⟨files, hrun, hwritten⟩ := pruningUfsm_written t v
  have hwrites := writesSound_iff hwritten
  exact ⟨files, hrun, hwrites, (skipSound_iff hwritten).trans hwrites⟩

/-- Two registers that carry one location each of the same class. -/
def twoQueues : PerflocSignals where
  items := [("lsq_enq_0_s1", "iid_0"), ("lsq_enq_1_s1", "iid_1")]
  nodup := by decide
  plain := by
    rw [List.forall_mem_cons, List.forall_mem_singleton]
    exact ⟨by decide +kernel, by decide +kernel⟩

/-- Only the second register is tainted, through `rs1`. -/
def secondTainted : Verdicts where
  csv op idx := if op = .rs1 ∧ idx = 1 then .covered else .unreachable
  answered := by
    intro op idx
    split_ifs <;> decide

/-- The class is written as not taintable, and skipped, although its second register is covered. -/
theorem hidden_register_skipped :
    ∃ files rows, pruningUfsm twoQueues (fun _ => secondTainted) = some files ∧
      (Instn.SW, rows) ∈ files ∧ ("iso_0", ⟨false, false⟩) ∈ rows ∧
      skipUfsmBased files [.SW] ["iso_0"] = some ⟨true, true⟩ ∧
      taintable twoQueues secondTainted "iso_0" .rs1 = true := by
  obtain ⟨files, hrun, hwritten⟩ := pruningUfsm_written twoQueues fun _ => secondTainted
  have hsw : Instn.SW ∈ files.map Prod.fst := by
    rw [hwritten.instns]
    decide
  obtain ⟨rows, hfile⟩ := Dict.lookup_isSome_iff.mpr hsw
  have hmem := (Dict.mem_iff_lookup hwritten.nodup_instns).mpr hfile
  have hrow : rows.lookup "iso_0" = some ⟨false, false⟩ := by
    rw [hwritten.lookup _ _ hmem]
    decide
  refine ⟨files, rows, hrun, hmem, ?_, ?_, by decide⟩
  · exact (Dict.mem_iff_lookup (hwritten.nodup _ _ hmem)).mpr hrow
  · simp [skipUfsmBased, skipClass, hfile, hrow]

end Soundness

end PruningUfsm

end SynthLC
