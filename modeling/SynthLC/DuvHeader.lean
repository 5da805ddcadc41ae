import SynthLC.DuvAnnotation
import SynthLC.Verdict

/-! `xDUVPLs/gen.py` from the annotations to `reachable_duvpls.sv`: the covers that ask which
locations a design reaches, and the locations of the header, picked by name from the verdicts. -/
namespace SynthLC.DuvHeader

open DuvPls DuvAnnotation Loop

/-- The wires of a block, for `perf_loc.sv`.  A block without a register has no FSM and no wire. -/
def checksOf (r : Reading) : List (Wire Text) := postproc (String.ofList (r.nm.getD [])) r.ufsms

/-- `perf_loc.sv`: the wires, each with its cover. -/
def genDuvPlChecks (widths : List (Text × Nat)) (inf : List Text) : Option (List (Wire Text)) :=
  (scan checksOf widths inf).map fun (r, out) => out ++ checksOf r

/-- `CHECK_%s: cover property (%s)`, as the tool names it in the module `top`. -/
def checkName (top : Text) (l : Wire Text) : Text :=
  top ++ '.' :: ("CHECK_".toList ++ l.name.toList)

/-- A row of `perf_loc.csv`. -/
structure Row where
  name : Text
  result : Result

/-- The rows with `CHECK` in their name that are covered, by what follows the first dot. -/
def reachableOf (df : List Row) : Option (List String) :=
  (df.filter fun row => "CHECK".toList <:+: row.name ∧ row.result = .covered).mapM fun row =>
    (row.name.splitOn '.')[1]?.map fun t => String.ofList (t.drop 6)

/-- `pl_def_map`, `pl_sig_map` and `pl_seq` of a block. -/
def defsOf (r : Reading) : List (Wire Text × List Text) :=
  postprocGen (String.ofList (r.nm.getD [])) (r.pcr.getD []) r.ufsms fun sig =>
    if IsCond sig then Dict.get r.ufsmsCond sig else none

/-- The locations in the order of the verdicts. -/
def byVerdict (reachable : List String) (r : Reading) : List (Wire Text × List Text) :=
  reachable.filterMap fun itm => (defsOf r).find? fun d => d.1.name = itm

/-- What is written at the end of a block: the issue stage keeps the order of its locations. -/
def written (reachable : List String) (r : Reading) : List (Wire Text × List Text) :=
  if "issue".toList <:+: r.nm.getD [] then
    (defsOf r).filter fun d => d.1.name ∈ reachable
  else byVerdict reachable r

/-- `reachable_duvpls.sv` and `perfloc_signals.txt`. -/
def genHeader (df : List Row) (widths : List (Text × Nat)) (inf : List Text) :
    Option (List (Wire Text × List Text)) := do
  let reachable ← reachableOf df
  let (r, out) ← scan (written reachable) widths inf
  some (out ++ byVerdict reachable r)

/-! ### The blocks written -/

section Blocks

variable {W : Text → Nat} {e : Entry}

/-- The wires of a block, as the header may have them. -/
def locs (W : Text → Nat) (e : Entry) : List (Wire Text × List Text) :=
  postprocGen (String.ofList e.nm) e.pcr (e.ufsms W) e.condOf

theorem postprocGen_congr {nm : String} {pcr : Text} {us : List (Ufsm Text)}
    {f g : Text → Option (List Text)} (h : ∀ u ∈ us, f u.sig = g u.sig) :
    postprocGen nm pcr us f = postprocGen nm pcr us g := by
  have hsigs : (us.flatMap fun u => (f u.sig).getD [u.sig]) =
      us.flatMap fun u => (g u.sig).getD [u.sig] :=
    List.flatMap_congr fun u hu => by rw [h u hu]
  unfold postprocGen
  rw [hsigs]

theorem get_condAfter {items : List Item} (hnd : (items.map Item.sig).Nodup) {i : Item}
    (hi : i ∈ items) (hcond : IsCond i.sig) (cond : List (Text × List Text)) :
    Dict.get (condAfter cond items) i.sig = some i.more := by
  have hafter : condAfter cond items = (items.filter fun i => IsCond i.sig).foldl
      (fun d i => Dict.upsert i.sig (fun _ => i.more) i.more d) cond := by
    rw [List.foldl_filter]
    simp only [decide_eq_true_eq]
    rfl
  have hmem : i ∈ items.filter fun i => IsCond i.sig :=
    List.mem_filter.mpr ⟨hi, decide_eq_true hcond⟩
  have hsame : ∀ j ∈ items.filter fun i => IsCond i.sig, j.sig = i.sig → j.more = i.more := by
    intro j hj hsig
    rw [List.inj_on_of_nodup_map hnd (List.mem_of_mem_filter hj) hi hsig]
  rw [hafter]
  exact Dict.lookup_foldl_set Item.sig Item.more hmem hsame cond

theorem condOf_item {i : Item} (hi : i ∈ e.items) :
    e.condOf i.sig = if IsCond i.sig then some i.more else none := by
  have hsame : ∀ j ∈ e.items, j.sig = i.sig → j = i := fun j hj hsig =>
    List.inj_on_of_nodup_map e.items_nodup hj hi hsig
  unfold Entry.condOf
  split_ifs with hcond
  · cases hfind : e.items.find? fun j => j.sig = i.sig ∧ IsCond j.sig with
    | none =>
      have hnot := List.find?_eq_none.mp hfind i hi
      exact absurd hcond (by simpa using hnot)
    | some j =>
      have hj : j.sig = i.sig ∧ IsCond j.sig := by simpa using List.find?_some hfind
      rw [hsame j (List.mem_of_find?_eq_some hfind) hj.1]
      rfl
  · rw [List.find?_eq_none.mpr, Option.map_none]
    intro j hj hp
    have hp : j.sig = i.sig ∧ IsCond j.sig := by simpa using hp
    exact hcond (hp.1 ▸ hp.2)

theorem defsOf_atEnd (cond : List (Text × List Text)) : defsOf (atEnd W e cond) = locs W e := by
  apply postprocGen_congr
  intro u hu
  have ⟨i, hi, hu⟩ := List.mem_map.mp hu
  rw [← hu]
  change (if IsCond i.sig then Dict.get (condAfter cond e.items) i.sig else none) = e.condOf i.sig
  rw [condOf_item hi]
  by_cases hcond : IsCond i.sig
  · rw [if_pos hcond, if_pos hcond, get_condAfter e.items_nodup hi hcond]
  · rw [if_neg hcond, if_neg hcond]

theorem checksOf_atEnd (cond : List (Text × List Text)) :
    checksOf (atEnd W e cond) = postproc (String.ofList e.nm) (e.ufsms W) := rfl

theorem checksOf_idle (cond : List (Text × List Text)) : checksOf (idle cond) = [] := rfl

theorem defsOf_idle (cond : List (Text × List Text)) : defsOf (idle cond) = [] := rfl

theorem nodup_names (r : Reading) : ((defsOf r).map fun d => d.1.name).Nodup := by
  have hnames : ((defsOf r).map fun d => d.1.name) =
      (List.range' 1 (totalCnt r.ufsms - 1)).map (plName (String.ofList (r.nm.getD []))) := by
    simp only [defsOf, postprocGen, List.map_map]
    rfl
  rw [hnames]
  exact List.Nodup.map_on (fun i _ j _ h => plName_inj h) List.nodup_range'

/-- A location is in the header if a verdict has its name. -/
theorem mem_byVerdict {reachable : List String} {r : Reading} {x : Wire Text × List Text} :
    x ∈ byVerdict reachable r ↔ x ∈ defsOf r ∧ x.1.name ∈ reachable := by
  rw [byVerdict, List.mem_filterMap]
  constructor
  · intro ⟨itm, hitm, hfind⟩
    have hname : x.1.name = itm := by simpa using List.find?_some hfind
    rw [hname]
    exact ⟨List.mem_of_find?_eq_some hfind, hitm⟩
  · intro ⟨hx, hreach⟩
    refine ⟨x.1.name, hreach, ?_⟩
    cases hfind : (defsOf r).find? fun d => d.1.name = x.1.name with
    | none =>
      have hnot := List.find?_eq_none.mp hfind x hx
      simp at hnot
    | some y =>
      have hname : y.1.name = x.1.name := by simpa using List.find?_some hfind
      rw [List.inj_on_of_nodup_map (nodup_names r) (List.mem_of_find?_eq_some hfind) hx hname]

theorem mem_written {reachable : List String} {r : Reading} {x : Wire Text × List Text} :
    x ∈ written reachable r ↔ x ∈ defsOf r ∧ x.1.name ∈ reachable := by
  unfold written
  split_ifs
  · rw [List.mem_filter, decide_eq_true_eq]
  · exact mem_byVerdict

variable {es : List Entry} {rows : List Text} {m : List (Text × Nat)}

theorem genDuvPlChecks_lays (h : Lays es rows) (hm : ∀ e ∈ es, Knows W m e) :
    genDuvPlChecks m (linesOf rows) =
      some (es.flatMap fun e => postproc (String.ofList e.nm) (e.ufsms W)) := by
  have ⟨r, out, hrun, hout⟩ := scan_lays h hm (fun e _ => checksOf_atEnd) checksOf_idle
  rw [genDuvPlChecks, hrun]
  exact congrArg some hout

theorem genHeader_lays (h : Lays es rows) (hm : ∀ e ∈ es, Knows W m e) {df : List Row}
    {reachable : List String} (hreach : reachableOf df = some reachable) :
    ∃ out, genHeader df m (linesOf rows) = some out ∧
      ∀ x, x ∈ out ↔ ∃ e ∈ es, x ∈ locs W e ∧ x.1.name ∈ reachable := by
  have hemit (e : Entry) (cond : List (Text × List Text)) :
      written reachable (atEnd W e cond) = written reachable (atEnd W e []) := by
    simp only [written, byVerdict, defsOf_atEnd]
    rfl
  have hidle (cond : List (Text × List Text)) : written reachable (idle cond) = [] := by
    rw [List.eq_nil_iff_forall_not_mem]
    intro x hx
    rw [mem_written, defsOf_idle] at hx
    exact List.not_mem_nil hx.1
  have ⟨r, out, hrun, hout⟩ := scan_lays h hm (fun e _ => hemit e) hidle
  refine ⟨out ++ byVerdict reachable r, ?_, ?_⟩
  · simp only [genHeader, hreach, hrun, Option.bind_eq_bind, Option.bind_some]
  · intro x
    -- the block the file ends in is written in the order of the verdicts, whatever its name
    rw [List.mem_append, mem_byVerdict, ← mem_written, ← List.mem_append, hout, List.mem_flatMap]
    simp only [mem_written, defsOf_atEnd]

end Blocks

/-! ### Verdicts -/

theorem toList_plName (nm : String) (idx : Nat) :
    (plName nm idx).toList = nm.toList ++ '_' :: 's' :: Nat.toDigits 10 idx := by
  simp [plName, Nat.repr_eq_ofList_toDigits]

theorem plName_inj₂ {nm nm' : String} {i j : Nat} (h : plName nm i = plName nm' j) :
    nm = nm' ∧ i = j := by
  have hlist := congrArg String.toList h
  rw [toList_plName, toList_plName] at hlist
  have hfree (n : Nat) : '_' ∉ 's' :: Nat.toDigits 10 n := by
    rw [List.mem_cons, not_or]
    exact ⟨by decide, TextFile.not_mem_toDigits (by decide) n⟩
  have hlast := congrArg (TextFile.afterLast '_') hlist
  rw [TextFile.afterLast_append_cons _ (hfree i), TextFile.afterLast_append_cons _ (hfree j)]
    at hlast
  rw [hlast] at hlist
  have hi := congrArg (pyInt ·.tail) hlast
  simp only [List.tail_cons, pyInt_toDigits, Option.some.injEq] at hi
  exact ⟨String.toList_injective (List.append_cancel_right hlist), hi⟩

/-- The design, as the states of its signals and conditions that it reaches. -/
abbrev Design := Set (Text → Int)

def Reaches (D : Design) (l : Wire Text) : Prop := ∃ st ∈ D, ∃ pc0, l.Holds st pc0

/-- `perf_loc.csv` after the tool has decided the covers of `perf_loc.sv`. -/
structure Reports (D : Design) (top : Text) (chk : List (Wire Text)) (df : List Row) : Prop where
  listed : ∀ row ∈ df, "CHECK".toList <:+: row.name → ∃ l ∈ chk, row.name = checkName top l
  decided : ∀ l ∈ chk,
    (∃ row ∈ df, row.name = checkName top l ∧ row.result = .covered) ↔ Reaches D l

section Verdicts

variable {top : Text} {l : Wire Text}

theorem check_in_checkName (top : Text) (l : Wire Text) :
    "CHECK".toList <:+: checkName top l :=
  ⟨top ++ ['.'], '_' :: l.name.toList, by simp [checkName]⟩

/-- The name of a location comes back from the name of its cover. -/
theorem name_of_checkName (htop : '.' ∉ top) (hl : '.' ∉ l.name.toList) :
    ((checkName top l).splitOn '.')[1]?.map (fun t => String.ofList (t.drop 6)) = some l.name := by
  have hfree : ∀ t ∈ [top, "CHECK_".toList ++ l.name.toList], '.' ∉ t := by
    intro t ht
    rcases List.mem_cons.mp ht with rfl | ht
    · exact htop
    · rw [List.mem_singleton.mp ht, List.mem_append, not_or]
      exact ⟨by decide, hl⟩
  have hrow : checkName top l = ['.'].intercalate [top, "CHECK_".toList ++ l.name.toList] := by
    simp [checkName]
  rw [hrow, List.splitOn_intercalate '.' hfree (by simp)]
  exact congrArg some String.ofList_toList

variable {D : Design} {chk : List (Wire Text)} {df : List Row}

/-- The names taken from the verdicts are those of the locations the design reaches. -/
theorem reachableOf_reports (h : Reports D top chk df) (htop : '.' ∉ top)
    (hchk : ∀ l ∈ chk, '.' ∉ l.name.toList) : ∃ reachable, reachableOf df = some reachable ∧
      ∀ n, n ∈ reachable ↔ ∃ l ∈ chk, l.name = n ∧ Reaches D l := by
  have hread : ∀ l ∈ chk, ((checkName top l).splitOn '.')[1]?.map
      (fun t => String.ofList (t.drop 6)) = some l.name :=
    fun l hl => name_of_checkName htop (hchk l hl)
  have hrows : ∀ row ∈ df.filter fun row => "CHECK".toList <:+: row.name ∧ row.result = .covered,
      ∃ l ∈ chk, row.name = checkName top l ∧ row ∈ df ∧ row.result = .covered := by
    intro row hrow
    have ⟨hmem, hp⟩ := List.mem_filter.mp hrow
    have ⟨hin, hcov⟩ := of_decide_eq_true hp
    have ⟨l, hl, hname⟩ := h.listed row hmem hin
    exact ⟨l, hl, hname, hmem, hcov⟩
  have hsome : ∃ reachable, reachableOf df = some reachable := by
    apply exists_mapM.mpr
    intro row hrow
    have ⟨l, hl, hname, _, _⟩ := hrows row hrow
    exact ⟨l.name, by rw [hname, hread l hl]⟩
  have ⟨reachable, hreach⟩ := hsome
  refine ⟨reachable, hreach, ?_⟩
  intro n
  rw [mem_mapM hreach]
  constructor
  · intro ⟨row, hrow, hn⟩
    have ⟨l, hl, hname, hmem, hcov⟩ := hrows row hrow
    rw [hname, hread l hl] at hn
    exact ⟨l, hl, Option.some.inj hn, (h.decided l hl).mp ⟨row, hmem, hname, hcov⟩⟩
  · intro ⟨l, hl, hn, hreached⟩
    have ⟨row, hmem, hname, hcov⟩ := (h.decided l hl).mpr hreached
    have hin : "CHECK".toList <:+: row.name := hname ▸ check_in_checkName top l
    refine ⟨row, List.mem_filter.mpr ⟨hmem, decide_eq_true ⟨hin, hcov⟩⟩, ?_⟩
    rw [hname, hread l hl, hn]

end Verdicts

/-! ### The locations of the header -/

section States

variable {us : List (Ufsm Text)} {st : Text → Int} {vs : List Int}

/-- The signal has the value that its clause asks for. -/
def Answers (st : Text → Int) (u : Ufsm Text) (v : Int) : Prop := st u.sig = v % 2 ^ u.w

/-- The fixed FSMs are at their constants. -/
def AtFixed (us : List (Ufsm Text)) (st : Text → Int) : Prop :=
  ∀ u ∈ us, ∀ f ∈ u.f, Answers st u f

/-- A free FSM has left its reset state. -/
def Busy (us : List (Ufsm Text)) (st : Text → Int) : Prop := ∃ u ∈ us, u.f = none ∧ st u.sig ≠ 0

/-- The free FSMs have values of their widths. -/
def InWidth (us : List (Ufsm Text)) (st : Text → Int) : Prop :=
  ∀ u ∈ us, u.f = none → 0 ≤ st u.sig ∧ st u.sig < 2 ^ u.w

theorem eqs_iff (h : us.length = vs.length) :
    (∀ e ∈ List.zipWith (fun u v => (u.sig, u.w, v)) us vs, st e.1 = e.2.2 % 2 ^ e.2.1) ↔
      List.Forall₂ (Answers st) us vs := by
  induction us generalizing vs with
  | nil =>
    obtain rfl := List.length_eq_zero_iff.mp h.symm
    simp
  | cons u us ih =>
    cases vs with
    | nil => cases h
    | cons v vs =>
      rw [List.zipWith_cons_cons, List.forall_mem_cons, List.forall₂_cons,
        ih (Nat.succ.inj h)]
      rfl

theorem answers_fits {u : Ufsm Text} {v : Int} (hfit : Fits u v) (h : Answers st u v) :
    (AtReset u v ↔ (u.f = none → st u.sig = 0)) ∧ ∀ f ∈ u.f, Answers st u f := by
  unfold AtReset
  cases hf : u.f with
  | none =>
    simp only [Fits, hf] at hfit
    have hval : st u.sig = v := h.trans (Int.emod_eq_of_lt hfit.1 hfit.2)
    simp [hval]
  | some f =>
    simp only [Fits, hf] at hfit
    rw [hfit] at h
    simpa using h

theorem answers_all (hfit : List.Forall₂ Fits us vs) (h : List.Forall₂ (Answers st) us vs) :
    (List.Forall₂ AtReset us vs ↔ ¬Busy us st) ∧ AtFixed us st := by
  unfold Busy AtFixed
  induction hfit with
  | nil => simp
  | cons hfit _ ih =>
    obtain ⟨hhead, htail⟩ := List.forall₂_cons.mp h
    obtain ⟨hreset, hfixed⟩ := answers_fits hfit hhead
    obtain ⟨hresets, hfixeds⟩ := ih htail
    refine ⟨?_, List.forall_mem_cons.mpr ⟨hfixed, hfixeds⟩⟩
    rw [List.forall₂_cons, hreset, hresets, List.exists_mem_cons_iff, not_or]
    simp

/-- The valuation that a state asks for. -/
def valuesOf (us : List (Ufsm Text)) (st : Text → Int) : List Int :=
  us.map fun u => u.f.getD (st u.sig)

theorem fits_valuesOf (h : InWidth us st) : List.Forall₂ Fits us (valuesOf us st) := by
  unfold valuesOf
  rw [List.forall₂_map_right_iff, List.forall₂_same]
  intro u hu
  have hw := h u hu
  unfold Fits
  cases hf : u.f with
  | none => exact hw hf
  | some f => rfl

theorem answers_valuesOf (h : InWidth us st) (hfixed : AtFixed us st) :
    List.Forall₂ (Answers st) us (valuesOf us st) := by
  unfold valuesOf
  rw [List.forall₂_map_right_iff, List.forall₂_same]
  intro u hu
  cases hf : u.f with
  | none =>
    have ⟨hnonneg, hlt⟩ := h u hu hf
    exact (Int.emod_eq_of_lt hnonneg hlt).symm
  | some f => exact hfixed u hu f hf

variable {nm : String} {pcr : Text} {cond : Text → Option (List Text)} {pc0 : Int}

theorem holds_iff (idx : Nat) :
    (⟨plName nm idx, some pcr, eqsOf us idx⟩ : Wire Text).Holds st pc0 ↔
      st pcr = pc0 ∧ List.Forall₂ (Answers st) us (printed us idx) := by
  unfold Wire.Holds
  rw [eqsOf_eq, eqs_iff (fits_printed us idx).length_eq]
  simp

/-- Some location of a block is occupied in just those states where a free FSM has left reset and
the fixed ones are at their constants. -/
theorem exists_holds_iff (h : InWidth us st) :
    (∃ l ∈ wires nm pcr us cond, l.Holds st pc0) ↔
      st pcr = pc0 ∧ AtFixed us st ∧ Busy us st := by
  rw [wires_eq]
  constructor
  · intro ⟨l, hl, hold⟩
    have ⟨idx, hidx, hl⟩ := List.mem_map.mp hl
    have hrange := mem_indices.mp hidx
    rw [← hl, holds_iff] at hold
    obtain ⟨hreset, hfixed⟩ := answers_all (fits_printed us idx) hold.2
    rw [atReset_printed hrange.2] at hreset
    exact ⟨hold.1, hfixed, not_not.mp (mt hreset.mpr hrange.1)⟩
  · intro ⟨hpc, hfixed, hbusy⟩
    have hfit := fits_valuesOf h
    have hans := answers_valuesOf h hfixed
    have ⟨idx, hlt, hidx⟩ := printed_of_fits hfit
    have hreset := (answers_all hfit hans).1
    rw [← hidx, atReset_printed hlt] at hreset
    have hne : idx ≠ 0 := fun h0 => hreset.mp h0 hbusy
    refine ⟨_, List.mem_map_of_mem (mem_indices.mpr ⟨hne, hlt⟩), ?_⟩
    rw [holds_iff, hidx]
    exact ⟨hpc, hans⟩

end States

section Header

variable {W : Text → Nat} {es : List Entry} {rows : List Text} {top : Text} {D : Design}

/-- The locations of a block. -/
def wiresOf (W : Text → Nat) (e : Entry) : List (Wire Text) :=
  wires (String.ofList e.nm) e.pcr (e.ufsms W) e.condOf

/-- The wires of `perf_loc.sv`. -/
def checksFor (W : Text → Nat) (es : List Entry) : List (Wire Text) :=
  es.flatMap fun e => postproc (String.ofList e.nm) (e.ufsms W)

/-- What a block's name does not have and `_s` and a number do not add. -/
theorem not_mem_plName {c : Char} {nm : Text} (hnm : c ∉ nm) (hc : c ∉ ['_', 's'])
    (hdigit : c.isDigit = false) (idx : Nat) : c ∉ (plName (String.ofList nm) idx).toList := by
  obtain ⟨hline, hs⟩ : c ≠ '_' ∧ c ≠ 's' := by simpa using hc
  rw [toList_plName, String.toList_ofList]
  simp only [List.mem_append, List.mem_cons, not_or]
  exact ⟨hnm, hline, hs, TextFile.not_mem_toDigits hdigit idx⟩

theorem name_dot_free (hdots : ∀ e ∈ es, '.' ∉ e.nm) :
    ∀ l ∈ checksFor W es, '.' ∉ l.name.toList := by
  intro l hl
  have ⟨e, he, hl⟩ := List.mem_flatMap.mp hl
  have ⟨idx, _, hl⟩ := List.mem_map.mp hl
  rw [← hl]
  exact not_mem_plName (hdots e he) (by decide) (by decide) idx

/-- No two covers have one name, in one block or in two. -/
theorem nodup_checks (hnames : (es.map Entry.nm).Nodup) :
    ((checksFor W es).map Wire.name).Nodup := by
  have hmap : (checksFor W es).map Wire.name = es.flatMap fun e =>
      (List.range' 1 (totalCnt (e.ufsms W) - 1)).map (plName (String.ofList e.nm)) := by
    simp only [checksFor, postproc, List.map_flatMap, List.map_map]
    rfl
  rw [hmap, List.nodup_flatMap]
  constructor
  · intro e _
    exact List.Nodup.map_on (fun i _ j _ h => plName_inj h) List.nodup_range'
  · apply (List.pairwise_map.mp hnames).imp
    intro e e' hne n hn hn'
    obtain ⟨i, _, hi⟩ := List.mem_map.mp hn
    obtain ⟨j, _, hj⟩ := List.mem_map.mp hn'
    exact hne (String.ofList_injective (plName_inj₂ (hi.trans hj.symm)).1)

/-- The cover of a location's name is a cover of the location. -/
theorem reaches_name (hnames : (es.map Entry.nm).Nodup) {e : Entry} (he : e ∈ es) {l : Wire Text}
    (hl : l ∈ wiresOf W e) :
    (∃ c ∈ checksFor W es, c.name = l.name ∧ Reaches D c) ↔
      ∃ st ∈ D, l.Holds st (st e.pcr) := by
  rw [wiresOf, wires_eq] at hl
  have ⟨idx, hidx, hl⟩ := List.mem_map.mp hl
  constructor
  · intro ⟨c, hc, hname, st, hst, _, hold⟩
    have ⟨e', he', hc⟩ := List.mem_flatMap.mp hc
    have ⟨idx', _, hc⟩ := List.mem_map.mp hc
    rw [← hc, ← hl] at hname
    obtain ⟨hnm, rfl⟩ := plName_inj₂ hname
    obtain rfl := List.inj_on_of_nodup_map hnames he' he (String.ofList_injective hnm)
    rw [← hc] at hold
    rw [← hl]
    exact ⟨st, hst, by simp, hold.2⟩
  · intro ⟨st, hst, hold⟩
    rw [← hl] at hold ⊢
    exact ⟨_, List.mem_flatMap.mpr ⟨e, he, List.mem_map_of_mem hidx⟩, rfl, st, hst, 0, by simp,
      hold.2⟩

theorem genHeader_reports (h : Lays es rows) (hnames : (es.map Entry.nm).Nodup)
    (hdots : ∀ e ∈ es, '.' ∉ e.nm) (htop : '.' ∉ top) {m : List (Text × Nat)}
    (hm : ∀ e ∈ es, Knows W m e) {df : List Row} (hdf : Reports D top (checksFor W es) df) :
    ∃ out, genHeader df m (linesOf rows) = some out ∧
      ∀ l, l ∈ out.map Prod.fst ↔ ∃ e ∈ es, l ∈ wiresOf W e ∧ ∃ st ∈ D, l.Holds st (st e.pcr) := by
  have ⟨reachable, hreach, hmem⟩ := reachableOf_reports hdf htop (name_dot_free hdots)
  have ⟨out, hout, hx⟩ := genHeader_lays h hm hreach
  refine ⟨out, hout, ?_⟩
  intro l
  rw [List.mem_map]
  constructor
  · intro ⟨x, hxout, hxl⟩
    have ⟨e, he, hloc, hname⟩ := (hx x).mp hxout
    have hl : l ∈ wiresOf W e := hxl ▸ List.mem_map_of_mem hloc
    rw [hmem, hxl, reaches_name hnames he hl] at hname
    exact ⟨e, he, hl, hname⟩
  · intro ⟨e, he, hl, hreached⟩
    have ⟨x, hloc, hxl⟩ := List.mem_map.mp hl
    rw [← reaches_name hnames he hl, ← hmem] at hreached
    exact ⟨x, (hx x).mpr ⟨e, he, hloc, hxl ▸ hreached⟩, hxl⟩

open Classical in
/-- A tool that decides every cover reports on the design. -/
theorem exists_reports (D : Design) (top : Text) {chk : List (Wire Text)}
    (hnd : (chk.map Wire.name).Nodup) : ∃ df, Reports D top chk df := by
  refine ⟨chk.map fun l => ⟨checkName top l, if Reaches D l then .covered else .unreachable⟩,
    ?_, ?_⟩
  · intro row hrow _
    have ⟨l, hl, hrow⟩ := List.mem_map.mp hrow
    exact ⟨l, hl, by rw [← hrow]⟩
  · intro l hl
    constructor
    · intro ⟨row, hrow, hname, hcov⟩
      have ⟨l', hl', hrow⟩ := List.mem_map.mp hrow
      rw [← hrow] at hname hcov
      have hsame : l'.name = l.name := String.toList_injective (by simpa [checkName] using hname)
      rw [List.inj_on_of_nodup_map hnd hl' hl hsame] at hcov
      by_contra hno
      rw [if_neg hno] at hcov
      cases hcov
    · intro hreached
      exact ⟨_, List.mem_map_of_mem hl, rfl, if_pos hreached⟩

/-- From the annotations, through the widths and the covers, to the header: what is in it is
occupied in some state, and in every state that a design reaches, each block of the annotations has
exactly one location of the header that holds if the block's register has the program counter, its
fixed FSMs are at their constants and a free one is not at reset, and none otherwise. -/
theorem header_names_each_state (h : Lays es rows) (hnames : (es.map Entry.nm).Nodup)
    (hdots : ∀ e ∈ es, '.' ∉ e.nm) (htop : '.' ∉ top) (W : Text → Nat) (D : Design) :
    ∃ text m chk, widthFile W (getWidth (linesOf rows)) = some text ∧
      sigWidthMap (TextFile.lines '\n' text) = some m ∧
      genDuvPlChecks m (linesOf rows) = some chk ∧ (chk.map Wire.name).Nodup ∧
      ∀ df, Reports D top chk df → ∃ out, genHeader df m (linesOf rows) = some out ∧
        (∀ l ∈ out.map Prod.fst, ∃ e ∈ es, l ∈ wiresOf W e ∧ ∃ st ∈ D, l.Holds st (st e.pcr)) ∧
        ∀ e ∈ es, ∀ st ∈ D, InWidth (e.ufsms W) st → ∀ pc0,
          (st e.pcr = pc0 ∧ AtFixed (e.ufsms W) st ∧ Busy (e.ufsms W) st →
            ∃! l, l ∈ out.map Prod.fst ∧ l ∈ wiresOf W e ∧ l.Holds st pc0) ∧
          (¬(st e.pcr = pc0 ∧ AtFixed (e.ufsms W) st ∧ Busy (e.ufsms W) st) →
            ¬∃ l, l ∈ out.map Prod.fst ∧ l ∈ wiresOf W e ∧ l.Holds st pc0) := by
  have ⟨text, m, htext, hwidths, hm⟩ := widths_known (W := W) h
  refine ⟨text, m, checksFor W es, htext, hwidths, genDuvPlChecks_lays h hm, nodup_checks hnames,
    ?_⟩
  intro df hdf
  have ⟨out, hout, hmem⟩ := genHeader_reports h hnames hdots htop hm hdf
  refine ⟨out, hout, fun l hl => (hmem l).mp hl, ?_⟩
  intro e he st hst hwidth pc0
  constructor
  · intro hhere
    have ⟨l, hl, hold⟩ : ∃ l ∈ wiresOf W e, l.Holds st pc0 := (exists_holds_iff hwidth).mpr hhere
    have hin : l ∈ out.map Prod.fst := (hmem l).mpr ⟨e, he, hl, st, hst, hhere.1 ▸ hold⟩
    refine ⟨l, ⟨hin, hl, hold⟩, ?_⟩
    intro l' ⟨_, hl', hold'⟩
    exact eq_of_holds hl' hl hold' hold
  · intro helsewhere ⟨l, _, hl, hold⟩
    exact helsewhere ((exists_holds_iff hwidth).mp ⟨l, hl, hold⟩)

/-- Two blocks of `annotation_pcr_ufsms.txt`, without the paths of the signals. -/
def lsqEnq0 : Entry where
  nm := "lsq_enq_0".toList
  pcr := "mem_q[0].pc".toList
  items := [.signal "mem_q[0].valid".toList none]
  nm_plain := by decide
  pcr_plain := by decide
  items_wf := by decide
  items_nodup := by decide

def loadUnitOp : Entry where
  nm := "load_unit_op".toList
  pcr := "lsu_ctrl_i.pc".toList
  items := [.signal "valid_i".toList (some 1), .signal "state_q".toList none]
  nm_plain := by decide
  pcr_plain := by decide
  items_wf := by decide
  items_nodup := by decide

def twoBlocks : List Text :=
  ["# (name, iir, tracking_logics_sig1)".toList, []] ++ (lsqEnq0.rows ++ [] :: loadUnitOp.rows)

theorem lays_twoBlocks : Lays [lsqEnq0, loadUnitOp] twoBlocks := by
  have hempty : Separates [] := ⟨.inr rfl, by simp⟩
  have hlast : Lays [loadUnitOp] loadUnitOp.rows := .entry loadUnitOp .nil (by simp)
  have hboth : Lays [lsqEnq0, loadUnitOp] (lsqEnq0.rows ++ [] :: loadUnitOp.rows) :=
    .entry lsqEnq0 (.sep [] hempty hlast) (by simpa using hempty)
  exact .sep _ ⟨.inl rfl, by decide⟩ (.sep [] hempty hboth)

def twoWidths (sig : Text) : Nat := if sig = "state_q".toList then 2 else 1

/-- A load is in the second state of its unit, and the queue is empty. -/
def loading (sig : Text) : Int :=
  if sig = "valid_i".toList ∨ sig = "state_q".toList then 1 else 0

theorem loading_op : InWidth (loadUnitOp.ufsms twoWidths) loading ∧
    AtFixed (loadUnitOp.ufsms twoWidths) loading ∧ Busy (loadUnitOp.ufsms twoWidths) loading := by
  unfold InWidth AtFixed Busy Answers
  decide

theorem loading_lsq : InWidth (lsqEnq0.ufsms twoWidths) loading ∧
    ¬Busy (lsqEnq0.ufsms twoWidths) loading := by
  unfold InWidth Busy
  decide

theorem loading_named : ∃ text m chk df out,
    widthFile twoWidths (getWidth (linesOf twoBlocks)) = some text ∧
      sigWidthMap (TextFile.lines '\n' text) = some m ∧
      genDuvPlChecks m (linesOf twoBlocks) = some chk ∧ Reports {loading} "ariane".toList chk df ∧
      genHeader df m (linesOf twoBlocks) = some out ∧
      (∃! l, l ∈ out.map Prod.fst ∧ l ∈ wiresOf twoWidths loadUnitOp ∧ l.Holds loading 0) ∧
      ¬∃ l, l ∈ out.map Prod.fst ∧ l ∈ wiresOf twoWidths lsqEnq0 ∧ l.Holds loading 0 := by
  have ⟨text, m, chk, htext, hm, hchk, hnd, hall⟩ := header_names_each_state lays_twoBlocks
    (by decide) (by decide) (by decide : '.' ∉ "ariane".toList) twoWidths {loading}
  have ⟨df, hdf⟩ := exists_reports {loading} "ariane".toList hnd
  have ⟨out, hout, _, hstate⟩ := hall df hdf
  have hload := hstate loadUnitOp (by simp) loading rfl loading_op.1 0
  have hlsq := hstate lsqEnq0 (by simp) loading rfl loading_lsq.1 0
  refine ⟨text, m, chk, df, out, htext, hm, hchk, hdf, hout, ?_, ?_⟩
  · exact hload.1 ⟨by decide, loading_op.2⟩
  · exact hlsq.2 fun hhere => loading_lsq.2 hhere.2.2

end Header

end SynthLC.DuvHeader
