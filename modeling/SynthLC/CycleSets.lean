import SynthLC.CycleCount
import SynthLC.TextFile
import Mathlib.Data.List.Infix

/-! Stay lengths for each reachable set: `gen_s2` and `pp` of `xPerfLocCycleCount`, and the list of
all lengths by `xEnumCycleCnt`. -/
namespace SynthLC.CycleCount

open Sva Loop

section PerSet

variable {PL : Type} [DecidableEq PL]

/-- `assume_path` -/
def assumePath (s : BExp (Sig PL)) : Property (Sig PL) :=
  .imp (.bool (.sig .first)) (.eventually (.seq (.bool s)))

/-- `CS_prop_gt` with `cnt=2`: `{itm} [*2] ##1 !{itm} ##[0:$] {s}` -/
def csPropGt (itm : PL) (s : BExp (Sig PL)) : Seq (Sig PL) :=
  .catFrom (.cat (.cat (.bool (loc itm)) 1 (.bool (loc itm))) 1 (.bool (.not (loc itm)))) 0 (.bool s)

/-- `over1cyc_{set_idx}_{itm}.sv` -/
structure Over1cyc (PL : Type) where
  setIdx : Nat
  itm : PL
  assumes : List (Property (Sig PL))
  cover : Seq (Sig PL)

def Over1cyc.key (o : Over1cyc PL) : Nat × PL := (o.setIdx, o.itm)

variable (cvPerflocs : List PL) (reachableSets : List (List PL))

/-- Numbers of the reachable sets with a location. -/
def setsWith (itm : PL) : List (List PL × Nat) :=
  reachableSets.zipIdx.filter fun aSet => itm ∈ aSet.1

/-- The file for one set and one of its locations. -/
def over1cyc (itm : PL) (aSet : List PL × Nat) : Over1cyc PL :=
  let s : BExp (Sig PL) := .all ((cvPerflocs.filter fun pl => pl ∈ aSet.1).map hpnReg)
  { setIdx := aSet.2
    itm := itm
    assumes := (cvPerflocs.filter fun pl => pl ∉ aSet.1).map noS1T ++ [assumePath s]
    cover := csPropGt itm s }

/-- The files of one location: none unless it may stay over one cycle. -/
def over1cycFiles (itm : PL) : Option Int → List (Over1cyc PL)
  | none => []
  | some cyc =>
    if cyc ≤ 1 then [] else (setsWith reachableSets itm).map (over1cyc cvPerflocs itm)

/-- What `gen_s2` leaves: files of `out2`, and its two tables if it came to its end. -/
structure S2Files (PL : Type) where
  out2 : List (Over1cyc PL)
  tables : Option (List (PL × Int) × List (PL × Int))

/-- The loop of `gen_s2` over the locations; a `None` of `proc` cannot be unpacked. -/
def genS2Loop (proc : PL → Counts) : List PL → S2Files PL
  | [] => ⟨[], some ([], [])⟩
  | itm :: rest =>
    match proc itm with
    | none => ⟨[], none⟩
    | some (cyc, maxCycCovered) =>
      let later := genS2Loop proc rest
      { out2 := over1cycFiles cvPerflocs reachableSets itm cyc ++ later.out2
        tables := later.tables.map fun t =>
          (cyc.toList.map (fun c => (itm, c)) ++ t.1, (itm, maxCycCovered) :: t.2) }

def genS2 (proc : PL → Counts) : S2Files PL := genS2Loop cvPerflocs reachableSets proc cvPerflocs

/-- How `pp` went: the files it asked for, and `cycle_count_gt1_perset.txt` if it was written. -/
structure PpRun (PL : Type) where
  asked : List (Nat × PL)
  result : Option (List (Nat × PL × Bool))

variable (csv : Nat × PL → Option Result)

/-- Read some files in turn. `check_file` ends the script where one is missing, and `df_query`
where its row is. -/
def readAll : List (Nat × PL) → PpRun PL
  | [] => ⟨[], some []⟩
  | x :: xs =>
    match (csv x).bind dfQuery with
    | none => ⟨[x], none⟩
    | some res =>
      let later := readAll xs
      { asked := x :: later.asked
        result := later.result.map fun rs => (x.1, x.2, decide (res ≠ .unreachable)) :: rs }

/-- The files of one location, unless its count is one. -/
def askedFor (itm : PL) (cyc : Int) : List (Nat × PL) :=
  if cyc = 1 then [] else (setsWith reachableSets itm).map fun aSet => (aSet.2, itm)

/-- The loop of `pp` over the locations; a location without a count is no key of `pl_cyc`. -/
def ppLoop (plCyc : List (PL × Int)) : List PL → PpRun PL
  | [] => ⟨[], some []⟩
  | itm :: rest =>
    match plCyc.lookup itm with
    | none => ⟨[], none⟩
    | some cyc =>
      let here := readAll csv (askedFor reachableSets itm cyc)
      match here.result with
      | none => here
      | some rs =>
        let later := ppLoop plCyc rest
        { asked := here.asked ++ later.asked
          result := later.result.map (rs ++ ·) }

/-- `pp` on the table of `gen_s2`; without that table `get_array` ends the script. -/
def pp (files : S2Files PL) : PpRun PL :=
  match files.tables with
  | none => ⟨[], none⟩
  | some t =>
    ppLoop reachableSets csv
      (t.1.foldl (fun d itm => Dict.upsert itm.1 (fun _ => itm.2) itm.2 d) []) cvPerflocs

/-- The model checker was run on the files of `out2`: these have a row, others have no file. -/
def RanOn (files : S2Files PL) : Prop :=
  ∀ x, if x ∈ files.out2.map Over1cyc.key then ∃ r, csv x = some r ∧ r ≠ .err else csv x = none

variable {cvPerflocs reachableSets csv} {proc : PL → Counts} {ls : List PL} {itm : PL}

theorem RanOn.row_iff {files : S2Files PL} (h : RanOn csv files) (x : Nat × PL) :
    (∃ r, (csv x).bind dfQuery = some r) ↔ x ∈ files.out2.map Over1cyc.key := by
  have hx := h x
  split_ifs at hx with hmem
  · obtain ⟨r, hr, hne⟩ := hx
    simp only [hmem, iff_true]
    exact ⟨r, by rw [hr, Option.bind_some, dfQuery, if_neg hne]⟩
  · rw [hx]
    simp [hmem]

theorem mem_setsWith {aSet : List PL × Nat} :
    aSet ∈ setsWith reachableSets itm ↔ aSet ∈ reachableSets.zipIdx ∧ itm ∈ aSet.1 := by
  simp [setsWith]

/-- A written file is one of a location with a count above one, for a set with the location. -/
theorem mem_out2 {x : Nat × PL} (h : x ∈ (genS2Loop cvPerflocs reachableSets proc ls).out2.map
    Over1cyc.key) : ∃ c mc, proc x.2 = some (some c, mc) ∧ 1 < c := by
  induction ls with
  | nil => simp [genS2Loop] at h
  | cons itm rest ih =>
    rw [genS2Loop] at h
    cases hproc : proc itm with
    | none => simp [hproc] at h
    | some out =>
      obtain ⟨cyc, mc⟩ := out
      simp only [hproc, List.map_append, List.mem_append] at h
      rcases h with h | h
      · cases cyc with
        | none => simp [over1cycFiles] at h
        | some c =>
          rw [over1cycFiles] at h
          split_ifs at h with hle
          · simp at h
          · obtain ⟨o, ho, rfl⟩ := List.mem_map.mp h
            obtain ⟨aSet, _, rfl⟩ := List.mem_map.mp ho
            exact ⟨c, mc, hproc, not_le.mp hle⟩
      · exact ih h

/-- The count `proc` gave, where it gave one. -/
def countOf : Counts → Int
  | some (some c, _) => c
  | _ => 0

/-- If every location has a count, `gen_s2` comes to its end. -/
theorem genS2Loop_of_counts (h : ∀ itm ∈ ls, ∃ c mc, proc itm = some (some c, mc)) :
    (genS2Loop cvPerflocs reachableSets proc ls).out2 = (ls.flatMap fun itm =>
        over1cycFiles cvPerflocs reachableSets itm (some (countOf (proc itm)))) ∧
      ∃ cov, (genS2Loop cvPerflocs reachableSets proc ls).tables =
        some (ls.map fun itm => (itm, countOf (proc itm)), cov) := by
  induction ls with
  | nil => exact ⟨rfl, [], rfl⟩
  | cons itm rest ih =>
    obtain ⟨c, mc, hproc⟩ := h itm (by simp)
    obtain ⟨hout, cov, htab⟩ := ih fun itm' hitm' => h itm' (by simp [hitm'])
    simp only [genS2Loop, hproc, htab, hout, List.flatMap_cons, countOf, Option.map_some,
      Option.toList_some, List.map_cons, List.map_nil, List.singleton_append, true_and]
    exact ⟨_, rfl⟩

/-- An entry of the first table is a count of `proc`. -/
theorem mem_tables {t : List (PL × Int) × List (PL × Int)} {c : Int}
    (ht : (genS2Loop cvPerflocs reachableSets proc ls).tables = some t) (h : (itm, c) ∈ t.1) :
    ∃ mc, proc itm = some (some c, mc) := by
  induction ls generalizing t with
  | nil =>
    obtain rfl := Option.some.inj ht
    simp at h
  | cons itm' rest ih =>
    rw [genS2Loop] at ht
    cases hproc : proc itm' with
    | none => simp [hproc] at ht
    | some out =>
      obtain ⟨cyc, mc⟩ := out
      simp only [hproc, Option.map_eq_some_iff] at ht
      obtain ⟨t', ht', rfl⟩ := ht
      rcases List.mem_append.mp h with h | h
      · obtain ⟨c', hc', heq⟩ := List.mem_map.mp h
        obtain ⟨rfl, rfl⟩ := Prod.mk.inj heq
        rw [Option.mem_toList] at hc'
        exact ⟨mc, by rw [hproc, hc']⟩
      · exact ih ht' h

/-- `pl_cyc` has the counts of `proc`. -/
theorem lookup_plCyc {t : List (PL × Int) × List (PL × Int)}
    (ht : (genS2Loop cvPerflocs reachableSets proc ls).tables = some t) {c : Int} :
    (t.1.foldl (fun d itm => Dict.upsert itm.1 (fun _ => itm.2) itm.2 d) []).lookup itm = some c ↔
      (itm, c) ∈ t.1 := by
  have hagree {c : Int} (hc : (itm, c) ∈ t.1) :
      (t.1.foldl (fun d itm => Dict.upsert itm.1 (fun _ => itm.2) itm.2 d) []).lookup itm =
        some c := by
    refine Dict.lookup_foldl_set Prod.fst Prod.snd hc ?_ []
    intro y hy hkey
    obtain ⟨itm', c'⟩ := y
    obtain rfl : itm' = itm := hkey
    obtain ⟨mc, hmc⟩ := mem_tables ht hc
    obtain ⟨mc', hmc'⟩ := mem_tables ht hy
    rw [hmc] at hmc'
    exact (Option.some.inj (Prod.mk.inj (Option.some.inj hmc')).1).symm
  constructor
  · intro h
    have hkey := Dict.lookup_isSome_iff.mp ⟨c, h⟩
    rw [Dict.keys_foldl_upsert Prod.fst] at hkey
    rcases mem_foldl_insertNew.mp hkey with hkey | hkey
    · simp at hkey
    · obtain ⟨⟨itm', c'⟩, hmem, rfl⟩ := List.mem_map.mp hkey
      have hc' := hagree hmem
      rw [h] at hc'
      rwa [Option.some.inj hc']
  · exact hagree

omit [DecidableEq PL] in
/-- Files that are all there are all read. -/
theorem readAll_done {xs : List (Nat × PL)} :
    ((∃ rs, (readAll csv xs).result = some rs) ↔ ∀ x ∈ xs, ∃ r, (csv x).bind dfQuery = some r) ∧
      ((∃ rs, (readAll csv xs).result = some rs) → (readAll csv xs).asked = xs) := by
  induction xs with
  | nil => simp [readAll]
  | cons x xs ih =>
    rw [readAll]
    cases hx : (csv x).bind dfQuery with
    | none => simp [hx]
    | some r =>
      simp only [Option.map_eq_some_iff, List.forall_mem_cons, hx, Option.some.injEq,
        exists_eq', true_and, ← ih.1, List.cons.injEq]
      constructor
      · constructor
        · intro h
          obtain ⟨_, rs, hrs, _⟩ := h
          exact ⟨rs, hrs⟩
        · intro h
          obtain ⟨rs, hrs⟩ := h
          exact ⟨_, rs, hrs, rfl⟩
      · intro h
        obtain ⟨_, rs, hrs, _⟩ := h
        exact ih.2 ⟨rs, hrs⟩

theorem ppLoop_done {plCyc : List (PL × Int)} :
    ((∃ rs, (ppLoop reachableSets csv plCyc ls).result = some rs) ↔ ∀ itm ∈ ls,
      ∃ cyc, plCyc.lookup itm = some cyc ∧
        ∀ x ∈ askedFor reachableSets itm cyc, ∃ r, (csv x).bind dfQuery = some r) ∧
    ((∃ rs, (ppLoop reachableSets csv plCyc ls).result = some rs) →
      (ppLoop reachableSets csv plCyc ls).asked =
        ls.flatMap fun itm => askedFor reachableSets itm ((plCyc.lookup itm).getD 1)) := by
  induction ls with
  | nil => simp [ppLoop]
  | cons itm rest ih =>
    rw [ppLoop]
    cases hcyc : plCyc.lookup itm with
    | none => simp [hcyc]
    | some cyc =>
      obtain ⟨hdone, hasked⟩ := @readAll_done _ csv (askedFor reachableSets itm cyc)
      simp only [List.forall_mem_cons, hcyc, Option.some.injEq, exists_eq_left', ← hdone, ← ih.1,
        List.flatMap_cons, Option.getD_some]
      cases hhere : (readAll csv (askedFor reachableSets itm cyc)).result with
      | none => simp [hhere]
      | some rs =>
        rw [hasked ⟨rs, hhere⟩]
        simp only [Option.map_eq_some_iff, Option.some.injEq, exists_eq', true_and]
        constructor
        · constructor
          · intro h
            obtain ⟨_, rs', hrs', _⟩ := h
            exact ⟨rs', hrs'⟩
          · intro h
            obtain ⟨rs', hrs'⟩ := h
            exact ⟨_, rs', hrs', rfl⟩
        · intro h
          obtain ⟨_, rs', hrs', _⟩ := h
          rw [ih.2 ⟨rs', hrs'⟩]

/-- `gen_s2` and `pp` skip the same pairs of locations with a count, except for those below one. -/
theorem askedFor_eq {cyc : Int} (h : 1 ≤ cyc ∨ ∀ aSet ∈ reachableSets, itm ∉ aSet) :
    askedFor reachableSets itm cyc =
      (over1cycFiles cvPerflocs reachableSets itm (some cyc)).map Over1cyc.key := by
  rw [askedFor, over1cycFiles]
  rcases h with hcyc | hnone
  · by_cases hone : cyc = 1
    · simp [hone]
    · rw [if_neg hone, if_neg (by omega), List.map_map]
      rfl
  · have hempty : setsWith reachableSets itm = [] := by
      refine List.filter_eq_nil_iff.mpr fun aSet haSet => ?_
      simpa using hnone aSet.1 (List.fst_mem_of_mem_zipIdx haSet)
    simp [hempty]

section Ran

variable (hcsv : RanOn csv (genS2 cvPerflocs reachableSets proc))
include hcsv

/-- Where `pp` comes to its end, every location has a count that suits both functions. -/
theorem counts_of_pp_done {rs : List (Nat × PL × Bool)}
    (hrs : (pp cvPerflocs reachableSets csv (genS2 cvPerflocs reachableSets proc)).result = some rs)
    (hitm : itm ∈ cvPerflocs) : ∃ cyc maxCycCovered, proc itm = some (some cyc, maxCycCovered) ∧
      (1 ≤ cyc ∨ ∀ aSet ∈ reachableSets, itm ∉ aSet) := by
  unfold pp at hrs
  cases ht : (genS2 cvPerflocs reachableSets proc).tables with
  | none => simp [ht] at hrs
  | some t =>
    rw [ht] at hrs
    obtain ⟨cyc, hcyc, hrows⟩ := ppLoop_done.1.mp ⟨rs, hrs⟩ itm hitm
    obtain ⟨mc, hproc⟩ := mem_tables ht ((lookup_plCyc ht).mp hcyc)
    refine ⟨cyc, mc, hproc, ?_⟩
    by_contra hn
    obtain ⟨hlt, aSet, haSet, hin⟩ : ¬1 ≤ cyc ∧ ∃ aSet ∈ reachableSets, itm ∈ aSet := by
      simpa using hn
    -- the set asks for a file that was not written
    obtain ⟨idx, hidx⟩ := exists_mem_zipIdx haSet
    have hasked : (idx, itm) ∈ askedFor reachableSets itm cyc := by
      rw [askedFor, if_neg (by omega)]
      exact List.mem_map.mpr ⟨(aSet, idx), mem_setsWith.mpr ⟨hidx, hin⟩, rfl⟩
    obtain ⟨c, mc', hproc', hc⟩ := mem_out2 ((hcsv.row_iff _).mp (hrows _ hasked))
    obtain ⟨heq, _⟩ : cyc = c ∧ mc = mc' := by simpa using hproc.symm.trans hproc'
    omega

theorem pp_done_of_counts (h : ∀ itm ∈ cvPerflocs, ∃ cyc maxCycCovered,
      proc itm = some (some cyc, maxCycCovered) ∧
        (1 ≤ cyc ∨ ∀ aSet ∈ reachableSets, itm ∉ aSet)) :
    (pp cvPerflocs reachableSets csv (genS2 cvPerflocs reachableSets proc)).asked =
        (genS2 cvPerflocs reachableSets proc).out2.map Over1cyc.key ∧
      ∃ rs, (pp cvPerflocs reachableSets csv (genS2 cvPerflocs reachableSets proc)).result =
        some rs := by
  have hcounts : ∀ itm ∈ cvPerflocs, ∃ c mc, proc itm = some (some c, mc) := by
    intro itm hitm
    obtain ⟨c, mc, hproc, _⟩ := h itm hitm
    exact ⟨c, mc, hproc⟩
  obtain ⟨hout, cov, ht⟩ := @genS2Loop_of_counts _ _ cvPerflocs reachableSets _ _ hcounts
  have hlookup {itm : PL} (hitm : itm ∈ cvPerflocs) :=
    (@lookup_plCyc _ _ _ _ _ _ itm _ ht (countOf (proc itm))).mpr
      (List.mem_map.mpr ⟨itm, hitm, rfl⟩)
  have hfiles {itm : PL} (hitm : itm ∈ cvPerflocs) :
      askedFor reachableSets itm (countOf (proc itm)) =
        (over1cycFiles cvPerflocs reachableSets itm (some (countOf (proc itm)))).map
          Over1cyc.key := by
    obtain ⟨c, mc, hproc, hc⟩ := h itm hitm
    apply askedFor_eq
    rw [hproc]
    exact hc
  have hrows : ∀ itm ∈ cvPerflocs, ∀ x ∈ askedFor reachableSets itm (countOf (proc itm)),
      ∃ r, (csv x).bind dfQuery = some r := by
    intro itm hitm x hx
    rw [hcsv.row_iff, genS2, hout, List.map_flatMap, List.mem_flatMap]
    exact ⟨itm, hitm, hfiles hitm ▸ hx⟩
  have hdone := (@ppLoop_done PL _ reachableSets csv cvPerflocs _).1.mpr
    fun itm hitm => ⟨_, hlookup hitm, hrows itm hitm⟩
  unfold pp
  rw [genS2, ht]
  refine ⟨?_, hdone⟩
  rw [ppLoop_done.2 hdone, hout, List.map_flatMap]
  refine List.flatMap_congr fun itm hitm => ?_
  rw [hlookup hitm, Option.getD_some, hfiles hitm]

end Ran

/-- `pp` asks for the files that `gen_s2` wrote, and comes to its end, exactly if `proc` gave every
location a count, and one of at least one cycle where some reachable set has the location. -/
theorem pp_reads_generated_iff (cvPerflocs : List PL) (reachableSets : List (List PL))
    (proc : PL → Counts) (csv : Nat × PL → Option Result)
    (hcsv : RanOn csv (genS2 cvPerflocs reachableSets proc)) :
    ((∀ x, x ∈ (pp cvPerflocs reachableSets csv (genS2 cvPerflocs reachableSets proc)).asked ↔
        x ∈ (genS2 cvPerflocs reachableSets proc).out2.map Over1cyc.key) ∧
      ∃ rs, (pp cvPerflocs reachableSets csv (genS2 cvPerflocs reachableSets proc)).result =
        some rs) ↔
      ∀ itm ∈ cvPerflocs, ∃ cyc maxCycCovered, proc itm = some (some cyc, maxCycCovered) ∧
        (1 ≤ cyc ∨ ∀ aSet ∈ reachableSets, itm ∉ aSet) := by
  constructor
  · intro h itm hitm
    obtain ⟨_, rs, hrs⟩ := h
    exact counts_of_pp_done hcsv hrs hitm
  · intro h
    obtain ⟨hasked, hdone⟩ := pp_done_of_counts hcsv h
    exact ⟨fun x => by rw [hasked], hdone⟩

theorem pp_reads_generated_two : RanOn (fun x => if x = (0, ()) then some .unreachable else none)
      (genS2 [()] [[()]] fun _ => some (some 2, 2)) ∧
    ∃ rs, (pp [()] [[()]] (fun x => if x = (0, ()) then some .unreachable else none)
      (genS2 [()] [[()]] fun _ => some (some 2, 2))).result = some rs := by
  have hran : RanOn (fun x => if x = (0, ()) then some Result.unreachable else none)
      (genS2 [()] [[()]] fun _ => some (some 2, 2)) := by
    intro x
    have hkeys : (genS2 [()] [[()]] fun _ => some (some 2, 2)).out2.map Over1cyc.key =
        [(0, ())] := rfl
    simp only [hkeys, List.mem_singleton]
    split_ifs with hx
    · exact ⟨.unreachable, rfl, by decide⟩
    · rfl
  refine ⟨hran, ((pp_reads_generated_iff _ _ _ _ hran).mpr ?_).2⟩
  intro itm _
  exact ⟨2, 2, rfl, .inl (by decide)⟩

/-- A location that is never left is covered for zero cycles only: `gen_s2` writes nothing for it,
and `pp` ends at the file it does not find. -/
theorem pp_asks_for_missing_file :
    CycleCount.proc (some (maxCycleCount (decidedUpTo 0))) = some (some (some 0, 0)) ∧
      (genS2 [()] [[()]] fun _ => some (some 0, 0)).out2.map Over1cyc.key = [] ∧
      (pp [()] [[()]] (fun _ => none) (genS2 [()] [[()]] fun _ => some (some 0, 0))).asked =
        [(0, ())] ∧
      (pp [()] [[()]] (fun _ => none) (genS2 [()] [[()]] fun _ => some (some 0, 0))).result =
        none := by
  decide

end PerSet

section Enumerate

/-- The loop of `template_iterloop.tcl`: the counts it makes a cover for. -/
def iterloop (max cnt : Nat) : List Nat := if max < cnt then [] else cnt :: iterloop max (cnt + 1)
termination_by max + 1 - cnt

/-- `{task}CS_{itm}_{cnt}`, with the task the cover belongs to. -/
def csName (task : List Char) (itm : String) (cnt : Nat) : List Char :=
  (task ++ "CS_".toList ++ itm.toList) ++ '_' :: Nat.toDigits 10 cnt

/-- Locations `xEnumCycleCnt` passes over: copies of a scoreboard entry, and single cycles. -/
def passedOver (pl : String) (n : Nat) : Bool :=
  (decide ("scb".toList <:+: pl.toList) && !decide ("_0_".toList <:+: pl.toList)) || decide (n = 1)

/-- `arr`: the counts in the names of one verdict file. -/
def arr (df : List (List Char × Result)) : List (List Char) :=
  (df.filter fun row => "CS_".toList <:+: row.1).map fun row => TextFile.afterLast '_' row.1

/-- `proc` of `xEnumCycleCnt`: the entries of `res.txt`. -/
def enumProc (plMax : List (String × Nat)) (csv : String → List (List Char × Result)) :
    List (String × List (List Char)) :=
  (plMax.filter fun a => !passedOver a.1 a.2).foldl
    (fun plMap a => Dict.upsert a.1 (fun _ => arr (csv a.1)) (arr (csv a.1)) plMap) []

theorem iterloop_eq (max cnt : Nat) : iterloop max cnt = List.range' cnt (max + 1 - cnt) := by
  fun_induction iterloop max cnt with
  | case1 cnt hlt => rw [show max + 1 - cnt = 0 by omega, List.range'_zero]
  | case2 cnt hle ih =>
    rw [ih, show max + 1 - cnt = (max + 1 - (cnt + 1)) + 1 by omega, List.range'_succ]

/-- The verdicts of the covers do not matter for the counts read back. -/
theorem arr_map_csName (task : List Char) (itm : String) (verdict : Nat → Result)
    (ks : List Nat) :
    arr (ks.map fun k => (csName task itm k, verdict k)) = ks.map (Nat.toDigits 10) := by
  have hname (k : Nat) : "CS_".toList <:+: csName task itm k :=
    ⟨task, itm.toList ++ '_' :: Nat.toDigits 10 k, by simp [csName]⟩
  have hlast (k : Nat) : TextFile.afterLast '_' (csName task itm k) = Nat.toDigits 10 k :=
    TextFile.afterLast_append_cons _ (TextFile.not_mem_toDigits (by decide) k)
  unfold arr
  rw [List.filter_eq_self.mpr]
  · simp [hlast, Function.comp_def]
  · intro row hrow
    obtain ⟨k, _, rfl⟩ := List.mem_map.mp hrow
    simpa using hname k

/-- `res.txt` lists the covered lengths of a location, in increasing order, exactly if all the
lengths that were asked for are covered. -/
theorem enumProc_lists_covered_iff (plMax : List (String × Nat))
    (csv : String → List (List Char × Result)) (task : List Char) (pl : String) (n : Nat)
    (verdict : Nat → Result) (hpl : (pl, n) ∈ plMax) (hkept : passedOver pl n = false)
    (hcsv : csv pl = (iterloop n 1).map fun k => (csName task pl k, verdict k)) :
    (enumProc plMax csv).lookup pl =
        some (((List.range' 1 n).filter fun k => verdict k = .covered).map (Nat.toDigits 10)) ↔
      ∀ k, 1 ≤ k → k ≤ n → verdict k = .covered := by
  have hmem : (pl, n) ∈ plMax.filter fun a => !passedOver a.1 a.2 :=
    List.mem_filter.mpr ⟨hpl, by simp [hkept]⟩
  have hlookup : (enumProc plMax csv).lookup pl =
      some ((List.range' 1 n).map (Nat.toDigits 10)) := by
    rw [iterloop_eq, Nat.add_sub_cancel] at hcsv
    rw [← arr_map_csName task pl verdict, ← hcsv]
    refine Dict.lookup_foldl_set Prod.fst (fun a => arr (csv a.1)) hmem ?_ []
    intro a _ ha
    have hkey : a.1 = pl := ha
    simp only [hkey]
  rw [hlookup, Option.some.injEq]
  constructor
  · intro h k h1 hn
    have hlen := congrArg List.length h
    rw [List.length_map, List.length_map] at hlen
    have hall := List.length_filter_eq_length_iff.mp hlen.symm k
      (List.mem_range'_1.mpr ⟨h1, by omega⟩)
    simpa using hall
  · intro h
    rw [List.filter_eq_self.mpr]
    intro k hk
    obtain ⟨h1, hn⟩ := List.mem_range'_1.mp hk
    simpa using h k h1 (by omega)

theorem enumProc_lists_covered_two :
    (enumProc [("p", 2)] fun _ =>
        (iterloop 2 1).map fun k => (csName [] "p" k, .covered)).lookup "p" =
      some (((List.range' 1 2).filter fun _ => Result.covered = .covered).map (Nat.toDigits 10)) :=
  (enumProc_lists_covered_iff [("p", 2)]
    (fun _ => (iterloop 2 1).map fun k => (csName [] "p" k, .covered)) [] "p" 2
    (fun _ => .covered) (by decide) (by decide) rfl).mpr fun _ _ _ => rfl

/-- A location that stays for exactly two cycles, listed as staying for one or two. -/
theorem enumProc_lists_unreachable :
    (enumProc [("p", 2)] fun _ => (iterloop 2 1).map fun k =>
        (csName [] "p" k, if k = 2 then .covered else .unreachable)).lookup "p" =
      some ["1".toList, "2".toList] ∧
    ((List.range' 1 2).filter fun k =>
      (if k = 2 then Result.covered else .unreachable) = .covered) = [2] := by
  rw [iterloop_eq]
  decide

end Enumerate

end SynthLC.CycleCount
