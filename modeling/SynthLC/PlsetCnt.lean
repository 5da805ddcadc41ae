import SynthLC.OrderCovers
import SynthLC.PerfLocSubset
import SynthLC.TextFile

/-! `plset_cnt` of `xPerfLocSubsetDiv.py`: every set of covered locations is filed under the
reason it was dropped for or under the verdict of its cover, which is looked up in the files
`pp` wrote. The search of `gen` and the filter here have to agree on the sets in between. -/
namespace SynthLC

open scoped Loop

namespace PerfLocSubset

section Account

variable {PL : Type} [DecidableEq PL]

/-- `powerset` of `util.py`: the empty set is left out. -/
def powerset (s : List PL) : List (List PL) :=
  (List.range' 1 s.length).flatMap fun r => Loop.combinations s r

def together (pairs : List (PL × PL)) (candidate : List PL) : Bool :=
  pairs.any fun (u, v) => decide (u ∈ candidate) && decide (v ∈ candidate)

/-- `v` implies `u`. -/
def broken (pairs : List (PL × PL)) (candidate : List PL) : Bool :=
  pairs.any fun (u, v) => decide (v ∈ candidate) && !decide (u ∈ candidate)

variable (f : Pruning PL) (cvPerflocs : List PL)

def prunedByProven (candidate : List PL) : Bool :=
  (f.always.any fun itm => !decide (itm ∈ candidate)) || together f.excluPairs candidate ||
    broken f.impliPairs candidate

def prunedByUndetermined (candidate : List PL) : Bool :=
  together f.excluPairsIncomp candidate || broken f.impliPairsIncomp candidate

/-- The list `potential_subset` of `plset_cnt`. -/
def accountedSubset : List (List PL) :=
  (powerset cvPerflocs).filter fun candidate =>
    !prunedByProven f candidate && !prunedByUndetermined f candidate

variable {f cvPerflocs}

omit [DecidableEq PL] in
theorem mem_powerset {s c : List PL} : c ∈ powerset s ↔ c.Sublist s ∧ c ≠ [] := by
  simp only [powerset, List.mem_flatMap, List.mem_range'_1, Loop.mem_combinations]
  constructor
  · intro h
    obtain ⟨r, hr, hc, hlen⟩ := h
    refine ⟨hc, ?_⟩
    intro hnil
    rw [hnil, List.length_nil] at hlen
    omega
  · intro h
    obtain ⟨hc, hne⟩ := h
    have hpos := List.length_pos_of_ne_nil hne
    have hle := hc.length_le
    exact ⟨c.length, by omega, hc, rfl⟩

omit [DecidableEq PL] in
theorem nodup_powerset {s : List PL} (h : s.Nodup) : (powerset s).Nodup := by
  apply List.nodup_flatMap.mpr
  refine ⟨fun r _ => Loop.nodup_combinations h r, ?_⟩
  have hrange : (List.range' 1 s.length).Nodup := List.nodup_range' 1
  apply hrange.imp
  intro r r' hne c hc hc'
  have hlen := (Loop.mem_combinations.mp hc).2
  have hlen' := (Loop.mem_combinations.mp hc').2
  omega

theorem mem_accountedSubset {c : List PL} : c ∈ accountedSubset f cvPerflocs ↔
    c.Sublist cvPerflocs ∧ c ≠ [] ∧ (∀ e ∈ f.always, e ∈ c) ∧
      (∀ u v, (u, v) ∈ f.excluPairs ∨ (u, v) ∈ f.excluPairsIncomp → u ∈ c → v ∉ c) ∧
      ∀ u v, (u, v) ∈ f.impliPairs ∨ (u, v) ∈ f.impliPairsIncomp → v ∈ c → u ∈ c := by
  simp only [accountedSubset, List.mem_filter, mem_powerset, prunedByProven, prunedByUndetermined,
    together, broken, Bool.and_eq_true, Bool.not_eq_true', Bool.or_eq_false_iff, List.any_eq_false,
    decide_eq_true_eq, decide_eq_false_iff_not, not_not, not_and, Prod.forall, or_imp, forall_and]
  tauto

/-- A set the accounting keeps meets every check of the search. -/
theorem mem_potentialSubset_of_accounted (hnd : cvPerflocs.Nodup) {c : List PL}
    (h : c ∈ accountedSubset f cvPerflocs) : c ∈ potentialSubset f cvPerflocs := by
  obtain ⟨hsub, hne, halways, hexclu, himpli⟩ := mem_accountedSubset.mp h
  have hcompat : Compatible f cvPerflocs c := ⟨fun e _ => halways e, hexclu, himpli⟩
  exact mem_potentialSubset hnd hsub hne hcompat.searched

/-- All facts speak of the listed locations. -/
structure Pruning.Over (f : Pruning PL) (cv : List PL) : Prop where
  always : ∀ e ∈ f.always, e ∈ cv
  pairs : ∀ p ∈ f.excluPairs ++ f.excluPairsIncomp ++ f.impliPairs ++ f.impliPairsIncomp,
    p.1 ∈ cv ∧ p.2 ∈ cv

/-- What both functions read: distinct locations, and facts about them. -/
structure SearchInput (PL : Type) where
  cvPerflocs : List PL
  nodup : cvPerflocs.Nodup
  pruning : Pruning PL
  pruning_over : pruning.Over cvPerflocs

variable (i : SearchInput PL)

def SearchInput.indexmap (u : PL) : Nat := i.cvPerflocs.idxOf u

variable {i}

omit [DecidableEq PL] in
theorem SearchInput.impli_mem {u v : PL}
    (h : (u, v) ∈ i.pruning.impliPairs ∨ (u, v) ∈ i.pruning.impliPairsIncomp) :
    u ∈ i.cvPerflocs ∧ v ∈ i.cvPerflocs := by
  apply i.pruning_over.pairs (u, v)
  simp only [List.mem_append]
  tauto

omit [DecidableEq PL] in
theorem SearchInput.exclu_mem {u v : PL}
    (h : (u, v) ∈ i.pruning.excluPairs ∨ (u, v) ∈ i.pruning.excluPairsIncomp) :
    u ∈ i.cvPerflocs ∧ v ∈ i.cvPerflocs := by
  apply i.pruning_over.pairs (u, v)
  simp only [List.mem_append]
  tauto

theorem SearchInput.indexmap_inj {u v : PL} (hu : u ∈ i.cvPerflocs)
    (h : i.indexmap u = i.indexmap v) : u = v := (List.idxOf_inj hu).mp h

/-- The search lists exactly the nonempty sets that meet its checks. -/
theorem mem_potentialSubset_iff {l : List PL} : l ∈ potentialSubset i.pruning i.cvPerflocs ↔
    l.Sublist i.cvPerflocs ∧ l ≠ [] ∧ Searched i.pruning i.indexmap i.cvPerflocs l := by
  constructor
  · intro h
    have hsub := sublist_of_mem_potentialSubset h
    have hidx := indexed_idxOf i.nodup
    obtain ⟨hmem, hne⟩ := List.mem_filter.mp h
    refine ⟨hsub, by simpa using hne, ?_, ?_, ?_, ?_⟩
    · intro e he ha
      exact always_of_mem he ha hmem
    · intro u v hpair huv hu hv
      simpa using (exclu_of_mem hpair huv hmem hu hv).1
    · intro u v hpair hv
      obtain ⟨hu, _⟩ := i.impli_mem (.inl hpair)
      rcases Nat.lt_trichotomy (i.indexmap v) (i.indexmap u) with hlt | heq | hlt
      · exact later_of_mem (.inl hpair) hidx hu hlt hmem hv
      · rwa [i.indexmap_inj hu heq.symm]
      · exact earlier_of_mem hpair (by simpa using i.nodup) hidx (hsub.subset hv) hlt hmem hv
    · intro u v hpair hlt hv
      exact later_of_mem (.inr hpair) hidx (i.impli_mem (.inr hpair)).1 hlt hmem hv
  · intro h
    obtain ⟨hsub, hne, hs⟩ := h
    exact mem_potentialSubset i.nodup hsub hne hs

variable (i)

/-- The locations every searched set with `x` in it contains: those always visited, and what the
checked implications add. -/
inductive Forced (x : PL) : PL → Prop
  | start : Forced x x
  | always {e : PL} : e ∈ i.pruning.always → Forced x e
  | impli {u v : PL} : (u, v) ∈ i.pruning.impliPairs → Forced x v → Forced x u
  | later {u v : PL} : (u, v) ∈ i.pruning.impliPairsIncomp → i.indexmap v < i.indexmap u →
      Forced x v → Forced x u

/-- No searched set contains `x`: two locations it forces exclude each other. -/
def Clash (x : PL) : Prop :=
  ∃ u v, ((u, v) ∈ i.pruning.excluPairs ∨ (u, v) ∈ i.pruning.excluPairsIncomp) ∧ u ≠ v ∧
    Forced i x u ∧ Forced i x v

/-- The checks the search leaves out decide nothing: an undetermined implication of an earlier
location, and a pair of equal locations. -/
structure ChecksSuffice : Prop where
  earlier : ∀ u v, (u, v) ∈ i.pruning.impliPairsIncomp → i.indexmap u < i.indexmap v →
    Forced i v u ∨ Clash i v
  self : ∀ u, (u, u) ∈ i.pruning.excluPairs ∨ (u, u) ∈ i.pruning.excluPairsIncomp → Clash i u

variable {i}

theorem Forced.mem_of_searched {l : List PL} {x y : PL}
    (hl : Searched i.pruning i.indexmap i.cvPerflocs l) (hx : x ∈ l) (h : Forced i x y) : y ∈ l := by
  induction h with
  | start => exact hx
  | always he => exact hl.always _ (i.pruning_over.always _ he) he
  | impli hpair _ ih => exact hl.impli _ _ hpair ih
  | later hpair hlt _ ih => exact hl.later _ _ hpair hlt ih

theorem Clash.not_mem_of_searched {l : List PL} {x : PL}
    (hl : Searched i.pruning i.indexmap i.cvPerflocs l) (h : Clash i x) : x ∉ l := by
  intro hx
  obtain ⟨u, v, hpair, hne, hu, hv⟩ := h
  exact hl.exclu u v hpair hne (hu.mem_of_searched hl hx) (hv.mem_of_searched hl hx)

open Classical in
/-- The smallest set with `x` in it that the search could list. -/
noncomputable def forcedSet (i : SearchInput PL) (x : PL) : List PL :=
  i.cvPerflocs.filter fun y => Forced i x y

theorem mem_forcedSet {x y : PL} (hx : x ∈ i.cvPerflocs) : y ∈ forcedSet i x ↔ Forced i x y := by
  simp only [forcedSet, List.mem_filter, decide_eq_true_eq, and_iff_right_iff_imp]
  intro h
  induction h with
  | start => exact hx
  | always he => exact i.pruning_over.always _ he
  | impli hpair _ _ => exact (i.impli_mem (.inl hpair)).1
  | later hpair _ _ _ => exact (i.impli_mem (.inr hpair)).1

theorem forcedSet_searched {x : PL} (hx : x ∈ i.cvPerflocs) (h : ¬Clash i x) :
    forcedSet i x ∈ potentialSubset i.pruning i.cvPerflocs := by
  have hmem (y : PL) := mem_forcedSet (i := i) (y := y) hx
  refine mem_potentialSubset_iff.mpr ⟨List.filter_sublist, ?_, ?_, ?_, ?_, ?_⟩
  · exact List.ne_nil_of_mem ((hmem x).mpr .start)
  · intro e _ he
    exact (hmem e).mpr (.always he)
  · intro u v hpair hne hu hv
    exact h ⟨u, v, hpair, hne, (hmem u).mp hu, (hmem v).mp hv⟩
  · intro u v hpair hv
    exact (hmem u).mpr (.impli hpair ((hmem v).mp hv))
  · intro u v hpair hlt hv
    exact (hmem u).mpr (.later hpair hlt ((hmem v).mp hv))

theorem accounted_of_searched (hc : ChecksSuffice i) {l : List PL}
    (h : l ∈ potentialSubset i.pruning i.cvPerflocs) :
    l ∈ accountedSubset i.pruning i.cvPerflocs := by
  obtain ⟨hsub, hne, hs⟩ := mem_potentialSubset_iff.mp h
  refine mem_accountedSubset.mpr ⟨hsub, hne, ?_, ?_, ?_⟩
  · intro e he
    exact hs.always e (i.pruning_over.always e he) he
  · intro u v hpair hu
    by_cases huv : u = v
    · subst huv
      exact (hc.self u hpair).not_mem_of_searched hs
    · exact hs.exclu u v hpair huv hu
  · intro u v hpair hv
    rcases hpair with hpair | hpair
    · exact hs.impli u v hpair hv
    · obtain ⟨hu, _⟩ := i.impli_mem (.inr hpair)
      rcases Nat.lt_trichotomy (i.indexmap v) (i.indexmap u) with hlt | heq | hlt
      · exact hs.later u v hpair hlt hv
      · rwa [i.indexmap_inj hu heq.symm]
      · rcases hc.earlier u v hpair hlt with hforced | hclash
        · exact hforced.mem_of_searched hs hv
        · exact absurd hv (hclash.not_mem_of_searched hs)

theorem checksSuffice_of_accounted (h : ∀ l ∈ potentialSubset i.pruning i.cvPerflocs,
    l ∈ accountedSubset i.pruning i.cvPerflocs) : ChecksSuffice i := by
  have haccounted {x : PL} (hx : x ∈ i.cvPerflocs) (hclash : ¬Clash i x) :=
    mem_accountedSubset.mp (h _ (forcedSet_searched hx hclash))
  constructor
  · intro u v hpair hlt
    by_contra hno
    obtain ⟨hforced, hclash⟩ := not_or.mp hno
    obtain ⟨_, hv⟩ := i.impli_mem (.inr hpair)
    have hmem := (haccounted hv hclash).2.2.2.2 u v (.inr hpair) ((mem_forcedSet hv).mpr .start)
    exact hforced ((mem_forcedSet hv).mp hmem)
  · intro u hpair
    by_contra hclash
    obtain ⟨hu, _⟩ := i.exclu_mem hpair
    have hself := (mem_forcedSet hu).mpr Forced.start
    exact (haccounted hu hclash).2.2.2.1 u u hpair hself hself

/-- The checked candidates are the accounted ones, up to their order in the list, exactly if the
checks the search leaves out decide nothing. -/
theorem checked_perm_accounted_iff (i : SearchInput PL) :
    (potentialSubset i.pruning i.cvPerflocs).Perm (accountedSubset i.pruning i.cvPerflocs) ↔
      ChecksSuffice i := by
  have hsearch : (potentialSubset i.pruning i.cvPerflocs).Nodup :=
    (nodup_getAllCombination (by simpa using i.nodup)).filter _
  have haccount : (accountedSubset i.pruning i.cvPerflocs).Nodup := (nodup_powerset i.nodup).filter _
  rw [List.perm_ext_iff_of_nodup hsearch haccount]
  constructor
  · intro h
    exact checksSuffice_of_accounted fun l => (h l).mp
  · intro h l
    exact ⟨accounted_of_searched h, mem_potentialSubset_of_accounted i.nodup⟩

/-- The second location is undetermined to imply the first; nothing else is known. -/
def undeterminedEarlier : SearchInput (Fin 2) where
  cvPerflocs := [0, 1]
  nodup := by decide
  pruning := ⟨[], [], [], [], [(0, 1)]⟩
  pruning_over := ⟨by decide, by decide⟩

/-- The set of the second location alone is checked, and accounted as pruned. -/
theorem undetermined_earlier_unaccounted :
    potentialSubset undeterminedEarlier.pruning undeterminedEarlier.cvPerflocs = [[1], [0], [0, 1]] ∧
    accountedSubset undeterminedEarlier.pruning undeterminedEarlier.cvPerflocs = [[0], [0, 1]] ∧
    ¬(potentialSubset undeterminedEarlier.pruning undeterminedEarlier.cvPerflocs).Perm
      (accountedSubset undeterminedEarlier.pruning undeterminedEarlier.cvPerflocs) := by
  refine ⟨by decide, by decide, ?_⟩
  intro hperm
  exact absurd hperm.length_eq (by decide)

end Account

section Files

/-- `get_array(FILE, arr_as_ele=True)` -/
def getArray (text : List Char) : List (List String) :=
  (TextFile.lines '\n' (TextFile.universalNewlines text)).map fun line =>
    (TextFile.fields ',' line).map String.ofList

/-- `get_array("cover_individual.txt")` where every line is a name. A line with a comma becomes a
list, which `indexmap` cannot take as a key. -/
def getNames (text : List Char) : Option (List String) :=
  (TextFile.lines '\n' (TextFile.universalNewlines text)).mapM fun line =>
    if ',' ∈ line then none else some (String.ofList line.dropLast)

/-- `f.write(",".join(itm) + "\n")` for each set. -/
def writeSets (sets : List (List String)) : List Char :=
  sets.flatMap fun itm => [','].intercalate (itm.map String.toList) ++ ['\n']

/-- The three files of `pp`. -/
structure SetFiles where
  reachable : List Char
  unreachable : List Char
  undetermined : List Char

/-- One file of `pp`: the sets are read back from `potential_subset.txt`, and the verdict of a set
is found by its line number. -/
def pickSets (potential : List Char) (verdict : Nat → Bool) : List Char :=
  writeSets (((getArray potential).zipIdx.filter fun x => verdict x.2).map Prod.fst)

def ppFiles (potential : List Char) (coversetCsv : Nat → Result) : SetFiles where
  reachable := pickSets potential fun idx => coversetCsv idx = .covered
  unreachable := pickSets potential fun idx => coversetCsv idx = .unreachable
  undetermined := pickSets potential fun idx =>
    coversetCsv idx ≠ .covered ∧ coversetCsv idx ≠ .unreachable

structure Tally where
  undet : List (List String)
  unreachable : List (List String)
  covered : List (List String)

/-- One candidate of the last loop; `assert(0)` if no file has it. -/
def tallyStep (files : SetFiles) (t : Tally) (candidate : List String) : Option Tally :=
  if candidate ∈ getArray files.undetermined then
    some { t with undet := t.undet ++ [candidate] }
  else if candidate ∈ getArray files.unreachable then
    some { t with unreachable := t.unreachable ++ [candidate] }
  else if candidate ∈ getArray files.reachable then
    some { t with covered := t.covered ++ [candidate] }
  else none

/-- What `plset_cnt` prints and writes. -/
structure Counts where
  cnt : Nat
  prunedByProven : List (List String)
  tally : Tally
  prunedByUndetermined : List (List String)
  notSubset : List (Bool × List String)

def isSubset (a b : List String) : Bool := a.all fun x => decide (x ∈ b)

def hasCommitted (itm : List String) : Bool :=
  ["scb_0_s13", "scb_1_s13", "scb_2_s13", "scb_3_s13"].any fun pl => decide (pl ∈ itm)

def plsetCnt (f : Pruning String) (cvPerflocs : List String) (files : SetFiles) : Option Counts := do
  let tally ← (accountedSubset f cvPerflocs).foldlM (tallyStep files) ⟨[], [], []⟩
  let candidates := powerset cvPerflocs
  let pruned := candidates.filter fun c => !prunedByProven f c && prunedByUndetermined f c
  let totalUndet := tally.undet ++ pruned
  let squash := totalUndet.filter fun itm => !hasCommitted itm
  let nonsquash := totalUndet.filter hasCommitted
  let lost := squash.filter fun itm => !nonsquash.any (isSubset itm)
  pure {
    cnt := candidates.length
    prunedByProven := candidates.filter (prunedByProven f)
    tally := tally
    prunedByUndetermined := pruned
    notSubset := lost.map fun itm => ((getArray files.reachable).any (isSubset itm), itm) }

/-- A name as a line of a text file can hold it. -/
def Plain (name : String) : Prop := ∀ c ∈ [',', '\n', '\r'], c ∉ name.toList

theorem plain_of_getNames {text : List Char} {names : List String} (h : getNames text = some names)
    {name : String} (hname : name ∈ names) : Plain name := by
  obtain ⟨line, hline, hread⟩ := (Loop.mem_mapM h).mp hname
  obtain ⟨hsub, hend⟩ := TextFile.of_mem_lines hline
  split_ifs at hread with hcomma
  obtain rfl := Option.some.inj hread
  have hret : '\r' ∉ line := fun hmem => TextFile.not_mem_universalNewlines text (hsub hmem)
  intro c hc
  rw [String.toList_ofList]
  simp only [List.mem_cons, List.not_mem_nil, or_false] at hc
  rcases hc with rfl | rfl | rfl
  · exact fun hmem => hcomma (List.mem_of_mem_dropLast hmem)
  · exact hend
  · exact fun hmem => hret (List.mem_of_mem_dropLast hmem)

/-- Reading undoes writing for nonempty rows of plain names. -/
theorem getArray_writeSets {sets : List (List String)}
    (h : ∀ itm ∈ sets, itm ≠ [] ∧ ∀ name ∈ itm, Plain name) : getArray (writeSets sets) = sets := by
  let row (itm : List String) : List Char := [','].intercalate (itm.map String.toList)
  have hclean (c : Char) (hc : c ∈ ['\n', '\r']) (itm : List String) (hitm : itm ∈ sets) :
      c ∉ row itm := by
    apply TextFile.not_mem_intercalate
    · simp only [List.mem_cons, List.not_mem_nil, or_false] at hc
      rcases hc with rfl | rfl <;> decide
    · intro x hx
      obtain ⟨name, hname, rfl⟩ := List.mem_map.mp hx
      exact (h itm hitm).2 name hname c (List.mem_cons_of_mem _ hc)
  have htext : TextFile.universalNewlines (writeSets sets) = writeSets sets := by
    apply TextFile.universalNewlines_of_not_mem
    intro hmem
    obtain ⟨itm, hitm, hmem⟩ := List.mem_flatMap.mp hmem
    rcases List.mem_append.mp hmem with hmem | hmem
    · exact hclean '\r' (by simp) itm hitm hmem
    · simp at hmem
  have hlines : TextFile.lines '\n' (writeSets sets) = sets.map fun itm => row itm ++ ['\n'] :=
    TextFile.lines_flatMap row (hclean '\n' (by simp))
  have hrow (itm : List String) (hitm : itm ∈ sets) :
      (TextFile.fields ',' (row itm ++ ['\n'])).map String.ofList = itm := by
    have hcomma (x : List Char) (hx : x ∈ itm.map String.toList) : ',' ∉ x := by
      obtain ⟨name, hname, rfl⟩ := List.mem_map.mp hx
      exact (h itm hitm).2 name hname ',' (by simp)
    rw [TextFile.fields_intercalate (by simpa using (h itm hitm).1) hcomma, List.map_map]
    simp
  rw [getArray, htext, hlines, List.map_map]
  exact (List.map_congr_left hrow).trans (List.map_id' sets)

/-- The input with the file its locations are read from. -/
structure TextInput extends SearchInput String where
  coverIndividual : List Char
  read : getNames coverIndividual = some cvPerflocs

/-- `potential_subset.txt` -/
def TextInput.potentialFile (i : TextInput) : List Char :=
  writeSets (potentialSubset i.pruning i.cvPerflocs)

def TextInput.setFiles (i : TextInput) (coversetCsv : Nat → Result) : SetFiles :=
  ppFiles i.potentialFile coversetCsv

variable {i : TextInput}

theorem plain_of_mem_potentialSubset {itm : List String}
    (h : itm ∈ potentialSubset i.pruning i.cvPerflocs) : itm ≠ [] ∧ ∀ name ∈ itm, Plain name := by
  obtain ⟨hsub, hne, _⟩ := (mem_potentialSubset_iff (i := i.toSearchInput)).mp h
  exact ⟨hne, fun name hname => plain_of_getNames i.read (hsub.subset hname)⟩

/-- A file of `pp` read back holds the sets whose verdict it is for. -/
theorem mem_pickSets {verdict : Nat → Bool} {c : List String} :
    c ∈ getArray (pickSets i.potentialFile verdict) ↔
      ∃ idx, (c, idx) ∈ (potentialSubset i.pruning i.cvPerflocs).zipIdx ∧ verdict idx = true := by
  have hpotential : getArray i.potentialFile = potentialSubset i.pruning i.cvPerflocs :=
    getArray_writeSets fun itm => plain_of_mem_potentialSubset
  rw [pickSets, hpotential, getArray_writeSets]
  · simp only [List.mem_map, List.mem_filter, Prod.exists, exists_and_right, exists_eq_right]
  · intro itm hitm
    obtain ⟨x, hx, rfl⟩ := List.mem_map.mp hitm
    exact plain_of_mem_potentialSubset (List.fst_mem_of_mem_zipIdx (List.mem_filter.mp hx).1)

/-- A set has one line number, so a file holds it exactly if it is for the verdict at that line. -/
theorem mem_pickSets_iff {c : List String} {idx : Nat}
    (h : (c, idx) ∈ (potentialSubset i.pruning i.cvPerflocs).zipIdx) (verdict : Nat → Bool) :
    c ∈ getArray (pickSets i.potentialFile verdict) ↔ verdict idx = true := by
  rw [mem_pickSets]
  have hnd : (potentialSubset i.pruning i.cvPerflocs).Nodup :=
    (nodup_getAllCombination (by simpa using i.nodup)).filter _
  constructor
  · intro h'
    obtain ⟨idx', hmem, hverdict⟩ := h'
    have hget := List.mem_zipIdx_iff_getElem?.mp h
    have hget' := List.mem_zipIdx_iff_getElem?.mp hmem
    obtain ⟨hlt, _⟩ := List.getElem?_eq_some_iff.mp hget
    have hidx : idx = idx' := (List.getElem?_inj hlt hnd).mp (hget.trans hget'.symm)
    rwa [hidx]
  · intro hverdict
    exact ⟨idx, h, hverdict⟩

theorem found_once {c : List String} (h : c ∈ accountedSubset i.pruning i.cvPerflocs)
    (coversetCsv : Nat → Result) :
    ExactlyOne (c ∈ getArray (i.setFiles coversetCsv).reachable)
      (c ∈ getArray (i.setFiles coversetCsv).unreachable)
      (c ∈ getArray (i.setFiles coversetCsv).undetermined) := by
  obtain ⟨idx, hidx⟩ := Loop.exists_mem_zipIdx (mem_potentialSubset_of_accounted i.nodup h)
  unfold TextInput.setFiles ppFiles ExactlyOne
  simp only [mem_pickSets_iff hidx, decide_eq_true_eq]
  cases coversetCsv idx <;> simp

theorem exists_tallyStep {files : SetFiles} {c : List String}
    (h : ExactlyOne (c ∈ getArray files.reachable) (c ∈ getArray files.unreachable)
      (c ∈ getArray files.undetermined)) (t : Tally) : ∃ t', tallyStep files t c = some t' := by
  unfold tallyStep
  split_ifs with hundet hunreach hreach
  · exact ⟨_, rfl⟩
  · exact ⟨_, rfl⟩
  · exact ⟨_, rfl⟩
  · simp [ExactlyOne, hundet, hunreach, hreach] at h

/-- The accounting never meets its `assert(0)`: each candidate it keeps is found by list equality
in exactly one of the three files, whatever the verdicts are. -/
theorem plset_cnt_finds_each (i : TextInput) (coversetCsv : Nat → Result) :
    (∃ out, plsetCnt i.pruning i.cvPerflocs (i.setFiles coversetCsv) = some out) ∧
    ∀ c ∈ accountedSubset i.pruning i.cvPerflocs,
      ExactlyOne (c ∈ getArray (i.setFiles coversetCsv).reachable)
        (c ∈ getArray (i.setFiles coversetCsv).unreachable)
        (c ∈ getArray (i.setFiles coversetCsv).undetermined) := by
  refine ⟨?_, fun c hc => found_once hc coversetCsv⟩
  have htally : ∃ tally, (accountedSubset i.pruning i.cvPerflocs).foldlM
      (tallyStep (i.setFiles coversetCsv)) ⟨[], [], []⟩ = some tally ∧ True := by
    apply Loop.foldlM_some
    · intro t _ c hc
      obtain ⟨t', ht'⟩ := exists_tallyStep (found_once hc coversetCsv) t
      exact ⟨t', ht', trivial⟩
    · trivial
  obtain ⟨tally, htally, _⟩ := htally
  unfold plsetCnt
  rw [htally]
  exact ⟨_, rfl⟩

/-- Two locations that exclude each other. -/
def twoNames : TextInput where
  cvPerflocs := ["a", "b"]
  nodup := by decide
  pruning := ⟨[], [("a", "b")], [], [], []⟩
  pruning_over := ⟨by decide, by decide⟩
  coverIndividual := ['a', '\n', 'b', '\n']
  read := by decide

theorem plset_cnt_finds_each_two :
    accountedSubset twoNames.pruning twoNames.cvPerflocs = [["a"], ["b"]] ∧
    (∃ out, plsetCnt twoNames.pruning twoNames.cvPerflocs
      (twoNames.setFiles fun idx => if idx = 0 then .covered else .err) = some out) :=
  ⟨by decide, (plset_cnt_finds_each twoNames _).1⟩

end Files

end PerfLocSubset

end SynthLC
