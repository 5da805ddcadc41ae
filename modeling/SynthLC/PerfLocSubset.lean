import SynthLC.PairwiseDep
import Mathlib.Data.Finset.Basic
import Mathlib.Data.Finset.Dedup

/-! `xPerfLocSubsetDiv/xPerfLocSubsetDiv.py`: the sets of locations a run may visit, listed
by a pruned search and then decided one by one. -/
namespace SynthLC

open Sva
open scoped Loop

variable {PL IID : Type} [DecidableEq PL] [DecidableEq IID]

namespace PerfLocSubset

/-- The globals the search reads. -/
structure Pruning (PL : Type) where
  always : List PL
  excluPairs : List (PL × PL)
  excluPairsIncomp : List (PL × PL)
  impliPairs : List (PL × PL)
  impliPairsIncomp : List (PL × PL)

def excludes (pairs : List (PL × PL)) (acc : List PL) (e : PL) : Bool :=
  pairs.any fun (u, v) => (decide (u ∈ acc) && v == e) || (decide (v ∈ acc) && u == e)

def demands (pairs : List (PL × PL)) (acc : List PL) (e : PL) : Bool :=
  pairs.any fun (u, v) => decide (v ∈ acc) && u == e

variable (f : Pruning PL) (indexmap : PL → Nat)

/-- `t == 1`: the element may not be taken. -/
def takeFails (acc : List PL) (idx : Nat) (e : PL) : Bool :=
  excludes f.excluPairs acc e || excludes f.excluPairsIncomp acc e ||
    f.impliPairs.any fun (u, v) => v == e && (!decide (u ∈ acc) && decide (indexmap u < idx))

/-- `t == 0`: the element may not be left out. -/
def skipFails (acc : List PL) (e : PL) : Bool :=
  decide (e ∈ f.always) || demands f.impliPairs acc e || demands f.impliPairsIncomp acc e

/-- The search over `elearr[idx:]`; at each element the branch without it comes first. -/
def getAllCombination (acc : List PL) (idx : Nat) : List PL → List (List PL)
  | [] => [acc]
  | e :: rest =>
    (if skipFails f acc e then [] else getAllCombination acc (idx + 1) rest) ++
    (if takeFails f indexmap acc idx e then []
      else getAllCombination (acc ++ [e]) (idx + 1) rest)

variable (cvPerflocs : List PL)

/-- `potential_subset.txt` -/
def potentialSubset : List (List PL) :=
  (getAllCombination f (fun u => cvPerflocs.idxOf u) [] 0 cvPerflocs).filter fun aSet => aSet ≠ []

/-- `coverset_{cnt}.sv`: the locations outside the set are assumed away. -/
structure CoverFile (PL : Type) where
  cnt : Nat
  assumes : List (Property (Sig PL))
  cover : Seq (Sig PL)

def coverFile (aSet : List PL) (cnt : Nat) : CoverFile PL where
  cnt := cnt
  assumes := (cvPerflocs.filter fun loc => loc ∉ aSet).map noS1T
  cover := .bool (.and (.all ((cvPerflocs.filter fun loc => loc ∈ aSet).map hpnReg))
    (.not (.any ((cvPerflocs.filter fun loc => loc ∈ aSet).map loc))))

def gen : List (CoverFile PL) :=
  (potentialSubset f cvPerflocs).zipIdx.map fun (aSet, cnt) => coverFile cvPerflocs aSet cnt

/-- `reachable_set.txt` -/
def pp (coversetCsv : Nat → Result) : List (List PL) :=
  ((potentialSubset f cvPerflocs).zipIdx.filter fun (_, idx) =>
    coversetCsv idx = .covered).map Prod.fst

section Search

variable {f indexmap} {acc rest s l : List PL} {idx : Nat} {e u v : PL}

/-- One element of the search: it is left out or taken, and the rest is searched. -/
theorem mem_getAllCombination_cons : l ∈ getAllCombination f indexmap acc idx (e :: rest) ↔
    (skipFails f acc e = false ∧ l ∈ getAllCombination f indexmap acc (idx + 1) rest) ∨
    (takeFails f indexmap acc idx e = false ∧
      l ∈ getAllCombination f indexmap (acc ++ [e]) (idx + 1) rest) := by
  rw [getAllCombination, List.mem_append]
  cases skipFails f acc e <;> cases takeFails f indexmap acc idx e <;> simp

theorem sublist_of_mem_getAllCombination
    (h : l ∈ getAllCombination f indexmap acc idx rest) : ∃ s, s.Sublist rest ∧ l = acc ++ s := by
  induction rest generalizing acc idx with
  | nil => exact ⟨[], .slnil, by simpa [getAllCombination] using h⟩
  | cons e rest ih =>
    rcases mem_getAllCombination_cons.mp h with ⟨_, hskip⟩ | ⟨_, htake⟩
    · obtain ⟨s, hs, rfl⟩ := ih hskip
      exact ⟨s, hs.cons e, rfl⟩
    · obtain ⟨s, hs, rfl⟩ := ih htake
      exact ⟨e :: s, hs.cons_cons e, by simp⟩

/-- An element that was passed over and does not come again is not in the set. -/
theorem not_mem_of_mem_getAllCombination (he : e ∉ acc ++ rest)
    (h : l ∈ getAllCombination f indexmap acc idx rest) : e ∉ l := by
  obtain ⟨s, hs, rfl⟩ := sublist_of_mem_getAllCombination h
  intro hmem
  apply he
  exact (List.Sublist.append_left hs acc).subset hmem

theorem mem_of_mem_acc (he : e ∈ acc) (h : l ∈ getAllCombination f indexmap acc idx rest) :
    e ∈ l := by
  obtain ⟨s, _, rfl⟩ := sublist_of_mem_getAllCombination h
  exact List.mem_append_left s he

theorem nodup_getAllCombination (hnd : (acc ++ rest).Nodup) :
    (getAllCombination f indexmap acc idx rest).Nodup := by
  induction rest generalizing acc idx with
  | nil => simp [getAllCombination]
  | cons e rest ih =>
    have hskip : (acc ++ rest).Nodup := hnd.sublist (by simp)
    have htake : (acc ++ [e] ++ rest).Nodup := by simpa using hnd
    have he : e ∉ acc ++ rest := (List.nodup_cons.mp (List.nodup_middle.mp hnd)).1
    apply List.Nodup.append
    · split_ifs
      · exact List.nodup_nil
      · exact ih hskip
    · split_ifs
      · exact List.nodup_nil
      · exact ih htake
    · intro l hl hl'
      split_ifs at hl hl' with h1 h2
      · simp at hl
      · simp at hl
      · simp at hl'
      · exact not_mem_of_mem_getAllCombination he hl (mem_of_mem_acc (by simp) hl')

/-- The elements still to come carry the numbers from `idx` on. -/
def Indexed (indexmap : PL → Nat) (idx : Nat) (rest : List PL) : Prop :=
  ∀ (k : Nat) u, rest[k]? = some u → indexmap u = idx + k

omit [DecidableEq PL] in
theorem Indexed.head (h : Indexed indexmap idx (e :: rest)) : indexmap e = idx := h 0 e rfl

omit [DecidableEq PL] in
theorem Indexed.tail (h : Indexed indexmap idx (e :: rest)) : Indexed indexmap (idx + 1) rest := by
  intro k u hu
  have hnext := h (k + 1) u (by simpa using hu)
  omega

omit [DecidableEq PL] in
theorem Indexed.le (h : Indexed indexmap idx rest) (hu : u ∈ rest) : idx ≤ indexmap u := by
  obtain ⟨k, hk⟩ := List.mem_iff_getElem?.mp hu
  have hidx := h k u hk
  omega

theorem indexed_idxOf {cv : List PL} (hnd : cv.Nodup) : Indexed (fun u => cv.idxOf u) 0 cv := by
  intro k u hk
  obtain ⟨hlt, rfl⟩ := List.getElem?_eq_some_iff.mp hk
  simpa using hnd.idxOf_getElem k hlt

/-- A set that meets every check of the search. An undetermined implication is only checked
where the implied location comes later, and a pair of equal locations excludes nothing. -/
structure Searched (f : Pruning PL) (indexmap : PL → Nat) (cv s : List PL) : Prop where
  always : ∀ e ∈ cv, e ∈ f.always → e ∈ s
  exclu : ∀ u v, (u, v) ∈ f.excluPairs ∨ (u, v) ∈ f.excluPairsIncomp → u ≠ v → u ∈ s → v ∉ s
  impli : ∀ u v, (u, v) ∈ f.impliPairs → v ∈ s → u ∈ s
  later : ∀ u v, (u, v) ∈ f.impliPairsIncomp → indexmap v < indexmap u → v ∈ s → u ∈ s

omit [DecidableEq PL] in
theorem Searched.tail {cv : List PL} (h : Searched f indexmap (e :: cv) s) :
    Searched f indexmap cv s :=
  ⟨fun x hx => h.always x (List.mem_cons_of_mem e hx), h.exclu, h.impli, h.later⟩

theorem skipFails_false {cv : List PL} (hc : Searched f indexmap (e :: cv) (acc ++ s))
    (hacc : ∀ v ∈ acc, indexmap v < indexmap e) (he : e ∉ acc ++ s) : skipFails f acc e = false := by
  by_contra h
  simp only [skipFails, demands, Bool.not_eq_false, Bool.or_eq_true, decide_eq_true_eq,
    List.any_eq_true, Bool.and_eq_true, beq_iff_eq, Prod.exists] at h
  rcases h with (halways | ⟨u, v, hmem, hv, rfl⟩) | ⟨u, v, hmem, hv, rfl⟩
  · exact he (hc.always e (by simp) halways)
  · exact he (hc.impli u v hmem (List.mem_append_left s hv))
  · exact he (hc.later u v hmem (hacc v hv) (List.mem_append_left s hv))

omit indexmap idx in
theorem excludes_false {pairs : List (PL × PL)} (he : e ∉ acc)
    (hc : ∀ u v, (u, v) ∈ pairs → u ≠ v → u ∈ acc ++ e :: s → v ∉ acc ++ e :: s) :
    excludes pairs acc e = false := by
  by_contra h
  simp only [excludes, Bool.not_eq_false, List.any_eq_true, Bool.or_eq_true, Bool.and_eq_true,
    decide_eq_true_eq, beq_iff_eq, Prod.exists] at h
  obtain ⟨u, v, hmem, ⟨hu, rfl⟩ | ⟨hv, rfl⟩⟩ := h
  · have hne : u ≠ v := ne_of_mem_of_not_mem hu he
    exact hc u v hmem hne (by simp [hu]) (by simp)
  · have hne : u ≠ v := (ne_of_mem_of_not_mem hv he).symm
    exact hc u v hmem hne (by simp) (by simp [hv])

/-- An implied location that was passed over earlier is not in the set, so the index test
never rejects a set that meets the checks. -/
theorem takeFails_false {cv : List PL} (hc : Searched f indexmap cv (acc ++ e :: s)) (he : e ∉ acc)
    (hidx : ∀ u ∈ e :: s, idx ≤ indexmap u) : takeFails f indexmap acc idx e = false := by
  have hex := excludes_false he fun u v hmem => hc.exclu u v (.inl hmem)
  have hexIncomp := excludes_false he fun u v hmem => hc.exclu u v (.inr hmem)
  simp only [takeFails, hex, hexIncomp, Bool.false_or, List.any_eq_false, Bool.and_eq_true,
    beq_iff_eq, Bool.not_eq_true', decide_eq_false_iff_not, decide_eq_true_eq, Prod.forall]
  rintro u v hmem ⟨rfl, hu, hlt⟩
  have hin := hc.impli u v hmem (by simp)
  rcases List.mem_append.mp hin with hacc | hin
  · exact hu hacc
  · have hle := hidx u hin
    omega

/-- The search loses no set that meets its checks. -/
theorem mem_getAllCombination (hs : s.Sublist rest) (hnd : (acc ++ rest).Nodup)
    (hc : Searched f indexmap rest (acc ++ s)) (hidx : Indexed indexmap idx rest)
    (hacc : ∀ v ∈ acc, indexmap v < idx) :
    acc ++ s ∈ getAllCombination f indexmap acc idx rest := by
  induction rest generalizing acc idx s with
  | nil =>
    obtain rfl := List.sublist_nil.mp hs
    simp [getAllCombination]
  | cons e rest ih =>
    have hmid := List.nodup_cons.mp (List.nodup_middle.mp hnd)
    have hhead := hidx.head
    apply mem_getAllCombination_cons.mpr
    cases hs with
    | cons _ hs =>
      have he : e ∉ acc ++ s := by
        intro hmem
        apply hmid.1
        exact (List.Sublist.append_left hs acc).subset hmem
      have hskip := skipFails_false hc (by rwa [hhead]) he
      have hlater (v : PL) (hv : v ∈ acc) : indexmap v < idx + 1 := by
        have hlt := hacc v hv
        omega
      exact .inl ⟨hskip, ih hs hmid.2 hc.tail hidx.tail hlater⟩
    | @cons_cons s _ _ hs =>
      have he : e ∉ acc := fun hmem => hmid.1 (List.mem_append_left rest hmem)
      have htake := takeFails_false hc he fun u hu => hidx.le ((hs.cons_cons e).subset hu)
      have hlater (v : PL) (hv : v ∈ acc ++ [e]) : indexmap v < idx + 1 := by
        rcases List.mem_append.mp hv with hv | hv
        · have hlt := hacc v hv
          omega
        · rw [List.mem_singleton.mp hv, hhead]
          omega
      have hassoc : acc ++ e :: s = acc ++ [e] ++ s := by simp
      rw [hassoc] at hc ⊢
      exact .inr ⟨htake, ih hs (by simpa using hnd) hc.tail hidx.tail hlater⟩

theorem always_of_mem (he : e ∈ rest) (ha : e ∈ f.always)
    (h : l ∈ getAllCombination f indexmap acc idx rest) : e ∈ l := by
  induction rest generalizing acc idx with
  | nil => simp at he
  | cons x rest ih =>
    rcases List.mem_cons.mp he with rfl | he
    · rcases mem_getAllCombination_cons.mp h with ⟨hskip, _⟩ | ⟨_, htake⟩
      · simp [skipFails, ha] at hskip
      · exact mem_of_mem_acc (by simp) htake
    · rcases mem_getAllCombination_cons.mp h with ⟨_, hskip⟩ | ⟨_, htake⟩
      · exact ih he hskip
      · exact ih he htake

/-- Two excluded locations of a set were both in it before the search went on. -/
theorem exclu_of_mem (hpair : (u, v) ∈ f.excluPairs ∨ (u, v) ∈ f.excluPairsIncomp) (hne : u ≠ v)
    (h : l ∈ getAllCombination f indexmap acc idx rest) (hu : u ∈ l) (hv : v ∈ l) :
    u ∈ acc ∧ v ∈ acc := by
  induction rest generalizing acc idx with
  | nil =>
    obtain rfl : l = acc := by simpa [getAllCombination] using h
    exact ⟨hu, hv⟩
  | cons e rest ih =>
    rcases mem_getAllCombination_cons.mp h with ⟨_, hskip⟩ | ⟨hfails, htake⟩
    · exact ih hskip
    · obtain ⟨hu', hv'⟩ := ih htake
      have hno : ¬((u ∈ acc ∧ v = e) ∨ (v ∈ acc ∧ u = e)) := by
        intro hboth
        simp only [takeFails, excludes, Bool.or_eq_false_iff, List.any_eq_false, Bool.or_eq_true,
          Bool.and_eq_true, decide_eq_true_eq, beq_iff_eq, Prod.forall] at hfails
        rcases hpair with hpair | hpair
        · exact hfails.1.1 u v hpair hboth
        · exact hfails.1.2 u v hpair hboth
      simp only [List.mem_append, List.mem_singleton] at hu' hv'
      rcases hu' with hu' | rfl <;> rcases hv' with hv' | rfl
      · exact ⟨hu', hv'⟩
      · exact absurd (.inl ⟨hu', rfl⟩) hno
      · exact absurd (.inr ⟨hv', rfl⟩) hno
      · exact absurd rfl hne

/-- An implied location that comes later may not be left out. -/
theorem later_of_mem (hpair : (u, v) ∈ f.impliPairs ∨ (u, v) ∈ f.impliPairsIncomp)
    (hidx : Indexed indexmap idx rest) (hu : u ∈ rest) (hlt : indexmap v < indexmap u)
    (h : l ∈ getAllCombination f indexmap acc idx rest) (hv : v ∈ l) : u ∈ l := by
  induction rest generalizing acc idx with
  | nil => simp at hu
  | cons e rest ih =>
    rcases List.mem_cons.mp hu with rfl | hu
    · rcases mem_getAllCombination_cons.mp h with ⟨hfails, hskip⟩ | ⟨_, htake⟩
      · -- the other end has a smaller number, so it was decided before
        have hacc : v ∈ acc := by
          obtain ⟨s, hs, rfl⟩ := sublist_of_mem_getAllCombination hskip
          rcases List.mem_append.mp hv with hv | hv
          · exact hv
          · have hle := hidx.tail.le (hs.subset hv)
            have hhead := hidx.head
            omega
        simp only [skipFails, demands, Bool.or_eq_false_iff, List.any_eq_false, Bool.and_eq_true,
          decide_eq_true_eq, beq_iff_eq, Prod.forall] at hfails
        rcases hpair with hpair | hpair
        · exact absurd ⟨hacc, rfl⟩ (hfails.1.2 u v hpair)
        · exact absurd ⟨hacc, rfl⟩ (hfails.2 u v hpair)
      · exact mem_of_mem_acc (by simp) htake
    · rcases mem_getAllCombination_cons.mp h with ⟨_, hskip⟩ | ⟨_, htake⟩
      · exact ih hidx.tail hu hskip
      · exact ih hidx.tail hu htake

/-- A location is not taken when one it implies was passed over; this check is only made for the
proven implications. -/
theorem earlier_of_mem (hpair : (u, v) ∈ f.impliPairs) (hnd : (acc ++ rest).Nodup)
    (hidx : Indexed indexmap idx rest) (hvr : v ∈ rest) (hlt : indexmap u < indexmap v)
    (h : l ∈ getAllCombination f indexmap acc idx rest) (hv : v ∈ l) : u ∈ l := by
  induction rest generalizing acc idx with
  | nil => simp at hvr
  | cons e rest ih =>
    have hmid := List.nodup_cons.mp (List.nodup_middle.mp hnd)
    rcases List.mem_cons.mp hvr with rfl | hvr
    · rcases mem_getAllCombination_cons.mp h with ⟨_, hskip⟩ | ⟨hfails, htake⟩
      · exact absurd hv (not_mem_of_mem_getAllCombination hmid.1 hskip)
      · simp only [takeFails, Bool.or_eq_false_iff, List.any_eq_false, Bool.and_eq_true,
          beq_iff_eq, Bool.not_eq_true', decide_eq_false_iff_not, decide_eq_true_eq,
          Prod.forall] at hfails
        have hacc : u ∈ acc := by
          by_contra hu
          exact hfails.2 u v hpair ⟨rfl, hu, by rwa [hidx.head] at hlt⟩
        exact mem_of_mem_acc (List.mem_append_left [v] hacc) htake
    · rcases mem_getAllCombination_cons.mp h with ⟨_, hskip⟩ | ⟨_, htake⟩
      · exact ih hmid.2 hidx.tail hvr hskip
      · exact ih (by simpa using hnd) hidx.tail hvr htake

end Search

/-- A set that no fact the search prunes with speaks against. -/
structure Compatible (f : Pruning PL) (cv s : List PL) : Prop where
  always : ∀ e ∈ cv, e ∈ f.always → e ∈ s
  exclu : ∀ u v, (u, v) ∈ f.excluPairs ∨ (u, v) ∈ f.excluPairsIncomp → u ∈ s → v ∉ s
  impli : ∀ u v, (u, v) ∈ f.impliPairs ∨ (u, v) ∈ f.impliPairsIncomp → v ∈ s → u ∈ s

omit [DecidableEq PL] in
theorem Compatible.searched {f : Pruning PL} {indexmap : PL → Nat} {cv s : List PL}
    (h : Compatible f cv s) : Searched f indexmap cv s :=
  ⟨h.always, fun u v hpair _ => h.exclu u v hpair, fun u v hpair => h.impli u v (.inl hpair),
    fun u v hpair _ => h.impli u v (.inr hpair)⟩

/-- The set is visited exactly, and later none of its locations is active. -/
def Realised (legal : Set (Wave PL)) (s : Finset PL) : Prop :=
  ∃ tr ∈ legal, (∀ p, p ∈ s ↔ Visits tr p) ∧
    ∃ t, ∀ p ∈ s, (∃ k < t, tr k p = true) ∧ tr t p = false

theorem coverFile_reached {legal : Set (Wave PL)} {cv s : List PL} {cnt : Nat}
    (hcv : CoversVisited legal cv) (hs : s.Sublist cv) :
    Reached legal (coverFile cv s cnt).assumes (coverFile cv s cnt).cover ↔
      Realised legal s.toFinset := by
  have hcover (tr : Wave PL) : (coverFile cv s cnt).cover.Covered (observe tr) ↔
      ∃ t, ∀ p ∈ s, (∃ k < t, tr k p = true) ∧ tr t p = false := by
    simp only [coverFile, Loop.filter_mem_of_sublist hs hcv.nodup, covered_bool, eval_and,
      eval_not, eval_all, eval_any, List.mem_map, forall_exists_index, and_imp,
      forall_apply_eq_imp_iff₂, exists_exists_and_eq_and, eval_sig, observe_hpn, observe_loc,
      hpn_eq_true_iff, not_exists, not_and, Bool.not_eq_true, forall_and]
  have hassume (tr : Wave PL) : AllHold (observe tr) (coverFile cv s cnt).assumes ↔
      ∀ p ∈ cv, Visits tr p → p ∈ s := by
    simp only [coverFile, allHold_map, List.mem_filter, and_imp, CoverAPerfloc.noS1T_holds,
      decide_eq_true_eq]
    exact forall₂_congr fun p _ => not_imp_not
  simp only [Reached, Realised, hcover, hassume, List.mem_toFinset]
  refine exists_congr fun tr => and_congr_right fun htr => and_congr_left fun ht => ?_
  obtain ⟨t, ht⟩ := ht
  refine ⟨fun h p => ⟨fun hps => ?_, fun hv => ?_⟩, fun h p _ => (h p).mpr⟩
  · obtain ⟨k, _, hk⟩ := (ht p hps).1
    exact ⟨k, hk⟩
  · exact h p (hcv.complete p tr htr hv) hv

theorem mem_pp {f : Pruning PL} {cv l : List PL} {coversetCsv : Nat → Result} :
    l ∈ pp f cv coversetCsv ↔
      ∃ idx, (l, idx) ∈ (potentialSubset f cv).zipIdx ∧ coversetCsv idx = .covered := by
  simp [pp]

theorem sublist_of_mem_potentialSubset {f : Pruning PL} {cv l : List PL}
    (h : l ∈ potentialSubset f cv) : l.Sublist cv := by
  obtain ⟨s, hs, rfl⟩ := sublist_of_mem_getAllCombination (List.mem_filter.mp h).1
  exact hs

/-- Each file of the last stage stands for its own set. -/
theorem nodup_pp {f : Pruning PL} {cv : List PL} (hnd : cv.Nodup)
    (coversetCsv : Nat → Result) : ((pp f cv coversetCsv).map List.toFinset).Nodup := by
  have hsub : (pp f cv coversetCsv).Sublist (potentialSubset f cv) := by
    have h : (pp f cv coversetCsv).Sublist ((potentialSubset f cv).zipIdx.map Prod.fst) :=
      List.filter_sublist.map Prod.fst
    rwa [List.zipIdx_map_fst] at h
  have hpot : (potentialSubset f cv).Nodup := (nodup_getAllCombination (by simpa using hnd)).filter _
  apply List.Nodup.map_on _ (hpot.sublist hsub)
  intro l hl l' hl' heq
  apply Loop.sublist_ext (sublist_of_mem_potentialSubset (hsub.subset hl))
    (sublist_of_mem_potentialSubset (hsub.subset hl')) hnd
  intro x
  rw [← List.mem_toFinset, heq, List.mem_toFinset]

/-- The facts the search prunes with hold on all legal runs. -/
structure PruningSound (legal : Set (Wave PL)) (cv : List PL) (f : Pruning PL) : Prop where
  always : ∀ e ∈ cv, e ∈ f.always → ∀ tr ∈ legal, Visits tr e
  exclu : ∀ u v, (u, v) ∈ f.excluPairs ∨ (u, v) ∈ f.excluPairsIncomp →
    PairwiseDep.Exclusive legal u v
  impli : ∀ u v, (u, v) ∈ f.impliPairs ∨ (u, v) ∈ f.impliPairsIncomp →
    PairwiseDep.Implies legal u v

section Exact

variable {legal : Set (Wave PL)} {cv l : List PL} {f : Pruning PL} {coversetCsv : Nat → Result}

omit [DecidableEq PL] in
theorem PruningSound.compatible (hf : PruningSound legal cv f) {tr : Wave PL} (htr : tr ∈ legal)
    (hl : ∀ p, p ∈ l ↔ Visits tr p) : Compatible f cv l := by
  refine ⟨?_, ?_, ?_⟩
  · intro e he ha
    exact (hl e).mpr (hf.always e he ha tr htr)
  · intro u v hpair hu hv
    exact hf.exclu u v hpair tr htr ⟨(hl u).mp hu, (hl v).mp hv⟩
  · intro u v hpair hv
    exact (hl u).mpr (hf.impli u v hpair tr htr ((hl v).mp hv))

theorem mem_potentialSubset (hnd : cv.Nodup) (hsub : l.Sublist cv) (hne : l ≠ [])
    (hc : Searched f (fun u => cv.idxOf u) cv l) : l ∈ potentialSubset f cv := by
  refine List.mem_filter.mpr ⟨?_, by simpa using hne⟩
  exact mem_getAllCombination hsub (by simpa using hnd) hc (indexed_idxOf hnd) (by simp)

variable (hcv : CoversVisited legal cv)
  (hexact : ∀ x ∈ gen f cv, ExactCover legal x.assumes x.cover (coversetCsv x.cnt))
include hcv hexact

theorem covered_iff_realised {idx : Nat} (h : (l, idx) ∈ (potentialSubset f cv).zipIdx) :
    coversetCsv idx = .covered ↔ Realised legal l.toFinset := by
  have hmem := List.fst_mem_of_mem_zipIdx h
  have hx := hexact (coverFile cv l idx) (List.mem_map.mpr ⟨(l, idx), h, rfl⟩)
  rw [← coverFile_reached hcv (sublist_of_mem_potentialSubset hmem)]
  exact hx.covered_iff

/-- With true facts and exact verdicts the last stage writes the realised sets. -/
theorem mem_pp_iff_realised (hf : PruningSound legal cv f) (s : Finset PL) :
    s ∈ (pp f cv coversetCsv).map List.toFinset ↔
      s.Nonempty ∧ s ⊆ cv.toFinset ∧ Realised legal s := by
  constructor
  · intro hs
    obtain ⟨l, hl, rfl⟩ := List.mem_map.mp hs
    obtain ⟨idx, hmem, hc⟩ := mem_pp.mp hl
    have hpot := List.fst_mem_of_mem_zipIdx hmem
    have hne : l ≠ [] := by simpa using (List.mem_filter.mp hpot).2
    refine ⟨(List.toFinset_nonempty_iff l).mpr hne, ?_, (covered_iff_realised hcv hexact hmem).mp hc⟩
    intro p hp
    have hpl := List.mem_toFinset.mp hp
    exact List.mem_toFinset.mpr ((sublist_of_mem_potentialSubset hpot).subset hpl)
  · intro hs
    obtain ⟨hne, hsub, hreal⟩ := hs
    -- the line of the file is the set in the order of `cover_individual.txt`
    let l := cv.filter fun p => p ∈ s
    have hl (p : PL) : p ∈ l ↔ p ∈ s := by
      simp only [l, List.mem_filter, decide_eq_true_eq, and_iff_right_iff_imp]
      intro hp
      exact List.mem_toFinset.mp (hsub hp)
    have hlset : l.toFinset = s := by
      ext p
      rw [List.mem_toFinset, hl]
    have hlne : l ≠ [] := (List.toFinset_nonempty_iff l).mp (by rwa [hlset])
    have hcompat : Compatible f cv l := by
      obtain ⟨tr, htr, hvisits, _⟩ := hreal
      exact hf.compatible htr fun p => (hl p).trans (hvisits p)
    have hpot := mem_potentialSubset hcv.nodup List.filter_sublist hlne hcompat.searched
    obtain ⟨idx, hmem⟩ := Loop.exists_mem_zipIdx hpot
    refine List.mem_map.mpr ⟨l, mem_pp.mpr ⟨idx, hmem, ?_⟩, hlset⟩
    exact (covered_iff_realised hcv hexact hmem).mpr (by rwa [hlset])

end Exact

/-- The three scripts with the files they read and the verdicts for the files they write. -/
structure Input (PL IID : Type) where
  perflocs : List PL
  common : PairwiseDep.Common PL IID
  coverCsv : Nat → Result
  noConflictCsv : Nat → Result
  depCsv : Nat → Result
  exclCsv : Nat → Result
  coversetCsv : Nat → Result

def Input.coverIndividual (i : Input PL IID) : List PL :=
  CoverAPerfloc.coverSet i.perflocs i.coverCsv

def Input.alwaysReach (i : Input PL IID) : List PL :=
  CoverAPerfloc.alwaysSet i.perflocs i.noConflictCsv

def Input.pruning (i : Input PL IID) (o : PairwiseDep.Output PL) : Pruning PL where
  always := i.alwaysReach
  excluPairs := o.exclusive
  excluPairsIncomp := o.undeterminedExcl
  impliPairs := o.implication
  impliPairsIncomp := o.undeterminedImpl

/-- The stages one after the other, to `reachable_set.txt`. -/
def run (i : Input PL IID) : Option (List (List PL)) := do
  let st ← PairwiseDep.gen i.common i.coverIndividual i.alwaysReach
  let o ← PairwiseDep.pp st i.depCsv i.exclCsv
  pure (pp (i.pruning o) i.coverIndividual i.coversetCsv)

/-- Every generated file has its exact verdict. -/
structure ExactOracle (legal : Set (Wave PL)) (i : Input PL IID) : Prop where
  cover : ∀ x ∈ CoverAPerfloc.gen i.perflocs, ExactCover legal [] x.2 (i.coverCsv x.1)
  noConflict : ∀ files, CoverAPerfloc.genS2 i.perflocs i.coverCsv = some files → ∀ x ∈ files,
    i.noConflictCsv x.1 = .cex ↔ ¬∃ tr ∈ legal, x.2.Holds (observe tr)
  pair : ∀ st, PairwiseDep.gen i.common i.coverIndividual i.alwaysReach = some st →
    ∀ t ∈ st.todolog, ExactCover legal [] t.cover (t.csv i.depCsv i.exclCsv)
  coverset : ∀ st o, PairwiseDep.gen i.common i.coverIndividual i.alwaysReach = some st →
    PairwiseDep.pp st i.depCsv i.exclCsv = some o →
    ∀ x ∈ gen (i.pruning o) i.coverIndividual,
      ExactCover legal x.assumes x.cover (i.coversetCsv x.cnt)

/-- Losslessness: `reachable_set.txt` lists, each once, the nonempty sets of covered
locations that a legal run visits exactly and then leaves. -/
theorem reachable_set_exact (legal : Set (Wave PL)) (i : Input PL IID) (hnd : i.perflocs.Nodup)
    (hall : ∀ p, p ∈ i.perflocs) (hcommon : PairwiseDep.CommonFacts i.common legal)
    (hexact : ExactOracle legal i) :
    ∃ out, run i = some out ∧ (∀ l ∈ out, l.Nodup) ∧ (out.map List.toFinset).Nodup ∧
      ∀ s : Finset PL, s ∈ out.map List.toFinset ↔
        s.Nonempty ∧ s ⊆ i.coverIndividual.toFinset ∧ Realised legal s := by
  have hcv : CoversVisited legal i.coverIndividual :=
    CoverAPerfloc.coverSet_coversVisited hnd hall hexact.cover
  obtain ⟨files, hfiles⟩ := CoverAPerfloc.genS2_some hexact.cover
  obtain ⟨st, hgen, hlog⟩ :=
    PairwiseDep.gen_sound i.common legal i.coverIndividual i.alwaysReach hcommon hcv
  obtain ⟨o, hpp, ho⟩ :=
    PairwiseDep.pp_sound legal st i.depCsv i.exclCsv hlog (hexact.pair st hgen)
  have hf : PruningSound legal i.coverIndividual (i.pruning o) := by
    refine ⟨?_, ?_, ?_⟩
    · intro e he ha tr htr
      exact CoverAPerfloc.alwaysSet_visits hnd hfiles (hexact.noConflict files hfiles) he ha htr
    · intro u v hpair
      rcases hpair with h | h
      · exact ho.exclusive u v h
      · simp [Input.pruning, ho.undeterminedExcl] at h
    · intro u v hpair
      rcases hpair with h | h
      · exact ho.implication u v h
      · simp [Input.pruning, ho.undeterminedImpl] at h
  refine ⟨pp (i.pruning o) i.coverIndividual i.coversetCsv, by simp [run, hgen, hpp], ?_,
    nodup_pp hcv.nodup _, mem_pp_iff_realised hcv (hexact.coverset st o hgen hpp) hf⟩
  intro l hl
  obtain ⟨idx, hmem, _⟩ := mem_pp.mp hl
  have hpot := List.fst_mem_of_mem_zipIdx hmem
  exact hcv.nodup.sublist (sublist_of_mem_potentialSubset hpot)

/-- Location 0 is always visited, then either 1 or 2. -/
def sampleSpans (takesOne : Bool) : Fin 3 → Option (Nat × Nat)
  | 0 => some (1, 1)
  | 1 => if takesOne then some (2, 2) else none
  | 2 => if takesOne then none else some (2, 2)

def sampleLegal : Set (Wave (Fin 3)) := Set.range fun takesOne => ofSpans (sampleSpans takesOne)

def sample : Input (Fin 3) (Fin 3) where
  perflocs := [0, 1, 2]
  common := ⟨id, [(1, 2)], [], []⟩
  coverCsv _ := .covered
  noConflictCsv idx := if idx = 0 then .cex else .proven
  depCsv _ := .err
  exclCsv _ := .err
  coversetCsv idx := if idx = 0 then .unreachable else .covered

theorem sample_visits (takesOne : Bool) (p : Fin 3) :
    Visits (ofSpans (sampleSpans takesOne)) p ↔ (sampleSpans takesOne p).isSome := by
  apply ofSpans_visits
  cases takesOne <;> decide

theorem sample_cover (x : Nat × Seq (Sig (Fin 3))) (hx : x ∈ CoverAPerfloc.gen sample.perflocs) :
    ExactCover sampleLegal [] x.2 (sample.coverCsv x.1) := by
  have hsome (p : Fin 3) : (sampleSpans (p = 1) p).isSome := by
    revert p
    decide
  obtain ⟨⟨p, idx⟩, _, rfl⟩ := List.mem_map.mp hx
  refine ⟨fun _ => rfl, fun h => absurd ?_ h⟩
  apply CoverAPerfloc.reached_loc.mpr
  exact ⟨ofSpans (sampleSpans (p = 1)), ⟨_, rfl⟩, (sample_visits _ p).mpr (hsome p)⟩

theorem sample_coversVisited : CoversVisited sampleLegal [0, 1, 2] :=
  CoverAPerfloc.coverSet_coversVisited (by decide) (by decide) sample_cover

theorem sample_common : PairwiseDep.CommonFacts sample.common sampleLegal := by
  refine ⟨?_, by simp [sample], by simp [sample]⟩
  intro p q _ hmem tr htr hboth
  obtain ⟨takesOne, rfl⟩ := htr
  obtain ⟨rfl, rfl⟩ : p = 1 ∧ q = 2 := by simpa [sample] using hmem
  simp only [sample_visits] at hboth
  cases takesOne <;> simp [sampleSpans] at hboth

theorem sample_noConflict (files : List (Nat × Property (Sig (Fin 3))))
    (hfiles : CoverAPerfloc.genS2 sample.perflocs sample.coverCsv = some files)
    (x : Nat × Property (Sig (Fin 3))) (hx : x ∈ files) :
    sample.noConflictCsv x.1 = .cex ↔ ¬∃ tr ∈ sampleLegal, x.2.Holds (observe tr) := by
  obtain rfl : [(0, noS1T 0), (1, noS1T 1), (2, noS1T 2)] = files := Option.some.inj hfiles
  have hex (p : Fin 3) : (¬∃ tr ∈ sampleLegal, (noS1T p).Holds (observe tr)) ↔
      ∀ takesOne, (sampleSpans takesOne p).isSome := by
    simp only [sampleLegal, Set.exists_range_iff, CoverAPerfloc.noS1T_holds, sample_visits,
      not_exists, not_not]
  simp only [List.mem_cons, List.not_mem_nil, or_false] at hx
  rcases hx with rfl | rfl | rfl
  all_goals
    rw [hex]
    decide

theorem sample_coverset (x : CoverFile (Fin 3))
    (hx : x ∈ gen (sample.pruning ⟨[], [], [(1, 2), (2, 1)], []⟩) [0, 1, 2]) :
    ExactCover sampleLegal x.assumes x.cover (sample.coversetCsv x.cnt) := by
  have hpot : potentialSubset (sample.pruning ⟨[], [], [(1, 2), (2, 1)], []⟩) [0, 1, 2] =
      [[0], [0, 2], [0, 1]] := by decide
  unfold gen at hx
  rw [hpot] at hx
  simp only [List.zipIdx_cons, List.zipIdx_nil, List.map_cons, List.map_nil, List.mem_cons,
    List.not_mem_nil, or_false] at hx
  rcases hx with rfl | rfl | rfl
  · unfold ExactCover
    rw [coverFile_reached sample_coversVisited (by decide)]
    refine ⟨fun h => ?_, fun _ => rfl⟩
    obtain ⟨_, ⟨takesOne, rfl⟩, hvisits, _⟩ := h
    simp only [sample_visits] at hvisits
    cases takesOne
    · exact absurd (hvisits 2) (by decide)
    · exact absurd (hvisits 1) (by decide)
  · unfold ExactCover
    rw [coverFile_reached sample_coversVisited (by decide)]
    refine ⟨fun _ => rfl, fun h => absurd ⟨_, ⟨false, rfl⟩, ?_, 3, by decide⟩ h⟩
    simp only [sample_visits]
    decide
  · unfold ExactCover
    rw [coverFile_reached sample_coversVisited (by decide)]
    refine ⟨fun _ => rfl, fun h => absurd ⟨_, ⟨true, rfl⟩, ?_, 3, by decide⟩ h⟩
    simp only [sample_visits]
    decide

theorem sample_exact : ExactOracle sampleLegal sample := by
  have hgen : PairwiseDep.gen sample.common sample.coverIndividual sample.alwaysReach =
      some ⟨[(.exclusive, 1, 2), (.exclusive, 2, 1)], [], 2⟩ := rfl
  refine ⟨sample_cover, sample_noConflict, ?_, ?_⟩
  · intro st hst t ht
    rw [hgen] at hst
    obtain rfl := Option.some.inj hst
    simp at ht
  · intro st o hst ho
    rw [hgen] at hst
    obtain rfl := Option.some.inj hst
    obtain rfl : (⟨[], [], [(1, 2), (2, 1)], []⟩ : PairwiseDep.Output (Fin 3)) = o :=
      Option.some.inj ho
    exact sample_coverset

theorem sample_reachable_set_exact :
    run sample = some [[0, 2], [0, 1]] ∧
    ∃ out, run sample = some out ∧ (∀ l ∈ out, l.Nodup) ∧ (out.map List.toFinset).Nodup ∧
      ∀ s : Finset (Fin 3), s ∈ out.map List.toFinset ↔
        s.Nonempty ∧ s ⊆ sample.coverIndividual.toFinset ∧ Realised sampleLegal s :=
  ⟨rfl, reachable_set_exact sampleLegal sample (by decide) (by decide) sample_common sample_exact⟩

end PerfLocSubset

end SynthLC
