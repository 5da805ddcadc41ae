import SynthLC.Loop
import SynthLC.Verdict
import Mathlib.Data.List.ProdSigma

/-! `xCoverAPerflocDiv/gen.py` and `xPairwiseDepDiv/xPairwiseDep_post.py`: which locations
some run visits, which every run visits, and which pairs exclude or imply each other. -/
namespace SynthLC

open Sva
open scoped Loop

variable {PL IID : Type}

/-- `cv` lists the locations that some legal run visits. -/
structure CoversVisited (legal : Set (Wave PL)) (cv : List PL) : Prop where
  nodup : cv.Nodup
  visited : ∀ p ∈ cv, ∃ tr ∈ legal, Visits tr p
  complete : ∀ p, ∀ tr ∈ legal, Visits tr p → p ∈ cv

namespace CoverAPerfloc

/-- `gen`: the covers `C_{idx}` of `cover_individual.sv`. -/
def gen (perflocs : List PL) : List (Nat × Seq (Sig PL)) :=
  perflocs.zipIdx.map fun (itm, idx) => (idx, .bool (loc itm))

/-- `gen_s2`: the assumption of `{idx}.sv`, for covered locations only. -/
def genS2 (perflocs : List PL) (coverCsv : Nat → Result) :
    Option (List (Nat × Property (Sig PL))) :=
  if perflocs.zipIdx.all fun (_, idx) => (dfQuery (coverCsv idx)).isSome then
    some (perflocs.zipIdx.filterMap fun (itm, idx) =>
      if coverCsv idx = .covered then some (idx, noS1T itm) else none)
  else none

/-- `cover_individual.txt` -/
def coverSet (perflocs : List PL) (coverCsv : Nat → Result) : List PL :=
  (perflocs.zipIdx.filter fun (_, idx) => coverCsv idx = .covered).map Prod.fst

/-- `always_reach.txt` -/
def alwaysSet (perflocs : List PL) (noConflictCsv : Nat → Result) : List PL :=
  (perflocs.zipIdx.filter fun (_, idx) => noConflictCsv idx = .cex).map Prod.fst

section Verdicts

variable {legal : Set (Wave PL)} {perflocs : List PL} {coverCsv noConflictCsv : Nat → Result}

theorem mem_coverSet {p : PL} :
    p ∈ coverSet perflocs coverCsv ↔ ∃ idx, (p, idx) ∈ perflocs.zipIdx ∧ coverCsv idx = .covered := by
  simp [coverSet]

theorem reached_loc {p : PL} : Reached legal [] (.bool (loc p)) ↔ ∃ tr ∈ legal, Visits tr p := by
  simp [Reached, AllHold, covered_bool, Visits]

theorem coverSet_coversVisited (hnd : perflocs.Nodup) (hall : ∀ p, p ∈ perflocs)
    (hexact : ∀ x ∈ gen perflocs, ExactCover legal [] x.2 (coverCsv x.1)) :
    CoversVisited legal (coverSet perflocs coverCsv) := by
  have hcover (p : PL) (idx : Nat) (h : (p, idx) ∈ perflocs.zipIdx) :
      ExactCover legal [] (.bool (loc p)) (coverCsv idx) :=
    hexact (idx, .bool (loc p)) (List.mem_map.mpr ⟨(p, idx), h, rfl⟩)
  refine ⟨?_, ?_, ?_⟩
  · have hsub : (coverSet perflocs coverCsv).Sublist (perflocs.zipIdx.map Prod.fst) :=
      List.filter_sublist.map Prod.fst
    rw [List.zipIdx_map_fst] at hsub
    exact hnd.sublist hsub
  · intro p hp
    obtain ⟨idx, hmem, hr⟩ := mem_coverSet.mp hp
    exact reached_loc.mp ((hcover p idx hmem).covered_iff.mp hr)
  · intro p tr htr hv
    obtain ⟨idx, hmem⟩ := Loop.exists_mem_zipIdx (hall p)
    exact mem_coverSet.mpr ⟨idx, hmem, (hcover p idx hmem).1 (reached_loc.mpr ⟨tr, htr, hv⟩)⟩

/-- Exact verdicts leave no row missing. -/
theorem genS2_some (hexact : ∀ x ∈ gen perflocs, ExactCover legal [] x.2 (coverCsv x.1)) :
    ∃ files, genS2 perflocs coverCsv = some files := by
  have hrows : (perflocs.zipIdx.all fun (_, idx) => (dfQuery (coverCsv idx)).isSome) = true := by
    apply List.all_eq_true.mpr
    intro x hx
    have h := hexact (x.2, .bool (loc x.1)) (List.mem_map.mpr ⟨x, hx, rfl⟩)
    by_cases hreach : Reached legal [] (.bool (loc x.1))
    · simp [dfQuery, h.1 hreach]
    · simp [dfQuery, h.2 hreach]
  exact ⟨_, if_pos hrows⟩

theorem noS1T_holds {tr : Wave PL} {p : PL} : (noS1T p).Holds (observe tr) ↔ ¬Visits tr p := by
  simp [noS1T, Property.Holds, Visits]

/-- A covered location with a conflicting assumption is visited by every legal run. -/
theorem alwaysSet_visits (hnd : perflocs.Nodup) {files : List (Nat × Property (Sig PL))}
    (hfiles : genS2 perflocs coverCsv = some files)
    (hexact : ∀ x ∈ files, noConflictCsv x.1 = .cex ↔ ¬∃ tr ∈ legal, x.2.Holds (observe tr))
    {p : PL} (hp : p ∈ coverSet perflocs coverCsv) (ha : p ∈ alwaysSet perflocs noConflictCsv)
    {tr : Wave PL} (htr : tr ∈ legal) : Visits tr p := by
  obtain ⟨idx, hmem, hr⟩ := mem_coverSet.mp hp
  obtain ⟨idx', hmem', hr'⟩ : ∃ idx, (p, idx) ∈ perflocs.zipIdx ∧ noConflictCsv idx = .cex := by
    simpa [alwaysSet] using ha
  have hget := List.mem_zipIdx_iff_getElem?.mp hmem
  have hget' := List.mem_zipIdx_iff_getElem?.mp hmem'
  obtain rfl : idx = idx' :=
    (List.getElem?_inj (List.getElem?_eq_some_iff.mp hget).1 hnd).mp (hget.trans hget'.symm)
  have hfile : (idx, noS1T p) ∈ files := by
    unfold genS2 at hfiles
    split_ifs at hfiles
    rw [← Option.some.inj hfiles]
    exact List.mem_filterMap.mpr ⟨(p, idx), hmem, by simp [hr]⟩
  by_contra hv
  exact (hexact _ hfile).mp hr' ⟨tr, htr, noS1T_holds.mpr hv⟩

end Verdicts

end CoverAPerfloc

variable [DecidableEq PL] [DecidableEq IID]

namespace PairwiseDep

/-- The `xCommon` files and the map from a location to its first signal. -/
structure Common (PL IID : Type) where
  iidMap : PL → IID
  exclusiveSetIids : List (IID × IID)
  implicationSetIids : List (IID × IID)
  implicationSetPls : List (PL × PL)

inductive LogTag where
  | exclusive
  | impl
  | implPl
  deriving DecidableEq

inductive TodoProp where
  | imp
  | excl
  deriving DecidableEq

/-- A line of `todo.log`; `cnt` numbers the file written beside it. -/
structure Todo (PL : Type) where
  prop : TodoProp
  pl1 : PL
  pl2 : PL
  cnt : Nat
  deriving DecidableEq

/-- The cover in `nunv_anytwo_{cnt}.sv` or `exclusive_{cnt}.sv`. -/
def Todo.cover (t : Todo PL) : Seq (Sig PL) :=
  match t.prop with
  | .imp => pairDepT2 t.pl1 t.pl2
  | .excl => cTwoPlT t.pl1 t.pl2

structure GenState (PL : Type) where
  logSkip : List (LogTag × PL × PL) := []
  todolog : List (Todo PL) := []
  cnt : Nat := 0

variable (c : Common PL IID) (cvPerflocs : List PL)

def cntReachablePlsIid (pc : IID) : Nat := cvPerflocs.countP fun itm => c.iidMap itm = pc

def dom (pc1 pc2 : IID) : Bool :=
  cntReachablePlsIid c cvPerflocs pc1 == 1 && decide ((pc1, pc2) ∈ c.implicationSetIids)

def exclusiveAlready (p1 p2 : PL) : Bool :=
  decide ((c.iidMap p1, c.iidMap p2) ∈ c.exclusiveSetIids) ||
    decide ((c.iidMap p2, c.iidMap p1) ∈ c.exclusiveSetIids)

def logExclusive (p1 p2 : PL) (st : GenState PL) : GenState PL :=
  if exclusiveAlready c p1 p2 then
    { st with logSkip := st.logSkip ++ [(.exclusive, p1, p2)] }
  else st

/-- An implication known from the common facts is logged, any other one is asked unless the
pair is exclusive; a pair that is known to be both stops the script. -/
def logOrAskImp (p1 p2 : PL) (st : GenState PL) : Option (GenState PL) :=
  if dom c cvPerflocs (c.iidMap p1) (c.iidMap p2) then
    if exclusiveAlready c p1 p2 then none
    else some { st with logSkip := st.logSkip ++ [(.impl, p1, p2)] }
  else if (p1, p2) ∈ c.implicationSetPls then
    if exclusiveAlready c p1 p2 then none
    else some { st with logSkip := st.logSkip ++ [(.implPl, p1, p2)] }
  else if !exclusiveAlready c p1 p2 then
    some { st with todolog := st.todolog ++ [⟨.imp, p1, p2, st.cnt⟩] }
  else some st

def impAlready (p1 p2 : PL) : Bool :=
  dom c cvPerflocs (c.iidMap p1) (c.iidMap p2) || dom c cvPerflocs (c.iidMap p2) (c.iidMap p1) ||
    decide ((p2, p1) ∈ c.implicationSetPls) || decide ((p1, p2) ∈ c.implicationSetPls)

def askExcl (idx idx2 : Nat) (p1 p2 : PL) (st : GenState PL) : GenState PL :=
  if decide (idx < idx2) && !exclusiveAlready c p1 p2 && !impAlready c cvPerflocs p1 p2 then
    { st with todolog := st.todolog ++ [⟨.excl, p1, p2, st.cnt⟩] }
  else st

/-- Body of the double loop of `gen`. -/
def genStep (st : GenState PL) (x : (PL × Nat) × (PL × Nat)) : Option (GenState PL) :=
  let ((p1, idx), (p2, idx2)) := x
  if idx = idx2 then some st
  else do
    let st ← logOrAskImp c cvPerflocs p1 p2 (logExclusive c p1 p2 st)
    let st := askExcl c cvPerflocs idx idx2 p1 p2 st
    pure { st with cnt := st.cnt + 1 }

/-- Covered locations that are not visited by every run. -/
def perflocs (always : List PL) : List PL := cvPerflocs.filter fun itm => itm ∉ always

def gen (always : List PL) : Option (GenState PL) :=
  ((perflocs cvPerflocs always).zipIdx.product (perflocs cvPerflocs always).zipIdx).foldlM
    (genStep c cvPerflocs) {}

/-- The lists `pp` reads from the verdict files. -/
structure Verdicts (PL : Type) where
  exclu : List (PL × PL) := []
  dep : List (PL × PL) := []
  undeterminedExclu : List (PL × PL) := []
  undeterminedDep : List (PL × PL) := []

def ppStep (depCsv exclCsv : Nat → Result) (v : Verdicts PL) (t : Todo PL) :
    Option (Verdicts PL) := do
  match t.prop with
  | .excl =>
    let res ← dfQuery (exclCsv t.cnt)
    match res with
    | .unreachable => pure { v with exclu := v.exclu ++ [(t.pl1, t.pl2)] }
    | .undetermined => pure { v with undeterminedExclu := v.undeterminedExclu ++ [(t.pl1, t.pl2)] }
    | _ => pure v
  | .imp =>
    let res ← dfQuery (depCsv t.cnt)
    match res with
    | .unreachable => pure { v with dep := v.dep ++ [(t.pl1, t.pl2)] }
    | .undetermined => pure { v with undeterminedDep := v.undeterminedDep ++ [(t.pl1, t.pl2)] }
    | _ => pure v

structure Output (PL : Type) where
  implication : List (PL × PL)
  undeterminedImpl : List (PL × PL)
  exclusive : List (PL × PL)
  undeterminedExcl : List (PL × PL)
  deriving DecidableEq

def inLog (tags : List LogTag) (logSkip : List (LogTag × PL × PL)) : List (PL × PL) :=
  (logSkip.filter fun itm => itm.1 ∈ tags).map Prod.snd

def pp (st : GenState PL) (depCsv exclCsv : Nat → Result) : Option (Output PL) := do
  let v ← st.todolog.foldlM (ppStep depCsv exclCsv) {}
  pure { implication := v.dep ++ inLog [.impl, .implPl] st.logSkip
         undeterminedImpl := v.undeterminedDep
         exclusive := v.exclu ++ inLog [.exclusive] st.logSkip
         undeterminedExcl := v.undeterminedExclu }

section Facts

variable (legal : Set (Wave PL))

def Exclusive (u v : PL) : Prop := ∀ tr ∈ legal, ¬(Visits tr u ∧ Visits tr v)

/-- A pair of `implication.txt`: whoever visits `v` visits `u`. -/
def Implies (u v : PL) : Prop := ∀ tr ∈ legal, Visits tr v → Visits tr u

/-- The common facts hold on all legal runs. -/
structure CommonFacts : Prop where
  exclusiveIids : ∀ p q, p ≠ q → (c.iidMap p, c.iidMap q) ∈ c.exclusiveSetIids →
    Exclusive legal p q
  implicationIids : ∀ pc1 pc2, (pc1, pc2) ∈ c.implicationSetIids → ∀ tr ∈ legal, ∀ q,
    c.iidMap q = pc2 → Visits tr q → ∃ p, c.iidMap p = pc1 ∧ Visits tr p
  implicationPls : ∀ p q, (p, q) ∈ c.implicationSetPls → Implies legal p q

variable {c legal} {cv : List PL} (hcommon : CommonFacts c legal)
include hcommon

omit [DecidableEq PL] in
theorem exclusiveAlready_exclusive {p q : PL} (hne : p ≠ q)
    (h : exclusiveAlready c p q = true) : Exclusive legal p q := by
  simp only [exclusiveAlready, Bool.or_eq_true, decide_eq_true_eq] at h
  rcases h with h | h
  · exact hcommon.exclusiveIids p q hne h
  · intro tr htr hboth
    exact hcommon.exclusiveIids q p hne.symm h tr htr hboth.symm

variable (hcv : CoversVisited legal cv)
include hcv

omit [DecidableEq PL] in
/-- The location that is alone with its identifier among the covered ones is the one an
identifier-level implication is about. -/
theorem dom_implies {p q : PL} (hp : p ∈ cv)
    (h : dom c cv (c.iidMap p) (c.iidMap q) = true) : Implies legal p q := by
  simp only [dom, cntReachablePlsIid, Bool.and_eq_true, beq_iff_eq, decide_eq_true_eq] at h
  obtain ⟨hcount, hfact⟩ := h
  intro tr htr hvq
  obtain ⟨p', hiid, hvp'⟩ := hcommon.implicationIids _ _ hfact tr htr q rfl hvq
  have hp'cv := hcv.complete p' tr htr hvp'
  rw [List.countP_eq_length_filter, List.length_eq_one_iff] at hcount
  obtain ⟨r, hr⟩ := hcount
  have hpr : p ∈ [r] := by rw [← hr]; simp [hp]
  have hpr' : p' ∈ [r] := by rw [← hr]; simp [hp'cv, hiid]
  rw [List.mem_singleton.mp hpr, ← List.mem_singleton.mp hpr']
  exact hvp'

omit [DecidableEq PL] in
theorem not_exclusive_of_implies {p q : PL} (hq : q ∈ cv) (hne : p ≠ q)
    (himp : Implies legal p q) : exclusiveAlready c p q = false := by
  by_contra h
  have hex := exclusiveAlready_exclusive hcommon hne (by simpa using h)
  obtain ⟨tr, htr, hvq⟩ := hcv.visited q hq
  exact hex tr htr ⟨himp tr htr hvq, hvq⟩

end Facts

section Loops

variable (legal : Set (Wave PL))

def Fact : LogTag → PL → PL → Prop
  | .exclusive, u, v => Exclusive legal u v
  | .impl, u, v => Implies legal u v
  | .implPl, u, v => Implies legal u v

/-- Every logged line is true of all legal runs. -/
def LogSound (st : GenState PL) : Prop := ∀ tag u v, (tag, u, v) ∈ st.logSkip → Fact legal tag u v

variable {c legal} {cv : List PL} {p q : PL} {st : GenState PL}

omit [DecidableEq PL] in
theorem LogSound.append {tag : LogTag} (h : LogSound legal st) (hfact : Fact legal tag p q) :
    LogSound legal { st with logSkip := st.logSkip ++ [(tag, p, q)] } := by
  intro tag' u v hmem
  rcases List.mem_append.mp hmem with hold | hnew
  · exact h tag' u v hold
  · obtain ⟨rfl, rfl, rfl⟩ : tag' = tag ∧ u = p ∧ v = q := by simpa using hnew
    exact hfact

variable (hcommon : CommonFacts c legal) (hne : p ≠ q)
include hcommon hne

omit [DecidableEq PL] in
theorem logExclusive_sound (h : LogSound legal st) : LogSound legal (logExclusive c p q st) := by
  unfold logExclusive
  split_ifs with hex
  · exact h.append (exclusiveAlready_exclusive hcommon hne hex)
  · exact h

variable (hcv : CoversVisited legal cv) (hp : p ∈ cv) (hq : q ∈ cv)
include hcv hp hq

/-- The assertions hold: a covered location cannot be implied by one it excludes. -/
theorem logOrAskImp_sound (h : LogSound legal st) :
    ∃ st', logOrAskImp c cv p q st = some st' ∧ LogSound legal st' := by
  unfold logOrAskImp
  by_cases hdom : dom c cv (c.iidMap p) (c.iidMap q) = true
  · have himp := dom_implies hcommon hcv hp hdom
    have hex := not_exclusive_of_implies hcommon hcv hq hne himp
    rw [if_pos hdom, if_neg (by simp [hex])]
    exact ⟨_, rfl, h.append himp⟩
  · rw [if_neg hdom]
    by_cases hpl : (p, q) ∈ c.implicationSetPls
    · have himp := hcommon.implicationPls p q hpl
      have hex := not_exclusive_of_implies hcommon hcv hq hne himp
      rw [if_pos hpl, if_neg (by simp [hex])]
      exact ⟨_, rfl, h.append himp⟩
    · rw [if_neg hpl]
      split_ifs
      · exact ⟨_, rfl, h⟩
      · exact ⟨_, rfl, h⟩

theorem genStep_sound {idx idx2 : Nat} (h : LogSound legal st) :
    ∃ st', genStep c cv st ((p, idx), (q, idx2)) = some st' ∧ LogSound legal st' := by
  unfold genStep
  dsimp only
  split_ifs with hidx
  · exact ⟨st, rfl, h⟩
  · obtain ⟨st', hst', hs⟩ := logOrAskImp_sound hcommon hne hcv hp hq
      (logExclusive_sound hcommon hne h)
    rw [hst']
    refine ⟨_, rfl, ?_⟩
    unfold askExcl
    split_ifs
    · exact hs
    · exact hs

end Loops

/-- `gen` runs through, and what it logs is true. -/
theorem gen_sound (c : Common PL IID) (legal : Set (Wave PL)) (cv always : List PL)
    (hcommon : CommonFacts c legal) (hcv : CoversVisited legal cv) :
    ∃ st, gen c cv always = some st ∧ LogSound legal st := by
  have hnodup : (perflocs cv always).Nodup := hcv.nodup.filter _
  have hsub (p : PL) (hp : p ∈ perflocs cv always) : p ∈ cv := (List.mem_filter.mp hp).1
  refine Loop.foldlM_some _ (LogSound legal) _ _ ?_ (by simp [LogSound])
  intro st hst x hx
  obtain ⟨⟨p, idx⟩, q, idx2⟩ := x
  obtain ⟨hpidx, hqidx⟩ := List.mem_product.mp hx
  have hpmem := List.mem_zipIdx_iff_getElem?.mp hpidx
  have hqmem := List.mem_zipIdx_iff_getElem?.mp hqidx
  by_cases hidx : idx = idx2
  · exact ⟨st, by simp [genStep, hidx], hst⟩
  · have hne : p ≠ q := by
      intro heq
      subst heq
      apply hidx
      exact (List.getElem?_inj (List.getElem?_eq_some_iff.mp hpmem).1 hnodup).mp
        (hpmem.trans hqmem.symm)
    exact genStep_sound hcommon hne hcv (hsub p (List.fst_mem_of_mem_zipIdx hpidx))
      (hsub q (List.fst_mem_of_mem_zipIdx hqidx)) hst

omit [DecidableEq PL] in
theorem implies_of_not_reached {legal : Set (Wave PL)} {u v : PL}
    (h : ¬Reached legal [] (pairDepT2 u v)) : Implies legal u v := by
  intro tr htr hv
  obtain ⟨k, hk⟩ := hv
  by_contra hu
  apply h
  refine ⟨tr, htr, by simp [AllHold], (covered_bool _ _).mpr ⟨k + 1, ?_⟩⟩
  simp only [eval_and, eval_not, eval_sig, observe_hpn, hpn_eq_true_iff]
  refine ⟨?_, k, by omega, hk⟩
  intro hlate
  obtain ⟨j, _, hj⟩ := hlate
  exact hu ⟨j, hj⟩

omit [DecidableEq PL] in
theorem exclusive_of_not_reached {legal : Set (Wave PL)} {u v : PL}
    (h : ¬Reached legal [] (cTwoPlT u v)) : Exclusive legal u v := by
  intro tr htr hboth
  obtain ⟨⟨j, hj⟩, k, hk⟩ := hboth
  apply h
  refine ⟨tr, htr, by simp [AllHold], (covered_bool _ _).mpr ⟨max j k + 1, ?_⟩⟩
  simp only [eval_and, eval_sig, observe_hpn, hpn_eq_true_iff]
  exact ⟨⟨j, by omega, hj⟩, k, by omega, hk⟩

/-- What `pp` reads from exact verdicts: true pairs, and none left undetermined. -/
structure VerdictsSound (legal : Set (Wave PL)) (v : Verdicts PL) : Prop where
  exclu : ∀ u w, (u, w) ∈ v.exclu → Exclusive legal u w
  dep : ∀ u w, (u, w) ∈ v.dep → Implies legal u w
  undeterminedExclu : v.undeterminedExclu = []
  undeterminedDep : v.undeterminedDep = []

/-- Verdict file of a line of `todo.log`. -/
def Todo.csv (depCsv exclCsv : Nat → Result) (t : Todo PL) : Result :=
  match t.prop with
  | .imp => depCsv t.cnt
  | .excl => exclCsv t.cnt

omit [DecidableEq PL] in
theorem ppStep_sound {legal : Set (Wave PL)} {depCsv exclCsv : Nat → Result} {v : Verdicts PL}
    (t : Todo PL) (hexact : ExactCover legal [] t.cover (t.csv depCsv exclCsv))
    (h : VerdictsSound legal v) :
    ∃ v', ppStep depCsv exclCsv v t = some v' ∧ VerdictsSound legal v' := by
  obtain ⟨prop, u, w, cnt⟩ := t
  by_cases hreach : Reached legal [] (Todo.cover ⟨prop, u, w, cnt⟩)
  · have hr := hexact.1 hreach
    refine ⟨v, ?_, h⟩
    cases prop <;> simp only [Todo.csv] at hr <;> simp [ppStep, dfQuery, hr]
  · have hr := hexact.2 hreach
    cases prop with
    | imp =>
      simp only [Todo.csv] at hr
      refine ⟨{ v with dep := v.dep ++ [(u, w)] }, by simp [ppStep, dfQuery, hr], ?_⟩
      refine ⟨h.exclu, ?_, h.undeterminedExclu, h.undeterminedDep⟩
      intro u' w' hmem
      rcases List.mem_append.mp hmem with hold | hnew
      · exact h.dep u' w' hold
      · obtain ⟨rfl, rfl⟩ : u' = u ∧ w' = w := by simpa using hnew
        exact implies_of_not_reached hreach
    | excl =>
      simp only [Todo.csv] at hr
      refine ⟨{ v with exclu := v.exclu ++ [(u, w)] }, by simp [ppStep, dfQuery, hr], ?_⟩
      refine ⟨?_, h.dep, h.undeterminedExclu, h.undeterminedDep⟩
      intro u' w' hmem
      rcases List.mem_append.mp hmem with hold | hnew
      · exact h.exclu u' w' hold
      · obtain ⟨rfl, rfl⟩ : u' = u ∧ w' = w := by simpa using hnew
        exact exclusive_of_not_reached hreach

omit [DecidableEq PL] in
theorem mem_inLog {tags : List LogTag} {l : List (LogTag × PL × PL)} {u v : PL}
    (h : (u, v) ∈ inLog tags l) : ∃ tag ∈ tags, (tag, u, v) ∈ l := by
  obtain ⟨⟨tag, x⟩, hmem, rfl⟩ := List.mem_map.mp h
  obtain ⟨hmem, htag⟩ := List.mem_filter.mp hmem
  exact ⟨tag, by simpa using htag, hmem⟩

/-- The four files of `pp`. -/
structure OutputSound (legal : Set (Wave PL)) (o : Output PL) : Prop where
  implication : ∀ u v, (u, v) ∈ o.implication → Implies legal u v
  undeterminedImpl : o.undeterminedImpl = []
  exclusive : ∀ u v, (u, v) ∈ o.exclusive → Exclusive legal u v
  undeterminedExcl : o.undeterminedExcl = []

omit [DecidableEq PL] in
theorem pp_sound (legal : Set (Wave PL)) (st : GenState PL) (depCsv exclCsv : Nat → Result)
    (hlog : LogSound legal st)
    (hexact : ∀ t ∈ st.todolog, ExactCover legal [] t.cover (t.csv depCsv exclCsv)) :
    ∃ o, pp st depCsv exclCsv = some o ∧ OutputSound legal o := by
  obtain ⟨v, hrun, hv⟩ := Loop.foldlM_some (ppStep depCsv exclCsv) (VerdictsSound legal)
    st.todolog {} (fun v hv t ht => ppStep_sound t (hexact t ht) hv) ⟨by simp, by simp, rfl, rfl⟩
  refine ⟨_, by simp only [pp, hrun]; rfl, ?_, hv.undeterminedDep, ?_, hv.undeterminedExclu⟩
  · intro u w hmem
    rcases List.mem_append.mp hmem with hdep | hskip
    · exact hv.dep u w hdep
    · obtain ⟨tag, htag, hline⟩ := mem_inLog hskip
      have hfact := hlog tag u w hline
      rcases (by simpa using htag : tag = .impl ∨ tag = .implPl) with rfl | rfl
      · exact hfact
      · exact hfact
  · intro u w hmem
    rcases List.mem_append.mp hmem with hex | hskip
    · exact hv.exclu u w hex
    · obtain ⟨tag, htag, hline⟩ := mem_inLog hskip
      have hfact := hlog tag u w hline
      obtain rfl : tag = .exclusive := by simpa using htag
      exact hfact

end PairwiseDep

end SynthLC
