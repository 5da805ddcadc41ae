import SynthLC.BatchHistory
import SynthLC.IntragpFile
import SynthLC.PostProcAll

/-! `intrin_step1.py`, `intrin_step2.py`, `intrin_step3.py` and `intrin_pp.py`: whether the operands of
an instruction decide its own path. A decision is asked for the whole group, where that is covered
for each instruction, and where that is covered for each operand. After each step the script for
batches runs the new files, and the next step reads their results. -/
namespace SynthLC

namespace Intrin

open BatchRun

/-- What the steps are called with; `field_i_p` is the second column of `batch_transponder_2.txt`. -/
structure Call extends Dyn.Setup where
  fieldIp : OpField

/-- `TFIELD` -/
inductive TField where
  | rs1 | bothrs
  deriving DecidableEq

def tfield : OpField → TField
  | .rs1 => .rs1
  | _ => .bothrs

/-- `itself_template_prop` filled in. -/
structure SvFile where
  opTaint : Dyn.Taint
  instnConstraint : Dyn.Side
  decision : Dyn.Decision
  field : TField × Nat

/-- `{ID}_g.sv`, `{ID}_{i_p}.sv` and `{ID}_{i_p}_{tag}.sv` -/
inductive FileName where
  | group (cnt : Nat)
  | member (cnt : Nat) (ip : Instn)
  | operand (cnt : Nat) (ip : Instn) (op : Operand)
  deriving DecidableEq

def tag : Operand → Name
  | .rs1 => ['r', 's', '1']
  | .rs2 => ['r', 's', '2']

def FileName.base : FileName → Name
  | .group cnt => Nat.toDigits 10 cnt ++ ['_', 'g']
  | .member cnt ip => Nat.toDigits 10 cnt ++ '_' :: ip.name.toList
  | .operand cnt ip op => Nat.toDigits 10 cnt ++ '_' :: (ip.name.toList ++ '_' :: tag op)

/-- `group_{I}_IFT` -/
def groupFolder (ipId : Nat) : Name := "group_".toList ++ Nat.toDigits 10 ipId ++ "_IFT".toList

def itself (ipId : Nat) : Name := groupFolder ipId ++ "/itself".toList

def itselfPer (ipId : Nat) : Name := groupFolder ipId ++ "/itself_per".toList

def out (job : Name) : Name := job ++ "/out".toList

section Model

variable (s : Call) (cov : Dyn.Taint → Dyn.Side → Dyn.Decision → Bool)

def Call.job : FileName → Name
  | .operand _ _ _ => itselfPer s.ipId
  | _ => itself s.ipId

def Call.path (n : FileName) : Path := ⟨out (s.job n), n.base ++ ".sv".toList⟩

def Call.key (n : FileName) : Key := ⟨s.job n, n.base⟩

/-- The text of a file, for a decision. -/
def Call.svFile (x : Nat × List String) : FileName → SvFile
  | .group _ => ⟨Dyn.defineOpTaint s.fieldIp, .group s.ipId, s.decision x.2, (tfield s.fieldIp, x.1)⟩
  | .member _ ip =>
    ⟨Dyn.defineOpTaint s.fieldIp, .instn ip, s.decision x.2, (tfield s.fieldIp, x.1)⟩
  | .operand _ ip op => ⟨Dyn.ofOperand op, .instn ip, s.decision x.2, (tfield s.fieldIp, x.1)⟩

def Call.entry (x : Nat × List String) (n : FileName) : Path × SvFile := (s.path n, s.svFile x n)

/-- `df_query(df, "DEP_%s" % (TFIELD + str(cnt)))` on the results of a file. -/
def readCsv (d : Disk SvFile) (k : Key) (field : TField × Nat) : Option Bool := do
  let f ← d.csv.lookup k
  if f.field = field then pure (cov f.opTaint f.instnConstraint f.decision) else none

def intrinStep1 (d : Disk SvFile) : Disk SvFile :=
  s.cntFollowerSets.foldl (fun d x => d.write (s.entry x (.group x.1))) d

def step2Set (d : Disk SvFile) (x : Nat × List String) : Option (Disk SvFile) := do
  let res ← readCsv cov d (s.key (.group x.1)) (tfield s.fieldIp, x.1)
  pure (if res then s.ipInstns.foldl (fun d ip => d.write (s.entry x (.member x.1 ip))) d else d)

def intrinStep2 (d : Disk SvFile) : Option (Disk SvFile) :=
  s.cntFollowerSets.foldlM (step2Set s cov) d

/-- The assertion on a store, which the last two steps make whether it is covered or not. -/
def assertStore (afset : List String) (ip : Instn) : Option Unit :=
  if ip ∈ Dyn.stores then Dyn.skipStore s.toSetup afset ip else pure ()

def step3Member (x : Nat × List String) (d : Disk SvFile) (ip : Instn) : Option (Disk SvFile) := do
  let res ← readCsv cov d (s.key (.member x.1 ip)) (tfield s.fieldIp, x.1)
  assertStore s x.2 ip
  pure (if res ∧ ip ∉ Dyn.stores then
    [Operand.rs1, .rs2].foldl (fun d op => d.write (s.entry x (.operand x.1 ip op))) d else d)

def step3Set (d : Disk SvFile) (x : Nat × List String) : Option (Disk SvFile) := do
  let res ← readCsv cov d (s.key (.group x.1)) (tfield s.fieldIp, x.1)
  if res ∧ tfield s.fieldIp = .bothrs then s.ipInstns.foldlM (step3Member s cov x) d else pure d

def intrinStep3 (d : Disk SvFile) : Option (Disk SvFile) :=
  s.cntFollowerSets.foldlM (step3Set s cov) d

/-- Keys of `res_map`. -/
structure ResKey where
  ip : Instn
  op : Operand
  deriving DecidableEq

/-- `res_map`, from an instruction and an operand to the number of decisions that are tainted. -/
abbrev ResMap := List (ResKey × Nat)

def incr (k : ResKey) (m : ResMap) : ResMap := Dict.upsert k (· + 1) 1 m

def ppOperand (d : Disk SvFile) (x : Nat × List String) (ip : Instn) (m : ResMap) (op : Operand) :
    Option ResMap := do
  let res ← readCsv cov d (s.key (.operand x.1 ip op)) (tfield s.fieldIp, x.1)
  pure (if res then incr ⟨ip, op⟩ m else m)

def ppMember (d : Disk SvFile) (x : Nat × List String) (m : ResMap) (ip : Instn) :
    Option ResMap := do
  let res ← readCsv cov d (s.key (.member x.1 ip)) (tfield s.fieldIp, x.1)
  if res ∧ tfield s.fieldIp = .rs1 then pure (incr ⟨ip, .rs1⟩ m)
  else
    assertStore s x.2 ip
    if res ∧ ip ∈ Dyn.stores then pure (incr ⟨ip, .rs1⟩ m)
    else if res ∧ tfield s.fieldIp = .bothrs then
      [Operand.rs1, .rs2].foldlM (ppOperand s cov d x ip) m
    else pure m

def ppSet (d : Disk SvFile) (m : ResMap) (x : Nat × List String) : Option ResMap := do
  let res ← readCsv cov d (s.key (.group x.1)) (tfield s.fieldIp, x.1)
  if res then s.ipInstns.foldlM (ppMember s cov d x) m else pure m

/-- `rs1_res` and `rs2_res` -/
def resList (op : Operand) (m : ResMap) : List Instn :=
  (m.filter fun e => e.1.op = op ∧ 2 ≤ e.2).map (·.1.ip)

def intrinPp (d : Disk SvFile) : Option Bits := do
  let m ← s.cntFollowerSets.foldlM (ppSet s cov d) []
  pure ⟨s.ipInstns.all (· ∈ resList .rs1 m), s.ipInstns.all (· ∈ resList .rs2 m)⟩

end Model

section Names

theorem toDigits_injective : Function.Injective (Nat.toDigits 10) :=
  Function.LeftInverse.injective fun _ => Nat.ofDigitChars_toDigits (by decide) (by decide)

/-- What stands between the underscores of a name. -/
def FileName.parts : FileName → List Name
  | .group cnt => [Nat.toDigits 10 cnt, ['g']]
  | .member cnt ip => [Nat.toDigits 10 cnt, ip.name.toList]
  | .operand cnt ip op => [Nat.toDigits 10 cnt, ip.name.toList, tag op]

theorem base_eq_intercalate (n : FileName) : n.base = ['_'].intercalate n.parts := by
  cases n <;> simp [FileName.base, FileName.parts, List.intercalate]

/-- The parts of a name are letters and digits. -/
theorem isAlphanum_of_mem_parts {n : FileName} {part : Name} (hpart : part ∈ n.parts) {c : Char}
    (hc : c ∈ part) : c.isAlphanum = true := by
  have hdigits {cnt : Nat} (h : c ∈ Nat.toDigits 10 cnt) : c.isAlphanum = true := by
    change (c.isAlpha || c.isDigit) = true
    rw [Nat.isDigit_of_mem_toDigits (by decide) (by decide) h, Bool.or_true]
  have hname {ip : Instn} (h : c ∈ ip.name.toList) : c.isAlphanum = true := by
    change (c.isUpper || c.isLower || c.isDigit) = true
    rw [(Intragp.name_short ip).2 c h]
    rfl
  have hg : ∀ c ∈ ['g'], c.isAlphanum = true := by decide
  have htag : ∀ op, ∀ c ∈ tag op, c.isAlphanum = true := by
    intro op
    cases op <;> decide
  cases n with
  | group cnt =>
    obtain rfl | hpart := List.mem_cons.mp hpart
    · exact hdigits hc
    · rw [List.mem_singleton.mp hpart] at hc
      exact hg c hc
  | member cnt ip =>
    obtain rfl | hpart := List.mem_cons.mp hpart
    · exact hdigits hc
    · rw [List.mem_singleton.mp hpart] at hc
      exact hname hc
  | operand cnt ip op =>
    obtain rfl | hpart := List.mem_cons.mp hpart
    · exact hdigits hc
    · obtain rfl | hpart := List.mem_cons.mp hpart
      · exact hname hc
      · rw [List.mem_singleton.mp hpart] at hc
        exact htag op c hc

theorem not_mem_parts {c : Char} (h : c.isAlphanum = false) {n : FileName} {part : Name}
    (hpart : part ∈ n.parts) : c ∉ part := by
  intro hc
  rw [isAlphanum_of_mem_parts hpart hc] at h
  cases h

theorem tag_injective : Function.Injective tag := by
  intro op op' h
  cases op <;> cases op' <;> first | rfl | cases h

theorem parts_injective : Function.Injective FileName.parts := by
  have hname {ip ip' : Instn} (h : ip.name.toList = ip'.name.toList) : ip = ip' :=
    Intragp.name_injective (String.toList_inj.mp h)
  have hg (ip : Instn) : ip.name.toList ≠ ['g'] := by
    intro h
    exact Intragp.not_mem_name (by decide : ('g' : Char).isUpper = false) ip (by rw [h]; decide)
  intro n n' h
  cases n <;> cases n' <;> simp only [FileName.parts, List.cons.injEq, and_true, reduceCtorEq,
    and_false] at h
  case group.group => rw [toDigits_injective h]
  case group.member => exact absurd h.2.symm (hg _)
  case member.group => exact absurd h.2 (hg _)
  case member.member => rw [toDigits_injective h.1, hname h.2]
  case operand.operand => rw [toDigits_injective h.1, hname h.2.1, tag_injective h.2.2]

theorem parts_ne_nil (n : FileName) : n.parts ≠ [] := by
  cases n <;> exact List.cons_ne_nil _ _

/-- The names can be taken apart again, so no two files of the steps share one. -/
theorem base_injective : Function.Injective FileName.base := by
  intro n n' h
  rw [base_eq_intercalate, base_eq_intercalate] at h
  have hbar {n : FileName} (part : Name) (hpart : part ∈ n.parts) : '_' ∉ part :=
    not_mem_parts (by decide) hpart
  apply parts_injective
  rw [← List.splitOn_intercalate '_' hbar (parts_ne_nil n), h,
    List.splitOn_intercalate '_' hbar (parts_ne_nil n')]

theorem dot_not_mem_base (n : FileName) : '.' ∉ n.base := by
  rw [base_eq_intercalate]
  exact TextFile.not_mem_intercalate (by decide) fun part hpart =>
    not_mem_parts (by decide) hpart

theorem base_ne_nil (n : FileName) : n.base ≠ [] := by
  cases n <;> exact List.append_ne_nil_of_right_ne_nil _ (List.cons_ne_nil _ _)

end Names

section Files

variable {s : Call} {x : Nat × List String} {n : FileName}

/-- The jobs of a group, with the directories of their property files. -/
def jobs (ipId : Nat) : List (Name × Name) :=
  [(itself ipId, out (itself ipId)), (itselfPer ipId, out (itselfPer ipId))]

theorem itself_ne_itselfPer (ipId : Nat) : itself ipId ≠ itselfPer ipId := by
  intro h
  exact absurd (List.append_cancel_left h) (by decide)

theorem jobs_apart (ipId : Nat) : Apart (jobs ipId) where
  nodup := by
    have hne : (itself ipId, out (itself ipId)) ≠ (itselfPer ipId, out (itselfPer ipId)) := by
      intro h
      exact itself_ne_itselfPer ipId (congrArg Prod.fst h)
    simpa [jobs] using hne
  dir := by
    intro p hp p' hp' h
    have hout {p : Name × Name} (hp : p ∈ jobs ipId) : p.2 = out p.1 := by
      obtain rfl | hp := List.mem_cons.mp hp
      · rfl
      · rw [List.mem_singleton.mp hp]
    exact Prod.ext h (by rw [hout hp, hout hp', h])

/-- The files that may be written for a decision. -/
def Call.files (s : Call) (x : Nat × List String) : List FileName :=
  .group x.1 :: s.ipInstns.flatMap fun ip =>
    [.member x.1 ip, .operand x.1 ip .rs1, .operand x.1 ip .rs2]

/-- The files of all decisions. -/
def Call.wanted (s : Call) : List (Path × SvFile) :=
  s.cntFollowerSets.flatMap fun x => (s.files x).map (s.entry x)

theorem mem_wanted (hx : x ∈ s.cntFollowerSets) (hn : n ∈ s.files x) : s.entry x n ∈ s.wanted :=
  List.mem_flatMap.mpr ⟨x, hx, List.mem_map_of_mem hn⟩

theorem group_mem_files : .group x.1 ∈ s.files x := List.mem_cons_self

theorem member_mem_files {ip : Instn} (hip : ip ∈ s.ipInstns) : .member x.1 ip ∈ s.files x := by
  apply List.mem_cons_of_mem
  exact List.mem_flatMap.mpr ⟨ip, hip, List.mem_cons_self⟩

theorem operand_mem_files {ip : Instn} (hip : ip ∈ s.ipInstns) (op : Operand) :
    .operand x.1 ip op ∈ s.files x := by
  apply List.mem_cons_of_mem
  refine List.mem_flatMap.mpr ⟨ip, hip, ?_⟩
  cases op <;> simp

def FileName.cnt : FileName → Nat
  | .group cnt => cnt
  | .member cnt _ => cnt
  | .operand cnt _ _ => cnt

theorem cnt_of_mem_files (hn : n ∈ s.files x) : n.cnt = x.1 := by
  obtain rfl | hn := List.mem_cons.mp hn
  · rfl
  · obtain ⟨ip, _, hn⟩ := List.mem_flatMap.mp hn
    simp only [List.mem_cons, List.not_mem_nil, or_false] at hn
    obtain rfl | rfl | rfl := hn <;> rfl

theorem path_plain (s : Call) (n : FileName) : Plain (s.path n).file :=
  ⟨n.base, base_ne_nil n, dot_not_mem_base n, rfl⟩

theorem eq_of_path {s' : Call} {n' : FileName} (h : s.path n = s'.path n') : n = n' :=
  base_injective (List.append_cancel_right (congrArg Path.file h))

theorem prefixOf_path (s : Call) (n : FileName) :
    (⟨s.job n, prefixOf (s.path n).file⟩ : Key) = s.key n :=
  congrArg (Key.mk (s.job n)) (prefixOf_append_dot (dot_not_mem_base n))

theorem job_mem_jobs (s : Call) (n : FileName) : (s.job n, out (s.job n)) ∈ jobs s.ipId := by
  cases n with
  | operand cnt ip op => exact List.mem_cons_of_mem _ List.mem_cons_self
  | _ => exact List.mem_cons_self

end Files

section Stages

variable {s : Call} {cov : Dyn.Taint → Dyn.Side → Dyn.Decision → Bool} {d d' : Disk SvFile}
  {want new : List (Path × SvFile)} {x : Nat × List String} {n : FileName}

/-- The results of a file are there. -/
def HasResults (s : Call) (d : Disk SvFile) (x : Nat × List String) (n : FileName) : Prop :=
  d.csv.lookup (s.key n) = some (s.svFile x n)

/-- What the model checker says about a file. -/
def answer (s : Call) (cov : Dyn.Taint → Dyn.Side → Dyn.Decision → Bool) (x : Nat × List String)
    (n : FileName) : Bool :=
  cov (s.svFile x n).opTaint (s.svFile x n).instnConstraint (s.svFile x n).decision

theorem HasResults.readCsv (h : HasResults s d x n) :
    readCsv cov d (s.key n) (tfield s.fieldIp, x.1) = some (answer s cov x n) := by
  have hfield : (s.svFile x n).field = (tfield s.fieldIp, x.1) := by cases n <;> rfl
  unfold Intrin.readCsv
  rw [h]
  exact if_pos hfield

/-- Results stay where the script is called again. -/
theorem HasResults.called {pairs : List (Name × Name)} (h : HasResults s d x n)
    (hcall : Called pairs d d') : HasResults s d' x n :=
  hcall.csv (dot_not_mem_base n) h

theorem HasResults.wrote (h : HasResults s d x n) (hwrote : Wrote (jobs s.ipId) want d new d') :
    HasResults s d' x n := by
  unfold HasResults
  rw [hwrote.csv]
  exact h

/-- A call of the script for the job of a file gives it its results. -/
theorem hasResults_of_called (hsteady : Steady (jobs s.ipId) want d)
    (hcall : Called [(s.job n, out (s.job n))] d d') (hmem : s.entry x n ∈ d.sv) :
    HasResults s d' x n := by
  have hsub : [(s.job n, out (s.job n))] ⊆ jobs s.ipId :=
    List.cons_subset.mpr ⟨job_mem_jobs s n, List.nil_subset _⟩
  obtain ⟨hsv, hcomplete, _⟩ :=
    hsteady.called (jobs_apart s.ipId) (List.nodup_singleton _) hsub hcall
  have hcsv := hcomplete ⟨(s.path n).file, out (s.job n), s.job n⟩ List.mem_cons_self
    (path_plain s n).isProperty (s.svFile x n) (by rw [hsv]; exact hmem)
  rwa [Task.key, prefixOf_path] at hcsv

theorem intrinStep1_wrote (hsteady : Steady (jobs s.ipId) want d) (hwant : s.wanted ⊆ want) :
    Wrote (jobs s.ipId) want d (s.cntFollowerSets.map fun x => s.entry x (.group x.1))
      (intrinStep1 s d) := by
  apply Wrote.writes (fun x => s.entry x (.group x.1)) _ (Wrote.refl hsteady)
  intro x hx
  exact hwant (mem_wanted hx group_mem_files)

/-- Files of the second step. -/
def memberFiles (s : Call) (cov : Dyn.Taint → Dyn.Side → Dyn.Decision → Bool)
    (x : Nat × List String) : List (Path × SvFile) :=
  if answer s cov x (.group x.1) then s.ipInstns.map fun ip => s.entry x (.member x.1 ip) else []

theorem intrinStep2_wrote (cov : Dyn.Taint → Dyn.Side → Dyn.Decision → Bool)
    (hsteady : Steady (jobs s.ipId) want d) (hwant : s.wanted ⊆ want)
    (hgroup : ∀ x ∈ s.cntFollowerSets, HasResults s d x (.group x.1)) :
    ∃ d', intrinStep2 s cov d = some d' ∧
      Wrote (jobs s.ipId) want d (s.cntFollowerSets.flatMap (memberFiles s cov)) d' := by
  apply Loop.foldlM_collects (I := fun new d' => Wrote (jobs s.ipId) want d new d') _
    (Wrote.refl hsteady)
  intro new d' hnew x hx
  unfold step2Set
  rw [((hgroup x hx).wrote hnew).readCsv]
  refine ⟨_, rfl, ?_⟩
  unfold memberFiles
  split
  · apply hnew.writes fun ip => s.entry x (.member x.1 ip)
    intro ip hip
    exact hwant (mem_wanted hx (member_mem_files hip))
  · rwa [List.append_nil]

/-- Files of the third step for one instruction. -/
def operandFiles (s : Call) (cov : Dyn.Taint → Dyn.Side → Dyn.Decision → Bool)
    (x : Nat × List String) (ip : Instn) : List (Path × SvFile) :=
  if answer s cov x (.member x.1 ip) ∧ ip ∉ Dyn.stores then
    [Operand.rs1, .rs2].map fun op => s.entry x (.operand x.1 ip op) else []

theorem step3Member_wrote (hwant : s.wanted ⊆ want) (hx : x ∈ s.cntFollowerSets) {ip : Instn}
    (hip : ip ∈ s.ipInstns) (hassert : assertStore s x.2 ip = some ())
    (hmember : HasResults s d x (.member x.1 ip)) (hnew : Wrote (jobs s.ipId) want d new d') :
    ∃ d'', step3Member s cov x d' ip = some d'' ∧
      Wrote (jobs s.ipId) want d (new ++ operandFiles s cov x ip) d'' := by
  unfold step3Member
  rw [(hmember.wrote hnew).readCsv, hassert]
  refine ⟨_, rfl, ?_⟩
  unfold operandFiles
  split
  · apply hnew.writes fun op => s.entry x (.operand x.1 ip op)
    intro op _
    exact hwant (mem_wanted hx (operand_mem_files hip op))
  · rwa [List.append_nil]

def allOperandFiles (s : Call) (cov : Dyn.Taint → Dyn.Side → Dyn.Decision → Bool)
    (x : Nat × List String) : List (Path × SvFile) :=
  if answer s cov x (.group x.1) ∧ tfield s.fieldIp = .bothrs then
    s.ipInstns.flatMap (operandFiles s cov x) else []

theorem intrinStep3_wrote (hsteady : Steady (jobs s.ipId) want d) (hwant : s.wanted ⊆ want)
    (hgroup : ∀ x ∈ s.cntFollowerSets, HasResults s d x (.group x.1))
    (hmember : ∀ x ∈ s.cntFollowerSets, answer s cov x (.group x.1) = true →
      ∀ ip ∈ s.ipInstns, HasResults s d x (.member x.1 ip))
    (hassert : ∀ x ∈ s.cntFollowerSets, answer s cov x (.group x.1) = true →
      tfield s.fieldIp = .bothrs → ∀ ip ∈ s.ipInstns, assertStore s x.2 ip = some ()) :
    ∃ d', intrinStep3 s cov d = some d' ∧
      Wrote (jobs s.ipId) want d (s.cntFollowerSets.flatMap (allOperandFiles s cov)) d' := by
  apply Loop.foldlM_collects (I := fun new d' => Wrote (jobs s.ipId) want d new d') _
    (Wrote.refl hsteady)
  intro new d' hnew x hx
  unfold step3Set
  rw [((hgroup x hx).wrote hnew).readCsv]
  unfold allOperandFiles
  by_cases hres : answer s cov x (.group x.1) = true ∧ tfield s.fieldIp = .bothrs
  · rw [if_pos hres]
    obtain ⟨d'', hrun, hend⟩ := Loop.foldlM_collects
      (I := fun new d' => Wrote (jobs s.ipId) want d new d') (f := step3Member s cov x) (s := d')
      (fun new d' hnew ip hip => step3Member_wrote hwant hx hip
        (hassert x hx hres.1 hres.2 ip hip) (hmember x hx hres.1 ip hip) hnew) hnew
    exact ⟨d'', (if_pos hres).trans hrun, hend⟩
  · rw [if_neg hres, List.append_nil]
    exact ⟨d', if_neg hres, hnew⟩

end Stages

end Intrin

end SynthLC
