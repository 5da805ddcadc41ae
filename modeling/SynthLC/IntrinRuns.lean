import SynthLC.IntrinSteps

/-! The steps for the operands of an instruction itself, run for one decision source after another
with the script for batches between them, and what `intrin_pp.py` then counts. -/
namespace SynthLC

namespace Intrin

open BatchRun

section Counting

variable (s : Call) (cov : Dyn.Taint → Dyn.Side → Dyn.Decision → Bool)

/-- A decision is counted for an operand of an instruction. -/
def counted (ip : Instn) (op : Operand) (x : Nat × List String) : Bool :=
  answer s cov x (.group x.1) && answer s cov x (.member x.1 ip) &&
    if tfield s.fieldIp = .rs1 ∨ ip ∈ Dyn.stores then decide (op = .rs1)
    else answer s cov x (.operand x.1 ip op)

/-- All instructions have two decisions or more that are counted for the operand. -/
def tainted (op : Operand) : Bool :=
  s.ipInstns.all fun ip => decide (2 ≤ s.cntFollowerSets.countP (counted s cov ip op))

def flags : Bits := ⟨tainted s cov .rs1, tainted s cov .rs2⟩

/-- The assertions on stores that are made hold. -/
def storesPass : Bool :=
  s.cntFollowerSets.all fun x => !answer s cov x (.group x.1) ||
    s.ipInstns.all fun ip =>
      (decide (tfield s.fieldIp = .rs1) && answer s cov x (.member x.1 ip)) ||
        (assertStore s x.2 ip).isSome

/-- Keys that an instruction adds for a decision. -/
def memberKeys (x : Nat × List String) (ip : Instn) : List ResKey :=
  [Operand.rs1, .rs2].flatMap fun op => if counted s cov ip op x then [⟨ip, op⟩] else []

def setKeys (x : Nat × List String) : List ResKey := s.ipInstns.flatMap (memberKeys s cov x)

/-- The results that the last step reads. -/
structure Results (d : Disk SvFile) : Prop where
  group : ∀ x ∈ s.cntFollowerSets, HasResults s d x (.group x.1)
  member : ∀ x ∈ s.cntFollowerSets, answer s cov x (.group x.1) = true →
    ∀ ip ∈ s.ipInstns, HasResults s d x (.member x.1 ip)
  operand : ∀ x ∈ s.cntFollowerSets, answer s cov x (.group x.1) = true →
    tfield s.fieldIp = .bothrs → ∀ ip ∈ s.ipInstns, answer s cov x (.member x.1 ip) = true →
      ip ∉ Dyn.stores → ∀ op, HasResults s d x (.operand x.1 ip op)

variable {s} {cov} {d : Disk SvFile} {x : Nat × List String} {ip : Instn} {m : ResMap}
  {keys : List ResKey}

theorem tfield_cases (f : OpField) : tfield f = .rs1 ∨ tfield f = .bothrs := by
  cases f with
  | rs1 => exact .inl rfl
  | _ => exact .inr rfl

theorem storesPass_iff : storesPass s cov = true ↔
    ∀ x ∈ s.cntFollowerSets, answer s cov x (.group x.1) = true → ∀ ip ∈ s.ipInstns,
      ¬(tfield s.fieldIp = .rs1 ∧ answer s cov x (.member x.1 ip) = true) →
        assertStore s x.2 ip = some () := by
  have hunit (o : Option Unit) : o.isSome = true ↔ o = some () := by
    cases o <;> simp
  simp only [storesPass, List.all_eq_true, Bool.or_eq_true, Bool.not_eq_true', hunit,
    Bool.and_eq_true, decide_eq_true_eq, ← Bool.not_eq_true]
  apply forall₂_congr
  intro x _
  rw [or_iff_not_imp_left, not_not]
  apply imp_congr_right
  intro _
  apply forall₂_congr
  intro ip _
  rw [or_iff_not_imp_left]

theorem memberKeys_eq_nil (h : answer s cov x (.member x.1 ip) = false) :
    memberKeys s cov x ip = [] := by
  simp [memberKeys, counted, h]

/-- Where operands are not asked one by one, the count goes to `rs1`. -/
theorem memberKeys_whole (hgroup : answer s cov x (.group x.1) = true)
    (hmember : answer s cov x (.member x.1 ip) = true)
    (h : tfield s.fieldIp = .rs1 ∨ ip ∈ Dyn.stores) : memberKeys s cov x ip = [⟨ip, .rs1⟩] := by
  simp [memberKeys, counted, hgroup, hmember, h]

theorem ppOperand_tallies (hx : x ∈ s.cntFollowerSets) (hres : Results s cov d)
    (hgroup : answer s cov x (.group x.1) = true) (hip : ip ∈ s.ipInstns)
    (hmember : answer s cov x (.member x.1 ip) = true) (hfield : tfield s.fieldIp = .bothrs)
    (hstore : ip ∉ Dyn.stores) (h : Dict.Tallies keys m) (op : Operand) :
    ∃ m', ppOperand s cov d x ip m op = some m' ∧
      Dict.Tallies (keys ++ if counted s cov ip op x then [⟨ip, op⟩] else []) m' := by
  have hwhole : ¬(tfield s.fieldIp = .rs1 ∨ ip ∈ Dyn.stores) := by
    rw [hfield]
    simpa using hstore
  have hcounted : counted s cov ip op x = answer s cov x (.operand x.1 ip op) := by
    rw [counted, hgroup, hmember, if_neg hwhole]
    rfl
  unfold ppOperand
  rw [(hres.operand x hx hgroup hfield ip hip hmember hstore op).readCsv, hcounted]
  refine ⟨_, rfl, ?_⟩
  split
  · exact h.incr _
  · rwa [List.append_nil]

theorem ppMember_tallies (hx : x ∈ s.cntFollowerSets) (hres : Results s cov d)
    (hgroup : answer s cov x (.group x.1) = true) (hip : ip ∈ s.ipInstns)
    (hassert : ¬(tfield s.fieldIp = .rs1 ∧ answer s cov x (.member x.1 ip) = true) →
      assertStore s x.2 ip = some ()) (h : Dict.Tallies keys m) :
    ∃ m', ppMember s cov d x m ip = some m' ∧ Dict.Tallies (keys ++ memberKeys s cov x ip) m' := by
  unfold ppMember
  rw [(hres.member x hx hgroup ip hip).readCsv]
  cases hmember : answer s cov x (.member x.1 ip) with
  | false =>
    refine ⟨m, ?_, ?_⟩
    · simp [hassert (by simp [hmember])]
    · rwa [memberKeys_eq_nil hmember, List.append_nil]
  | true =>
    obtain hfield | hfield := tfield_cases s.fieldIp
    · rw [memberKeys_whole hgroup hmember (.inl hfield)]
      exact ⟨incr ⟨ip, .rs1⟩ m, by simp [hfield], h.incr _⟩
    · have hpass := hassert (by simp [hfield])
      by_cases hstore : ip ∈ Dyn.stores
      · rw [memberKeys_whole hgroup hmember (.inr hstore)]
        exact ⟨incr ⟨ip, .rs1⟩ m, by simp [hfield, hpass, hstore], h.incr _⟩
      · obtain ⟨m', hrun, hend⟩ := Loop.foldlM_collects (f := ppOperand s cov d x ip)
          (I := fun keys m => Dict.Tallies keys m)
          (fun keys m h op (_ : op ∈ [Operand.rs1, .rs2]) =>
            ppOperand_tallies hx hres hgroup hip hmember hfield hstore h op) h
        exact ⟨m', by simpa [hfield, hpass, hstore] using hrun, hend⟩

theorem setKeys_eq_nil (h : answer s cov x (.group x.1) = false) : setKeys s cov x = [] := by
  simp [setKeys, memberKeys, counted, h]

theorem ppSet_tallies (hpass : storesPass s cov = true) (hres : Results s cov d)
    (hx : x ∈ s.cntFollowerSets) (h : Dict.Tallies keys m) :
    ∃ m', ppSet s cov d m x = some m' ∧ Dict.Tallies (keys ++ setKeys s cov x) m' := by
  unfold ppSet
  rw [(hres.group x hx).readCsv]
  cases hgroup : answer s cov x (.group x.1) with
  | false =>
    refine ⟨m, rfl, ?_⟩
    rwa [setKeys_eq_nil hgroup, List.append_nil]
  | true =>
    apply Loop.foldlM_collects (I := fun keys m => Dict.Tallies keys m) _ h
    intro keys m h ip hip
    exact ppMember_tallies hx hres hgroup hip (storesPass_iff.mp hpass x hx hgroup ip hip) h

theorem count_memberKeys (ip' : Instn) (op : Operand) :
    (memberKeys s cov x ip').count ⟨ip, op⟩ =
      if ip' = ip then (if counted s cov ip op x then 1 else 0) else 0 := by
  by_cases hip : ip' = ip
  · subst hip
    cases op <;> cases h1 : counted s cov ip' .rs1 x <;> cases h2 : counted s cov ip' .rs2 x <;>
      simp [memberKeys, h1, h2]
  · rw [if_neg hip, List.count_eq_zero]
    intro hmem
    obtain ⟨op', _, hmem⟩ := List.mem_flatMap.mp hmem
    split at hmem
    · exact hip (congrArg ResKey.ip (List.mem_singleton.mp hmem)).symm
    · cases hmem

theorem count_setKeys (hip : ip ∈ s.ipInstns) (op : Operand) :
    ((s.cntFollowerSets.flatMap (setKeys s cov)).count ⟨ip, op⟩) =
      s.cntFollowerSets.countP (counted s cov ip op) := by
  have hset (x : Nat × List String) : (setKeys s cov x).count ⟨ip, op⟩ =
      if counted s cov ip op x then 1 else 0 := by
    rw [setKeys, List.count_flatMap]
    have hnd : (s.ipInstns.map id).Nodup := by
      rw [List.map_id]
      exact s.ip_nodup
    rw [← Loop.sum_map_key hnd hip fun ip => if counted s cov ip op x then 1 else 0]
    congr 1
    apply List.map_congr_left
    intro ip' _
    rw [Function.comp_apply, count_memberKeys, id, id]
    split
    · rw [‹ip' = ip›]
    · rfl
  rw [List.count_flatMap, ← Loop.sum_map_ite]
  congr 1
  apply List.map_congr_left
  intro x _
  exact hset x

theorem mem_resList (h : Dict.Tallies keys m) (op : Operand) :
    ip ∈ resList op m ↔ 2 ≤ keys.count ⟨ip, op⟩ := by
  rw [← h.reached (by decide)]
  simp only [resList, List.mem_map, List.mem_filter, decide_eq_true_eq]
  constructor
  · intro hex
    obtain ⟨e, ⟨he, hop, hle⟩, hip⟩ := hex
    refine ⟨e, he, ?_, hle⟩
    rw [← hip, ← hop]
  · intro hex
    obtain ⟨e, he, hkey, hle⟩ := hex
    exact ⟨e, ⟨he, by rw [hkey], hle⟩, by rw [hkey]⟩

/-- What the last step returns, from the results alone. -/
theorem intrinPp_eq (hpass : storesPass s cov = true) (hres : Results s cov d) :
    intrinPp s cov d = some (flags s cov) := by
  obtain ⟨m, hrun, htallies⟩ := Loop.foldlM_collects (f := ppSet s cov d)
    (I := fun keys m => Dict.Tallies keys m)
    (fun keys m h x (hx : x ∈ s.cntFollowerSets) => ppSet_tallies hpass hres hx h) Dict.Tallies.nil
  have hall (op : Operand) : s.ipInstns.all (· ∈ resList op m) = tainted s cov op := by
    rw [Bool.eq_iff_iff, tainted, List.all_eq_true, List.all_eq_true]
    apply forall₂_congr
    intro ip hip
    rw [decide_eq_true_iff, decide_eq_true_iff, mem_resList htallies, List.nil_append,
      count_setKeys hip]
  unfold intrinPp
  rw [hrun]
  exact congrArg some (by rw [hall, hall]; rfl)

end Counting

section Aborts

variable {s : Call} {cov : Dyn.Taint → Dyn.Side → Dyn.Decision → Bool} {d d' : Disk SvFile}
  {x : Nat × List String} {ip : Instn}

theorem csv_writes {α : Type} (f : α → Path × SvFile) (xs : List α) (d : Disk SvFile) :
    (xs.foldl (fun d x => d.write (f x)) d).csv = d.csv := by
  induction xs generalizing d with
  | nil => rfl
  | cons y xs ih => exact ih (d.write (f y))

theorem step3Member_csv (h : step3Member s cov x d ip = some d') : d'.csv = d.csv := by
  obtain ⟨res, _, h⟩ := Option.bind_eq_some_iff.mp h
  obtain ⟨_, _, h⟩ := Option.bind_eq_some_iff.mp h
  obtain rfl := Option.some.inj h
  split
  · exact csv_writes (fun op => s.entry x (.operand x.1 ip op)) [Operand.rs1, .rs2] d
  · rfl

theorem step3Set_csv (h : step3Set s cov d x = some d') : d'.csv = d.csv := by
  obtain ⟨res, _, h⟩ := Option.bind_eq_some_iff.mp h
  by_cases hres : res = true ∧ tfield s.fieldIp = .bothrs
  · have hrun := (if_pos hres).symm.trans h
    apply Loop.foldlM_inv (P := fun d' : Disk SvFile => d'.csv = d.csv) _ rfl hrun
    intro d₁ d₂ ip _ hcsv hstep
    exact (step3Member_csv hstep).trans hcsv
  · obtain rfl := Option.some.inj ((if_neg hres).symm.trans h)
    rfl

theorem HasResults.congr {n : FileName} (h : HasResults s d x n) (hcsv : d'.csv = d.csv) :
    HasResults s d' x n := by
  unfold HasResults
  rw [hcsv]
  exact h

/-- The third step fails on the assertion for a store of a group that has both operands. -/
theorem intrinStep3_eq_none (hx : x ∈ s.cntFollowerSets) (hgroup : HasResults s d x (.group x.1))
    (hres : answer s cov x (.group x.1) = true) (hfield : tfield s.fieldIp = .bothrs)
    (hip : ip ∈ s.ipInstns) (hmember : HasResults s d x (.member x.1 ip))
    (hassert : assertStore s x.2 ip = none) : intrinStep3 s cov d = none := by
  apply Loop.foldlM_eq_none (P := fun d' : Disk SvFile => d'.csv = d.csv) _ rfl hx
  · intro d₁ hcsv
    unfold step3Set
    rw [(hgroup.congr hcsv).readCsv]
    refine (if_pos ⟨hres, hfield⟩).trans ?_
    apply Loop.foldlM_eq_none (P := fun d' : Disk SvFile => d'.csv = d.csv) _ hcsv hip
    · intro d₂ hcsv
      unfold step3Member
      rw [(hmember.congr hcsv).readCsv, hassert]
      rfl
    · intro d₂ d₃ ip _ hcsv hstep
      exact (step3Member_csv hstep).trans hcsv
  · intro d₁ d₂ x _ hcsv hstep
    exact (step3Set_csv hstep).trans hcsv

/-- The last step fails on the assertion for a store that is not covered. -/
theorem intrinPp_eq_none (hx : x ∈ s.cntFollowerSets) (hgroup : HasResults s d x (.group x.1))
    (hres : answer s cov x (.group x.1) = true) (hip : ip ∈ s.ipInstns)
    (hmember : HasResults s d x (.member x.1 ip))
    (hno : answer s cov x (.member x.1 ip) = false)
    (hassert : assertStore s x.2 ip = none) : intrinPp s cov d = none := by
  have hsets : s.cntFollowerSets.foldlM (ppSet s cov d) [] = none := by
    apply Loop.foldlM_eq_none (P := fun _ => True) (fun _ _ _ _ _ _ => trivial) trivial hx
    intro m _
    unfold ppSet
    rw [hgroup.readCsv]
    refine (if_pos hres).trans ?_
    apply Loop.foldlM_eq_none (P := fun _ => True) (fun _ _ _ _ _ _ => trivial) trivial hip
    intro m _
    unfold ppMember
    rw [hmember.readCsv, hno, hassert]
    rfl
  unfold intrinPp
  rw [hsets]
  rfl

end Aborts

section Runs

variable {s : Call} {cov : Dyn.Taint → Dyn.Side → Dyn.Decision → Bool}
  {d d₁ e₂ d₂ e₃ d₃ : Disk SvFile} {want : List (Path × SvFile)}

/-- The commands that the steps return. -/
def RunItself (s : Call) : Disk SvFile → Disk SvFile → Prop :=
  Called [(itself s.ipId, out (itself s.ipId))]

def RunItselfPer (s : Call) : Disk SvFile → Disk SvFile → Prop :=
  Called [(itselfPer s.ipId, out (itselfPer s.ipId))]

theorem runItself_steady (hsteady : Steady (jobs s.ipId) want d) (h : RunItself s d d₁) :
    Steady (jobs s.ipId) want d₁ := by
  have hsub : [(itself s.ipId, out (itself s.ipId))] ⊆ jobs s.ipId :=
    List.cons_subset.mpr ⟨job_mem_jobs s (.group 0), List.nil_subset _⟩
  exact (hsteady.called (jobs_apart s.ipId) (List.nodup_singleton _) hsub h).2.2

theorem runItselfPer_steady (hsteady : Steady (jobs s.ipId) want d) (h : RunItselfPer s d d₁) :
    Steady (jobs s.ipId) want d₁ := by
  have hsub : [(itselfPer s.ipId, out (itselfPer s.ipId))] ⊆ jobs s.ipId :=
    List.cons_subset.mpr ⟨job_mem_jobs s (.operand 0 .ADD .rs1), List.nil_subset _⟩
  exact (hsteady.called (jobs_apart s.ipId) (List.nodup_singleton _) hsub h).2.2

theorem group_results (hsteady : Steady (jobs s.ipId) want d) (hwant : s.wanted ⊆ want)
    (h : RunItself s (intrinStep1 s d) d₁) :
    Steady (jobs s.ipId) want d₁ ∧ ∀ x ∈ s.cntFollowerSets, HasResults s d₁ x (.group x.1) := by
  have hwrote := intrinStep1_wrote hsteady hwant
  refine ⟨runItself_steady hwrote.steady h, ?_⟩
  intro x hx
  apply hasResults_of_called (n := .group x.1) hwrote.steady h
  exact hwrote.new _ (List.mem_map_of_mem hx)

theorem member_results (hsteady : Steady (jobs s.ipId) want d₁) (hwant : s.wanted ⊆ want)
    (hgroup : ∀ x ∈ s.cntFollowerSets, HasResults s d₁ x (.group x.1))
    (hrun : intrinStep2 s cov d₁ = some e₂) (h : RunItself s e₂ d₂) :
    Steady (jobs s.ipId) want d₂ ∧
      (∀ x ∈ s.cntFollowerSets, HasResults s d₂ x (.group x.1)) ∧
      ∀ x ∈ s.cntFollowerSets, answer s cov x (.group x.1) = true →
        ∀ ip ∈ s.ipInstns, HasResults s d₂ x (.member x.1 ip) := by
  obtain ⟨e, hrun', hwrote⟩ := intrinStep2_wrote cov hsteady hwant hgroup
  obtain rfl := Option.some.inj (hrun'.symm.trans hrun)
  refine ⟨runItself_steady hwrote.steady h, ?_, ?_⟩
  · intro x hx
    exact ((hgroup x hx).wrote hwrote).called h
  · intro x hx hres ip hip
    apply hasResults_of_called (n := .member x.1 ip) hwrote.steady h
    apply hwrote.new
    refine List.mem_flatMap.mpr ⟨x, hx, ?_⟩
    rw [memberFiles, if_pos hres]
    exact List.mem_map_of_mem hip

theorem operand_results (hsteady : Steady (jobs s.ipId) want d₂) (hwant : s.wanted ⊆ want)
    (hgroup : ∀ x ∈ s.cntFollowerSets, HasResults s d₂ x (.group x.1))
    (hmember : ∀ x ∈ s.cntFollowerSets, answer s cov x (.group x.1) = true →
      ∀ ip ∈ s.ipInstns, HasResults s d₂ x (.member x.1 ip))
    (hassert : ∀ x ∈ s.cntFollowerSets, answer s cov x (.group x.1) = true →
      tfield s.fieldIp = .bothrs → ∀ ip ∈ s.ipInstns, assertStore s x.2 ip = some ()) :
    ∃ e₃, intrinStep3 s cov d₂ = some e₃ ∧
      ∀ d₃, RunItselfPer s e₃ d₃ → Steady (jobs s.ipId) want d₃ ∧ Results s cov d₃ := by
  obtain ⟨e₃, hrun, hwrote⟩ := intrinStep3_wrote hsteady hwant hgroup hmember hassert
  refine ⟨e₃, hrun, ?_⟩
  intro d₃ h
  refine ⟨runItselfPer_steady hwrote.steady h, ?_, ?_, ?_⟩
  · intro x hx
    exact ((hgroup x hx).wrote hwrote).called h
  · intro x hx hres ip hip
    exact ((hmember x hx hres ip hip).wrote hwrote).called h
  · intro x hx hres hfield ip hip hcov hstore op
    apply hasResults_of_called (n := .operand x.1 ip op) hwrote.steady h
    apply hwrote.new
    refine List.mem_flatMap.mpr ⟨x, hx, ?_⟩
    rw [allOperandFiles, if_pos ⟨hres, hfield⟩]
    refine List.mem_flatMap.mpr ⟨ip, hip, ?_⟩
    rw [operandFiles, if_pos ⟨hcov, hstore⟩]
    apply List.mem_map_of_mem
    cases op <;> simp

/-- The steps for one decision source, with the script called after each; without flags where a
step has failed. -/
inductive Ran (s : Call) (cov : Dyn.Taint → Dyn.Side → Dyn.Decision → Bool) (d : Disk SvFile) :
    Option Bits → Disk SvFile → Prop
  | step2 {d₁ : Disk SvFile} (h₁ : RunItself s (intrinStep1 s d) d₁)
      (hstop : intrinStep2 s cov d₁ = none) : Ran s cov d none d₁
  | step3 {d₁ e₂ d₂ : Disk SvFile} (h₁ : RunItself s (intrinStep1 s d) d₁)
      (hrun₂ : intrinStep2 s cov d₁ = some e₂) (h₂ : RunItself s e₂ d₂)
      (hstop : intrinStep3 s cov d₂ = none) : Ran s cov d none d₂
  | pp {d₁ e₂ d₂ e₃ d₃ : Disk SvFile} (h₁ : RunItself s (intrinStep1 s d) d₁)
      (hrun₂ : intrinStep2 s cov d₁ = some e₂) (h₂ : RunItself s e₂ d₂)
      (hrun₃ : intrinStep3 s cov d₂ = some e₃) (h₃ : RunItselfPer s e₃ d₃) :
      Ran s cov d (intrinPp s cov d₃) d₃

theorem exists_ran (s : Call) (cov : Dyn.Taint → Dyn.Side → Dyn.Decision → Bool)
    (d : Disk SvFile) : ∃ r d', Ran s cov d r d' := by
  obtain ⟨d₁, h₁⟩ : ∃ d₁, RunItself s (intrinStep1 s d) d₁ := exists_called _ _
  cases hrun₂ : intrinStep2 s cov d₁ with
  | none => exact ⟨none, d₁, .step2 h₁ hrun₂⟩
  | some e₂ =>
    obtain ⟨d₂, h₂⟩ : ∃ d₂, RunItself s e₂ d₂ := exists_called _ _
    cases hrun₃ : intrinStep3 s cov d₂ with
    | none => exact ⟨none, d₂, .step3 h₁ hrun₂ h₂ hrun₃⟩
    | some e₃ =>
      obtain ⟨d₃, h₃⟩ : ∃ d₃, RunItselfPer s e₃ d₃ := exists_called _ _
      exact ⟨_, d₃, .pp h₁ hrun₂ h₂ hrun₃ h₃⟩

/-- An assertion on a store that fails is one of a group with both operands, or of an instruction
that is not covered. -/
theorem exists_of_not_storesPass (h : storesPass s cov = false) : ∃ x ∈ s.cntFollowerSets,
    answer s cov x (.group x.1) = true ∧ ∃ ip ∈ s.ipInstns, assertStore s x.2 ip = none ∧
      (tfield s.fieldIp = .bothrs ∨ answer s cov x (.member x.1 ip) = false) := by
  rw [← Bool.not_eq_true, storesPass_iff] at h
  push Not at h
  obtain ⟨x, hx, hres, ip, hip, hcases, hassert⟩ := h
  refine ⟨x, hx, hres, ip, hip, ?_, ?_⟩
  · cases ho : assertStore s x.2 ip with
    | none => rfl
    | some u => exact absurd ho hassert
  · obtain hfield | hfield := tfield_cases s.fieldIp
    · exact .inr (Bool.eq_false_iff.mpr (hcases hfield))
    · exact .inl hfield

/-- In every interleaving the steps return the flags, or fail if an assertion on a store does. -/
theorem Ran.eq_flags {r : Option Bits} {d' : Disk SvFile} (h : Ran s cov d r d')
    (hsteady : Steady (jobs s.ipId) want d) (hwant : s.wanted ⊆ want) :
    Steady (jobs s.ipId) want d' ∧ r = if storesPass s cov then some (flags s cov) else none := by
  cases h with
  | step2 h₁ hstop =>
    obtain ⟨hsteady₁, hgroup⟩ := group_results hsteady hwant h₁
    obtain ⟨e, hrun, _⟩ := intrinStep2_wrote cov hsteady₁ hwant hgroup
    cases hstop.symm.trans hrun
  | step3 h₁ hrun₂ h₂ hstop =>
    obtain ⟨hsteady₁, hgroup⟩ := group_results hsteady hwant h₁
    obtain ⟨hsteady₂, hgroup, hmember⟩ := member_results hsteady₁ hwant hgroup hrun₂ h₂
    refine ⟨hsteady₂, ?_⟩
    cases hpass : storesPass s cov with
    | false => rfl
    | true =>
      obtain ⟨e₃, hrun₃, _⟩ := operand_results hsteady₂ hwant hgroup hmember
        fun x hx hres hfield ip hip =>
          storesPass_iff.mp hpass x hx hres ip hip (by simp [hfield])
      cases hstop.symm.trans hrun₃
  | pp h₁ hrun₂ h₂ hrun₃ h₃ =>
    obtain ⟨hsteady₁, hgroup⟩ := group_results hsteady hwant h₁
    obtain ⟨hsteady₂, hgroup, hmember⟩ := member_results hsteady₁ hwant hgroup hrun₂ h₂
    -- the third step has not failed, so its assertions held
    have hassert : ∀ x ∈ s.cntFollowerSets, answer s cov x (.group x.1) = true →
        tfield s.fieldIp = .bothrs → ∀ ip ∈ s.ipInstns, assertStore s x.2 ip = some () := by
      intro x hx hres hfield ip hip
      cases ho : assertStore s x.2 ip with
      | some u => rfl
      | none =>
        have hstop := intrinStep3_eq_none hx (hgroup x hx) hres hfield hip
          (hmember x hx hres ip hip) ho
        cases hstop.symm.trans hrun₃
    obtain ⟨e, hrun, hend⟩ := operand_results hsteady₂ hwant hgroup hmember hassert
    obtain rfl := Option.some.inj (hrun.symm.trans hrun₃)
    obtain ⟨hsteady₃, hresults⟩ := hend _ h₃
    refine ⟨hsteady₃, ?_⟩
    cases hpass : storesPass s cov with
    | true => exact intrinPp_eq hpass hresults
    | false =>
      obtain ⟨x, hx, hres, ip, hip, hnone, hcases⟩ := exists_of_not_storesPass hpass
      obtain hfield | hno := hcases
      · cases hnone.symm.trans (hassert x hx hres hfield ip hip)
      · exact intrinPp_eq_none hx (hresults.group x hx) hres hip (hresults.member x hx hres ip hip)
          hno hnone

/-- The decision sources of a group one after another; a step that fails ends the run. -/
inductive Runs (cov : Dyn.Taint → Dyn.Side → Dyn.Decision → Bool) :
    List Call → Disk SvFile → List Bits → Disk SvFile → Prop
  | done (d : Disk SvFile) : Runs cov [] d [] d
  | next {s : Call} {ss : List Call} {d d₁ d₂ : Disk SvFile} {r : Bits} {rs : List Bits}
      (h : Ran s cov d (some r) d₁) (hrest : Runs cov ss d₁ rs d₂) : Runs cov (s :: ss) d (r :: rs) d₂
  | stops {s : Call} {ss : List Call} {d d₁ : Disk SvFile} (h : Ran s cov d none d₁) :
      Runs cov (s :: ss) d [] d₁

theorem exists_runs (cov : Dyn.Taint → Dyn.Side → Dyn.Decision → Bool) (calls : List Call)
    (d : Disk SvFile) : ∃ rs d', Runs cov calls d rs d' := by
  induction calls generalizing d with
  | nil => exact ⟨[], d, .done d⟩
  | cons s ss ih =>
    obtain ⟨r, d₁, h⟩ := exists_ran s cov d
    cases r with
    | none => exact ⟨[], d₁, .stops h⟩
    | some r =>
      obtain ⟨rs, d', hrest⟩ := ih d₁
      exact ⟨r :: rs, d', .next h hrest⟩

theorem Runs.eq_flags {ipId : Nat} {calls : List Call} (hip : ∀ s ∈ calls, s.ipId = ipId)
    (hwant : ∀ s ∈ calls, s.wanted ⊆ want) (hsteady : Steady (jobs ipId) want d) {rs : List Bits}
    {d' : Disk SvFile} (h : Runs cov calls d rs d') :
    rs = (calls.takeWhile (storesPass · cov)).map (flags · cov) := by
  induction h with
  | done d => rfl
  | next h _ ih =>
    obtain rfl := hip _ List.mem_cons_self
    obtain ⟨hsteady₁, hr⟩ := h.eq_flags hsteady (hwant _ List.mem_cons_self)
    split at hr
    · have hrest := ih (fun s hs => hip s (List.mem_cons_of_mem _ hs))
        (fun s hs => hwant s (List.mem_cons_of_mem _ hs)) hsteady₁
      rw [List.takeWhile_cons_of_pos ‹_›, List.map_cons, ← hrest, Option.some.inj hr]
    · cases hr
  | stops h =>
    obtain rfl := hip _ List.mem_cons_self
    obtain ⟨_, hr⟩ := h.eq_flags hsteady (hwant _ List.mem_cons_self)
    split at hr
    · cases hr
    · rw [List.takeWhile_cons_of_neg ‹_›]
      rfl

end Runs

section Group

variable {ipId : Nat} {calls : List Call} {cov : Dyn.Taint → Dyn.Side → Dyn.Decision → Bool}
  {d : Disk SvFile}

/-- Calls for the decision sources of one group. The numbers of decisions come from the lines of the
file they are read from. -/
structure OfGroup (ipId : Nat) (calls : List Call) : Prop where
  group : ∀ s ∈ calls, s.ipId = ipId
  cnt_nodup : (calls.flatMap fun s => s.cntFollowerSets.map Prod.fst).Nodup

theorem OfGroup.eq_of_cnt (h : OfGroup ipId calls) {s s' : Call} (hs : s ∈ calls) (hs' : s' ∈ calls)
    {x x' : Nat × List String} (hx : x ∈ s.cntFollowerSets) (hx' : x' ∈ s'.cntFollowerSets)
    (hcnt : x.1 = x'.1) : s = s' ∧ x = x' := by
  have hnd : ((calls.flatMap fun s => s.cntFollowerSets.map (Prod.mk s)).map
      fun p => p.2.1).Nodup := by
    simpa [List.map_flatMap, Function.comp_def] using h.cnt_nodup
  have hmem {s : Call} {x : Nat × List String} (hs : s ∈ calls) (hx : x ∈ s.cntFollowerSets) :
      (s, x) ∈ calls.flatMap fun s => s.cntFollowerSets.map (Prod.mk s) :=
    List.mem_flatMap.mpr ⟨s, hs, List.mem_map_of_mem hx⟩
  exact Prod.ext_iff.mp (List.inj_on_of_nodup_map hnd (hmem hs hx) (hmem hs' hx') hcnt)

/-- No two files of a group share a name, so each has one text. -/
theorem OfGroup.wanted (h : OfGroup ipId calls) {e e' : Path × SvFile}
    (he : e ∈ calls.flatMap Call.wanted) (he' : e' ∈ calls.flatMap Call.wanted)
    (hpath : e.1 = e'.1) : e = e' := by
  obtain ⟨s, hs, he⟩ := List.mem_flatMap.mp he
  obtain ⟨x, hx, he⟩ := List.mem_flatMap.mp he
  obtain ⟨n, hn, rfl⟩ := List.mem_map.mp he
  obtain ⟨s', hs', he'⟩ := List.mem_flatMap.mp he'
  obtain ⟨x', hx', he'⟩ := List.mem_flatMap.mp he'
  obtain ⟨n', hn', rfl⟩ := List.mem_map.mp he'
  obtain rfl : n = n' := eq_of_path hpath
  have hcnt : x.1 = x'.1 := (cnt_of_mem_files hn).symm.trans (cnt_of_mem_files hn')
  obtain ⟨rfl, rfl⟩ := h.eq_of_cnt hs hs' hx hx' hcnt
  rfl

theorem wanted_subset {s : Call} (hs : s ∈ calls) : s.wanted ⊆ calls.flatMap Call.wanted := by
  intro e he
  exact List.mem_flatMap.mpr ⟨s, hs, he⟩

theorem OfGroup.steady_empty (h : OfGroup ipId calls) :
    Steady (jobs ipId) (calls.flatMap Call.wanted) emptyDisk := by
  apply emptyDisk_steady
  · intro e he e' he' hpath
    exact h.wanted he he' hpath
  · intro e he
    obtain ⟨s, _, he⟩ := List.mem_flatMap.mp he
    obtain ⟨x, _, he⟩ := List.mem_flatMap.mp he
    obtain ⟨n, _, rfl⟩ := List.mem_map.mp he
    exact path_plain s n

/-- Only `rs1` is covered, and for the first source. -/
def issueRs1 (t : Dyn.Taint) (_ : Dyn.Side) (dec : Dyn.Decision) : Bool :=
  decide (t ≠ .rs2) && decide (dec.decnode = "issue_s1")

/-- Taint of more, or of more instructions, covers what taint of less does. A store is covered
through its address only. -/
structure Monotone (s : Call) (cov : Dyn.Taint → Dyn.Side → Dyn.Decision → Bool) : Prop where
  group : ∀ ip ∈ s.ipInstns, ∀ taint dec, cov taint (.instn ip) dec = true →
    cov taint (.group s.ipId) dec = true
  both : ∀ op side dec, cov (Dyn.ofOperand op) side dec = true → cov .both side dec = true
  store : ∀ ip ∈ s.ipInstns, ip ∈ Dyn.stores → ∀ dec, cov .rs2 (.instn ip) dec = false ∧
    (cov .both (.instn ip) dec = true → cov .rs1 (.instn ip) dec = true)

/-- The flag if every instruction and decision were asked for the operand; a group with one operand
has the flag of that one only. -/
def exhaustive (s : Call) (cov : Dyn.Taint → Dyn.Side → Dyn.Decision → Bool) (op : Operand) : Bool :=
  decide (tfield s.fieldIp = .rs1 → op = .rs1) && s.ipInstns.all fun ip =>
    decide (2 ≤ s.cntFollowerSets.countP fun x => cov (Dyn.ofOperand op) (.instn ip) (s.decision x.2))

theorem defineOpTaint_eq (f : OpField) :
    Dyn.defineOpTaint f = if tfield f = .rs1 then .rs1 else .both := by
  cases f <;> rfl

theorem counted_eq {s : Call} (hmono : Monotone s cov) {ip : Instn} (hip : ip ∈ s.ipInstns)
    (op : Operand) (x : Nat × List String) : counted s cov ip op x =
      (decide (tfield s.fieldIp = .rs1 → op = .rs1) &&
        cov (Dyn.ofOperand op) (.instn ip) (s.decision x.2)) := by
  have hgroup := hmono.group ip hip (Dyn.defineOpTaint s.fieldIp) (s.decision x.2)
  have hboth := hmono.both op (.instn ip) (s.decision x.2)
  have hstore := hmono.store ip hip
  rw [Bool.eq_iff_iff]
  simp only [counted, answer, Call.svFile, Bool.and_eq_true, decide_eq_true_eq]
  rw [defineOpTaint_eq] at hgroup ⊢
  obtain hfield | hfield := tfield_cases s.fieldIp
  · rw [hfield, if_pos rfl] at hgroup ⊢
    rw [if_pos (.inl rfl)]
    cases op with
    | rs1 => simpa [Dyn.ofOperand] using hgroup
    | rs2 => simp
  · rw [hfield, if_neg (by decide)] at hgroup ⊢
    simp only [reduceCtorEq, false_or, false_implies, true_and]
    split
    · obtain ⟨hrs2, hrs1⟩ := hstore ‹_› (s.decision x.2)
      cases op with
      | rs1 =>
        simp only [decide_eq_true_eq, and_true, Dyn.ofOperand] at hboth ⊢
        exact ⟨fun h => hrs1 h.2, fun h => ⟨hgroup (hboth h), hboth h⟩⟩
      | rs2 => simp [Dyn.ofOperand, hrs2]
    · exact ⟨fun h => h.2, fun h => ⟨⟨hgroup (hboth h), hboth h⟩, h⟩⟩

theorem tainted_eq {s : Call} (hmono : Monotone s cov) (op : Operand) :
    tainted s cov op = exhaustive s cov op := by
  have hcount {ip : Instn} (hip : ip ∈ s.ipInstns) :
      s.cntFollowerSets.countP (counted s cov ip op) = s.cntFollowerSets.countP fun x =>
        (decide (tfield s.fieldIp = .rs1 → op = .rs1) &&
          cov (Dyn.ofOperand op) (.instn ip) (s.decision x.2)) := by
    congr 1
    funext x
    exact counted_eq hmono hip op x
  rw [Bool.eq_iff_iff, tainted, exhaustive, List.all_eq_true, Bool.and_eq_true, List.all_eq_true]
  by_cases hop : tfield s.fieldIp = .rs1 → op = .rs1
  · simp only [decide_eq_true hop, true_and]
    apply forall₂_congr
    intro ip hip
    rw [hcount hip, decide_eq_true hop]
    simp only [Bool.true_and]
  · simp only [decide_eq_false hop, Bool.false_eq_true, false_and, iff_false]
    intro hall
    obtain ⟨ip, hip⟩ := List.exists_mem_of_ne_nil _ s.ip_ne
    have htwo := hall ip hip
    rw [hcount hip, decide_eq_false hop] at htwo
    simp at htwo

/-- Where the model checker answers monotonically, asking groups first and operands last loses
nothing: the flags are those of all instructions and decisions asked for each operand. -/
theorem Runs.eq_exhaustive (h : OfGroup ipId calls) (hmono : ∀ s ∈ calls, Monotone s cov)
    (hsteady : Steady (jobs ipId) (calls.flatMap Call.wanted) d) {rs : List Bits} {d' : Disk SvFile}
    (hruns : Runs cov calls d rs d') : rs = (calls.takeWhile (storesPass · cov)).map fun s =>
      ⟨exhaustive s cov .rs1, exhaustive s cov .rs2⟩ := by
  rw [hruns.eq_flags h.group (fun s hs => wanted_subset hs) hsteady]
  apply List.map_congr_left
  intro s hs
  have hs : Monotone s cov := hmono s ((List.takeWhile_sublist _).subset hs)
  rw [flags, tainted_eq hs, tainted_eq hs]

end Group

end Intrin

end SynthLC
