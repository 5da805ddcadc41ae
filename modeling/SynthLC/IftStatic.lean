import SynthLC.IftHeader

/-! `common_header_2flag.sv` with `STATIC`: the taint of `i1` in the registers is reset once, after `i1`
has left the pipeline and before `i0` enters it. A second flag marks what is read in between. -/
namespace SynthLC.IftStatic

open IftHeader

/-- What the header reads besides: `i1_in_some_pl`, the reset inputs `rstt0` of all modules, the
second taint flag of the two operands, and whether a location's first flag is set. -/
structure In extends IftHeader.In where
  i1InSomePl : Bool
  rstt0Agg : BitVec 19
  operandAT1 : BitVec 64
  operandBT1 : BitVec 64
  someT0 : Bool

structure Regs where
  instnBeginHpn : Bool
  i1InstnBeginHpn : Bool
  leftAlready : Bool

def cleared : Regs := ⟨false, false, false⟩

/-- One clock edge outside of reset; `$past` reads the cycle before. -/
def edge (s : Regs) (past : Option In) (x : In) : Regs where
  instnBeginHpn := if instnBegin x.toIn then true else s.instnBeginHpn
  i1InstnBeginHpn := if i1InstnBegin x.toIn then true else s.i1InstnBeginHpn
  leftAlready :=
    if s.i1InstnBeginHpn && past.any In.i1InSomePl && !x.i1InSomePl then true else s.leftAlready

def step (s : Regs) (past : Option In) (x : In) : Regs :=
  if !x.rstNi then cleared else edge s past x

def past (x : Nat → In) : Nat → Option In
  | 0 => none
  | t + 1 => some (x t)

def run (x : Nat → In) : Nat → Regs
  | 0 => cleared
  | t + 1 => step (run x t) (past x t) (x t)

/-- The signals of the header that both modes read. -/
def common (x : Nat → In) (t : Nat) : IftHeader.In := (x t).toIn

def interimInstn (x : Nat → In) (t : Nat) : Bool :=
  (IftHeader.run (common x) t).i1IssuedBefore &&
    !(instnBegin (x t).toIn || (run x t).instnBeginHpn)

/-- The assumptions of `STATIC`, which comes with `T_FROM_I` and has no `YNG`. -/
structure Assumed (x : Nat → In) : Prop where
  header : IftHeader.Assumed false (common x)
  i1 : AssumedI1 false (common x)
  interimF1 : ∀ t, interimInstn x t = true →
    (x t).operandAT1 = .allOnes 64 ∧ (x t).operandBT1 = .allOnes 64
  notInterimF1 : ∀ t, interimInstn x t = false → (x t).operandAT1 = 0 ∧ (x t).operandBT1 = 0
  nonOverlap : ∀ t, instnBegin (x t).toIn = true → (x t).i1InSomePl = false
  resstFlag : ∀ t, instnBegin (x t).toIn = true → ∀ u, t ≤ u → (x u).rstt0Agg = .allOnes 19
  resetFlag1 : ∀ t, (run x (t + 1)).instnBeginHpn = false → instnBegin (x t).toIn = false →
    instnBegin (x (t + 1)).toIn = true → (x t).rstt0Agg = 0
  resetFlag2 : ∀ t, (run x (t + 1)).instnBeginHpn = false → instnBegin (x t).toIn = false →
    instnBegin (x (t + 1)).toIn = false → (x t).rstt0Agg = .allOnes 19
  resetAfterGone : ∀ t, (run x t).leftAlready = false → (x t).rstt0Agg = .allOnes 19
  noInAnyUfms : ∀ t, instnBegin (x t).toIn = true → (x t).someT0 = false

variable {x : Nat → In} {t : Nat}

theorem run_succ (h : ∀ t, (x t).rstNi = true) (t : Nat) :
    run x (t + 1) = edge (run x t) (past x t) (x t) := by
  simp [run, step, h t]

theorem instnBeginHpn_iff (h : ∀ t, (x t).rstNi = true) (t : Nat) :
    (run x t).instnBeginHpn = true ↔ ∃ u < t, instnBegin (x u).toIn = true :=
  Held.set_iff (r := fun t => (run x t).instnBeginHpn) rfl
    (fun t => congrArg Regs.instnBeginHpn (run_succ h t)) t

theorem i1InstnBeginHpn_iff (h : ∀ t, (x t).rstNi = true) (t : Nat) :
    (run x t).i1InstnBeginHpn = true ↔ ∃ u < t, i1InstnBegin (x u).toIn = true :=
  Held.set_iff (r := fun t => (run x t).i1InstnBeginHpn) rfl
    (fun t => congrArg Regs.i1InstnBeginHpn (run_succ h t)) t

/-- `i1` was issued, was in a location in the cycle before, and is in none now. -/
def leaves (x : Nat → In) (t : Nat) : Bool :=
  (run x t).i1InstnBeginHpn && (past x t).any In.i1InSomePl && !(x t).i1InSomePl

theorem leftAlready_iff (h : ∀ t, (x t).rstNi = true) (t : Nat) :
    (run x t).leftAlready = true ↔ ∃ u < t, leaves x u = true :=
  Held.set_iff (r := fun t => (run x t).leftAlready) rfl
    (fun t => congrArg Regs.leftAlready (run_succ h t)) t

/-- Where `i1` is seen to leave, it was issued earlier. -/
theorem exists_of_leaves (h : ∀ t, (x t).rstNi = true) (ht : leaves x t = true) :
    ∃ u, t = u + 1 ∧ (x u).i1InSomePl = true ∧ (x t).i1InSomePl = false ∧
      ∃ i < t, i1InstnBegin (x i).toIn = true := by
  simp only [leaves, Bool.and_eq_true, Bool.not_eq_true'] at ht
  obtain ⟨⟨hissued, hpast⟩, hout⟩ := ht
  cases t with
  | zero => cases hpast
  | succ u => exact ⟨u, rfl, hpast, hout, (i1InstnBeginHpn_iff h _).mp hissued⟩

theorem interimInstn_iff (h : ∀ t, (x t).rstNi = true) (t : Nat) : interimInstn x t = true ↔
    (∃ u < t, i1InstnBegin (x u).toIn = true) ∧ ∀ u ≤ t, instnBegin (x u).toIn = false := by
  have hissued := i1IssuedBefore_iff (x := common x) h t
  have hbegun := instnBeginHpn_iff h t
  simp only [interimInstn, Bool.and_eq_true, Bool.not_eq_true', Bool.or_eq_false_iff]
  rw [hissued, ← Bool.not_eq_true (run x t).instnBeginHpn, hbegun]
  apply and_congr_right
  intro _
  constructor
  · intro hnone u hle
    obtain rfl | hlt := Nat.eq_or_lt_of_le hle
    · exact hnone.1
    · by_contra hu
      exact hnone.2 ⟨u, hlt, Bool.not_eq_false _ ▸ hu⟩
  · intro hnone
    refine ⟨hnone t le_rfl, ?_⟩
    rintro ⟨u, hlt, hu⟩
    rw [hnone u hlt.le] at hu
    cases hu

/-- The taint resets of all modules are pulled in a single cycle, the one before `i0` is issued, and
`i1` was issued and seen to leave before that. From its issue to that of `i0` the operands carry the
second flag. -/
theorem static_reset_pulse (h : Assumed x) : ∃ i b, i + 2 < b ∧
    (∀ t, i1InstnBegin (x t).toIn = true ↔ t = i) ∧ (∀ t, instnBegin (x t).toIn = true ↔ t = b) ∧
    (∀ t, (x t).rstt0Agg = if t + 1 = b then 0 else .allOnes 19) ∧
    (∃ u, i ≤ u ∧ u + 2 < b ∧ (x u).i1InSomePl = true ∧ (x (u + 1)).i1InSomePl = false) ∧
    (x b).i1InSomePl = false ∧ (x b).someT0 = false ∧
    ∀ t, (x t).operandAT1 = (if i < t ∧ t < b then .allOnes 64 else 0) ∧
      (x t).operandBT1 = (if i < t ∧ t < b then .allOnes 64 else 0) := by
  have hrst : ∀ t, (x t).rstNi = true := h.header.inOpMode
  obtain ⟨b, hb, _⟩ := h.header.i0_issued
  have hb : ∀ t, instnBegin (x t).toIn = true ↔ t = b := hb
  have hbefore : (IftHeader.run (common x) b).i1IssuedBefore = true :=
    h.i1.i1IssueHbI0 b ((hb b).mpr rfl)
  obtain ⟨i, hib, hi⟩ := (i1IssuedBefore_iff hrst b).mp hbefore
  have hi1 (t : Nat) : i1InstnBegin (x t).toIn = true ↔ t = i :=
    ⟨h.i1.begin_unique hi, fun ht => ht ▸ hi⟩
  have hno (t : Nat) (ht : t ≠ b) : instnBegin (x t).toIn = false := by
    rw [← Bool.not_eq_true, hb]
    exact ht
  have hbegun (t : Nat) (ht : t ≤ b) : (run x t).instnBeginHpn = false := by
    rw [← Bool.not_eq_true, instnBeginHpn_iff hrst]
    rintro ⟨u, hu, hbegin⟩
    have hu' := (hb u).mp hbegin
    omega
  -- the cycle before the issue of `i0`
  obtain ⟨p, rfl⟩ : ∃ p, b = p + 1 := ⟨b - 1, by omega⟩
  have hpulse : (x p).rstt0Agg = 0 :=
    h.resetFlag1 p (hbegun _ le_rfl) (hno p (by omega)) ((hb _).mpr rfl)
  have hreset (t : Nat) : (x t).rstt0Agg = if t + 1 = p + 1 then 0 else .allOnes 19 := by
    split
    · rw [show t = p by omega, hpulse]
    · by_cases hlate : p + 1 ≤ t
      · exact h.resstFlag (p + 1) ((hb _).mpr rfl) t hlate
      · exact h.resetFlag2 t (hbegun _ (by omega)) (hno t (by omega)) (hno _ (by omega))
  -- where the taint is reset, `i1` has left
  have hleft : (run x p).leftAlready = true := by
    by_contra hnot
    have hones := h.resetAfterGone p (Bool.eq_false_iff.mpr hnot)
    rw [hpulse] at hones
    exact absurd hones (by decide)
  obtain ⟨l, hl, hleaves⟩ := (leftAlready_iff hrst p).mp hleft
  obtain ⟨u, rfl, hin, hout, j, hj, hissued⟩ := exists_of_leaves hrst hleaves
  have hji := (hi1 j).mp hissued
  have hinterim (t : Nat) : interimInstn x t = true ↔ i < t ∧ t < p + 1 := by
    rw [interimInstn_iff hrst]
    constructor
    · rintro ⟨⟨j, hj, hissued⟩, hnone⟩
      have hji := (hi1 j).mp hissued
      refine ⟨by omega, ?_⟩
      by_contra hge
      have hbegin := hnone (p + 1) (by omega)
      rw [(hb _).mpr rfl] at hbegin
      cases hbegin
    · rintro ⟨hit, htb⟩
      exact ⟨⟨i, hit, hi⟩, fun u hu => hno u (by omega)⟩
  refine ⟨i, p + 1, by omega, hi1, hb, hreset, ⟨u, by omega, by omega, hin, hout⟩,
    h.nonOverlap _ ((hb _).mpr rfl), h.noInAnyUfms _ ((hb _).mpr rfl), ?_⟩
  intro t
  by_cases ht : i < t ∧ t < p + 1
  · rw [if_pos ht]
    exact h.interimF1 t ((hinterim t).mpr ht)
  · rw [if_neg ht]
    apply h.notInterimF1 t
    rw [← Bool.not_eq_true, hinterim]
    exact ht

/-- `i1` is issued, spends one cycle in a location, and `i0` is issued three cycles later. -/
def passing (t : Nat) : In where
  toIn := spaced 3 t
  i1InSomePl := decide (t = 1)
  rstt0Agg := if t = 3 then 0 else .allOnes 19
  operandAT1 := if 0 < t ∧ t < 4 then .allOnes 64 else 0
  operandBT1 := if 0 < t ∧ t < 4 then .allOnes 64 else 0
  someT0 := false

theorem passing_assumed : Assumed passing := by
  have hrst : ∀ t, (passing t).rstNi = true := fun _ => rfl
  have hbegin (t : Nat) : instnBegin (passing t).toIn = true ↔ t = 4 := (spaced_begin 3 t).1
  have hi1 (t : Nat) : i1InstnBegin (passing t).toIn = true ↔ t = 0 := (spaced_begin 3 t).2
  have hinterim (t : Nat) : interimInstn passing t = true ↔ 0 < t ∧ t < 4 := by
    rw [interimInstn_iff hrst]
    simp only [hi1, ← Bool.not_eq_true, hbegin]
    constructor
    · rintro ⟨⟨u, hu, rfl⟩, hnone⟩
      refine ⟨hu, ?_⟩
      by_contra hge
      exact hnone 4 (by omega) rfl
    · rintro ⟨hpos, hlt⟩
      exact ⟨⟨0, hpos, rfl⟩, fun u hu => by omega⟩
  refine ⟨spaced_assumed 3, spaced_assumedI1 3, ?_, ?_, ?_, ?_, ?_, ?_, ?_, fun _ _ => rfl⟩
  · intro t ht
    exact ⟨if_pos ((hinterim t).mp ht), if_pos ((hinterim t).mp ht)⟩
  · intro t ht
    have hout : ¬(0 < t ∧ t < 4) := by
      rw [← hinterim, ht]
      exact Bool.false_ne_true
    exact ⟨if_neg hout, if_neg hout⟩
  · intro t ht
    rw [(hbegin t).mp ht]
    rfl
  · intro t ht u hu
    have ht := (hbegin t).mp ht
    exact if_neg (by omega)
  · intro t _ _ ht
    have ht := (hbegin (t + 1)).mp ht
    exact if_pos (by omega)
  · intro t hpast _ ht
    apply if_neg
    rintro rfl
    rw [(hbegin 4).mpr rfl] at ht
    cases ht
  · intro t ht
    apply if_neg
    rintro rfl
    have hleft := (leftAlready_iff hrst 3).mpr ⟨2, by omega, rfl⟩
    rw [hleft] at ht
    cases ht

theorem passing_reset_pulse : ∃ b, instnBegin (passing b).toIn = true ∧
    ∀ t, (passing t).rstt0Agg = if t + 1 = b then 0 else .allOnes 19 := by
  obtain ⟨_, b, _, _, hb, hreset, _⟩ := static_reset_pulse passing_assumed
  exact ⟨b, (hb b).mpr rfl, hreset⟩

end SynthLC.IftStatic
