import SynthLC.BitField
import SynthLC.Held
import Mathlib.Data.BitVec
import Mathlib.Data.Finset.Card
import Mathlib.Data.Finset.Filter
import Mathlib.Order.Interval.Finset.Nat

/-! `header_squash.sv`: the registers that observe when `i0` and `i1` are fetched, how many fetches
lie between them, and where a branch or jump at `i1` goes. -/
namespace SynthLC.HeaderSquash

open Held BitField

/-- The signals the header reads in one cycle: `tmp_icache_dreq_cache_if`, the request
`tmp_icache_dreq_if_cache`, the two commit ports and the addresses of `i0` and `i1`. -/
structure In where
  rstNi : Bool
  valid : Bool
  vaddr : BitVec 64
  readInstr : BitVec 32
  pc0 : BitVec 64
  pc1 : BitVec 64
  commitPc : Fin 2 → BitVec 64
  commitAck : Fin 2 → Bool
  trapVectorBase : BitVec 64
  req : Bool
  reqVaddr : BitVec 64
  killS2 : Bool
  inPerfLocs : Bool

section Wires

variable (x : In)

def instnFetched : Bool := x.valid && x.vaddr == x.pc0

def i1InstnFetched : Bool := x.valid && x.vaddr == x.pc1

/-- One of the two ports commits `i1`. -/
def i1Committed : Bool :=
  (List.finRange 2).any fun port => x.commitPc port == x.pc1 && x.commitAck port

def isI1Branch : Bool := x.readInstr.extractLsb' 0 7 == 0b1100011#7 && i1InstnFetched x

def isI1Jal : Bool := x.readInstr.extractLsb' 0 7 == 0b1101111#7 && i1InstnFetched x

end Wires

def branchOffset (w : BitVec 32) : BitVec 13 :=
  w.extractLsb' 31 1 ++ w.extractLsb' 7 1 ++ w.extractLsb' 25 6 ++ w.extractLsb' 8 4 ++ 0#1

/-- Twelve bits in a wire of thirteen. -/
def jalOffset (w : BitVec 32) : BitVec 13 := (w.extractLsb' 20 12).setWidth 13

/-- `{{51{offset[12]}}, offset}` -/
def offsetSigned (offset : BitVec 13) : BitVec 64 :=
  BitVec.replicate 51 (offset.extractLsb' 12 1) ++ offset

def branchTarget (x : In) : BitVec 64 := x.vaddr + offsetSigned (branchOffset x.readInstr)

def jalTarget (x : In) : BitVec 64 := x.vaddr + offsetSigned (jalOffset x.readInstr)

structure Regs where
  seenI1Fetched : Bool
  i1FetchedMoreThanOnce : Bool
  seenI1Committed : Bool
  i0FetchedBefore : Bool
  i1FetchedBefore : Bool
  instnCountAfterI1 : BitVec 8
  counting : Bool
  i1BranchTargetReg : BitVec 64
  i1BranchTargetValid : Bool
  i1JalTargetReg : BitVec 64
  i1JalTargetValid : Bool
  prevInPerfLocs : Bool

/-- What a reset leaves. -/
def cleared : Regs := ⟨false, false, false, false, false, 0, false, 0, false, 0, false, false⟩

/-- One clock edge of all `always` blocks outside of reset. -/
def edge (s : Regs) (x : In) : Regs where
  seenI1Fetched := if i1InstnFetched x then true else s.seenI1Fetched
  i1FetchedMoreThanOnce :=
    if i1InstnFetched x && s.seenI1Fetched then true else s.i1FetchedMoreThanOnce
  seenI1Committed := if i1Committed x then true else s.seenI1Committed
  i0FetchedBefore := if instnFetched x then true else s.i0FetchedBefore
  i1FetchedBefore := if i1InstnFetched x then true else s.i1FetchedBefore
  instnCountAfterI1 :=
    if i1InstnFetched x then 0
    else if s.counting && x.valid then s.instnCountAfterI1 + 1
    else s.instnCountAfterI1
  counting := if i1InstnFetched x then true else s.counting
  i1BranchTargetReg := if isI1Branch x then branchTarget x else s.i1BranchTargetReg
  i1BranchTargetValid := if isI1Branch x then true else s.i1BranchTargetValid
  i1JalTargetReg := if isI1Jal x then jalTarget x else s.i1JalTargetReg
  i1JalTargetValid := if isI1Jal x then true else s.i1JalTargetValid
  prevInPerfLocs := x.inPerfLocs

def step (s : Regs) (x : In) : Regs := if !x.rstNi then cleared else edge s x

def run (s : Regs) (ins : Nat → In) : Nat → Regs
  | 0 => s
  | t + 1 => step (run s ins t) (ins t)

def i1BranchToTrap (s : Regs) (x : In) : Bool :=
  s.i1BranchTargetReg == x.trapVectorBase && s.i1BranchTargetValid

def i1JalToTrap (s : Regs) (x : In) : Bool :=
  s.i1JalTargetReg == x.trapVectorBase && s.i1JalTargetValid

section Running

variable {s : Regs} {ins : Nat → In} (hrst : ∀ t, (ins t).rstNi = true)
include hrst

theorem run_succ (t : Nat) : run s ins (t + 1) = edge (run s ins t) (ins t) := by
  rw [run, step, hrst t]
  rfl

/-- A register that takes the value `value` whenever `cond` holds. -/
theorem reg_eq_held {α : Type} {reg : Regs → α} {cond : In → Bool} {value : In → α}
    (hreg : ∀ s x, reg (edge s x) = if cond x then value x else reg s) (t : Nat) :
    reg (run s ins t) =
      held (fun t => if cond (ins t) then some (value (ins t)) else none) (reg s) t := by
  apply eq_held (r := fun t => reg (run s ins t))
  · rfl
  · intro t
    rw [run_succ hrst, hreg]
    split_ifs <;> rfl

end Running

/-- The last cycle before another in which something holds. -/
def Latest (cond : In → Bool) (ins : Nat → In) (s t : Nat) : Prop :=
  s < t ∧ cond (ins s) = true ∧ ∀ u, s < u → u < t → cond (ins u) = false

theorem Latest.unique {cond : In → Bool} {ins : Nat → In} {s s' t : Nat}
    (h : Latest cond ins s t) (h' : Latest cond ins s' t) : s = s' := by
  have ⟨hst, hs, hlater⟩ := h
  have ⟨hst', hs', hlater'⟩ := h'
  by_contra hne
  rcases Nat.lt_or_gt_of_ne hne with hlt | hgt
  · rw [hlater s' hlt hst'] at hs'
    cases hs'
  · rw [hlater' s hgt hst] at hs
    cases hs

/-! ### Fetches between `i1` and `i0` -/

section Distance

variable {ins : Nat → In} {s t : Nat}

/-- The cycles strictly between two others in which `valid` is high. -/
def validBetween (ins : Nat → In) (s t : Nat) : Nat :=
  ((Finset.Ioo s t).filter fun u => (ins u).valid = true).card

theorem validBetween_succ_self : validBetween ins s (s + 1) = 0 := by
  rw [validBetween, Finset.card_eq_zero, Finset.filter_eq_empty_iff]
  intro u hu
  rw [Finset.mem_Ioo] at hu
  omega

theorem validBetween_succ (h : s < t) : validBetween ins s (t + 1) =
    validBetween ins s t + if (ins t).valid = true then 1 else 0 := by
  have hset : Finset.Ioo s (t + 1) = insert t (Finset.Ioo s t) := by
    ext u
    simp only [Finset.mem_Ioo, Finset.mem_insert]
    omega
  have hnew : t ∉ (Finset.Ioo s t).filter fun u => (ins u).valid = true := by simp
  rw [validBetween, hset, Finset.filter_insert]
  split_ifs with hvalid
  · rw [Finset.card_insert_of_notMem hnew]
    rfl
  · rfl

variable (hrst : ∀ t, (ins t).rstNi = true) {r : Regs}
include hrst

/-- After a fetch of `i1` the register counts the valid cycles, in eight bits. -/
theorem count_of_latest (h : Latest i1InstnFetched ins s t) : (run r ins t).counting = true ∧
    (run r ins t).instnCountAfterI1 = BitVec.ofNat 8 (validBetween ins s t) := by
  induction t with
  | zero => exact absurd h.1 (by omega)
  | succ t ih =>
    have ⟨hst, hfetch, hlater⟩ := h
    rw [run_succ hrst]
    by_cases hlast : s = t
    · subst hlast
      rw [validBetween_succ_self]
      simp [edge, hfetch]
    · have hprev : Latest i1InstnFetched ins s t :=
        ⟨by omega, hfetch, fun u h h' => hlater u h (by omega)⟩
      have ⟨hcounting, hcount⟩ := ih hprev
      have hno := hlater t (by omega) (by omega)
      rw [validBetween_succ hprev.1]
      simp only [edge, hno, hcounting, hcount, Bool.true_and, Bool.false_eq_true, if_false]
      refine ⟨trivial, ?_⟩
      split_ifs
      · rw [BitVec.ofNat_add]
        rfl
      · rw [Nat.add_zero]

theorem i1FetchedBefore_iff : (run cleared ins t).i1FetchedBefore = true ↔
    ∃ s < t, i1InstnFetched (ins s) = true := by
  induction t with
  | zero => simp [run, cleared]
  | succ t ih =>
    rw [run_succ hrst]
    simp only [edge]
    split_ifs with hfetch
    · exact ⟨fun _ => ⟨t, by omega, hfetch⟩, fun _ => rfl⟩
    · rw [ih]
      constructor
      · intro ⟨s, hs, h⟩
        exact ⟨s, by omega, h⟩
      · intro ⟨s, hs, h⟩
        have hne : s ≠ t := fun heq => hfetch (heq ▸ h)
        exact ⟨s, by omega, h⟩

/-- `FETCH_ONCE_I1`, `I1_FETCH_HB_I0` and `I1_N_INSTNS_BEFORE_I0` on a trace from cleared
registers. -/
structure Assumed (ins : Nat → In) : Prop where
  fetchOnceI1 : ∀ s, i1InstnFetched (ins s) = true → ∀ u, s < u → (ins u).vaddr ≠ (ins u).pc1
  i1FetchHbI0 : ∀ t, instnFetched (ins t) = true → (run cleared ins t).i1FetchedBefore = true
  i1NInstnsBeforeI0 : ∀ t, instnFetched (ins t) = true →
    (run cleared ins t).instnCountAfterI1 = 2

omit hrst in
theorem Assumed.latest (h : Assumed ins) (hst : s < t)
    (hs : i1InstnFetched (ins s) = true) : Latest i1InstnFetched ins s t := by
  refine ⟨hst, hs, ?_⟩
  intro u hu _
  have hne := h.fetchOnceI1 s hs u hu
  simp [i1InstnFetched, hne]

/-- At a fetch of `i0` the number of valid cycles since `i1` is known up to multiples of 256. -/
theorem Assumed.validBetween_mod (h : Assumed ins) (ht : instnFetched (ins t) = true)
    (hst : s < t) (hs : i1InstnFetched (ins s) = true) : validBetween ins s t % 256 = 2 := by
  have hcount := (count_of_latest (r := cleared) hrst (h.latest hst hs)).2
  rw [h.i1NInstnsBeforeI0 t ht] at hcount
  have hval := congrArg BitVec.toNat hcount
  rw [BitVec.toNat_ofNat] at hval
  exact hval.symm

end Distance

/-- `i1` at address 8 is fetched first, `i0` at address 4 after `n` valid cycles. -/
def spaced (n t : Nat) : In :=
  ⟨true, decide (t ≤ n + 1), if t = 0 then 8 else if t = n + 1 then 4 else 16, 0x13, 4, 8,
    fun _ => 0, fun _ => false, 0, false, 0, false, false⟩

theorem instnFetched_spaced {n t : Nat} : instnFetched (spaced n t) = true ↔ t = n + 1 := by
  unfold instnFetched spaced
  split_ifs with h0 hn
  · simp [h0]
  · simp [hn]
  · simp [hn]

theorem i1InstnFetched_spaced {n t : Nat} : i1InstnFetched (spaced n t) = true ↔ t = 0 := by
  unfold i1InstnFetched spaced
  split_ifs with h0 hn
  · simp [h0]
  · simp [hn]
  · simp [h0]

theorem validBetween_spaced (n : Nat) : validBetween (spaced n) 0 (n + 1) = n := by
  have hall : (Finset.Ioo 0 (n + 1)).filter (fun u => (spaced n u).valid = true) =
      Finset.Ioo 0 (n + 1) := by
    apply Finset.filter_true_of_mem
    intro u hu
    rw [Finset.mem_Ioo] at hu
    exact decide_eq_true (by omega)
  rw [validBetween, hall, Nat.card_Ioo]
  omega

/-- The assumptions hold for every distance that eight bits show as two. -/
theorem assumed_spaced {n : Nat} (hn : n % 256 = 2) : Assumed (spaced n) where
  fetchOnceI1 := by
    intro s hs u hu
    rw [i1InstnFetched_spaced] at hs
    show (if u = 0 then 8 else if u = n + 1 then 4 else 16 : BitVec 64) ≠ 8
    split_ifs <;> first | omega | decide
  i1FetchHbI0 := by
    intro t ht
    rw [instnFetched_spaced] at ht
    rw [i1FetchedBefore_iff fun _ => rfl]
    exact ⟨0, by omega, i1InstnFetched_spaced.mpr rfl⟩
  i1NInstnsBeforeI0 := by
    intro t ht
    rw [instnFetched_spaced] at ht
    have hlast : Latest i1InstnFetched (spaced n) 0 t := by
      refine ⟨by omega, i1InstnFetched_spaced.mpr rfl, ?_⟩
      intro u hu _
      rw [Bool.eq_false_iff, ne_eq, i1InstnFetched_spaced]
      omega
    rw [(count_of_latest (fun _ => rfl) hlast).2, ht, validBetween_spaced]
    apply BitVec.eq_of_toNat_eq
    rw [BitVec.toNat_ofNat]
    exact hn

/-- Two valid cycles lie between `i1` and each fetch of `i0`, exactly if fewer than 258 do. -/
theorem two_between_iff {ins : Nat → In} (hrst : ∀ t, (ins t).rstNi = true) (h : Assumed ins) :
    (∀ t, instnFetched (ins t) = true →
      ∃ s < t, i1InstnFetched (ins s) = true ∧ validBetween ins s t = 2) ↔
    ∀ t, instnFetched (ins t) = true →
      ∀ s < t, i1InstnFetched (ins s) = true → validBetween ins s t < 258 := by
  constructor
  · intro htwo t ht s hst hs
    have ⟨s', hst', hs', hcount⟩ := htwo t ht
    have hsame := (h.latest hst hs).unique (h.latest hst' hs')
    rw [hsame, hcount]
    omega
  · intro hfew t ht
    have ⟨s, hst, hs⟩ := (i1FetchedBefore_iff hrst).mp (h.i1FetchHbI0 t ht)
    have hmod := h.validBetween_mod hrst ht hst hs
    have hlt := hfew t ht s hst hs
    exact ⟨s, hst, hs, by omega⟩

theorem two_between_two : Assumed (spaced 2) ∧ ∀ t, instnFetched (spaced 2 t) = true →
    ∃ s < t, i1InstnFetched (spaced 2 s) = true ∧ validBetween (spaced 2) s t = 2 := by
  have hassumed := assumed_spaced (show 2 % 256 = 2 by omega)
  refine ⟨hassumed, (two_between_iff (fun _ => rfl) hassumed).mpr ?_⟩
  intro t ht s _ hs
  rw [instnFetched_spaced] at ht
  rw [i1InstnFetched_spaced] at hs
  rw [ht, hs, validBetween_spaced]
  omega

/-- With 258 fetches between `i1` and `i0` the count has wrapped around to two. -/
theorem count_wraps : (∀ t, (spaced 258 t).rstNi = true) ∧ Assumed (spaced 258) ∧
    ¬∀ t, instnFetched (spaced 258 t) = true →
      ∃ s < t, i1InstnFetched (spaced 258 s) = true ∧ validBetween (spaced 258) s t = 2 := by
  refine ⟨fun _ => rfl, assumed_spaced (show 258 % 256 = 2 by omega), ?_⟩
  intro htwo
  have ⟨s, _, hs, hcount⟩ := htwo 259 (instnFetched_spaced.mpr rfl)
  rw [i1InstnFetched_spaced] at hs
  rw [hs, validBetween_spaced] at hcount
  omega

/-! ### Targets of `i1` -/

/-- The immediate of a B-type word. -/
def immB (w : BitVec 32) : Int :=
  2 * slice w 11 8 + 32 * slice w 30 25 + 2048 * slice w 7 7 - 4096 * slice w 31 31

/-- The immediate of a J-type word. -/
def immJ (w : BitVec 32) : Int :=
  2 * slice w 30 21 + 2048 * slice w 20 20 + 4096 * slice w 19 12 - 1048576 * slice w 31 31

section Offsets

variable (w : BitVec 32)

theorem toNat_field (hi lo : Nat) : (w.extractLsb' lo (hi - lo + 1)).toNat = slice w hi lo := by
  rw [BitVec.extractLsb'_toNat, slice]

theorem toInt_bit (i : Nat) : (w.extractLsb' i 1).toInt = -(slice w i i : Int) := by
  have hlt := Nat.mod_lt (w.toNat >>> i) (show 0 < 2 by omega)
  rw [BitVec.toInt_eq_toNat_cond, BitVec.extractLsb'_toNat, slice, Nat.sub_self]
  simp only [Nat.zero_add, Nat.pow_one]
  split_ifs <;> omega

/-- The fifty-one copies of the highest bit extend the sign. -/
theorem offsetSigned_eq (offset : BitVec 13) :
    offsetSigned offset = BitVec.ofInt 64 offset.toInt := by
  have hext : offsetSigned offset = offset.signExtend 64 := by
    apply BitVec.eq_of_getLsbD_eq
    intro i hi
    unfold offsetSigned
    rw [BitVec.getLsbD_signExtend, BitVec.getLsbD_append]
    by_cases hlow : i < 13
    · simp [hlow, hi]
    · have hin : i - 13 < 1 * 51 := by omega
      rw [if_neg hlow, if_neg hlow, BitVec.getLsbD_replicate, BitVec.getLsbD_extractLsb',
        Nat.mod_one, decide_eq_true hin, decide_eq_true hi]
      rfl
  rw [hext]
  rfl

theorem toInt_branchOffset : (branchOffset w).toInt = immB w := by
  have h31 := toInt_bit w 31
  have h7 := toNat_field w 7 7
  have h30 := toNat_field w 30 25
  have h11 := toNat_field w 11 8
  unfold branchOffset immB
  rw [BitVec.toInt_append, BitVec.toInt_append, BitVec.toInt_append, BitVec.toInt_append, h31, h7,
    h30, h11]
  simp
  omega

theorem toInt_jalOffset :
    (jalOffset w).toInt = 2048 * slice w 31 31 + 2 * slice w 30 21 + slice w 20 20 := by
  have hfield := toNat_field w 31 20
  have hparts : slice w 31 20 = 2048 * slice w 31 31 + 2 * slice w 30 21 + slice w 20 20 := by
    have hw := w.isLt
    simp only [slice, Nat.shiftRight_eq_div_pow]
    omega
  have hlt : slice w 31 20 < 4096 := Nat.mod_lt _ (by omega)
  have hval : (jalOffset w).toNat = slice w 31 20 := by
    rw [jalOffset, BitVec.toNat_setWidth, hfield, Nat.mod_eq_of_lt (by omega)]
  rw [BitVec.toInt_eq_toNat_cond, hval, if_pos (by omega), hparts]
  push_cast
  rfl

theorem slice_lt (hi lo : Nat) : slice w hi lo < 2 ^ (hi - lo + 1) :=
  Nat.mod_lt _ (Nat.two_pow_pos _)

/-- Small offsets are different modulo `2 ^ 64` if they are different. -/
theorem ofInt_inj {a b : Int} (ha : -2097152 ≤ a ∧ a < 2097152) (hb : -2097152 ≤ b ∧ b < 2097152)
    (h : BitVec.ofInt 64 a = BitVec.ofInt 64 b) : a = b := by
  have hval := congrArg BitVec.toInt h
  rw [BitVec.toInt_ofInt, BitVec.toInt_ofInt, Int.bmod_eq_of_le (by omega) (by omega),
    Int.bmod_eq_of_le (by omega) (by omega)] at hval
  exact hval

/-- The wire `jal_offset` is the J-type immediate where that is a short forward jump, and only
there. -/
theorem jalOffset_eq_immJ_iff :
    offsetSigned (jalOffset w) = BitVec.ofInt 64 (immJ w) ↔ 0 ≤ immJ w ∧ immJ w < 2048 := by
  have h31 := slice_lt w 31 31
  have h30 := slice_lt w 30 21
  have h20 := slice_lt w 20 20
  have h19 := slice_lt w 19 12
  rw [offsetSigned_eq, toInt_jalOffset]
  unfold immJ
  constructor
  · intro h
    have heq := ofInt_inj (by omega) (by omega) h
    omega
  · intro h
    congr 1
    omega

theorem jalTarget_eq_iff {x : In} :
    jalTarget x = x.vaddr + BitVec.ofInt 64 (immJ x.readInstr) ↔
      0 ≤ immJ x.readInstr ∧ immJ x.readInstr < 2048 := by
  rw [jalTarget, ← jalOffset_eq_immJ_iff, BitVec.add_right_inj]

end Offsets

section Targets

variable {ins : Nat → In} {s : Regs} (hrst : ∀ t, (ins t).rstNi = true)
include hrst

/-- A target register with its flag shows the target of the latest cycle that set them. -/
theorem toTrap_iff (reg : Regs → BitVec 64) (valid : Regs → Bool) {cond : In → Bool}
    {target : In → BitVec 64}
    (hreg : ∀ s x, reg (edge s x) = if cond x then target x else reg s)
    (hvalid : ∀ s x, valid (edge s x) = if cond x then true else valid s)
    (hstart : valid s = false) (t : Nat) (trap : BitVec 64) :
    (reg (run s ins t) == trap && valid (run s ins t)) = true ↔
      ∃ u, Latest cond ins u t ∧ target (ins u) = trap := by
  have hr := reg_eq_held (s := s) hrst hreg t
  have hv := reg_eq_held (s := s) hrst hvalid t
  rw [Bool.and_eq_true, beq_iff_eq, hr, hv, held, held, hstart]
  have hnone (u : Nat) {α : Type} {v : α} :
      (if cond (ins u) then some v else none) = none ↔ cond (ins u) = false := by
    cases cond (ins u) <;> simp
  constructor
  · intro h
    obtain ⟨htarget, hset⟩ := h
    cases hlast : last (fun t => if cond (ins t) then some true else none) t with
    | none =>
      rw [hlast] at hset
      cases hset
    | some b =>
      obtain ⟨u, hu, hcond, hlater⟩ := exists_of_last hlast
      have hcu : cond (ins u) = true := by
        by_contra hno
        rw [if_neg hno] at hcond
        cases hcond
      have hlatest : Latest cond ins u t :=
        ⟨hu, hcu, fun v h h' => (hnone v).mp (hlater v h h')⟩
      have hregLast : last (fun t => if cond (ins t) then some (target (ins t)) else none) t =
          some (target (ins u)) :=
        last_eq_some hu (if_pos hcu) fun v h h' => (hnone v).mpr (hlatest.2.2 v h h')
      rw [hregLast, Option.getD_some] at htarget
      exact ⟨u, hlatest, htarget⟩
  · intro h
    obtain ⟨u, ⟨hu, hcu, hlater⟩, htarget⟩ := h
    have hregLast : last (fun t => if cond (ins t) then some (target (ins t)) else none) t =
        some (target (ins u)) :=
      last_eq_some hu (if_pos hcu) fun v h h' => (hnone v).mpr (hlater v h h')
    have hvalidLast : last (fun t => if cond (ins t) then some true else none) t = some true :=
      last_eq_some hu (if_pos hcu) fun v h h' => (hnone v).mpr (hlater v h h')
    rw [hregLast, hvalidLast, Option.getD_some, Option.getD_some]
    exact ⟨htarget, rfl⟩

end Targets

/-- The word of the latest such fetch of `i1` jumps to the trap vector of this cycle. -/
def JumpsToTrap (cond : In → Bool) (imm : BitVec 32 → Int) (ins : Nat → In) (t : Nat) : Prop :=
  ∃ s, Latest cond ins s t ∧
    (ins s).vaddr + BitVec.ofInt 64 (imm (ins s).readInstr) = (ins t).trapVectorBase

section Flags

variable {ins : Nat → In} {s : Regs} (hrst : ∀ t, (ins t).rstNi = true)
include hrst

/-- The flag for branches is right on every trace. -/
theorem i1BranchToTrap_iff (hbranch : s.i1BranchTargetValid = false) (t : Nat) :
    i1BranchToTrap (run s ins t) (ins t) = true ↔ JumpsToTrap isI1Branch immB ins t := by
  have htarget (x : In) : branchTarget x = x.vaddr + BitVec.ofInt 64 (immB x.readInstr) := by
    rw [branchTarget, offsetSigned_eq, toInt_branchOffset]
  have h := toTrap_iff (s := s) hrst Regs.i1BranchTargetReg Regs.i1BranchTargetValid
    (fun _ _ => rfl) (fun _ _ => rfl) hbranch t (ins t).trapVectorBase
  simp only [htarget] at h
  exact h

/-- The one for `JAL` goes by the wire `jal_target`. -/
theorem i1JalToTrap_iff (hjal : s.i1JalTargetValid = false) (t : Nat) :
    i1JalToTrap (run s ins t) (ins t) = true ↔
      ∃ u, Latest isI1Jal ins u t ∧ jalTarget (ins u) = (ins t).trapVectorBase :=
  toTrap_iff hrst Regs.i1JalTargetReg Regs.i1JalTargetValid (fun _ _ => rfl) (fun _ _ => rfl)
    hjal t (ins t).trapVectorBase

end Flags

/-- The same trace with the trap vector at other addresses. -/
def withTrap (ins : Nat → In) (trap : Nat → BitVec 64) (t : Nat) : In :=
  { ins t with trapVectorBase := trap t }

/-- Both flags use the architectural target, wherever the trap vector is, exactly if the immediate
of every `JAL` that is fetched as `i1` is in 0 .. 2047. -/
theorem to_trap_architectural_iff {ins : Nat → In} (hrst : ∀ t, (ins t).rstNi = true) {s : Regs}
    (hbranch : s.i1BranchTargetValid = false) (hjal : s.i1JalTargetValid = false) :
    (∀ trap t,
      (i1BranchToTrap (run s (withTrap ins trap) t) (withTrap ins trap t) = true ↔
        JumpsToTrap isI1Branch immB (withTrap ins trap) t) ∧
      (i1JalToTrap (run s (withTrap ins trap) t) (withTrap ins trap t) = true ↔
        JumpsToTrap isI1Jal immJ (withTrap ins trap) t)) ↔
    ∀ u, isI1Jal (ins u) = true →
      0 ≤ immJ (ins u).readInstr ∧ immJ (ins u).readInstr < 2048 := by
  have hrst' (trap : Nat → BitVec 64) (t : Nat) : (withTrap ins trap t).rstNi = true := hrst t
  constructor
  · intro hexact u hu
    -- the trap vector at the architectural target, one cycle after the fetch
    let arch := (ins u).vaddr + BitVec.ofInt 64 (immJ (ins u).readInstr)
    have hlatest : Latest isI1Jal (withTrap ins fun _ => arch) u (u + 1) :=
      ⟨u.lt_succ_self, hu, fun v h h' => by omega⟩
    have hflag := (hexact (fun _ => arch) (u + 1)).2.mpr ⟨u, hlatest, rfl⟩
    obtain ⟨u', hlatest', htarget⟩ := (i1JalToTrap_iff (hrst' _) hjal (u + 1)).mp hflag
    rw [← hlatest.unique hlatest'] at htarget
    exact jalTarget_eq_iff.mp htarget
  · intro hnear trap t
    refine ⟨i1BranchToTrap_iff (hrst' trap) hbranch t, ?_⟩
    rw [i1JalToTrap_iff (hrst' trap) hjal]
    apply exists_congr
    intro u
    apply and_congr_right
    intro hu
    have htarget := jalTarget_eq_iff (x := withTrap ins trap u) |>.mpr (hnear u hu.2.1)
    rw [htarget]

/-- `i1` at address 8 is the given word, and the trap vector stays at the given address. -/
def jumping (w : BitVec 32) (trap : BitVec 64) (t : Nat) : In :=
  ⟨true, decide (t = 0), 8, w, 4, 8, fun _ => 0, fun _ => false, trap, false, 0, false, false⟩

/-- `jal x0, 16` at address 8: the flag comes with a trap vector at 24. -/
theorem to_trap_architectural_near : isI1Jal (jumping 0x0100006f 0 0) = true ∧
    cleared.i1BranchTargetValid = false ∧ cleared.i1JalTargetValid = false ∧
    i1JalToTrap (run cleared (withTrap (jumping 0x0100006f 0) fun _ => 24) 1)
      (withTrap (jumping 0x0100006f 0) (fun _ => 24) 1) = true := by
  have hnear : 0 ≤ immJ 0x0100006f ∧ immJ 0x0100006f < 2048 := by decide
  have hrst : ∀ t, (jumping 0x0100006f 0 t).rstNi = true := fun _ => rfl
  have hexact := (to_trap_architectural_iff hrst (s := cleared) rfl rfl).mpr fun _ _ => hnear
  refine ⟨by decide, rfl, rfl, (hexact (fun _ => 24) 1).2.mpr ⟨0, ?_, ?_⟩⟩
  · exact ⟨by omega, by decide, fun u h h' => by omega⟩
  · have himm : immJ 0x0100006f = 16 := by decide
    show 8#64 + BitVec.ofInt 64 (immJ 0x0100006f) = 24
    rw [himm]
    rfl

/-- `jal x0, -4` goes to the trap vector, and the flag stays low. -/
theorem jal_backwards_to_trap :
    i1JalToTrap (run cleared (jumping 0xffdff06f 4) 1) (jumping 0xffdff06f 4 1) = false ∧
    JumpsToTrap isI1Jal immJ (jumping 0xffdff06f 4) 1 := by
  have hlatest : Latest isI1Jal (jumping 0xffdff06f 4) 0 1 :=
    ⟨by omega, by decide, fun u h h' => by omega⟩
  have htarget : 8#64 + BitVec.ofInt 64 (immJ 0xffdff06f) = 4 := by
    have himm : immJ 0xffdff06f = -4 := by decide
    rw [himm]
    rfl
  exact ⟨by decide +kernel, 0, hlatest, htarget⟩

end SynthLC.HeaderSquash
