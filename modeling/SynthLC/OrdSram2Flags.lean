import SynthLC.OrdSram

/-! The memory with two taint colours, `src_ift_2flag/13_ord_sram_2flags.sv` (`FUNCVERIF`
undefined). The two colours are written out side by side; the address taint of the second one has
a register but no assignment. -/
namespace SynthLC

open Held

namespace OrdSram2Flags

open OrdSram

structure In2 extends In where
  addrIT1 : BitVec 16
  wdataIT1 : BitVec 64

/-- The same cycle with the colours exchanged. -/
def In2.exchange (x : In2) : In2 where
  toIn := { x.toIn with addrIT0 := x.addrIT1, wdataIT0 := x.wdataIT1 }
  addrIT1 := x.addrIT0
  wdataIT1 := x.wdataIT0

structure State2 where
  ram : BitVec 5 → BitVec 64
  ramT0 : BitVec 5 → BitVec 64
  ramT1 : BitVec 5 → BitVec 64
  raddrQ : BitVec 16
  raddrQT0 : BitVec 16
  raddrQT1 : BitVec 16

/-- One clock edge. Under `BLK_T_T_ARCH` both lines of the loop clear `ram_t0`. -/
def step2 (blkTTArch : Bool) (s : State2) (x : In2) : State2 :=
  if !x.rstNi then
    { s with raddrQ := 0, raddrQT0 := 0, ramT0 := fun _ => 0, ramT1 := fun _ => 0 }
  else if x.reqI then
    if !x.weI then
      { s with raddrQ := x.addrI, raddrQT0 := x.addrIT0 }
    else
      let a := low x.addrI
      let mask := localBeI x.beI
      let s := { s with ram := writeWord s.ram a mask x.wdataI }
      if blkTTArch then { s with ramT0 := writeWord s.ramT0 a mask 0 }
      else
        { s with
          ramT0 := writeWord s.ramT0 a mask x.wdataIT0
          ramT1 := writeWord s.ramT1 a mask x.wdataIT1 }
  else s

def rdataO2 (s : State2) : BitVec 64 := s.ram (low s.raddrQ)

def rdataOT0 (s : State2) : BitVec 64 := s.raddrQT0.setWidth 64 ||| s.ramT0 (low s.raddrQ)

def rdataOT1 (s : State2) : BitVec 64 := s.raddrQT1.setWidth 64 ||| s.ramT1 (low s.raddrQ)

def run2 (s : State2) (ins : Nat → In2) : Nat → State2
  | 0 => s
  | t + 1 => step2 false (run2 s ins t) (ins t)

section Colours

variable (s : State2) (x : In2) (q : BitVec 16)

/-- The memory as the first colour sees it. -/
def first : State := ⟨s.ram, s.ramT0, s.raddrQ, s.raddrQT0⟩

/-- The memory as the second colour would see it with an address taint of its own. -/
def second : State := ⟨s.ram, s.ramT1, s.raddrQ, q⟩

theorem first_step2 : first (step2 false s x) = step false (first s) x.toIn := by
  unfold step2 step first
  cases x.rstNi <;> cases x.reqI <;> cases x.weI <;> rfl

theorem second_step2 : second (step2 false s x) ((addrTaintWrite x.exchange.toIn).getD q) =
    step false (second s q) x.exchange.toIn := by
  unfold step2 step second addrTaintWrite In2.exchange
  cases x.rstNi <;> cases x.reqI <;> cases x.weI <;> rfl

/-- No edge writes the second address taint. -/
theorem step2_raddrQT1 : (step2 false s x).raddrQT1 = s.raddrQT1 := by
  unfold step2
  cases x.rstNi <;> cases x.reqI <;> cases x.weI <;> rfl

end Colours

section Runs

variable (ins : Nat → In2)

/-- The inputs as the first colour sees them. -/
def firstIn (t : Nat) : In := (ins t).toIn

/-- The inputs of the run with the colours exchanged. -/
def exchanged (t : Nat) : In2 := (ins t).exchange

theorem exchanged_exchanged : exchanged (exchanged ins) = ins := rfl

theorem readWord_exchanged : readWord (firstIn (exchanged ins)) = readWord (firstIn ins) := rfl

theorem written_exchanged : written (firstIn (exchanged ins)) = written (firstIn ins) := rfl

variable (s : State2) (t : Nat)

/-- Each colour runs as the memory with one colour does, apart from the second address taint. -/
theorem first_run2 : first (run2 s ins t) = run false (first s) (firstIn ins) t := by
  induction t with
  | zero => rfl
  | succ t ih =>
    rw [run2, first_step2, ih]
    rfl

theorem second_run2 (q : BitVec 16) :
    second (run2 s ins t) (held (fun t => addrTaintWrite (firstIn (exchanged ins) t)) q t) =
      run false (second s q) (firstIn (exchanged ins)) t := by
  induction t with
  | zero => rfl
  | succ t ih =>
    rw [held_succ, run, ← ih]
    exact second_step2 _ (ins t) _

theorem run2_raddrQT1 : (run2 s ins t).raddrQT1 = s.raddrQT1 := by
  induction t with
  | zero => rfl
  | succ t ih => rw [run2, step2_raddrQT1, ih]

variable {ins t} {i : Nat} (hreset : (ins 0).rstNi = false) (ht : 1 ≤ t)

include hreset ht

theorem first_run2_of_reset :
    first (run2 s ins t) = run false (start s.ram) (firstIn ins) t := by
  rw [first_run2]
  exact run_of_reset false (firstIn ins) (first s) hreset ht

theorem second_run2_of_reset :
    ∃ q, second (run2 s ins t) q = run false (start s.ram) (firstIn (exchanged ins)) t := by
  refine ⟨_, (second_run2 ins s t 0).trans ?_⟩
  exact run_of_reset false (firstIn (exchanged ins)) (second s 0) hreset ht

variable (hi : i < 64)

include hi

theorem getLsbD_rdataO2 : (rdataO2 (run2 s ins t)).getLsbD i =
    (written (firstIn ins) (readWord (firstIn ins) t) i t).getD
      ((s.ram (readWord (firstIn ins) t)).getLsbD i) := by
  have hrun : rdataO2 (run2 s ins t) = rdataO (first (run2 s ins t)) := rfl
  rw [hrun, first_run2_of_reset s hreset ht, getLsbD_rdataO _ _ _ _ hi]

theorem getLsbD_rdataOT0_run2 : (rdataOT0 (run2 s ins t)).getLsbD i =
    ((readTaint (firstIn ins) t).getLsbD i ||
      storedTaint false (firstIn ins) (readWord (firstIn ins) t) i t) := by
  have hrun : rdataOT0 (run2 s ins t) = OrdSram.rdataOT0 (first (run2 s ins t)) := rfl
  rw [hrun, first_run2_of_reset s hreset ht, OrdSram.getLsbD_rdataOT0 _ _ _ _ hi]

/-- In place of the address taint the second colour shows what its register powered up with. -/
theorem getLsbD_rdataOT1_run2 : (rdataOT1 (run2 s ins t)).getLsbD i =
    (s.raddrQT1.getLsbD i ||
      storedTaint false (firstIn (exchanged ins)) (readWord (firstIn (exchanged ins)) t) i t) := by
  obtain ⟨q, hrun⟩ := second_run2_of_reset s hreset ht
  have hram : (run2 s ins t).ramT1 =
      (run false (start s.ram) (firstIn (exchanged ins)) t).ramT0 := congrArg State.ramT0 hrun
  have haddr : (run2 s ins t).raddrQ =
      (run false (start s.ram) (firstIn (exchanged ins)) t).raddrQ := congrArg State.raddrQ hrun
  unfold rdataOT1
  rw [BitVec.getLsbD_or, BitVec.getLsbD_setWidth, run2_raddrQT1, haddr, hram, run_raddrQ,
    run_ramT0 _ _ _ _ _ hi]
  simp [hi, readWord, readAddr, storedTaint, start]

end Runs

/-- Every tainted bit of the last address read is one that the word read stores with taint. -/
def Hidden (ins : Nat → In) : Prop :=
  ∀ t, ∀ i < 16, (readTaint ins t).getLsbD i = true →
    storedTaint false ins (readWord ins t) i t = true

section Exchange

variable {ins : Nat → In2}

theorem readTaint_one (hreset : (ins 0).rstNi = false) : readTaint (firstIn ins) 1 = 0 := by
  have hwrite : addrTaintWrite (firstIn ins 0) = some 0 := by
    simp [addrTaintWrite, firstIn, hreset]
  rw [readTaint, held_succ, hwrite]
  rfl

theorem storedTaint_one (hreset : (ins 0).rstNi = false) (a : BitVec 5) (i : Nat) :
    storedTaint false (firstIn ins) a i 1 = false := by
  have hwrite : taintWrite (firstIn ins 0) a i false = some false := by
    simp [taintWrite, firstIn, hreset]
  rw [storedTaint, held_succ, hwrite]
  rfl

variable (s s' : State2)

theorem rdataOT0_eq_rdataOT1_iff (hreset : (ins 0).rstNi = false) {t : Nat} (ht : t ≥ 1) :
    rdataOT0 (run2 s ins t) = rdataOT1 (run2 s' (exchanged ins) t) ↔ ∀ i < 64,
      ((readTaint (firstIn ins) t).getLsbD i ||
        storedTaint false (firstIn ins) (readWord (firstIn ins) t) i t) =
      (s'.raddrQT1.getLsbD i ||
        storedTaint false (firstIn ins) (readWord (firstIn ins) t) i t) := by
  have hreset' : (exchanged ins 0).rstNi = false := hreset
  constructor
  · intro heq i hi
    rw [← getLsbD_rdataOT0_run2 s hreset ht hi, heq]
    exact getLsbD_rdataOT1_run2 s' hreset' ht hi
  · intro hbit
    apply BitVec.eq_of_getLsbD_eq
    intro i hi
    rw [getLsbD_rdataOT0_run2 s hreset ht hi, hbit i hi]
    exact (getLsbD_rdataOT1_run2 s' hreset' ht hi).symm

/-- The first colour of a run against the second one of the run with the colours exchanged. -/
theorem first_eq_second_iff (hreset : (ins 0).rstNi = false) :
    (∀ t ≥ 1, rdataOT0 (run2 s ins t) = rdataOT1 (run2 s' (exchanged ins) t)) ↔
      s'.raddrQT1 = 0 ∧ Hidden (firstIn ins) := by
  constructor
  · intro heq
    have hzero : s'.raddrQT1 = 0 := by
      -- right after the reset the first colour is clear
      apply BitVec.eq_of_getLsbD_eq
      intro i hi
      have hbit := (rdataOT0_eq_rdataOT1_iff s s' hreset le_rfl).mp (heq 1 le_rfl) i (by omega)
      rw [readTaint_one hreset, storedTaint_one hreset, Bool.or_false, Bool.or_false] at hbit
      exact hbit.symm
    refine ⟨hzero, ?_⟩
    intro t i hi htaint
    cases t with
    | zero => exact absurd htaint (by simp [readTaint])
    | succ t =>
      have ht : t + 1 ≥ 1 := by omega
      have hbit := (rdataOT0_eq_rdataOT1_iff s s' hreset ht).mp (heq (t + 1) ht) i (by omega)
      rw [htaint, hzero] at hbit
      simpa using hbit.symm
  · intro h t ht
    obtain ⟨hzero, hhidden⟩ := h
    apply (rdataOT0_eq_rdataOT1_iff s s' hreset ht).mpr
    intro i _
    rw [hzero, BitVec.ofNat_eq_ofNat, BitVec.getLsbD_zero, Bool.false_or]
    by_cases htaint : (readTaint (firstIn ins) t).getLsbD i = true
    · have hi : i < 16 := BitVec.lt_of_getLsbD htaint
      rw [hhidden t i hi htaint, Bool.or_true]
    · rw [Bool.not_eq_true] at htaint
      rw [htaint, Bool.false_or]

/-- A run against the one with the colours exchanged: the data always agree, the colours
correspond exactly if the second address taint powered up clear in both and no address taint, of
either colour, marks a bit that is not already stored with taint. -/
theorem colours_exchange_iff (hreset : (ins 0).rstNi = false) (hram : s.ram = s'.ram) :
    (∀ t ≥ 1, rdataO2 (run2 s ins t) = rdataO2 (run2 s' (exchanged ins) t) ∧
      rdataOT0 (run2 s ins t) = rdataOT1 (run2 s' (exchanged ins) t) ∧
      rdataOT1 (run2 s ins t) = rdataOT0 (run2 s' (exchanged ins) t)) ↔
    s.raddrQT1 = 0 ∧ s'.raddrQT1 = 0 ∧ Hidden (firstIn ins) ∧ Hidden (firstIn (exchanged ins)) := by
  have hreset' : (exchanged ins 0).rstNi = false := hreset
  have hdata (t : Nat) (ht : t ≥ 1) :
      rdataO2 (run2 s ins t) = rdataO2 (run2 s' (exchanged ins) t) := by
    apply BitVec.eq_of_getLsbD_eq
    intro i hi
    rw [getLsbD_rdataO2 s hreset ht hi, getLsbD_rdataO2 s' hreset' ht hi,
      readWord_exchanged, written_exchanged, hram]
  have hfirst := first_eq_second_iff s s' hreset
  have hsecond := first_eq_second_iff s' s hreset'
  rw [exchanged_exchanged] at hsecond
  constructor
  · intro heq
    obtain ⟨hs', hhidden⟩ := hfirst.mp fun t ht => (heq t ht).2.1
    obtain ⟨hs, hhidden'⟩ := hsecond.mp fun t ht => (heq t ht).2.2.symm
    exact ⟨hs, hs', hhidden, hhidden'⟩
  · intro ⟨hs, hs', hhidden, hhidden'⟩ t ht
    exact ⟨hdata t ht, hfirst.mpr ⟨hs', hhidden⟩ t ht, (hsecond.mpr ⟨hs, hhidden'⟩ t ht).symm⟩

/-- Everything clear at power-up. -/
def cleared : State2 := ⟨fun _ => 0, fun _ => 0, fun _ => 0, 0, 0, 0⟩

/-- A reset cycle, then reads of word 0 with the given taint of the address in the first colour. -/
def readsAfterReset (q : BitVec 16) (t : Nat) : In2 :=
  ⟨⟨t != 0, true, false, 0, 0, 0, q, 0⟩, 0, 0⟩

/-- A reset cycle, a write of word 0 with taint of both colours on the data, then reads of it with
taint of both colours on the address. -/
def storeAndRead (q q' : BitVec 16) (d d' : BitVec 64) : Nat → In2
  | 0 => ⟨⟨false, false, false, 0, 0, 0, 0, 0⟩, 0, 0⟩
  | 1 => ⟨⟨true, true, true, 0, 5, 255, 0, d⟩, 0, d'⟩
  | _ => ⟨⟨true, true, false, 0, 0, 0, q, 0⟩, q', 0⟩

section StoreAndRead

variable {q q' : BitVec 16} {d d' : BitVec 64}

theorem exchanged_storeAndRead :
    exchanged (storeAndRead q q' d d') = storeAndRead q' q d' d := by
  funext t
  match t with
  | 0 | 1 | _ + 2 => rfl

theorem storedTaint_storeAndRead {i : Nat} (hi : i < 16) (t : Nat) :
    storedTaint false (firstIn (storeAndRead q q' d d')) 0 i (t + 2) = d.getLsbD i := by
  have hwrite : taintWrite (firstIn (storeAndRead q q' d d') 1) 0 i false =
      some (d.getLsbD i) := by
    have hmask : ∀ i < 16, (localBeI 255#8).getLsbD i = true := by decide
    simp [taintWrite, hits, firstIn, storeAndRead, low, hmask i hi]
  have hlater : storedTaint false (firstIn (storeAndRead q q' d d')) 0 i (t + 2) =
      storedTaint false (firstIn (storeAndRead q q' d d')) 0 i 2 := by
    apply held_of_no_write (by omega)
    intro u hu
    obtain ⟨v, rfl⟩ := Nat.exists_eq_add_of_le' hu
    rfl
  rw [hlater, storedTaint, held_succ, hwrite]
  rfl

/-- Taint of the address that the data was stored with is hidden. -/
theorem hidden_storeAndRead (h : ∀ i < 16, q.getLsbD i = true → d.getLsbD i = true) :
    Hidden (firstIn (storeAndRead q q' d d')) := by
  intro t i hi htaint
  match t with
  | 0 | 1 | 2 =>
    have hzero : (0 : BitVec 16).getLsbD i = true := htaint
    exact absurd hzero (by simp)
  | t + 3 =>
    rw [readTaint, held_succ] at htaint
    rw [readWord, readAddr, held_succ]
    exact (storedTaint_storeAndRead hi (t + 1)).trans (h i hi htaint)

end StoreAndRead

/-- Data stored with taint on two bits in the first colour and on another one in the second. -/
theorem colours_exchange_stored :
    let ins := storeAndRead 1 4 3 4
    (ins 0).rstNi = false ∧ rdataOT0 (run2 cleared ins 3) = 3 ∧ rdataOT1 (run2 cleared ins 3) = 4 ∧
    ∀ t ≥ 1, rdataO2 (run2 cleared ins t) = rdataO2 (run2 cleared (exchanged ins) t) ∧
      rdataOT0 (run2 cleared ins t) = rdataOT1 (run2 cleared (exchanged ins) t) ∧
      rdataOT1 (run2 cleared ins t) = rdataOT0 (run2 cleared (exchanged ins) t) := by
  intro ins
  have hhidden : Hidden (firstIn ins) := hidden_storeAndRead (by decide)
  have hhidden' : Hidden (firstIn (exchanged ins)) := by
    rw [exchanged_storeAndRead]
    exact hidden_storeAndRead (by decide)
  refine ⟨rfl, by decide, by decide, ?_⟩
  exact (colours_exchange_iff cleared cleared rfl rfl).mpr ⟨rfl, rfl, hhidden, hhidden'⟩

/-- After a reset, a read of a tainted address taints the output in the first colour only. -/
theorem second_colour_untracked :
    (readsAfterReset 1 0).rstNi = false ∧
    rdataOT0 (run2 cleared (readsAfterReset 1) 2) = 1 ∧
    rdataOT1 (run2 cleared (exchanged (readsAfterReset 1)) 2) = 0 := by
  decide

end Exchange

end OrdSram2Flags

end SynthLC
