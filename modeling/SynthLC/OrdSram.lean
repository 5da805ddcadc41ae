import SynthLC.Held
import Mathlib.Data.BitVec
import Mathlib.Logic.Function.Basic

/-! The instrumented data memory `src_ift/13_ord_sram.sv` (`FUNCVERIF` undefined): 32 words with a
shadow word of taint each, a latched read address and its taint. -/
namespace SynthLC

open Held

namespace OrdSram

/-- The inputs the module reads in one cycle. -/
structure In where
  rstNi : Bool
  reqI : Bool
  weI : Bool
  addrI : BitVec 16
  wdataI : BitVec 64
  beI : BitVec 8
  addrIT0 : BitVec 16
  wdataIT0 : BitVec 64
  deriving DecidableEq

/-- `addr_i[4:0]` -/
def low (a : BitVec 16) : BitVec 5 := a.extractLsb' 0 5

/-- `local_be_i`: byte `k` of the mask is all ones if `be_i[k]` is set. -/
def localBeI (beI : BitVec 8) : BitVec 64 :=
  (List.range 8).foldl (fun mask k => if beI.getLsbD k then mask ||| 255#64 <<< (8 * k) else mask) 0

/-- `for (int i = 0; i < DATA_WIDTH; i++) if (local_be_i[i]) word[i] <= data[i];` -/
def writeBits (mask data word : BitVec 64) : BitVec 64 := (data &&& mask) ||| (word &&& ~~~mask)

theorem getLsbD_writeBits (mask data word : BitVec 64) {i : Nat} (hi : i < 64) :
    (writeBits mask data word).getLsbD i =
      if mask.getLsbD i then data.getLsbD i else word.getLsbD i := by
  unfold writeBits
  simp only [BitVec.getLsbD_or, BitVec.getLsbD_and, BitVec.getLsbD_not]
  cases mask.getLsbD i <;> simp [hi]

/-- The write loop on word `a` of a memory. -/
def writeWord (mem : BitVec 5 → BitVec 64) (a : BitVec 5) (mask data : BitVec 64) :
    BitVec 5 → BitVec 64 :=
  Function.update mem a (writeBits mask data (mem a))

/-- One bit of a memory after the write loop. -/
theorem getLsbD_writeWord (mem : BitVec 5 → BitVec 64) (a b : BitVec 5) (mask data : BitVec 64)
    {i : Nat} (hi : i < 64) : (writeWord mem b mask data a).getLsbD i =
      if b == a && mask.getLsbD i then data.getLsbD i else (mem a).getLsbD i := by
  unfold writeWord
  by_cases hb : b = a
  · subst hb
    rw [Function.update_self, getLsbD_writeBits mask data (mem b) hi]
    simp
  · have hne : a ≠ b := Ne.symm hb
    rw [Function.update_of_ne hne]
    simp [hb]

structure State where
  ram : BitVec 5 → BitVec 64
  ramT0 : BitVec 5 → BitVec 64
  raddrQ : BitVec 16
  raddrQT0 : BitVec 16

/-- One clock edge; `blkTTArch` tells whether `BLK_T_T_ARCH` is defined. -/
def step (blkTTArch : Bool) (s : State) (x : In) : State :=
  if !x.rstNi then
    { s with raddrQ := 0, raddrQT0 := 0, ramT0 := fun _ => 0 }
  else if x.reqI then
    if !x.weI then
      { s with raddrQ := x.addrI, raddrQT0 := x.addrIT0 }
    else
      let a := low x.addrI
      let mask := localBeI x.beI
      { s with
        ram := writeWord s.ram a mask x.wdataI
        ramT0 := writeWord s.ramT0 a mask (if blkTTArch then 0 else x.wdataIT0) }
  else s

def rdataO (s : State) : BitVec 64 := s.ram (low s.raddrQ)

/-- The 16 bits of the address taint are extended with zeros. -/
def rdataOT0 (s : State) : BitVec 64 := s.raddrQT0.setWidth 64 ||| s.ramT0 (low s.raddrQ)

def run (blkTTArch : Bool) (s : State) (ins : Nat → In) : Nat → State
  | 0 => s
  | t + 1 => step blkTTArch (run blkTTArch s ins t) (ins t)

/-- Some RAM contents, and everything else as a reset leaves it. -/
def start (ram : BitVec 5 → BitVec 64) : State := ⟨ram, fun _ => 0, 0, 0⟩

section Writes

variable (x : In) (a : BitVec 5) (i : Nat) (blkTTArch : Bool)

/-- What one cycle writes into the latched address. -/
def addrWrite : Option (BitVec 16) :=
  if !x.rstNi then some 0 else if x.reqI && !x.weI then some x.addrI else none

def addrTaintWrite : Option (BitVec 16) :=
  if !x.rstNi then some 0 else if x.reqI && !x.weI then some x.addrIT0 else none

/-- The cycle writes bit `i` of word `a`. -/
def hits : Bool := x.rstNi && x.reqI && x.weI && low x.addrI == a && (localBeI x.beI).getLsbD i

def dataWrite : Option Bool := if hits x a i then some (x.wdataI.getLsbD i) else none

def taintWrite : Option Bool :=
  if !x.rstNi then some false
  else if hits x a i then some (!blkTTArch && x.wdataIT0.getLsbD i) else none

end Writes

section Edges

variable (blkTTArch : Bool) (s : State) (x : In) (a : BitVec 5) {i : Nat}

theorem step_raddrQ : (step blkTTArch s x).raddrQ = (addrWrite x).getD s.raddrQ := by
  unfold step addrWrite
  cases x.rstNi <;> cases x.reqI <;> cases x.weI <;> rfl

theorem step_raddrQT0 : (step blkTTArch s x).raddrQT0 = (addrTaintWrite x).getD s.raddrQT0 := by
  unfold step addrTaintWrite
  cases x.rstNi <;> cases x.reqI <;> cases x.weI <;> rfl

/-- The write loop of a running write request, seen at one bit of a memory. -/
theorem getLsbD_writeWord_hits (mem : BitVec 5 → BitVec 64) (data : BitVec 64) (hi : i < 64)
    (hrst : x.rstNi = true) (hreq : x.reqI = true) (hwe : x.weI = true) :
    (writeWord mem (low x.addrI) (localBeI x.beI) data a).getLsbD i =
      (if hits x a i then some (data.getLsbD i) else none).getD ((mem a).getLsbD i) := by
  rw [getLsbD_writeWord mem a (low x.addrI) _ _ hi]
  unfold hits
  rw [hrst, hreq, hwe, Bool.true_and, Bool.true_and, Bool.true_and]
  cases low x.addrI == a && (localBeI x.beI).getLsbD i <;> rfl

theorem step_ram (hi : i < 64) : ((step blkTTArch s x).ram a).getLsbD i =
    (dataWrite x a i).getD ((s.ram a).getLsbD i) := by
  cases hrst : x.rstNi <;> cases hreq : x.reqI <;> cases hwe : x.weI
  case true.true.true =>
    have hbit := getLsbD_writeWord_hits x a s.ram x.wdataI hi hrst hreq hwe
    simpa [step, dataWrite, hrst, hreq, hwe] using hbit
  all_goals simp [step, dataWrite, hits, hrst, hreq, hwe]

theorem step_ramT0 (hi : i < 64) : ((step blkTTArch s x).ramT0 a).getLsbD i =
    (taintWrite x a i blkTTArch).getD ((s.ramT0 a).getLsbD i) := by
  cases hrst : x.rstNi <;> cases hreq : x.reqI <;> cases hwe : x.weI
  case true.true.true =>
    have hbit := getLsbD_writeWord_hits x a s.ramT0 (if blkTTArch then 0 else x.wdataIT0) hi hrst
      hreq hwe
    cases blkTTArch <;> simpa [step, taintWrite, hrst, hreq, hwe] using hbit
  all_goals simp [step, taintWrite, hits, hrst, hreq, hwe]

end Edges

section Runs

variable (blkTTArch : Bool) (ins : Nat → In)

/-- Address of the last read request since reset. -/
def readAddr : Nat → BitVec 16 := held (fun t => addrWrite (ins t)) 0

/-- Taint of that address. -/
def readTaint : Nat → BitVec 16 := held (fun t => addrTaintWrite (ins t)) 0

/-- Taint the last write of a bit since reset brought with it. -/
def storedTaint (a : BitVec 5) (i : Nat) : Nat → Bool :=
  held (fun t => taintWrite (ins t) a i blkTTArch) false

/-- The last value written to a bit, if it was ever written. -/
def written (a : BitVec 5) (i : Nat) : Nat → Option Bool := last fun t => dataWrite (ins t) a i

/-- The word the output shows. -/
def readWord (t : Nat) : BitVec 5 := low (readAddr ins t)

variable (s : State) (t : Nat) {i : Nat}

theorem run_raddrQ :
    (run blkTTArch s ins t).raddrQ = held (fun t => addrWrite (ins t)) s.raddrQ t := by
  apply eq_held (r := fun t => (run blkTTArch s ins t).raddrQ)
  · rfl
  · intro t
    exact step_raddrQ blkTTArch _ (ins t)

theorem run_raddrQT0 :
    (run blkTTArch s ins t).raddrQT0 = held (fun t => addrTaintWrite (ins t)) s.raddrQT0 t := by
  apply eq_held (r := fun t => (run blkTTArch s ins t).raddrQT0)
  · rfl
  · intro t
    exact step_raddrQT0 blkTTArch _ (ins t)

theorem run_ram (a : BitVec 5) (hi : i < 64) : ((run blkTTArch s ins t).ram a).getLsbD i =
    (written ins a i t).getD ((s.ram a).getLsbD i) := by
  apply eq_held (r := fun t => ((run blkTTArch s ins t).ram a).getLsbD i)
  · rfl
  · intro t
    exact step_ram blkTTArch _ (ins t) a hi

theorem run_ramT0 (a : BitVec 5) (hi : i < 64) : ((run blkTTArch s ins t).ramT0 a).getLsbD i =
    held (fun t => taintWrite (ins t) a i blkTTArch) ((s.ramT0 a).getLsbD i) t := by
  apply eq_held (r := fun t => ((run blkTTArch s ins t).ramT0 a).getLsbD i)
  · rfl
  · intro t
    exact step_ramT0 blkTTArch _ (ins t) a hi

/-- After a reset cycle only the RAM still holds what it powered up with. -/
theorem run_of_reset {t : Nat} (hreset : (ins 0).rstNi = false) (ht : 1 ≤ t) :
    run blkTTArch s ins t = run blkTTArch (start s.ram) ins t := by
  induction t with
  | zero => omega
  | succ t ih =>
    cases t with
    | zero => simp [run, step, start, hreset]
    | succ t =>
      rw [run, ih (by omega)]
      rfl

variable (ram : BitVec 5 → BitVec 64)

theorem getLsbD_rdataO (hi : i < 64) : (rdataO (run blkTTArch (start ram) ins t)).getLsbD i =
    (written ins (readWord ins t) i t).getD ((ram (readWord ins t)).getLsbD i) := by
  unfold rdataO
  rw [run_raddrQ, run_ram blkTTArch ins _ t _ hi]
  rfl

theorem getLsbD_rdataOT0 (hi : i < 64) : (rdataOT0 (run blkTTArch (start ram) ins t)).getLsbD i =
    ((readTaint ins t).getLsbD i || storedTaint blkTTArch ins (readWord ins t) i t) := by
  unfold rdataOT0
  rw [BitVec.getLsbD_or, BitVec.getLsbD_setWidth, run_raddrQ, run_raddrQT0,
    run_ramT0 blkTTArch ins _ t _ hi]
  simp [hi, readWord, readAddr, readTaint, storedTaint, start]

end Runs

/-- The assumption `LIM_ADDR`. -/
def LimAddr (x : In) : Prop := x.addrI ≤ 31#16

instance (x : In) : Decidable (LimAddr x) := inferInstanceAs (Decidable (x.addrI ≤ 31#16))

/-- Requests that are identical except for tainted address bits of a read. -/
structure SameRequest (x y : In) : Prop where
  rstNi : x.rstNi = y.rstNi
  reqI : x.reqI = y.reqI
  weI : x.weI = y.weI
  write : x.reqI = true → x.weI = true → x.addrI = y.addrI ∧ x.wdataI = y.wdataI ∧
    x.beI = y.beI ∧ x.wdataIT0 = y.wdataIT0
  read : x.reqI = true → x.weI = false → ∀ i < 16, x.addrI.getLsbD i ≠ y.addrI.getLsbD i →
    x.addrIT0.getLsbD i = true ∧ y.addrIT0.getLsbD i = true

section TwoRuns

variable {x y : In} {a : BitVec 5} {i : Nat}

theorem SameRequest.hits_eq (h : SameRequest x y) : hits x a i = hits y a i := by
  unfold hits
  rw [← h.rstNi, ← h.reqI, ← h.weI]
  cases hreq : x.reqI
  · simp
  · cases hwe : x.weI
    · simp
    · obtain ⟨haddr, _, hbe, _⟩ := h.write hreq hwe
      rw [haddr, hbe]

theorem write_of_hits (h : hits x a i = true) : x.reqI = true ∧ x.weI = true := by
  unfold hits at h
  simp only [Bool.and_eq_true] at h
  exact ⟨h.1.1.1.2, h.1.1.2⟩

theorem SameRequest.dataWrite_eq (h : SameRequest x y) : dataWrite x a i = dataWrite y a i := by
  unfold dataWrite
  rw [← h.hits_eq]
  split_ifs with hhits
  · obtain ⟨hreq, hwe⟩ := write_of_hits hhits
    rw [(h.write hreq hwe).2.1]
  · rfl

theorem SameRequest.taintWrite_eq (h : SameRequest x y) (blkTTArch : Bool) :
    taintWrite x a i blkTTArch = taintWrite y a i blkTTArch := by
  unfold taintWrite
  rw [← h.hits_eq, ← h.rstNi]
  by_cases hhits : hits x a i = true
  · obtain ⟨hreq, hwe⟩ := write_of_hits hhits
    rw [(h.write hreq hwe).2.2.2]
  · simp [hhits]

variable (blkTTArch : Bool) (ins ins' : Nat → In)

/-- Where the two runs read different words, every data bit is one that an address taint bit of
the same number marks, or it is stored with taint, or both words were given the same value. -/
def DifferencesMarked : Prop :=
  ∀ t, readWord ins t ≠ readWord ins' t → ∀ i < 64,
    (readTaint ins t).getLsbD i = true ∨ (readTaint ins' t).getLsbD i = true ∨
    storedTaint blkTTArch ins (readWord ins t) i t = true ∨
    storedTaint blkTTArch ins (readWord ins' t) i t = true ∨
    ∃ d, written ins (readWord ins t) i t = some d ∧ written ins (readWord ins' t) i t = some d

/-- In both runs a data bit without taint has the same value. -/
def Agree (s s' : State) : Prop :=
  ∀ i < 64, (rdataOT0 s).getLsbD i = false → (rdataOT0 s').getLsbD i = false →
    (rdataO s).getLsbD i = (rdataO s').getLsbD i

variable {ins ins'}

/-- RAM contents in which one word is all `x` and the others all `y`. -/
def twoWords (a : BitVec 5) (x y : Bool) (b : BitVec 5) : BitVec 64 :=
  BitVec.fill 64 (if b = a then x else y)

theorem getLsbD_twoWords (a b : BitVec 5) (x y : Bool) (hi : i < 64) :
    (twoWords a x y b).getLsbD i = if b = a then x else y := by
  unfold twoWords
  simp [hi]

theorem written_eq (h : ∀ t, SameRequest (ins t) (ins' t)) (a : BitVec 5) (i : Nat) :
    written ins' a i = written ins a i := by
  unfold written
  congr 1
  funext t
  exact (h t).dataWrite_eq.symm

theorem storedTaint_eq (h : ∀ t, SameRequest (ins t) (ins' t)) (a : BitVec 5) (i : Nat) :
    storedTaint blkTTArch ins' a i = storedTaint blkTTArch ins a i := by
  unfold storedTaint
  congr 1
  funext t
  exact ((h t).taintWrite_eq blkTTArch).symm

/-- Agreement of the data, in terms of what was read and written. -/
theorem agree_run_iff (h : ∀ t, SameRequest (ins t) (ins' t)) (ram : BitVec 5 → BitVec 64)
    (t : Nat) :
    Agree (run blkTTArch (start ram) ins t) (run blkTTArch (start ram) ins' t) ↔ ∀ i < 64,
      (readTaint ins t).getLsbD i = false → (readTaint ins' t).getLsbD i = false →
      storedTaint blkTTArch ins (readWord ins t) i t = false →
      storedTaint blkTTArch ins (readWord ins' t) i t = false →
      (written ins (readWord ins t) i t).getD ((ram (readWord ins t)).getLsbD i) =
        (written ins (readWord ins' t) i t).getD ((ram (readWord ins' t)).getLsbD i) := by
  apply forall₂_congr
  intro i hi
  rw [getLsbD_rdataOT0 _ _ _ _ hi, getLsbD_rdataOT0 _ _ _ _ hi, getLsbD_rdataO _ _ _ _ hi,
    getLsbD_rdataO _ _ _ _ hi, written_eq h, storedTaint_eq blkTTArch h, Bool.or_eq_false_iff,
    Bool.or_eq_false_iff]
  tauto

/-- Address taint is sound for two request sequences and any RAM contents, exactly if every bit in
which the words read could differ is marked. -/
theorem address_taint_sound_iff (h : ∀ t, SameRequest (ins t) (ins' t)) :
    (∀ ram t, Agree (run blkTTArch (start ram) ins t) (run blkTTArch (start ram) ins' t)) ↔
      DifferencesMarked blkTTArch ins ins' := by
  simp only [agree_run_iff blkTTArch h]
  constructor
  · intro hagree t hword i hi
    by_contra hno
    simp only [not_or, Bool.not_eq_true] at hno
    obtain ⟨htaint, htaint', hst, hst', hwr⟩ := hno
    apply hwr
    apply forall_getD_eq_iff.mp
    intro x y
    -- contents in which the two words differ in every bit that was not written
    have hbit := hagree (twoWords (readWord ins t) x y) t i hi htaint htaint' hst hst'
    rwa [getLsbD_twoWords _ _ _ _ hi, getLsbD_twoWords _ _ _ _ hi, if_pos rfl,
      if_neg (Ne.symm hword)] at hbit
  · intro hmarked ram t i hi htaint htaint' hst hst'
    by_cases hword : readWord ins t = readWord ins' t
    · rw [hword]
    · rcases hmarked t hword i hi with hm | hm | hm | hm | ⟨d, hd, hd'⟩
      · rw [htaint] at hm
        cases hm
      · rw [htaint'] at hm
        cases hm
      · rw [hst] at hm
        cases hm
      · rw [hst'] at hm
        cases hm
      · rw [hd, hd']
        rfl

/-- A read of word `a` with taint on the lowest address bit. -/
def readIn (a : BitVec 16) : In := ⟨true, true, false, a, 0, 0, 1, 0⟩

theorem sameRequest_readIn : SameRequest (readIn 0) (readIn 1) :=
  ⟨rfl, rfl, rfl, fun _ hwe => absurd hwe (by decide), fun _ _ => by decide⟩

/-- Words 0 and 1 are written, the second with taint on the bit in which they differ, and then one
of them is read under a tainted address bit. -/
def twoWrites (a : BitVec 16) : Nat → In
  | 0 => ⟨true, true, true, 0, 5, 255, 0, 0⟩
  | 1 => ⟨true, true, true, 1, 7, 255, 0, 2⟩
  | _ => readIn a

theorem twoWrites_of_le (a : BitVec 16) {t : Nat} (ht : 2 ≤ t) : twoWrites a t = readIn a := by
  obtain ⟨u, rfl⟩ := Nat.exists_eq_add_of_le' ht
  rfl

theorem readWord_twoWrites (a : BitVec 16) (t : Nat) : readWord (twoWrites a) (t + 3) = low a := by
  rw [readWord, readAddr, held_succ]
  rfl

/-- The two runs read different words, which differ in one tainted bit. -/
theorem address_taint_sound_two_words :
    (∀ t, SameRequest (twoWrites 0 t) (twoWrites 1 t)) ∧
    readWord (twoWrites 0) 3 ≠ readWord (twoWrites 1) 3 ∧
    ∀ ram t,
      Agree (run false (start ram) (twoWrites 0) t) (run false (start ram) (twoWrites 1) t) := by
  have hsame (t : Nat) : SameRequest (twoWrites 0 t) (twoWrites 1 t) := by
    match t with
    | 0 | 1 =>
      exact ⟨rfl, rfl, rfl, fun _ _ => ⟨rfl, rfl, rfl, rfl⟩, fun _ _ _ _ hne => absurd rfl hne⟩
    | t + 2 => exact sameRequest_readIn
  refine ⟨hsame, by decide, (address_taint_sound_iff false hsame).mpr ?_⟩
  have hbits : ∀ i < 64, storedTaint false (twoWrites 0) 1 i 2 = true ∨
      ∃ d, written (twoWrites 0) 0 i 2 = some d ∧ written (twoWrites 0) 1 i 2 = some d := by
    decide +kernel
  intro t hword i hi
  match t with
  | 0 | 1 | 2 => exact absurd rfl hword
  | t + 3 =>
    have hstored (b : BitVec 5) : storedTaint false (twoWrites 0) b i (t + 3) =
        storedTaint false (twoWrites 0) b i 2 := by
      apply held_of_no_write (by omega)
      intro u hu
      rw [twoWrites_of_le 0 hu]
      rfl
    have hwritten (b : BitVec 5) : written (twoWrites 0) b i (t + 3) =
        written (twoWrites 0) b i 2 := by
      apply last_of_no_write (by omega)
      intro u hu
      rw [twoWrites_of_le 0 hu]
      rfl
    rw [readWord_twoWrites, readWord_twoWrites, hstored, hstored, hwritten, hwritten]
    exact .inr (.inr (.inr (hbits i hi)))

/-- Reading word 0 or word 1 under a tainted address bit shows in bit 1 of the data, which carries
no taint. -/
theorem tainted_address_leaks :
    SameRequest (readIn 0) (readIn 1) ∧ LimAddr (readIn 0) ∧ LimAddr (readIn 1) ∧
    ¬Agree (run false (start (twoWords 1 true false)) (fun _ => readIn 0) 1)
      (run false (start (twoWords 1 true false)) (fun _ => readIn 1) 1) := by
  refine ⟨sameRequest_readIn, by decide, by decide, ?_⟩
  intro hagree
  have hbit := hagree 1 (by decide)
  exact absurd hbit (by decide)

end TwoRuns

end OrdSram

end SynthLC
