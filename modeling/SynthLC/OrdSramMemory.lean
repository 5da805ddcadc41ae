import SynthLC.OrdSram

/-! What `13_ord_sram.sv` stores and shows: taint of the data covers every difference of the data,
and apart from its taint the module is a memory of bytes with a latched read address. -/
namespace SynthLC

open Held

namespace OrdSram

/-! ### Taint of the data -/

/-- The same request with the same taint, and write data that differs in tainted bits at most. -/
structure SameButData (x y : In) : Prop where
  reqI : x.reqI = y.reqI
  weI : x.weI = y.weI
  addrI : x.addrI = y.addrI
  beI : x.beI = y.beI
  addrIT0 : x.addrIT0 = y.addrIT0
  wdataIT0 : x.wdataIT0 = y.wdataIT0
  wdataI : ∀ i < 64, x.wdataI.getLsbD i ≠ y.wdataI.getLsbD i → x.wdataIT0.getLsbD i = true

/-- Two memories that differ in tainted bits of their words at most. -/
structure SameButTainted (s s' : State) : Prop where
  raddrQ : s.raddrQ = s'.raddrQ
  raddrQT0 : s.raddrQT0 = s'.raddrQT0
  ramT0 : ∀ a, ∀ i < 64, (s.ramT0 a).getLsbD i = (s'.ramT0 a).getLsbD i
  ram : ∀ a, ∀ i < 64, (s.ramT0 a).getLsbD i = false → (s.ram a).getLsbD i = (s'.ram a).getLsbD i

section DataTaint

variable {x y : In} {s s' : State} {a : BitVec 5} {i : Nat}

theorem SameButData.hits_eq (h : SameButData x y) (hx : x.rstNi = true) (hy : y.rstNi = true) :
    hits x a i = hits y a i := by
  unfold hits
  rw [hx, hy, h.reqI, h.weI, h.addrI, h.beI]

/-- Untainted data is the same in both requests. -/
theorem SameButData.wdataI_eq (h : SameButData x y) (hi : i < 64)
    (hfree : x.wdataIT0.getLsbD i = false) : x.wdataI.getLsbD i = y.wdataI.getLsbD i := by
  by_contra hne
  have htaint := h.wdataI i hi hne
  rw [hfree] at htaint
  cases htaint

theorem SameButTainted.step (hs : SameButTainted s s') (h : SameButData x y)
    (hx : x.rstNi = true) (hy : y.rstNi = true) :
    SameButTainted (step false s x) (step false s' y) := by
  have hhits (a : BitVec 5) (i : Nat) : hits x a i = hits y a i := h.hits_eq hx hy
  have htaint (a : BitVec 5) (i : Nat) : taintWrite x a i false = taintWrite y a i false := by
    unfold taintWrite
    rw [hx, hy, hhits, h.wdataIT0]
  refine ⟨?_, ?_, ?_, ?_⟩
  · rw [step_raddrQ, step_raddrQ, addrWrite, addrWrite, hx, hy, h.reqI, h.weI, h.addrI, hs.raddrQ]
  · rw [step_raddrQT0, step_raddrQT0, addrTaintWrite, addrTaintWrite, hx, hy, h.reqI, h.weI,
      h.addrIT0, hs.raddrQT0]
  · intro a i hi
    rw [step_ramT0 _ _ _ _ hi, step_ramT0 _ _ _ _ hi, htaint, hs.ramT0 a i hi]
  · intro a i hi hfree
    rw [step_ramT0 _ _ _ _ hi, taintWrite, hx] at hfree
    rw [step_ram _ _ _ _ hi, step_ram _ _ _ _ hi, dataWrite, dataWrite, ← hhits]
    -- the bit is overwritten together with its taint, or both stay
    cases hhit : hits x a i with
    | false =>
      simp only [hhit] at hfree
      exact hs.ram a i hi hfree
    | true =>
      simp only [hhit] at hfree
      exact h.wdataI_eq hi hfree

variable {ins ins' : Nat → In}

theorem sameButTainted_run (ram : BitVec 5 → BitVec 64) (hins : ∀ t, (ins t).rstNi = true)
    (hins' : ∀ t, (ins' t).rstNi = true) (h : ∀ t, SameButData (ins t) (ins' t)) (t : Nat) :
    SameButTainted (run false (start ram) ins t) (run false (start ram) ins' t) := by
  induction t with
  | zero => exact ⟨rfl, rfl, fun _ _ _ => rfl, fun _ _ _ _ => rfl⟩
  | succ t ih => exact ih.step (h t) (hins t) (hins' t)

/-- A write of word 3 whose lowest data bit is tainted, then reads of that word. -/
def writeThenRead (data : BitVec 64) (t : Nat) : In :=
  if t = 0 then ⟨true, true, true, 3, data, 255, 0, 1⟩ else ⟨true, true, false, 3, 0, 0, 0, 0⟩

theorem writeThenRead_rstNi (data : BitVec 64) (t : Nat) : (writeThenRead data t).rstNi = true := by
  unfold writeThenRead
  split_ifs <;> rfl

/-- From equal contents after a reset, requests whose write data differ in tainted bits only show
the same data wherever the output carries no taint. -/
theorem data_taint_sound (ram : BitVec 5 → BitVec 64) (hins : ∀ t, (ins t).rstNi = true)
    (hins' : ∀ t, (ins' t).rstNi = true) (h : ∀ t, SameButData (ins t) (ins' t)) (t : Nat)
    (hi : i < 64) (hfree : (rdataOT0 (run false (start ram) ins t)).getLsbD i = false) :
    (rdataO (run false (start ram) ins t)).getLsbD i =
      (rdataO (run false (start ram) ins' t)).getLsbD i := by
  have hsame := sameButTainted_run ram hins hins' h t
  unfold rdataOT0 at hfree
  rw [BitVec.getLsbD_or, Bool.or_eq_false_iff] at hfree
  unfold rdataO
  rw [← hsame.raddrQ]
  exact hsame.ram _ i hi hfree.2

theorem data_taint_sound_read :
    (rdataOT0 (run false (start fun _ => 0) (writeThenRead 6) 2)).getLsbD 1 = false ∧
    (rdataO (run false (start fun _ => 0) (writeThenRead 6) 2)).getLsbD 1 =
      (rdataO (run false (start fun _ => 0) (writeThenRead 7) 2)).getLsbD 1 := by
  have hsame (t : Nat) : SameButData (writeThenRead 6 t) (writeThenRead 7 t) := by
    unfold writeThenRead
    split_ifs
    · exact ⟨rfl, rfl, rfl, rfl, rfl, rfl, by decide⟩
    · exact ⟨rfl, rfl, rfl, rfl, rfl, rfl, by decide⟩
  have hfree : (rdataOT0 (run false (start fun _ => 0) (writeThenRead 6) 2)).getLsbD 1 =
      false := by decide
  exact ⟨hfree, data_taint_sound _ (writeThenRead_rstNi 6) (writeThenRead_rstNi 7) hsame 2
    (by decide) hfree⟩

end DataTaint

/-! ### The memory of bytes -/

/-- Byte `k` of a word. -/
def lane (w : BitVec 64) (k : Nat) : BitVec 8 := w.extractLsb' (8 * k) 8

/-- A memory of bytes, eight to an address, with a latched read address. -/
structure ByteMemory where
  bytes : BitVec 16 → Nat → BitVec 8
  addr : BitVec 16

namespace ByteMemory

/-- A write request stores the enabled bytes, a read request latches its address. -/
def step (m : ByteMemory) (x : In) : ByteMemory :=
  if x.reqI then
    if x.weI then
      { m with bytes := fun a k =>
          if x.addrI = a ∧ x.beI.getLsbD k = true then lane x.wdataI k else m.bytes a k }
    else { m with addr := x.addrI }
  else m

def run (m : ByteMemory) (ins : Nat → In) : Nat → ByteMemory
  | 0 => m
  | t + 1 => step (run m ins t) (ins t)

/-- The byte the read port shows in a lane. -/
def out (m : ByteMemory) (k : Nat) : BitVec 8 := m.bytes m.addr k

end ByteMemory

section Abstract

variable (m : ByteMemory) (x : In) (ins : Nat → In) (a : BitVec 16) (k t : Nat)

def isRead : Bool := x.reqI && !x.weI

/-- A write request to the address that enables the byte. -/
def writesLane : Bool := x.reqI && x.weI && x.addrI == a && x.beI.getLsbD k

def latched : Option (BitVec 16) := if isRead x then some x.addrI else none

def laneWrite : Option (BitVec 8) := if writesLane x a k then some (lane x.wdataI k) else none

theorem step_bytes : (m.step x).bytes a k = (laneWrite x a k).getD (m.bytes a k) := by
  unfold laneWrite writesLane ByteMemory.step
  cases hreq : x.reqI
  · simp
  · cases hwe : x.weI
    · simp
    · simp only [if_true, Bool.true_and, Bool.and_eq_true, beq_iff_eq]
      split_ifs <;> rfl

theorem step_addr : (m.step x).addr = (latched x).getD m.addr := by
  unfold latched isRead ByteMemory.step
  cases hreq : x.reqI <;> cases hwe : x.weI <;> simp

/-- A byte holds what was written to it last ... -/
theorem run_bytes :
    (m.run ins t).bytes a k = held (fun t => laneWrite (ins t) a k) (m.bytes a k) t := by
  apply eq_held (r := fun t => (m.run ins t).bytes a k)
  · rfl
  · intro t
    exact step_bytes _ (ins t) a k

/-- ... and the read address is that of the last read request. -/
theorem run_addr : (m.run ins t).addr = held (fun t => latched (ins t)) m.addr t := by
  apply eq_held (r := fun t => (m.run ins t).addr)
  · rfl
  · intro t
    exact step_addr _ (ins t)

end Abstract

/-! ### The module refines it -/

section Bytes

variable {k j : Nat}

/-- Byte `k` of the mask is all ones where the byte is enabled. -/
theorem getLsbD_localBeI (beI : BitVec 8) {i : Nat} (hi : i < 64) :
    (localBeI beI).getLsbD i = beI.getLsbD (i / 8) := by
  have hones (k : Nat) : (255#64 <<< (8 * k)).getLsbD i = decide (i / 8 = k) := by
    have hbyte (d : Nat) : (255#64).getLsbD d = decide (d < 8) := by
      rw [show (255#64) = (BitVec.allOnes 8).setWidth 64 by decide, BitVec.getLsbD_setWidth,
        BitVec.getLsbD_allOnes]
      by_cases hd : d < 8
      · simp [hd, show d < 64 by omega]
      · simp [hd]
    rw [BitVec.getLsbD_shiftLeft, hbyte, Bool.eq_iff_iff]
    simp only [Bool.and_eq_true, Bool.not_eq_true', decide_eq_true_eq, decide_eq_false_iff_not]
    omega
  have hloop (n : Nat) : ((List.range n).foldl (fun mask k =>
      if beI.getLsbD k then mask ||| 255#64 <<< (8 * k) else mask) 0).getLsbD i =
      (decide (i / 8 < n) && beI.getLsbD (i / 8)) := by
    induction n with
    | zero => simp
    | succ n ih =>
      rw [List.range_succ, List.foldl_concat]
      by_cases hn : i / 8 = n
      · rw [hn] at ih ⊢
        cases hbe : beI.getLsbD n
        · simpa [hbe] using ih
        · simp [BitVec.getLsbD_or, hones, hn]
      · have hlt : decide (i / 8 < n + 1) = decide (i / 8 < n) := by
          rw [decide_eq_decide]
          omega
        rw [hlt, ← ih]
        split_ifs
        · simp [BitVec.getLsbD_or, hones, hn]
        · rfl
  rw [localBeI, hloop 8]
  simp [show i / 8 < 8 by omega]

theorem getLsbD_lane (w : BitVec 64) (hj : j < 8) :
    (lane w k).getLsbD j = w.getLsbD (8 * k + j) := by
  unfold lane
  simp [hj]

/-- The low bits tell apart the addresses that `LIM_ADDR` allows. -/
theorem low_eq_iff {a b : BitVec 16} (ha : a ≤ 31#16) (hb : b ≤ 31#16) :
    low a = low b ↔ a = b := by
  constructor
  · intro h
    have hval := congrArg BitVec.toNat h
    simp only [low, BitVec.extractLsb'_toNat, Nat.shiftRight_zero] at hval
    rw [BitVec.le_def] at ha hb
    apply BitVec.eq_of_toNat_eq
    simp only [BitVec.toNat_ofNat] at ha hb
    omega
  · intro h
    rw [h]

end Bytes

/-- The words of the module are the bytes of the memory, and both latch the same address. -/
structure Refines (s : State) (m : ByteMemory) : Prop where
  bytes : ∀ a ≤ 31#16, ∀ k < 8, lane (s.ram (low a)) k = m.bytes a k
  addr : s.raddrQ = m.addr
  limit : m.addr ≤ 31#16

section Refinement

variable {s : State} {m : ByteMemory} {x : In} {blkTTArch : Bool}

theorem hits_eq_writesLane (hrst : x.rstNi = true) (hlim : LimAddr x) {a : BitVec 16}
    (ha : a ≤ 31#16) {k j : Nat} (hk : k < 8) (hj : j < 8) :
    hits x (low a) (8 * k + j) = writesLane x a k := by
  have hlow : (low x.addrI == low a) = (x.addrI == a) := by
    rw [Bool.eq_iff_iff, beq_iff_eq, beq_iff_eq, low_eq_iff hlim ha]
  have hbyte : (8 * k + j) / 8 = k := by omega
  rw [hits, writesLane, hrst, hlow, getLsbD_localBeI x.beI (by omega), hbyte, Bool.true_and]

theorem Refines.step (h : Refines s m) (hrst : x.rstNi = true) (hlim : LimAddr x) :
    Refines (step blkTTArch s x) (m.step x) := by
  refine ⟨?_, ?_, ?_⟩
  · intro a ha k hk
    apply BitVec.eq_of_getLsbD_eq
    intro j hj
    rw [getLsbD_lane _ hj, step_ram _ _ _ _ (by omega), dataWrite,
      hits_eq_writesLane hrst hlim ha hk hj, step_bytes, laneWrite]
    cases writesLane x a k with
    | true => exact (getLsbD_lane _ hj).symm
    | false =>
      have hold := h.bytes a ha k hk
      rw [if_neg (by simp), if_neg (by simp), Option.getD_none, Option.getD_none, ← hold,
        getLsbD_lane _ hj]
  · rw [step_raddrQ, step_addr, addrWrite, hrst, h.addr]
    rfl
  · rw [step_addr, latched]
    cases isRead x with
    | true => exact hlim
    | false => exact h.limit

variable {ins : Nat → In}

/-- The memory that holds the words of a RAM, with the read address of a reset. -/
def ofRam (ram : BitVec 5 → BitVec 64) : ByteMemory := ⟨fun a k => lane (ram (low a)) k, 0⟩

theorem refines_run (ram : BitVec 5 → BitVec 64) (hrst : ∀ t, (ins t).rstNi = true)
    (hlim : ∀ t, LimAddr (ins t)) (t : Nat) :
    Refines (run blkTTArch (start ram) ins t) ((ofRam ram).run ins t) := by
  induction t with
  | zero => exact ⟨fun _ _ _ _ => rfl, rfl, show 0#16 ≤ 31#16 by decide⟩
  | succ t ih => exact ih.step (hrst t) (hlim t)

/-- What the module shows is what the memory of bytes shows. -/
theorem lane_rdataO (ram : BitVec 5 → BitVec 64) (hrst : ∀ t, (ins t).rstNi = true)
    (hlim : ∀ t, LimAddr (ins t)) (t : Nat) {k : Nat} (hk : k < 8) :
    lane (rdataO (run blkTTArch (start ram) ins t)) k = ((ofRam ram).run ins t).out k := by
  have href : Refines (run blkTTArch (start ram) ins t) ((ofRam ram).run ins t) :=
    refines_run ram hrst hlim t
  rw [rdataO, href.addr, href.bytes _ href.limit k hk]
  rfl

/-- After a read request and until the next one, each byte shown is the one that the last earlier
write request enabled and stored at that address, or what the RAM held at first. -/
theorem reads_last_write (blkTTArch : Bool) (ram : BitVec 5 → BitVec 64)
    (hrst : ∀ t, (ins t).rstNi = true) (hlim : ∀ t, LimAddr (ins t)) {r t : Nat} (hrt : r < t)
    (hread : isRead (ins r) = true) (hnext : ∀ u, r < u → u < t → isRead (ins u) = false)
    {k : Nat} (hk : k < 8) :
    (∀ u < t, writesLane (ins u) (ins r).addrI k = true →
      (∀ v, u < v → v < t → writesLane (ins v) (ins r).addrI k = false) →
      lane (rdataO (run blkTTArch (start ram) ins t)) k = lane (ins u).wdataI k) ∧
    ((∀ u < t, writesLane (ins u) (ins r).addrI k = false) →
      lane (rdataO (run blkTTArch (start ram) ins t)) k = lane (ram (low (ins r).addrI)) k) := by
  have hlatch (u : Nat) (h : isRead (ins u) = false) : latched (ins u) = none := by
    rw [latched, h]
    rfl
  have hkeep (u : Nat) (h : writesLane (ins u) (ins r).addrI k = false) :
      laneWrite (ins u) (ins r).addrI k = none := by
    rw [laneWrite, h]
    rfl
  have haddr : ((ofRam ram).run ins t).addr = (ins r).addrI := by
    have hlast : last (fun t => latched (ins t)) t = some (ins r).addrI :=
      last_eq_some hrt (if_pos hread) fun u h h' => hlatch u (hnext u h h')
    rw [run_addr, held, hlast, Option.getD_some]
  rw [lane_rdataO ram hrst hlim t hk, ByteMemory.out, haddr, run_bytes, held]
  constructor
  · intro u hut hu hlater
    have hlast : last (fun t => laneWrite (ins t) (ins r).addrI k) t =
        some (lane (ins u).wdataI k) :=
      last_eq_some hut (if_pos hu) fun v h h' => hkeep v (hlater v h h')
    rw [hlast, Option.getD_some]
  · intro hnone
    rw [last_eq_none fun u hu => hkeep u (hnone u hu), Option.getD_none]
    rfl

theorem reads_last_write_word : isRead (writeThenRead 6 1) = true ∧
    lane (rdataO (run false (start fun _ => 0) (writeThenRead 6) 2)) 0 = 6#8 := by
  have hread : isRead (writeThenRead 6 1) = true := by decide
  have hlim (t : Nat) : LimAddr (writeThenRead 6 t) := by
    unfold writeThenRead
    split_ifs <;> decide
  have hbyte := (reads_last_write false (fun _ => 0) (writeThenRead_rstNi 6) hlim
    (show 1 < 2 by omega) hread (fun u h h' => by omega) (show 0 < 8 by omega)).1 0 (by omega)
    (by decide) fun v h h' => by
      obtain rfl : v = 1 := by omega
      decide
  exact ⟨hread, hbyte⟩

end Refinement

end OrdSram

end SynthLC
