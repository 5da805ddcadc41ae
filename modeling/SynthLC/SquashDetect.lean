import SynthLC.HeaderSquash
import SynthLC.Opcodes

/-! `squash_detect_setup.py`: for each opcode a register that remembers whether `i1` was fetched
with it, and the wires that attribute a squash of `i0` to it. -/
namespace SynthLC.SquashDetect

open BitField HeaderSquash Opcodes

/-- `obtain_opcodes`: the assumptions of each file, without its other lines. -/
def obtainOpcodes : List (Instn × List Test) := opcodeFiles.map fun opcode => (opcode, tests opcode)

theorem mem_obtainOpcodes {e : Instn × List Test} :
    e ∈ obtainOpcodes ↔ e.2 = tests e.1 := by
  unfold obtainOpcodes
  rw [List.mem_map]
  constructor
  · intro ⟨opcode, _, he⟩
    rw [← he]
  · intro he
    exact ⟨e.1, mem_opcodeFiles e.1, Prod.ext rfl he.symm⟩

/-- The wire `i1_<opcode>` for the requirements of the opcode. -/
def i1Signal (portions : List Test) (x : In) : Bool :=
  allHold x.readInstr portions && i1InstnFetched x

/-- The registers of the header and `seen_i1_<opcode>` for each opcode. -/
structure State where
  regs : Regs
  seenI1 : Instn → Bool

def start : State := ⟨cleared, fun _ => false⟩

/-- The header's `always` blocks together with the generated one. -/
def step (s : State) (x : In) : State where
  regs := HeaderSquash.step s.regs x
  seenI1 opcode :=
    if !x.rstNi then false
    else if i1Signal (tests opcode) x then true else s.seenI1 opcode

def run (ins : Nat → In) : Nat → State
  | 0 => start
  | t + 1 => step (run ins t) (ins t)

section Wires

variable (opcode : Instn) (s : State) (x : In)

def noI1MoreThanOnce : Bool :=
  !s.regs.i1FetchedMoreThanOnce && !(i1InstnFetched x && s.regs.seenI1Fetched)

def noJumpToTrap : Bool := !i1BranchToTrap s.regs x && !i1JalToTrap s.regs x

def icacheReqTrap : Bool := x.reqVaddr == x.trapVectorBase && x.req && !x.killS2

def noIcacheReqTrap : Bool := x.reqVaddr != x.trapVectorBase && x.req && !x.killS2

/-- `i0` was fetched, and `i1` with this opcode, which is not committed. -/
def i1Pending : Bool :=
  s.regs.i0FetchedBefore && s.seenI1 opcode && !s.regs.seenI1Committed && !i1Committed x

def leftPerfLocs : Bool :=
  if !x.inPerfLocs && s.regs.prevInPerfLocs then i1Pending opcode s x && noI1MoreThanOnce s x
  else false

def leftPerfLocsException : Bool :=
  if !x.inPerfLocs && s.regs.prevInPerfLocs && icacheReqTrap x then
    i1Pending opcode s x && noJumpToTrap s x && noI1MoreThanOnce s x
  else false

def leftPerfLocsSpeculation : Bool :=
  if !x.inPerfLocs && s.regs.prevInPerfLocs && noIcacheReqTrap x then
    i1Pending opcode s x && noJumpToTrap s x && noI1MoreThanOnce s x
  else false

/-- Some wire of the opcode is high. -/
def attributed : Bool :=
  leftPerfLocs opcode s x || leftPerfLocsException opcode s x || leftPerfLocsSpeculation opcode s x

end Wires

/-- No word passes the requirements of two opcodes. -/
theorem opcode_unique {w : BitVec 32} {a b : Instn} (ha : allHold w (tests a) = true)
    (hb : allHold w (tests b) = true) : a = b := by
  have hall : (opcodeFiles.all fun a => opcodeFiles.all fun b =>
      decide (a = b) || disjoint (tests a) (tests b)) = true := by decide +kernel
  have hrow := List.all_eq_true.mp hall a (mem_opcodeFiles a)
  have hpair := List.all_eq_true.mp hrow b (mem_opcodeFiles b)
  rw [Bool.or_eq_true, decide_eq_true_eq] at hpair
  exact hpair.resolve_right fun hdis => not_both_of_disjoint hdis ha hb

/-- A register of an opcode is set by a fetch of `i1`, and as long as there was one fetch only, no
two of them are set. -/
structure Inv (s : State) : Prop where
  fetched : ∀ a, s.seenI1 a = true → s.regs.seenI1Fetched = true
  one : s.regs.i1FetchedMoreThanOnce = false →
    ∀ a b, s.seenI1 a = true → s.seenI1 b = true → a = b

theorem inv_start : Inv start :=
  ⟨fun _ h => (by cases h), fun _ _ _ h => (by cases h)⟩

section Step

variable {s : State} {x : In}

theorem seenI1_step (hrst : x.rstNi = true) (a : Instn) :
    (step s x).seenI1 a = true ↔ i1Signal (tests a) x = true ∨ s.seenI1 a = true := by
  simp only [step, hrst, Bool.not_true, Bool.false_eq_true, if_false]
  split_ifs with h <;> simp [h]

theorem inv_step (h : Inv s) : Inv (step s x) := by
  cases hrst : x.rstNi with
  | false =>
    have hclear (a : Instn) : (step s x).seenI1 a ≠ true := by simp [step, hrst]
    exact ⟨fun a ha => absurd ha (hclear a), fun _ a _ ha => absurd ha (hclear a)⟩
  | true =>
    have hregs : (step s x).regs = edge s.regs x := by simp [step, HeaderSquash.step, hrst]
    refine ⟨?_, ?_⟩
    · intro a ha
      rw [seenI1_step hrst] at ha
      rw [hregs]
      simp only [edge]
      rcases ha with hnow | hold
      · rw [i1Signal, Bool.and_eq_true] at hnow
        rw [hnow.2, if_pos rfl]
      · rw [h.fetched a hold, ite_self]
    · intro hone a b ha hb
      rw [seenI1_step hrst, i1Signal, Bool.and_eq_true] at ha hb
      rw [hregs] at hone
      simp only [edge] at hone
      -- either nothing is added, or this is the first fetch and nothing was set before
      cases hfetch : i1InstnFetched x with
      | false =>
        simp only [hfetch, Bool.false_and, Bool.false_eq_true, if_false] at hone
        simp only [hfetch, Bool.false_eq_true, and_false, false_or] at ha hb
        exact h.one hone a b ha hb
      | true =>
        have hfirst : s.regs.seenI1Fetched = false := by
          cases hseen : s.regs.seenI1Fetched with
          | false => rfl
          | true => simp [hfetch, hseen] at hone
        have hunset (c : Instn) : s.seenI1 c ≠ true := by
          intro hc
          have hseen := h.fetched c hc
          rw [hfirst] at hseen
          cases hseen
        have hnow := ha.resolve_right (hunset a)
        have hnow' := hb.resolve_right (hunset b)
        exact opcode_unique hnow.1 hnow'.1

theorem inv_run (ins : Nat → In) (t : Nat) : Inv (run ins t) := by
  induction t with
  | zero => exact inv_start
  | succ t ih => exact inv_step ih

/-- Every wire of an opcode needs its register, and `i1` fetched once. -/
theorem seen_of_attributed {opcode : Instn} (h : attributed opcode s x = true) :
    s.seenI1 opcode = true ∧ s.regs.i1FetchedMoreThanOnce = false := by
  have hparts : i1Pending opcode s x = true ∧ noI1MoreThanOnce s x = true := by
    simp only [attributed, leftPerfLocs, leftPerfLocsException, leftPerfLocsSpeculation,
      Bool.or_eq_true, Bool.if_false_right, Bool.and_eq_true] at h
    tauto
  have ⟨hpending, honce⟩ := hparts
  simp only [i1Pending, Bool.and_eq_true] at hpending
  simp only [noI1MoreThanOnce, Bool.and_eq_true, Bool.not_eq_true'] at honce
  exact ⟨hpending.1.1.2, honce.1⟩

end Step

/-- In every cycle of every trace a squash is attributed to one opcode at most, and not to an
exception and a misprediction at once. -/
theorem squash_attributed_once (ins : Nat → In) (t : Nat) :
    (∀ e ∈ obtainOpcodes, ∀ e' ∈ obtainOpcodes, attributed e.1 (run ins t) (ins t) = true →
      attributed e'.1 (run ins t) (ins t) = true → e = e') ∧
    ∀ e ∈ obtainOpcodes, ¬(leftPerfLocsException e.1 (run ins t) (ins t) = true ∧
      leftPerfLocsSpeculation e.1 (run ins t) (ins t) = true) := by
  constructor
  · intro e he e' he' h h'
    have ⟨hseen, honce⟩ := seen_of_attributed h
    have ⟨hseen', _⟩ := seen_of_attributed h'
    have hsame := (inv_run ins t).one honce _ _ hseen hseen'
    rw [mem_obtainOpcodes] at he he'
    exact Prod.ext hsame (by rw [he, he', hsame])
  · intro e _ ⟨hexc, hspec⟩
    simp only [leftPerfLocsException, leftPerfLocsSpeculation, icacheReqTrap, noIcacheReqTrap,
      Bool.if_false_right, Bool.and_eq_true, beq_iff_eq, bne_iff_ne,
      decide_eq_true_eq] at hexc hspec
    exact hspec.1.2.1.1 hexc.1.2.1.1

end SynthLC.SquashDetect
