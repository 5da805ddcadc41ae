import SynthLC.BitField
import SynthLC.Held

/-! `common_header.sv`: what the properties about taint assume of the front end. The instruction `i0`
at the address `pc0` and, with `T_FROM_I`, the instruction `i1` at `pc1` are fetched among others;
the assumptions say when. -/
namespace SynthLC.IftHeader

/-- The signals the assumptions read in one cycle: of `fetch_entry_if_id`, of the stage `id_stage_i`,
`fetch_ready_id_if`, `commit_stage_i.halt_i` and `pc_o` where operands are read. -/
structure In where
  rstNi : Bool
  fetchEx : Bool
  valid : Bool
  ready : Bool
  instruction : BitVec 32
  address : BitVec 64
  entryEx : Bool
  decodedEx : Bool
  halt : Bool
  pcO : BitVec 64
  i0 : BitVec 32
  pc0 : BitVec 64
  i1 : BitVec 32
  pc1 : BitVec 64

def instnBegin (x : In) : Bool := x.valid && x.address == x.pc0

def i1InstnBegin (x : In) : Bool := x.valid && x.address == x.pc1

/-- The registers of the header; without `YNG` it has `i1_issued_before`, with it the other one. -/
structure Regs where
  first : Bool
  i1IssuedBefore : Bool
  i0IssuedBefore : Bool

/-- What a reset leaves. -/
def cleared : Regs := ⟨true, false, false⟩

/-- One clock edge of all `always` blocks outside of reset. -/
def edge (s : Regs) (x : In) : Regs where
  first := if s.first then false else s.first
  i1IssuedBefore := if i1InstnBegin x then true else s.i1IssuedBefore
  i0IssuedBefore := if instnBegin x then true else s.i0IssuedBefore

def step (s : Regs) (x : In) : Regs := if !x.rstNi then cleared else edge s x

/-- The registers from a reset on. -/
def run (x : Nat → In) : Nat → Regs
  | 0 => cleared
  | t + 1 => step (run x t) (x t)

/-- The assumptions that every property file comes with. `$past` is not asked for in the first
cycle. -/
structure Assumed (sysinsn : Bool) (x : Nat → In) : Prop where
  nonExceptionFrontend : ∀ t, (x t).fetchEx = false
  ifIdContract : ∀ t, (x t).valid = true → (x t).ready = false →
    (x t).valid = (x (t + 1)).valid ∧ (x t).instruction = (x (t + 1)).instruction ∧
      (x t).address = (x (t + 1)).address
  inOpMode : ∀ t, (x t).rstNi = true
  nohalt : ∀ t, (x t).halt = false
  i0Const : ∀ t, (x (t + 1)).i0 = (x t).i0
  pc0Const : ∀ t, (x (t + 1)).pc0 = (x t).pc0
  pc0Nozero : ∀ t, (x t).pc0 ≠ 0
  pc0I0Assoc1 : ∀ t, (x t).address = (x t).pc0 → (x t).instruction = (x t).i0
  pc0I0Assoc2 : ∀ t, (x t).address = (x t).pc0 → (x t).valid = true ∧
    (if sysinsn then (x t).entryEx else (x t).decodedEx) = false
  validInstn : ∀ t, (x t).valid = true
  issueOnce : ∀ t, instnBegin (x t) = true → ∀ u, t + 1 ≤ u → (x u).address ≠ (x u).pc0
  eventualIssue : ∀ t, (run x t).first = true → ∃ u, t ≤ u ∧ instnBegin (x u) = true
  exeIuv : ∀ t, instnBegin (x t) = true → (x t).ready = true

/-- The assumptions on `i1` that `T_FROM_I` adds; `YNG` turns the order around. -/
structure AssumedI1 (yng : Bool) (x : Nat → In) : Prop where
  diffPc : ∀ t, (x t).pc1 ≠ (x t).pc0
  pc1Const : ∀ t, (x (t + 1)).pc1 = (x t).pc1
  pc1Nozero : ∀ t, (x t).pc1 ≠ 0
  issueOnceI1 : ∀ t, i1InstnBegin (x t) = true → ∀ u, t + 1 ≤ u → (x u).address ≠ (x u).pc1
  pc1I0Assoc1 : ∀ t, (x t).address = (x t).pc1 → (x t).instruction = (x t).i1
  pc1I0Assoc2 : ∀ t, (x t).address = (x t).pc1 → (x t).valid = true ∧ (x t).decodedEx = false
  i1Const : ∀ t, (x (t + 1)).i1 = (x t).i1
  i1IssueHbI0 : ∀ t, if yng then i1InstnBegin (x t) = true → (run x t).i0IssuedBefore = true
    else instnBegin (x t) = true → (run x t).i1IssuedBefore = true

section Order

variable {x : Nat → In} {sysinsn yng : Bool} {t u : Nat}

theorem instnBegin_iff : instnBegin (x t) = true ↔ (x t).valid = true ∧ (x t).address = (x t).pc0 := by
  simp [instnBegin]

theorem i1InstnBegin_iff :
    i1InstnBegin (x t) = true ↔ (x t).valid = true ∧ (x t).address = (x t).pc1 := by
  simp [i1InstnBegin]

theorem run_succ (h : ∀ t, (x t).rstNi = true) (t : Nat) : run x (t + 1) = edge (run x t) (x t) := by
  simp [run, step, h t]

theorem i1IssuedBefore_iff (h : ∀ t, (x t).rstNi = true) (t : Nat) :
    (run x t).i1IssuedBefore = true ↔ ∃ u < t, i1InstnBegin (x u) = true :=
  Held.set_iff (r := fun t => (run x t).i1IssuedBefore) rfl
    (fun t => congrArg Regs.i1IssuedBefore (run_succ h t)) t

theorem i0IssuedBefore_iff (h : ∀ t, (x t).rstNi = true) (t : Nat) :
    (run x t).i0IssuedBefore = true ↔ ∃ u < t, instnBegin (x u) = true :=
  Held.set_iff (r := fun t => (run x t).i0IssuedBefore) rfl
    (fun t => congrArg Regs.i0IssuedBefore (run_succ h t)) t

theorem const_eq {α : Type} {f : Nat → α} (h : ∀ t, f (t + 1) = f t) (t : Nat) : f t = f 0 := by
  induction t with
  | zero => rfl
  | succ t ih => rw [h, ih]

/-- A signal that, once it is there, is never there again, is there in one cycle at most. -/
theorem eq_of_once {p : Nat → Prop} (h : ∀ t, p t → ∀ u, t + 1 ≤ u → ¬p u) (ht : p t) (hu : p u) :
    u = t := by
  by_contra hne
  rcases Nat.lt_or_gt_of_ne hne with hlt | hgt
  · exact h u hu t hlt ht
  · exact h t ht u hgt hu

theorem Assumed.begin_unique (h : Assumed sysinsn x) (ht : instnBegin (x t) = true)
    (hu : instnBegin (x u) = true) : u = t := by
  apply eq_of_once (p := fun t => instnBegin (x t) = true) _ ht hu
  intro t ht u hle hu
  exact h.issueOnce t ht u hle (instnBegin_iff.mp hu).2

theorem AssumedI1.begin_unique (h : AssumedI1 yng x) (ht : i1InstnBegin (x t) = true)
    (hu : i1InstnBegin (x u) = true) : u = t := by
  apply eq_of_once (p := fun t => i1InstnBegin (x t) = true) _ ht hu
  intro t ht u hle hu
  exact h.issueOnceI1 t ht u hle (i1InstnBegin_iff.mp hu).2

/-- An `i1` that the stage does not take would be shown again, which it may not be. -/
theorem AssumedI1.ready (h1 : AssumedI1 yng x) (h : Assumed sysinsn x)
    (ht : i1InstnBegin (x t) = true) : (x t).ready = true := by
  by_contra hready
  obtain ⟨hvalid, haddress⟩ := i1InstnBegin_iff.mp ht
  obtain ⟨_, _, hheld⟩ := h.ifIdContract t hvalid (Bool.eq_false_iff.mpr hready)
  apply h1.issueOnceI1 t ht (t + 1) le_rfl
  rw [← hheld, haddress, h1.pc1Const t]

/-- The word `i0` is shown to the stage `id_stage_i` in exactly one cycle and taken in it. -/
theorem Assumed.i0_issued (h : Assumed sysinsn x) : ∃ t, (∀ u, instnBegin (x u) = true ↔ u = t) ∧
    (x t).ready = true ∧ (x t).instruction = (x 0).i0 := by
  obtain ⟨t, _, ht⟩ := h.eventualIssue 0 rfl
  refine ⟨t, ?_, h.exeIuv t ht, ?_⟩
  · intro u
    constructor
    · exact h.begin_unique ht
    · rintro rfl
      exact ht
  · rw [h.pc0I0Assoc1 t (instnBegin_iff.mp ht).2]
    exact const_eq (f := fun t => (x t).i0) h.i0Const t

/-- The two instructions are each taken where they are shown, `i1` at most once, and before `i0` or,
with `YNG`, after it. Only without `YNG` does `i1` have to come at all. -/
theorem issue_order (h : Assumed sysinsn x) (h1 : AssumedI1 yng x) : ∃ t₀,
    (∀ u, instnBegin (x u) = true ↔ u = t₀) ∧
    (x t₀).ready = true ∧ (x t₀).instruction = (x 0).i0 ∧
    (∀ t, i1InstnBegin (x t) = true → (if yng then t₀ < t else t < t₀) ∧
      (x t).ready = true ∧ (x t).instruction = (x 0).i1 ∧
      ∀ u, i1InstnBegin (x u) = true → u = t) ∧
    (yng = false → ∃ t, i1InstnBegin (x t) = true) := by
  obtain ⟨t₀, honly, hready, hword⟩ := h.i0_issued
  have hbegin : instnBegin (x t₀) = true := (honly t₀).mpr rfl
  have hhb := h1.i1IssueHbI0
  refine ⟨t₀, honly, hready, hword, ?_, ?_⟩
  · intro t ht
    refine ⟨?_, h1.ready h ht, ?_, fun u hu => h1.begin_unique ht hu⟩
    · cases yng with
      | false =>
        obtain ⟨u, hu, hbefore⟩ := (i1IssuedBefore_iff h.inOpMode t₀).mp (hhb t₀ hbegin)
        rw [← h1.begin_unique ht hbefore]
        exact hu
      | true =>
        obtain ⟨u, hu, hbefore⟩ := (i0IssuedBefore_iff h.inOpMode t).mp (hhb t ht)
        rw [← (honly u).mp hbefore]
        exact hu
    · rw [h1.pc1I0Assoc1 t (i1InstnBegin_iff.mp ht).2]
      exact const_eq (f := fun t => (x t).i1) h1.i1Const t
  · rintro rfl
    obtain ⟨u, _, hbefore⟩ := (i1IssuedBefore_iff h.inOpMode t₀).mp (hhb t₀ hbegin)
    exact ⟨u, hbefore⟩

end Order

/-- An instruction at `pc1 = 2` in the first cycle and one at `pc0 = 1` with some cycles between. -/
def spaced (n t : Nat) : In where
  rstNi := true
  fetchEx := false
  valid := true
  ready := true
  instruction := if t = 0 then 0x33 else 0x13
  address := if t = 0 then 2 else if t = n + 1 then 1 else 0
  entryEx := false
  decodedEx := false
  halt := false
  pcO := 0
  i0 := 0x13
  pc0 := 1
  i1 := 0x33
  pc1 := 2

theorem spaced_address (n t : Nat) : ((spaced n t).address = 1 ↔ t = n + 1) ∧
    ((spaced n t).address = 2 ↔ t = 0) := by
  cases t with
  | zero => simp [spaced]
  | succ t => by_cases h : t = n <;> simp [spaced, h]

theorem spaced_begin (n t : Nat) : (instnBegin (spaced n t) = true ↔ t = n + 1) ∧
    (i1InstnBegin (spaced n t) = true ↔ t = 0) := by
  rw [instnBegin_iff, i1InstnBegin_iff, ← (spaced_address n t).1, ← (spaced_address n t).2]
  exact ⟨and_iff_right rfl, and_iff_right rfl⟩

theorem spaced_assumed (n : Nat) : Assumed false (spaced n) where
  nonExceptionFrontend _ := rfl
  ifIdContract _ _ hready := by cases hready
  inOpMode _ := rfl
  nohalt _ := rfl
  i0Const _ := rfl
  pc0Const _ := rfl
  pc0Nozero _ := (by decide : (1 : BitVec 64) ≠ 0)
  pc0I0Assoc1 t ht := by
    rw [(spaced_address n t).1.mp ht]
    rfl
  pc0I0Assoc2 _ _ := ⟨rfl, rfl⟩
  validInstn _ := rfl
  issueOnce t ht u hle hu := by
    have ht := (spaced_begin n t).1.mp ht
    have hu := (spaced_address n u).1.mp hu
    omega
  eventualIssue t hfirst := by
    cases t with
    | zero => exact ⟨n + 1, Nat.zero_le _, (spaced_begin n _).1.mpr rfl⟩
    | succ t =>
      have hno : (run (spaced n) (t + 1)).first = false := by
        rw [run_succ fun _ => rfl]
        simp [edge]
      rw [hno] at hfirst
      cases hfirst
  exeIuv _ _ := rfl

theorem spaced_assumedI1 (n : Nat) : AssumedI1 false (spaced n) where
  diffPc _ := (by decide : (2 : BitVec 64) ≠ 1)
  pc1Const _ := rfl
  pc1Nozero _ := (by decide : (2 : BitVec 64) ≠ 0)
  issueOnceI1 t _ u hle hu := by
    have hu := (spaced_address n u).2.mp hu
    omega
  pc1I0Assoc1 t ht := by
    rw [(spaced_address n t).2.mp ht]
    rfl
  pc1I0Assoc2 _ _ := ⟨rfl, rfl⟩
  i1Const _ := rfl
  i1IssueHbI0 t ht := by
    apply (i1IssuedBefore_iff (fun _ => rfl) t).mpr
    exact ⟨0, by rw [(spaced_begin n t).1.mp ht]; exact Nat.succ_pos n, (spaced_begin n 0).2.mpr rfl⟩

theorem spaced_order : ∃ t₀, (∀ u, instnBegin (spaced 4 u) = true ↔ u = t₀) ∧
    ∃ t < t₀, i1InstnBegin (spaced 4 t) = true := by
  obtain ⟨t₀, honly, _, _, hbefore, hex⟩ := issue_order (spaced_assumed 4) (spaced_assumedI1 4)
  obtain ⟨t, ht⟩ := hex rfl
  exact ⟨t₀, honly, t, (hbefore t ht).1, ht⟩

end SynthLC.IftHeader
