import SynthLC.Opcodes
import SynthLC.Sva
import Mathlib.Data.Set.Insert

/-! A group query in place of the queries of its members: `dyn_step1` asks one cover for two
groups, and `dyn_step2` asks for their pairs of instructions only where that one is covered. -/
namespace SynthLC

open BitField Sva

namespace Opcodes

/-- Instructions whose file has lost the assumption on the destination register. -/
def csrInstns : List Instn := [.CSRRW, .CSRRS, .CSRRC, .CSRRWI, .CSRRSI, .CSRRCI]

/-- The groups that one of the maps lists. -/
def listedGroups : List Group := groupMap ++ batchTransponder

theorem subsumed_of_listed : ∀ g ∈ listedGroups, ∀ m ∈ g.instns, m ∉ csrInstns →
    subsumed (tests m) (groupSv g.id) = true := by
  decide +kernel

/-- Every instruction has a word, and the word of a CSR instruction writes register zero, which
its groups exclude. -/
theorem memberHolds_sample (m : Instn) : memberHolds m (sample (tests m)) = true := by
  have hall : ∀ m ∈ opcodeFiles, memberHolds m (sample (tests m)) = true := by decide +kernel
  exact hall m (mem_opcodeFiles m)

theorem not_groupHolds_sample : ∀ g ∈ listedGroups, ∀ m ∈ g.instns, m ∈ csrInstns →
    groupHolds g.id (sample (tests m)) = false := by
  decide +kernel

/-- A group's disjunction admits every word of a member, unless the member is a CSR
instruction. -/
theorem groupHolds_of_memberHolds_iff {g : Group} (hg : g ∈ listedGroups) {m : Instn}
    (hm : m ∈ g.instns) :
    (∀ w, memberHolds m w = true → groupHolds g.id w = true) ↔ m ∉ csrInstns := by
  constructor
  · intro h hcsr
    have hgroup := h _ (memberHolds_sample m)
    rw [not_groupHolds_sample g hg m hm hcsr] at hgroup
    cases hgroup
  · intro hcsr w hw
    exact someHolds_of_subsumed (subsumed_of_listed g hg m hm hcsr) hw

section Covers

variable {σ : Type}

/-- A run under the assumptions of `common_header.sv`: both instruction words are constant. -/
structure Run (σ : Type) where
  i0 : Nat → BitVec 32
  i1 : Nat → BitVec 32
  i0_const : ∀ t, i0 (t + 1) = i0 t
  i1_const : ∀ t, i1 (t + 1) = i1 t
  wave : Wave σ

/-- What the templates are filled with for one decision. -/
structure Query (σ : Type) where
  decnode : BExp σ
  followerset : BExp σ
  t0 : BExp σ
  i1InSomePl : BExp σ

/-- `OVERLAP` -/
def Query.overlap (q : Query σ) : Property σ :=
  .imp (.bool q.decnode) (.seq (.bool q.i1InSomePl))

def Query.decision (q : Query σ) : Seq σ :=
  .cat (.bool q.decnode) 1 (.bool (.and q.followerset q.t0))

/-- The cover of `dynamic_template`, where the two groups are assumed. -/
def GroupReached (legal : Set (Run σ)) (p t : Nat) (q : Query σ) : Prop :=
  ∃ r ∈ legal, (∀ k, groupHolds p (r.i0 k) = true) ∧ (∀ k, groupHolds t (r.i1 k) = true) ∧
    q.overlap.Holds r.wave ∧ q.decision.Covered r.wave

/-- The cover of `decision_template`, where the two instructions are part of the sequence. -/
def PairReached (legal : Set (Run σ)) (ip it : Instn) (q : Query σ) : Prop :=
  ∃ r ∈ legal, q.overlap.Holds r.wave ∧ ∃ i j, memberHolds ip (r.i0 i) = true ∧
    memberHolds it (r.i1 i) = true ∧ q.decision.Match r.wave i j

theorem eq_of_const {x : Nat → BitVec 32} (h : ∀ t, x (t + 1) = x t) (i k : Nat) : x i = x k := by
  have hzero (t : Nat) : x t = x 0 := by
    induction t with
    | zero => rfl
    | succ t ih => rw [h, ih]
  rw [hzero i, hzero k]

/-- A pair that is reached gives a run that its groups admit. -/
theorem GroupReached.of_pair {legal : Set (Run σ)} {p t : Nat} {ip it : Instn} {q : Query σ}
    (hp : ∀ w, memberHolds ip w = true → groupHolds p w = true)
    (ht : ∀ w, memberHolds it w = true → groupHolds t w = true)
    (h : PairReached legal ip it q) : GroupReached legal p t q := by
  obtain ⟨r, hr, hoverlap, i, j, hip, hit, hmatch⟩ := h
  refine ⟨r, hr, ?_, ?_, hoverlap, i, j, hmatch⟩
  · intro k
    rw [eq_of_const r.i0_const k i]
    exact hp _ hip
  · intro k
    rw [eq_of_const r.i1_const k i]
    exact ht _ hit

/-- A design with a single run, in which everything happens at every tick. -/
def wordsRun (w0 w1 : BitVec 32) : Run Unit where
  i0 _ := w0
  i1 _ := w1
  i0_const _ := rfl
  i1_const _ := rfl
  wave _ _ := true

def anyDecision : Query Unit := ⟨.one, .one, .one, .one⟩

theorem pairReached_wordsRun (ip it : Instn) :
    PairReached {wordsRun (sample (tests ip)) (sample (tests it))} ip it anyDecision := by
  refine ⟨_, rfl, ?_, 0, 1, memberHolds_sample ip, memberHolds_sample it, ?_⟩
  · intro t j _
    simp [anyDecision]
  · simp [Query.decision, anyDecision]

/-- Dropping the pairs of groups that are not covered loses no cover, exactly for pairs without a
CSR instruction. -/
theorem unreachable_pair_iff {p t : Group} (hp : p ∈ batchTransponder) (ht : t ∈ groupMap)
    {ip it : Instn} (hip : ip ∈ p.instns) (hit : it ∈ t.instns) :
    (∀ (σ : Type) (legal : Set (Run σ)) (q : Query σ),
      ¬GroupReached legal p.id t.id q → ¬PairReached legal ip it q) ↔
    ip ∉ csrInstns ∧ it ∉ csrInstns := by
  have hp' : p ∈ listedGroups := List.mem_append_right _ hp
  have ht' : t ∈ listedGroups := List.mem_append_left _ ht
  constructor
  · intro h
    have hpair := pairReached_wordsRun ip it
    have hgroup : GroupReached {wordsRun (sample (tests ip)) (sample (tests it))} p.id t.id
        anyDecision := by
      by_contra hno
      exact h _ _ _ hno hpair
    obtain ⟨r, hr, hi0, hi1, _⟩ := hgroup
    obtain rfl := Set.mem_singleton_iff.mp hr
    constructor
    · intro hcsr
      have hword : groupHolds p.id (sample (tests ip)) = true := hi0 0
      rw [not_groupHolds_sample p hp' ip hip hcsr] at hword
      cases hword
    · intro hcsr
      have hword : groupHolds t.id (sample (tests it)) = true := hi1 0
      rw [not_groupHolds_sample t ht' it hit hcsr] at hword
      cases hword
  · intro ⟨hipcsr, hitcsr⟩ σ legal q hno hpair
    apply hno
    apply GroupReached.of_pair _ _ hpair
    · exact (groupHolds_of_memberHolds_iff hp' hip).mpr hipcsr
    · exact (groupHolds_of_memberHolds_iff ht' hit).mpr hitcsr

/-- Group queries over-approximate their members, and dropping the pairs of a group that is not
covered is sound, exactly where no CSR instruction takes part. -/
theorem group_over_approximates_iff {p t : Group} (hp : p ∈ batchTransponder) (ht : t ∈ groupMap)
    {ip it : Instn} (hip : ip ∈ p.instns) (hit : it ∈ t.instns) :
    ((∀ w, memberHolds ip w = true → groupHolds p.id w = true) ↔ ip ∉ csrInstns) ∧
    ((∀ w, memberHolds it w = true → groupHolds t.id w = true) ↔ it ∉ csrInstns) ∧
    ((∀ (σ : Type) (legal : Set (Run σ)) (q : Query σ),
        ¬GroupReached legal p.id t.id q → ¬PairReached legal ip it q) ↔
      ip ∉ csrInstns ∧ it ∉ csrInstns) := by
  refine ⟨?_, ?_, ?_⟩
  · exact groupHolds_of_memberHolds_iff (List.mem_append_right _ hp) hip
  · exact groupHolds_of_memberHolds_iff (List.mem_append_left _ ht) hit
  · exact unreachable_pair_iff hp ht hip hit

/-- `CSRRW` with destination register zero: a word of the instruction, but not of its group. -/
theorem csrrw_word_not_in_group :
    memberHolds .CSRRW 0x00001073 = true ∧ groupHolds 6 0x00001073 = false := by
  decide +kernel

theorem add_over_approximated :
    (∀ w, memberHolds .ADD w = true → groupHolds 3 w = true) ∧
    (∀ w, memberHolds .BEQ w = true → groupHolds 9 w = true) ∧
    ∀ (σ : Type) (legal : Set (Run σ)) (q : Query σ),
      ¬GroupReached legal 3 9 q → ¬PairReached legal .ADD .BEQ q := by
  have hadd : (⟨3, .rs1rs2, [.ADD, .SUB, .SLL, .SLT, .SLTU, .XOR, .SRL, .SRA, .OR, .AND]⟩ : Group) ∈
      batchTransponder := by simp [batchTransponder]
  have hbeq : (⟨9, .rs1rs2, [.BEQ, .BNE, .BLT, .BGE, .BLTU, .BGEU]⟩ : Group) ∈ groupMap := by
    simp [groupMap]
  have h := group_over_approximates_iff hadd hbeq (show Instn.ADD ∈ _ by decide)
    (show Instn.BEQ ∈ _ by decide)
  refine ⟨h.1.mpr (by decide), h.2.1.mpr (by decide), h.2.2.mpr (by decide)⟩

end Covers

end Opcodes

end SynthLC
