import SynthLC.IntrinRuns
import Mathlib.Order.WellFounded

/-! The loop of `run_per_decisions_col.py` over the decision sources of a group, one move after
another: a step writes its property files, a pool of workers does the batch, and what comes next
reads the results it has left. -/
namespace SynthLC

namespace Intrin

open BatchRun

/-- The steps that write property files. -/
inductive Stage where
  | step1 | step2 | step3
  deriving DecidableEq

/-- What a step leaves, or nothing where it fails. -/
def Stage.write (s : Call) (cov : Dyn.Taint → Dyn.Side → Dyn.Decision → Bool) (d : Disk SvFile) :
    Stage → Option (Disk SvFile)
  | .step1 => some (intrinStep1 s d)
  | .step2 => intrinStep2 s cov d
  | .step3 => intrinStep3 s cov d

/-- The job and the directory on the command line that a step returns. -/
def Stage.pairs (s : Call) : Stage → List (Name × Name)
  | .step1 | .step2 => [(itself s.ipId, out (itself s.ipId))]
  | .step3 => [(itselfPer s.ipId, out (itselfPer s.ipId))]

/-- Where the driver is with the first of the sources that are left, and the flags it has. -/
inductive Driver where
  | writing (k : Stage) (s : Call) (ss : List Call) (d : Disk SvFile) (rs : List Bits)
  | waiting (k : Stage) (s : Call) (ss : List Call) (e : Disk SvFile)
      (c : Pool SvFile (tasks e (k.pairs s))) (rs : List Bits)
  | counting (s : Call) (ss : List Call) (d : Disk SvFile) (rs : List Bits)
  | ended (d : Disk SvFile) (rs : List Bits)

/-- The next source, if there is one. -/
def Driver.begin : List Call → Disk SvFile → List Bits → Driver
  | [], d, rs => .ended d rs
  | s :: ss, d, rs => .writing .step1 s ss d rs

/-- What follows the batch of a step. -/
def Stage.after (s : Call) (ss : List Call) (d : Disk SvFile) (rs : List Bits) : Stage → Driver
  | .step1 => .writing .step2 s ss d rs
  | .step2 => .writing .step3 s ss d rs
  | .step3 => .counting s ss d rs

/-- One move of the driver, or of one worker while it waits. -/
inductive Goes (cov : Dyn.Taint → Dyn.Side → Dyn.Decision → Bool) (workers : Nat) :
    Driver → Driver → Prop
  | fails {k : Stage} {s : Call} {ss : List Call} {d : Disk SvFile} {rs : List Bits}
      (h : k.write s cov d = none) : Goes cov workers (.writing k s ss d rs) (.ended d rs)
  | writes {k : Stage} {s : Call} {ss : List Call} {d e : Disk SvFile} {rs : List Bits}
      (h : k.write s cov d = some e) :
      Goes cov workers (.writing k s ss d rs) (.waiting k s ss e (start _ e) rs)
  | works {k : Stage} {s : Call} {ss : List Call} {e : Disk SvFile}
      {c c' : Pool SvFile (tasks e (k.pairs s))} {rs : List Bits}
      (h : PoolStep (· = .reported) _ workers c c') :
      Goes cov workers (.waiting k s ss e c rs) (.waiting k s ss e c' rs)
  | returns {k : Stage} {s : Call} {ss : List Call} {e : Disk SvFile}
      {c : Pool SvFile (tasks e (k.pairs s))} {rs : List Bits} (h : Done _ c) :
      Goes cov workers (.waiting k s ss e c rs) (k.after s ss c.shared rs)
  | stops {s : Call} {ss : List Call} {d : Disk SvFile} {rs : List Bits}
      (h : intrinPp s cov d = none) : Goes cov workers (.counting s ss d rs) (.ended d rs)
  | counts {s : Call} {ss : List Call} {d : Disk SvFile} {r : Bits} {rs : List Bits}
      (h : intrinPp s cov d = some r) :
      Goes cov workers (.counting s ss d rs) (.begin ss d (rs ++ [r]))

section Ends

variable {cov : Dyn.Taint → Dyn.Side → Dyn.Decision → Bool} {workers : Nat} {k : Stage} {s : Call}
  {ss : List Call} {d e : Disk SvFile} {rs : List Bits}

/-- The driver cannot go on for ever from here. -/
abbrev Ends (cov : Dyn.Taint → Dyn.Side → Dyn.Decision → Bool) (workers : Nat)
    (p : Driver) : Prop :=
  Acc (fun p' p => Goes cov workers p p') p

theorem ends_ended (d : Disk SvFile) (rs : List Bits) : Ends cov workers (.ended d rs) :=
  .intro _ nofun

/-- Each move of a worker leaves less to do for the pool. -/
theorem ends_waiting (hafter : ∀ d, Ends cov workers (k.after s ss d rs))
    (c : Pool SvFile (tasks e (k.pairs s))) : Ends cov workers (.waiting k s ss e c rs) := by
  constructor
  intro p hgoes
  cases hgoes with
  | works hstep =>
    have hless := hstep.1.sum_rank_lt left_lt_of_acts
    exact ends_waiting hafter _
  | returns hdone => exact hafter c.shared
termination_by ∑ i, (c.loc i).left

theorem ends_writing (hafter : ∀ d, Ends cov workers (k.after s ss d rs)) (d : Disk SvFile) :
    Ends cov workers (.writing k s ss d rs) := by
  constructor
  intro p hgoes
  cases hgoes with
  | fails h => exact ends_ended d rs
  | writes h => exact ends_waiting hafter _

theorem ends_counting (hbegin : ∀ d rs, Ends cov workers (.begin ss d rs)) (d : Disk SvFile)
    (rs : List Bits) : Ends cov workers (.counting s ss d rs) := by
  constructor
  intro p hgoes
  cases hgoes with
  | stops h => exact ends_ended d rs
  | counts h => exact hbegin d _

/-- The three batches of a source, from the last one back. -/
theorem ends_after (hbegin : ∀ d rs, Ends cov workers (.begin ss d rs)) (k : Stage)
    (d : Disk SvFile) (rs : List Bits) : Ends cov workers (k.after s ss d rs) := by
  have hstep3 (d : Disk SvFile) : Ends cov workers (Stage.step3.after s ss d rs) :=
    ends_counting hbegin d rs
  have hstep2 (d : Disk SvFile) : Ends cov workers (Stage.step2.after s ss d rs) :=
    ends_writing hstep3 d
  cases k with
  | step3 => exact hstep3 d
  | step2 => exact hstep2 d
  | step1 => exact ends_writing hstep2 d

theorem ends_begin (ss : List Call) (d : Disk SvFile) (rs : List Bits) :
    Ends cov workers (.begin ss d rs) := by
  induction ss generalizing d rs with
  | nil => exact ends_ended d rs
  | cons s ss ih => exact ends_writing (fun d => ends_after ih .step1 d rs) d

theorem ends (p : Driver) : Ends cov workers p := by
  cases p with
  | writing k s ss d rs => exact ends_writing (fun d => ends_after (ends_begin ss) k d rs) d
  | waiting k s ss e c rs => exact ends_waiting (fun d => ends_after (ends_begin ss) k d rs) c
  | counting s ss d rs => exact ends_counting (ends_begin ss) d rs
  | ended d rs => exact ends_ended d rs

/-- So it comes to a state in which nothing can move. -/
theorem exists_last (cov : Dyn.Taint → Dyn.Side → Dyn.Decision → Bool) (workers : Nat)
    (p : Driver) :
    ∃ p', Relation.ReflTransGen (Goes cov workers) p p' ∧ ¬∃ p'', Goes cov workers p' p'' := by
  have hends : Ends cov workers p := ends p
  induction hends with
  | intro p _ ih =>
    by_cases hgoes : ∃ p', Goes cov workers p p'
    · obtain ⟨p', hgoes⟩ := hgoes
      obtain ⟨q, hrun, hlast⟩ := ih p' hgoes
      exact ⟨q, .head hgoes hrun, hlast⟩
    · exact ⟨p, .refl, hgoes⟩

end Ends

section SoFar

variable {cov : Dyn.Taint → Dyn.Side → Dyn.Decision → Bool} {workers : Nat} {calls : List Call}
  {d₀ : Disk SvFile} {p p' : Driver}

/-- How the driver has come to a step of a source. -/
inductive Reaches (s : Call) (cov : Dyn.Taint → Dyn.Side → Dyn.Decision → Bool) (d : Disk SvFile) :
    Stage → Disk SvFile → Prop
  | step1 : Reaches s cov d .step1 d
  | step2 {d₁ : Disk SvFile} (h₁ : RunItself s (intrinStep1 s d) d₁) : Reaches s cov d .step2 d₁
  | step3 {d₁ e₂ d₂ : Disk SvFile} (h₁ : RunItself s (intrinStep1 s d) d₁)
      (hrun₂ : intrinStep2 s cov d₁ = some e₂) (h₂ : RunItself s e₂ d₂) :
      Reaches s cov d .step3 d₂

/-- What the rest of the sources returns is returned after the flags there are. -/
def Continues (cov : Dyn.Taint → Dyn.Side → Dyn.Decision → Bool) (calls : List Call)
    (d₀ : Disk SvFile) (ss : List Call) (d : Disk SvFile) (rs : List Bits) : Prop :=
  ∀ rs' d', Runs cov ss d rs' d' → Runs cov calls d₀ (rs ++ rs') d'

/-- What the driver has done so far is the beginning of a run of all sources. -/
inductive SoFar (cov : Dyn.Taint → Dyn.Side → Dyn.Decision → Bool) (workers : Nat)
    (calls : List Call) (d₀ : Disk SvFile) : Driver → Prop
  | writing {k : Stage} {s : Call} {ss : List Call} {d₁ d : Disk SvFile} {rs : List Bits}
      (hrest : Continues cov calls d₀ (s :: ss) d₁ rs) (h : Reaches s cov d₁ k d) :
      SoFar cov workers calls d₀ (.writing k s ss d rs)
  | waiting {k : Stage} {s : Call} {ss : List Call} {d₁ d e : Disk SvFile}
      {c : Pool SvFile (tasks e (k.pairs s))} {rs : List Bits}
      (hrest : Continues cov calls d₀ (s :: ss) d₁ rs) (h : Reaches s cov d₁ k d)
      (hwrite : k.write s cov d = some e)
      (hrun : PoolRun (· = .reported) _ workers (start _ e) c) :
      SoFar cov workers calls d₀ (.waiting k s ss e c rs)
  | counting {s : Call} {ss : List Call} {d₁ d : Disk SvFile} {rs : List Bits}
      (hrest : Continues cov calls d₀ (s :: ss) d₁ rs) (h : Ran s cov d₁ (intrinPp s cov d) d) :
      SoFar cov workers calls d₀ (.counting s ss d rs)
  | ended {d : Disk SvFile} {rs : List Bits} (h : Runs cov calls d₀ rs d) :
      SoFar cov workers calls d₀ (.ended d rs)

theorem Continues.stops {s : Call} {ss : List Call} {d₁ d : Disk SvFile} {rs : List Bits}
    (hrest : Continues cov calls d₀ (s :: ss) d₁ rs) (h : Ran s cov d₁ none d) :
    SoFar cov workers calls d₀ (.ended d rs) := by
  have hruns := hrest [] d (.stops h)
  rw [List.append_nil] at hruns
  exact .ended hruns

theorem SoFar.begin {ss : List Call} {d : Disk SvFile} {rs : List Bits}
    (hrest : Continues cov calls d₀ ss d rs) : SoFar cov workers calls d₀ (.begin ss d rs) := by
  cases ss with
  | nil =>
    have hruns := hrest [] d (.done d)
    rw [List.append_nil] at hruns
    exact .ended hruns
  | cons s ss => exact .writing hrest .step1

/-- The batch of a step has been worked off. -/
theorem SoFar.after {k : Stage} {s : Call} {ss : List Call} {d₁ d e d' : Disk SvFile}
    {rs : List Bits} (hrest : Continues cov calls d₀ (s :: ss) d₁ rs) (h : Reaches s cov d₁ k d)
    (hwrite : k.write s cov d = some e) (hcall : Called (k.pairs s) e d') :
    SoFar cov workers calls d₀ (k.after s ss d' rs) := by
  cases h with
  | step1 =>
    obtain rfl := Option.some.inj hwrite
    exact .writing hrest (.step2 hcall)
  | step2 h₁ => exact .writing hrest (.step3 h₁ hwrite hcall)
  | step3 h₁ hrun₂ h₂ => exact .counting hrest (.pp h₁ hrun₂ h₂ hwrite hcall)

/-- One move, one case for each kind. -/
theorem SoFar.goes (h : SoFar cov workers calls d₀ p) (hgoes : Goes cov workers p p') :
    SoFar cov workers calls d₀ p' := by
  cases hgoes with
  | fails hnone =>
    cases h with
    | writing hrest h =>
      cases h with
      | step1 => cases hnone
      | step2 h₁ => exact hrest.stops (.step2 h₁ hnone)
      | step3 h₁ hrun₂ h₂ => exact hrest.stops (.step3 h₁ hrun₂ h₂ hnone)
  | writes hwrite =>
    cases h with
    | writing hrest h => exact .waiting hrest h hwrite .refl
  | works hstep =>
    cases h with
    | waiting hrest h hwrite hrun => exact .waiting hrest h hwrite (.tail hrun hstep)
  | returns hdone =>
    cases h with
    | waiting hrest h hwrite hrun => exact .after hrest h hwrite ⟨workers, _, hrun, hdone, rfl⟩
  | stops hnone =>
    cases h with
    | counting hrest h =>
      rw [hnone] at h
      exact hrest.stops h
  | counts hsome =>
    cases h with
    | counting hrest h =>
      rw [hsome] at h
      apply SoFar.begin
      intro rs' d' hruns
      have hall := hrest _ d' (.next h hruns)
      rwa [List.append_cons] at hall

theorem soFar_of_goes {d : Disk SvFile}
    (h : Relation.ReflTransGen (Goes cov workers) (.begin calls d []) p) :
    SoFar cov workers calls d p := by
  induction h with
  | refl => exact .begin fun _ _ hruns => hruns
  | tail _ hgoes ih => exact ih.goes hgoes

/-- The driver has ended where nothing can move. -/
theorem SoFar.exists_goes (h : SoFar cov workers calls d₀ p) (hworkers : 0 < workers) :
    (∃ p', Goes cov workers p p') ∨ ∃ d rs, p = .ended d rs := by
  cases h with
  | @writing k s ss d₁ d rs _ _ =>
    left
    cases hwrite : k.write s cov d with
    | none => exact ⟨_, .fails hwrite⟩
    | some e => exact ⟨_, .writes hwrite⟩
  | @waiting k s ss d₁ d e c rs _ _ _ hrun =>
    left
    by_cases hdone : Done _ c
    · exact ⟨_, .returns hdone⟩
    · have hreported : ∃ o, o = Outcome.reported := ⟨_, rfl⟩
      obtain ⟨c', hstep⟩ := exists_poolStep hreported hworkers hrun.busy_le hdone
      exact ⟨_, .works hstep⟩
  | @counting s ss d₁ d rs _ _ =>
    left
    cases hpp : intrinPp s cov d with
    | none => exact ⟨_, .stops hpp⟩
    | some r => exact ⟨_, .counts hpp⟩
  | ended _ => exact .inr ⟨_, _, rfl⟩

end SoFar

section Group

variable {ipId : Nat} {calls : List Call} {d : Disk SvFile} {workers : Nat}

/-- For the decision sources of a group one after another, with the workers of every batch
interleaved in any way, where the model checker reports each time: the driver does not go on for
ever, and it always can go on or has ended, with the flags of the counted decisions, up to the first
source that fails the assertion on a store. -/
theorem driver_returns_flags (cov : Dyn.Taint → Dyn.Side → Dyn.Decision → Bool)
    (hworkers : 0 < workers) (h : OfGroup ipId calls)
    (hsteady : Steady (jobs ipId) (calls.flatMap Call.wanted) d) :
    (∀ f : Nat → Driver, ¬∀ t, Goes cov workers (f t) (f (t + 1))) ∧
    ∀ p, Relation.ReflTransGen (Goes cov workers) (.begin calls d []) p →
      (∃ p', Goes cov workers p p') ∨
        ∃ d', p = .ended d' ((calls.takeWhile (storesPass · cov)).map (flags · cov)) := by
  constructor
  · intro f hgoes
    have hwf : WellFounded fun p' p => Goes cov workers p p' := ⟨ends⟩
    exact (wellFounded_iff_isEmpty_descending_chain.mp hwf).false ⟨f, hgoes⟩
  · intro p hrun
    have hsofar := soFar_of_goes hrun
    obtain hgoes | ⟨d', rs, rfl⟩ := hsofar.exists_goes hworkers
    · exact .inl hgoes
    · cases hsofar with
      | ended hruns =>
        rw [hruns.eq_flags h.group (fun s hs => wanted_subset hs) hsteady]
        exact .inr ⟨d', rfl⟩

/-- Two decision sources of group 3. -/
def issueCall : Call := ⟨Dyn.twoDecisions, .rs1rs2⟩

def loadCall : Call where
  toSetup := { Dyn.twoDecisions with
    decisionSrc := "load_s1"
    cntFollowerSets := [(2, ["iso_0"]), (3, [])]
    cnt_nodup := by decide }
  fieldIp := .rs1rs2

theorem twoCalls_ofGroup : OfGroup 3 [issueCall, loadCall] where
  group := by simp [issueCall, loadCall, Dyn.twoDecisions]
  cnt_nodup := by decide

/-- A run of the two with three workers ends with the flag of the first. -/
theorem driver_returns_two_calls : ∃ d', Relation.ReflTransGen (Goes issueRs1 3)
    (.begin [issueCall, loadCall] emptyDisk []) (.ended d' [⟨true, false⟩, ⟨false, false⟩]) := by
  obtain ⟨_, hall⟩ := driver_returns_flags issueRs1 (by decide : 0 < 3) twoCalls_ofGroup
    twoCalls_ofGroup.steady_empty
  obtain ⟨p, hrun, hlast⟩ := exists_last issueRs1 3
    (.begin [issueCall, loadCall] emptyDisk [])
  obtain ⟨d', rfl⟩ := (hall p hrun).resolve_left hlast
  exact ⟨d', hrun⟩

end Group

end Intrin

end SynthLC
