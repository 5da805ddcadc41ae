import SynthLC.BatchRun

/-! Calls of `host_batch_run_template_v2.py` that meet: tasks of one name, several calls at one time,
calls one after the other of which some are stopped, and what the results say in the end. -/
namespace SynthLC

namespace BatchRun

open Interleave

section Together

variable {τ : Type} {allowed : Outcome → Prop} {ts : List Task} {workers : Nat} {d : Disk τ}
  {c c' : Pool τ ts} {k : Key}

/-- The worker has not found a run directory. -/
def Phase.passed : Phase → Bool
  | .queued | .finished false => false
  | _ => true

theorem Phase.active_of_passed {l : Phase} (h : l.passed = true) (hnot : l.begun = false) :
    l.active = true := by
  cases l with
  | queued => cases h
  | finished called =>
    cases called with
    | false => cases h
    | true => cases hnot
  | _ => rfl

theorem Phase.begun_of_called {l : Phase} (h : l.called = true) : l.begun = true := by
  cases l with
  | running => rfl
  | finished called =>
    cases called with
    | false => cases h
    | true => rfl
  | _ => cases h

theorem Phase.passed_of_begun {l : Phase} (h : l.begun = true) : l.passed = true := by
  cases l with
  | queued => cases h
  | finished called =>
    cases called with
    | false => cases h
    | true => rfl
  | _ => rfl

/-- Tasks of one name that are at a place of some kind. -/
def named (ts : List Task) (k : Key) (p : Phase → Bool) (i : Fin ts.length) (l : Phase) : Bool :=
  decide ((ts.get i).key = k) && p l

theorem named_eq_true {p : Phase → Bool} {i : Fin ts.length} {l : Phase} :
    named ts k p i l = true ↔ (ts.get i).key = k ∧ p l = true := by
  simp [named]

/-- Tasks that share a name. Once the run directory is there no other task of the name goes past the
first check, so those that do were all at work at one time. -/
structure Together (ts : List Task) (workers : Nat) (d : Disk τ) (k : Key) (c : Pool τ ts) :
    Prop where
  calls : c.shared.calls.count k = d.calls.count k + c.number (named ts k Phase.called)
  begun : c.shared.taken k = true → ∃ i, (ts.get i).key = k ∧ (c.loc i).begun = true
  first : k ∉ c.shared.rundir → ∀ i, (ts.get i).key = k → (c.loc i).begun = false
  skipped : ∀ i, (ts.get i).key = k → c.loc i = .finished false → c.shared.taken k = true
  passed : c.number (named ts k Phase.passed) ≤ workers

theorem together_start (hfree : ∀ t ∈ ts, d.taken t.key = false) (hk : k ∈ ts.map Task.key) :
    Together ts workers d k (start ts d) := by
  have hnot : d.taken k = false := by
    obtain ⟨t, ht, rfl⟩ := List.mem_map.mp hk
    exact hfree t ht
  have hzero {p : Phase → Bool} (hp : p .queued = false) :
      (start ts d).number (named ts k p) = 0 := by
    by_contra hpos
    obtain ⟨i, hi⟩ := number_pos.mp (Nat.pos_of_ne_zero hpos)
    have hqueued : p .queued = true := (named_eq_true.mp hi).2
    rw [hp] at hqueued
    cases hqueued
  refine ⟨?_, ?_, ?_, ?_, ?_⟩
  · rw [hzero rfl]
    rfl
  · intro htaken
    rw [show (start ts d).shared = d from rfl, hnot] at htaken
    cases htaken
  · intro _ i _
    rfl
  · intro i _ hloc
    cases hloc
  · rw [hzero rfl]
    exact Nat.zero_le _

/-- A step of a task of another name. -/
theorem Together.of_ne (h : Together ts workers d k c) {i : Fin ts.length} {o : Outcome}
    {d' : Disk τ} {l' : Phase} (hdot : '.' ∉ k.name) (hi : (ts.get i).key ≠ k)
    (hmove : Moves (ts.get i) o c.shared (c.loc i) d' l') :
    Together ts workers d k (c.set i d' l') := by
  have hsame := hmove.sameFor hdot hi
  have hloc (j : Fin ts.length) (hj : (ts.get j).key = k) : (c.set i d' l').loc j = c.loc j := by
    apply loc_set_of_ne
    intro hji
    exact hi (hji ▸ hj)
  have hnumber (p : Phase → Bool) :
      (c.set i d' l').number (named ts k p) = c.number (named ts k p) := by
    have hnot (l : Phase) : named ts k p i l = false := by simp only [named, hi, decide_false,
      Bool.false_and]
    have hset := number_set (p := named ts k p) c i d' l'
    rw [hnot, hnot] at hset
    omega
  refine ⟨?_, ?_, ?_, ?_, ?_⟩
  · rw [hnumber, shared_set, hsame.calls]
    exact h.calls
  · intro htaken
    rw [shared_set, hsame.taken] at htaken
    obtain ⟨j, hj, hbegun⟩ := h.begun htaken
    exact ⟨j, hj, by rw [hloc j hj]; exact hbegun⟩
  · intro hrundir j hj
    rw [hloc j hj]
    apply h.first _ j hj
    rw [shared_set, hsame.rundir] at hrundir
    exact hrundir
  · intro j hj hskip
    rw [hloc j hj] at hskip
    rw [shared_set, hsame.taken]
    exact h.skipped j hj hskip
  · rw [hnumber]
    exact h.passed

section Own

variable {t : Task} {o : Outcome} {d' : Disk τ} {l l' : Phase}

theorem Moves.of_not_begun (h : Moves t o d l d' l') (hbegun : l'.begun = false) :
    d' = d ∧ l.begun = false := by
  cases h <;> first | exact ⟨rfl, rfl⟩ | cases hbegun

theorem taken_finish (h : d.taken k = true) : (d.finish t o).taken k = true := by
  simp only [Disk.taken, Bool.or_eq_true, decide_eq_true_eq] at h ⊢
  obtain hrundir | hcsv := h
  · exact .inl (rundir_finish hrundir)
  · right
    obtain heq | heq | ⟨text, _, heq⟩ := finish_cases d t o
    · rw [heq]
      exact hcsv
    · rw [heq]
      exact hcsv
    · rw [heq]
      show ((Dict.upsert t.stemKey (fun _ => text) text d.csv).lookup k).isSome = true
      rw [Dict.lookup_set]
      split
      · rfl
      · exact hcsv

/-- What is taken stays so. -/
theorem Moves.taken (h : Moves t o d l d' l') (hk : d.taken k = true) : d'.taken k = true := by
  cases h with
  | made =>
    simp only [Disk.taken, Bool.or_eq_true, decide_eq_true_eq] at hk ⊢
    exact hk.imp_left fun hmem => Loop.mem_insertNew.mpr (.inl hmem)
  | ends => exact taken_finish hk
  | _ => exact hk

theorem Moves.taken_of_skip (h : Moves t o d l d' (.finished false)) : d'.taken t.key = true := by
  cases h with
  | skipRundir hrundir => exact taken_of_mem hrundir
  | skipCsv hcsv => simp [Disk.taken, hcsv]

theorem Moves.passed (h : Moves t o d l d' l') (hpassed : l'.passed = true) :
    l.passed = true ∨ l' = .noRundir ∧ t.key ∉ d.rundir := by
  cases h with
  | noRundir hrundir => exact .inr ⟨rfl, hrundir⟩
  | skipRundir _ => cases hpassed
  | skipCsv _ => cases hpassed
  | _ => exact .inl rfl

end Own

/-- The number that passed the first test stays within the workers: either it does not grow, or
nothing has been begun yet and all are at work. -/
theorem Together.passed_own (h : Together ts workers d k c) {i : Fin ts.length} {o : Outcome}
    {d' : Disk τ} {l' : Phase} (hi : (ts.get i).key = k)
    (hmove : Moves (ts.get i) o c.shared (c.loc i) d' l')
    (hbusy : busy ts (c.set i d' l') ≤ workers) :
    (c.set i d' l').number (named ts k Phase.passed) ≤ workers := by
  by_cases hgrow : l' = .noRundir ∧ (ts.get i).key ∉ c.shared.rundir
  · obtain ⟨hl', hrundir⟩ := hgrow
    rw [hi] at hrundir
    apply le_trans _ hbusy
    apply number_le
    intro j hj
    obtain ⟨hjk, hpassed⟩ := named_eq_true.mp hj
    by_cases hji : j = i
    · rw [hji, loc_set_self, hl']
      rfl
    · rw [loc_set_of_ne _ hji] at hpassed ⊢
      exact Phase.active_of_passed hpassed (h.first hrundir j hjk)
  · apply le_trans _ h.passed
    apply number_le
    intro j hj
    obtain ⟨hjk, hpassed⟩ := named_eq_true.mp hj
    apply named_eq_true.mpr
    refine ⟨hjk, ?_⟩
    by_cases hji : j = i
    · rw [hji, loc_set_self] at hpassed
      rw [hji]
      exact (hmove.passed hpassed).resolve_right hgrow
    · rw [loc_set_of_ne _ hji] at hpassed
      exact hpassed

/-- A step of a task of this name. -/
theorem Together.own (h : Together ts workers d k c) {i : Fin ts.length} {o : Outcome}
    {d' : Disk τ} {l' : Phase} (hi : (ts.get i).key = k)
    (hmove : Moves (ts.get i) o c.shared (c.loc i) d' l')
    (hbusy : busy ts (c.set i d' l') ≤ workers) : Together ts workers d k (c.set i d' l') := by
  refine ⟨?_, ?_, ?_, ?_, ?_⟩
  · have hset := number_set (p := named ts k Phase.called) c i d' l'
    have hcount := hmove.count_self
    have hcalls := h.calls
    simp only [named, hi, decide_true, Bool.true_and] at hset hcount
    rw [shared_set]
    omega
  · intro htaken
    by_cases hbegun : l'.begun = true
    · exact ⟨i, hi, by rw [loc_set_self]; exact hbegun⟩
    · obtain ⟨hd, hnot⟩ := hmove.of_not_begun (Bool.eq_false_iff.mpr hbegun)
      rw [shared_set, hd] at htaken
      obtain ⟨j, hj, hjbegun⟩ := h.begun htaken
      have hne : j ≠ i := by
        intro heq
        rw [heq, hnot] at hjbegun
        cases hjbegun
      exact ⟨j, hj, by rw [loc_set_of_ne _ hne]; exact hjbegun⟩
  · intro hrundir j hj
    rw [shared_set] at hrundir
    have hbefore : k ∉ c.shared.rundir := fun hmem => hrundir (hmove.rundir hmem)
    by_cases hji : j = i
    · rw [hji, loc_set_self, Bool.eq_false_iff]
      intro hbegun
      apply hrundir
      rw [← hi]
      apply hmove.mem_rundir _ hbegun
      intro hl
      rw [h.first hbefore i hi] at hl
      cases hl
    · rw [loc_set_of_ne _ hji]
      exact h.first hbefore j hj
  · intro j hj hskip
    rw [shared_set]
    by_cases hji : j = i
    · rw [hji, loc_set_self] at hskip
      rw [hskip] at hmove
      rw [← hi]
      exact hmove.taken_of_skip
    · rw [loc_set_of_ne _ hji] at hskip
      exact hmove.taken (h.skipped j hj hskip)
  · exact h.passed_own hi hmove hbusy

theorem together_of_run (hfree : ∀ t ∈ ts, d.taken t.key = false) (hk : k ∈ ts.map Task.key)
    (h : PoolRun allowed ts workers (start ts d) c) : Together ts workers d k c := by
  have hdot : '.' ∉ k.name := by
    obtain ⟨t, _, rfl⟩ := List.mem_map.mp hk
    exact key_dotless t
  induction h with
  | refl => exact together_start hfree hk
  | tail _ hstep ih =>
    obtain ⟨hstep, hbusy⟩ := hstep
    cases hstep with
    | mk i d' l' hact =>
      obtain ⟨o, _, hfoo⟩ := hact
      by_cases hi : (ts.get i).key = k
      · exact ih.own hi (moves_of_foo hfoo) hbusy
      · exact ih.of_ne hdot hi (moves_of_foo hfoo)

/-- Two files with the same name up to the first dot. -/
def sameName : Disk Unit where
  sv := [(⟨['o'], "a.sv".toList⟩, ()), (⟨['o'], "a.b.sv".toList⟩, ())]
  rundir := []
  csv := []
  calls := []

def sameNameTasks : List Task := [⟨"a.sv".toList, ['o'], ['j']⟩, ⟨"a.b.sv".toList, ['o'], ['j']⟩]

/-- Two workers that take turns. -/
def turns : List (Fin sameNameTasks.length × Outcome) :=
  (List.replicate 5 [((⟨0, by decide⟩ : Fin sameNameTasks.length), Outcome.reported),
    (⟨1, by decide⟩, .reported)]).flatten

end Together

section History

variable {τ : Type} {allowed : Outcome → Prop} {P : List Task → Prop} {ts : List Task}
  {d d' : Disk τ} {c : Pool τ ts} {k : Key}

/-- What happens to the directories over time: the script is called, and it ends or is stopped
anywhere; or property files are written. -/
inductive Happens (allowed : Outcome → Prop) (P : List Task → Prop) : Disk τ → Disk τ → Prop
  | call (d : Disk τ) (pairs : List (Name × Name)) (workers : Nat) (c : Pool τ (tasks d pairs))
      (hP : P (tasks d pairs)) (h : PoolRun allowed (tasks d pairs) workers (start _ d) c) :
      Happens allowed P d c.shared
  | write (d : Disk τ) (sv : List (Path × τ)) : Happens allowed P d { d with sv := sv }

abbrev History (allowed : Outcome → Prop) (P : List Task → Prop) : Disk τ → Disk τ → Prop :=
  Relation.ReflTransGen (Happens allowed P)

/-- Tasks of other names leave a job alone in every interleaving. -/
theorem sameFor_of_run (hdot : '.' ∉ k.name) (hk : k ∉ ts.map Task.key)
    (h : Run (acts allowed ts) (start ts d) c) : SameFor k d c.shared := by
  induction h with
  | refl => exact .refl k d
  | tail _ hstep ih =>
    cases hstep with
    | mk i d' l' hact =>
      obtain ⟨o, _, hfoo⟩ := hact
      apply ih.trans
      apply (moves_of_foo hfoo).sameFor hdot
      intro heq
      exact hk (heq ▸ List.mem_map_of_mem (ts.get_mem i))

/-- A job with a run directory or with results is never called again, and its results stay as they
are: none if the call was stopped, and those of the old text if the property file is rewritten. -/
theorem taken_never_redone (hdot : '.' ∉ k.name) (hk : d.taken k = true)
    (h : History allowed P d d') : SameFor k d d' := by
  induction h with
  | refl => exact .refl k d
  | tail _ hstep ih =>
    apply ih.trans
    cases hstep with
    | write sv => exact ⟨.rfl, rfl, rfl⟩
    | call pairs workers c hP hrun =>
      apply sameFor_of_run hdot _ hrun.run
      intro hmem
      obtain ⟨t, ht, hkey⟩ := List.mem_map.mp hmem
      have hfree := not_taken_of_mem_tasks ht
      rw [hkey, ih.taken, hk] at hfree
      cases hfree

/-- The job that was stopped stays without results when the script is called again. -/
theorem stopped_job_stays : ∃ d', History (fun _ => True) (fun _ => True) threeFiles d' ∧
    d'.calls = [⟨['j'], "0_g".toList⟩] ∧ d'.csv.lookup ⟨['j'], "1_g".toList⟩ = none := by
  obtain ⟨c, hc, hcalls⟩ : ∃ c, runSchedule (tasks threeFiles [(['j'], ['o'])]) 1
      (List.replicate 5 (⟨0, by decide⟩, .reported)) (start _ threeFiles) = some c ∧
      c.shared.calls = [⟨['j'], "0_g".toList⟩] := by
    refine ⟨_, rfl, by decide⟩
  have hstep : Happens (fun _ => True) (fun _ => True) threeFiles c.shared :=
    .call _ _ 1 c trivial (.of_schedule (fun _ _ => trivial) hc)
  have hsame := taken_never_redone (k := ⟨['j'], "1_g".toList⟩) (by decide) (by decide)
    (.single hstep)
  exact ⟨c.shared, .single hstep, hcalls, hsame.csv⟩

/-- No job was called twice, and what was called has its run directory. -/
structure Logged (d : Disk τ) : Prop where
  once : ∀ k, d.calls.count k ≤ 1
  rundir : ∀ k ∈ d.calls, k ∈ d.rundir

theorem rundir_of_run (hk : k ∈ d.rundir) (h : Run (acts allowed ts) (start ts d) c) :
    k ∈ c.shared.rundir := by
  induction h with
  | refl => exact hk
  | tail _ hstep ih =>
    cases hstep with
    | mk i d' l' hact =>
      obtain ⟨o, _, hfoo⟩ := hact
      exact (moves_of_foo hfoo).rundir ih

theorem Logged.call (h : Logged d) (hnd : (ts.map Task.key).Nodup)
    (hfree : ∀ t ∈ ts, d.taken t.key = false) (hrun : Run (acts allowed ts) (start ts d) c) :
    Logged c.shared := by
  obtain ⟨hother, halone⟩ := alone_of_run hnd hfree hrun
  -- a job that is called now was never called before
  have hnew (i : Fin ts.length) : d.calls.count (ts.get i).key = 0 := by
    rw [List.count_eq_zero]
    intro hmem
    have hfree := taken_eq_false.mp (hfree _ (ts.get_mem i))
    exact hfree.1 (h.rundir _ hmem)
  constructor
  · intro k
    by_cases hk : k ∈ ts.map Task.key
    · obtain ⟨t, ht, rfl⟩ := List.mem_map.mp hk
      obtain ⟨i, rfl⟩ := List.get_of_mem ht
      have hone := Bool.toNat_le (c.loc i).called
      rw [(halone i).calls, hnew i]
      omega
    · rw [hother k hk]
      exact h.once k
  · intro k hmem
    by_cases hk : k ∈ ts.map Task.key
    · obtain ⟨t, ht, rfl⟩ := List.mem_map.mp hk
      obtain ⟨i, rfl⟩ := List.get_of_mem ht
      apply (halone i).made
      apply Phase.begun_of_called
      have hpos := List.count_pos_iff.mpr hmem
      rw [(halone i).calls, hnew i] at hpos
      cases hcalled : (c.loc i).called with
      | false =>
        rw [hcalled] at hpos
        cases hpos
      | true => rfl
    · apply rundir_of_run _ hrun
      apply h.rundir
      rw [← List.count_pos_iff, ← hother k hk]
      exact List.count_pos_iff.mpr hmem

/-- Over a whole history of calls, each ended or stopped anywhere, the model checker is called at
most once for each job. -/
theorem history_calls_once (h : Logged d)
    (hrun : History allowed (fun ts => (ts.map Task.key).Nodup) d d') : Logged d' := by
  induction hrun with
  | refl => exact h
  | tail _ hstep ih =>
    cases hstep with
    | write sv => exact ⟨ih.once, ih.rundir⟩
    | call pairs workers c hnd hrun =>
      exact ih.call hnd (fun t => not_taken_of_mem_tasks) hrun.run

/-- What is left where the first call was stopped while the model checker ran for one file. -/
def oneBegun : Disk Unit :=
  { threeFiles with
    rundir := [⟨['j'], "1_g".toList⟩, ⟨['j'], "0_g".toList⟩]
    calls := [⟨['j'], "0_g".toList⟩] }

/-- The next call leaves that file alone and goes on with the other. -/
theorem threeFiles_calls_once : ∃ d',
    Happens (fun _ => True) (fun ts => (ts.map Task.key).Nodup) threeFiles oneBegun ∧
      Happens (fun _ => True) (fun ts => (ts.map Task.key).Nodup) oneBegun d' ∧
      d'.calls = [⟨['j'], "0_g".toList⟩, ⟨['j'], "1_ADD".toList⟩] ∧ Logged d' := by
  obtain ⟨c, hc, hshared⟩ : ∃ c, runSchedule (tasks threeFiles [(['j'], ['o'])]) 1
      (List.replicate 4 (⟨0, by decide⟩, .failed)) (start _ threeFiles) = some c ∧
      c.shared = oneBegun := ⟨_, rfl, rfl⟩
  obtain ⟨c', hc', hcalls⟩ : ∃ c, runSchedule (tasks oneBegun [(['j'], ['o'])]) 1
      (List.replicate 5 (⟨0, by decide⟩, .reported)) (start _ oneBegun) = some c ∧
      c.shared.calls = [⟨['j'], "0_g".toList⟩, ⟨['j'], "1_ADD".toList⟩] := ⟨_, rfl, rfl⟩
  have hfirst : Happens (fun _ => True) (fun ts => (ts.map Task.key).Nodup) threeFiles oneBegun :=
    hshared ▸ .call _ _ 1 c (by decide) (.of_schedule (fun _ _ => trivial) hc)
  have hsecond : Happens (fun _ => True) (fun ts => (ts.map Task.key).Nodup) oneBegun c'.shared :=
    .call _ _ 1 c' (by decide) (.of_schedule (fun _ _ => trivial) hc')
  have hlogged : Logged threeFiles := ⟨fun k => Nat.zero_le 1, nofun⟩
  exact ⟨c'.shared, hfirst, hsecond, hcalls,
    history_calls_once hlogged (.tail (.single hfirst) hsecond)⟩

end History

section Results

variable {τ : Type} {ts : List Task} {d d' : Disk τ} {c : Pool τ ts} {k : Key} {t : Task}

theorem lookup_finish (htext : (d.sv.lookup t.path).isSome) (hstem : t.stemKey = t.key) :
    (d.finish t .reported).csv.lookup t.key = d.sv.lookup t.path := by
  obtain ⟨text, htext⟩ := Option.isSome_iff_exists.mp htext
  unfold Disk.finish
  rw [htext, hstem]
  exact Dict.lookup_set.trans (if_pos rfl)

theorem keeps_reported (hnd : (ts.map Task.key).Nodup) (hstem : ∀ t ∈ ts, t.stemKey = t.key)
    (d : Disk τ) (htext : ∀ t ∈ ts, (d.sv.lookup t.path).isSome) :
    Keeps (acts (· = .reported) ts) (fun d' : Disk τ => d'.sv = d.sv)
      (fun i d' l => l = .finished true →
        d'.csv.lookup (ts.get i).key = d.sv.lookup (ts.get i).path) where
  shared := by
    intro i s l s' l' hI _ hact
    obtain ⟨o, _, hact⟩ := hact
    exact (moves_of_foo hact).sv.trans hI
  own := by
    intro i s l s' l' hI _ hact hl'
    obtain ⟨o, rfl, hact⟩ := hact
    have hmove := moves_of_foo hact
    rw [hl'] at hmove
    cases hmove with
    | ends =>
      have hmem := ts.get_mem i
      rw [lookup_finish (by rw [hI]; exact htext _ hmem) (hstem _ hmem), hI]
  others := by
    intro i j s l s' l' m hij _ _ hA hact hm
    obtain ⟨o, _, hact⟩ := hact
    rw [((moves_of_foo hact).sameFor (key_dotless _) (key_ne_of_nodup hnd hij)).csv]
    exact hA hm

/-- The results there are belong to the text their property file has now. -/
def Current (d : Disk τ) (pairs : List (Name × Name)) : Prop :=
  ∀ t : Task, (t.job, t.svFileDir) ∈ pairs → isProperty t.fileName = true →
    ∀ text, (t.path, text) ∈ d.sv → d.taken t.key = true → d.csv.lookup t.key = some text

/-- Every property file has results, and they belong to the text it has now. -/
def Complete (d : Disk τ) (pairs : List (Name × Name)) : Prop :=
  ∀ t : Task, (t.job, t.svFileDir) ∈ pairs → isProperty t.fileName = true →
    ∀ text, (t.path, text) ∈ d.sv → d.csv.lookup t.key = some text

/-- After a call that is not stopped, where the model checker reports each time, every property file
has results, and they are those of its text. -/
theorem results_complete {pairs : List (Name × Name)} {c : Pool τ (tasks d pairs)}
    (hsv : (d.sv.map Prod.fst).Nodup) (hnd : ((tasks d pairs).map Task.key).Nodup)
    (hstem : ∀ t ∈ tasks d pairs, t.stemKey = t.key) (hcurrent : Current d pairs)
    (hrun : Run (acts (· = .reported) (tasks d pairs)) (start _ d) c)
    (hdone : Done (tasks d pairs) c) : c.shared.sv = d.sv ∧ Complete c.shared pairs := by
  have hlookup (t : Task) (ht : t ∈ tasks d pairs) : (d.sv.lookup t.path).isSome := by
    obtain ⟨text, htext⟩ := (mem_tasks.mp ht).2.1
    rw [(Dict.mem_iff_lookup hsv).mp htext]
    rfl
  have hkeeps := (keeps_reported hnd hstem d hlookup).run (c := start _ d) rfl nofun hrun
  refine ⟨hkeeps.1, ?_⟩
  intro t hpair hname text htext
  rw [hkeeps.1] at htext
  by_cases htaken : d.taken t.key = true
  · by_cases hmem : t.key ∈ (tasks d pairs).map Task.key
    · obtain ⟨t', ht', hkey⟩ := List.mem_map.mp hmem
      have hfree := (mem_tasks.mp ht').2.2.2
      rw [hkey, htaken] at hfree
      cases hfree
    · rw [(sameFor_of_run (key_dotless t) hmem hrun).csv]
      exact hcurrent t hpair hname text htext htaken
  · have ht : t ∈ tasks d pairs :=
      mem_tasks.mpr ⟨hpair, ⟨text, htext⟩, hname, Bool.eq_false_iff.mpr htaken⟩
    obtain ⟨i, hi⟩ := List.get_of_mem ht
    have halone := (alone_of_run hnd (fun t => not_taken_of_mem_tasks) hrun).2 i
    obtain ⟨called, hloc⟩ := hdone i
    cases called with
    | false => exact absurd hloc halone.kept
    | true =>
      have hcsv := hkeeps.2 i hloc
      rw [hi, (Dict.mem_iff_lookup hsv).mp htext] at hcsv
      exact hcsv

end Results

section Steady

variable {τ : Type} {d d' : Disk τ} {pairs : List (Name × Name)} {want : List (Path × τ)}

/-- A name with the one dot of its ending. -/
def Plain (file : Name) : Prop :=
  ∃ base, base ≠ [] ∧ '.' ∉ base ∧ file = base ++ ".sv".toList

theorem Plain.isProperty {file : Name} (h : Plain file) : isProperty file = true := by
  obtain ⟨base, hne, hdot, rfl⟩ := h
  obtain ⟨c, cs, rfl⟩ := List.exists_cons_of_ne_nil hne
  have hinfix : ['s', 'v'] <:+: (c :: cs) ++ ".sv".toList := ⟨c :: cs ++ ['.'], [], by simp⟩
  have hhead : ((c :: cs) ++ ".sv".toList).head? ≠ some '.' := by
    intro h
    exact hdot (Option.some.inj h ▸ List.mem_cons_self)
  rw [BatchRun.isProperty, decide_eq_true hinfix, decide_eq_true hhead]
  rfl

theorem Plain.eq_of_prefixOf {file file' : Name} (h : Plain file) (h' : Plain file')
    (heq : prefixOf file = prefixOf file') : file = file' := by
  obtain ⟨base, _, hdot, rfl⟩ := h
  obtain ⟨base', _, hdot', rfl⟩ := h'
  have hbase : base = base' := (prefixOf_append_dot hdot).symm.trans
    (heq.trans (prefixOf_append_dot hdot'))
  rw [hbase]

theorem Plain.stem {file : Name} (h : Plain file) : stem file = prefixOf file := by
  obtain ⟨base, _, hdot, rfl⟩ := h
  exact (stem_append_dot base (by decide)).trans (prefixOf_append_dot hdot).symm

/-- Jobs that each have a directory of property files to themselves. -/
structure Apart (pairs : List (Name × Name)) : Prop where
  nodup : pairs.Nodup
  dir : ∀ p ∈ pairs, ∀ p' ∈ pairs, p.1 = p'.1 → p = p'

/-- Directories in which property files are added step by step: the results there are belong to the
files, and a file that is still to be written is not there with another text. -/
structure Steady (pairs : List (Name × Name)) (want : List (Path × τ)) (d : Disk τ) : Prop where
  wanted : ∀ e ∈ want, ∀ e' ∈ want, e.1 = e'.1 → e = e'
  names : ∀ e ∈ want, Plain e.1.file
  nodup : (d.sv.map Prod.fst).Nodup
  plain : ∀ e ∈ d.sv, e.1.dir ∈ pairs.map Prod.snd → Plain e.1.file
  current : Current d pairs
  text : ∀ e ∈ want, ∀ text, (e.1, text) ∈ d.sv → text = e.2
  taken : ∀ e ∈ want, ∀ job, (job, e.1.dir) ∈ pairs →
    d.taken ⟨job, prefixOf e.1.file⟩ = true → d.csv.lookup ⟨job, prefixOf e.1.file⟩ = some e.2

/-- A property file is written. -/
def Disk.write (d : Disk τ) (e : Path × τ) : Disk τ :=
  { d with sv := Dict.upsert e.1 (fun _ => e.2) e.2 d.sv }

theorem nodup_keys_upsert {p : Path} {x : τ} {sv : List (Path × τ)} (h : (sv.map Prod.fst).Nodup) :
    ((Dict.upsert p (fun _ => x) x sv).map Prod.fst).Nodup := by
  rw [Dict.keys_upsert]
  exact Loop.nodup_insertNew h p

theorem Steady.write (h : Steady pairs want d) {e : Path × τ} (he : e ∈ want) :
    Steady pairs want (d.write e) := by
  have hmem {x : Path × τ} (hx : x ∈ (d.write e).sv) : x ∈ d.sv ∨ x = e := Dict.mem_set hx
  refine ⟨h.wanted, h.names, nodup_keys_upsert h.nodup, ?_, ?_, ?_, h.taken⟩
  · intro x hx hdir
    obtain hx | rfl := hmem hx
    · exact h.plain x hx hdir
    · exact h.names x he
  · intro t hpair hname text htext htaken
    obtain htext | heq := hmem htext
    · exact h.current t hpair hname text htext htaken
    · obtain ⟨hpath, rfl⟩ := Prod.ext_iff.mp heq
      have hdir : t.svFileDir = e.1.dir := congrArg Path.dir hpath
      have hfile : t.fileName = e.1.file := congrArg Path.file hpath
      rw [hdir] at hpair
      rw [Task.key, hfile] at htaken ⊢
      exact h.taken e he t.job hpair htaken
  · intro x hx text htext
    obtain htext | heq := hmem htext
    · exact h.text x hx text htext
    · obtain ⟨hpath, htext⟩ := Prod.ext_iff.mp heq
      rw [h.wanted x hx e he hpath]
      exact htext

theorem Steady.nodup_tasks (h : Steady pairs want d) (hapart : Apart pairs) :
    ((tasks d pairs).map Task.key).Nodup := by
  have hplain {t : Task} (ht : t ∈ tasks d pairs) : Plain t.fileName := by
    obtain ⟨hpair, ⟨text, htext⟩, _⟩ := mem_tasks.mp ht
    exact h.plain _ htext (List.mem_map_of_mem hpair)
  apply List.Nodup.map_on
  · intro t ht t' ht' hkey
    obtain ⟨hjob, hname⟩ := Key.mk.inj hkey
    have hpair := hapart.dir _ (mem_tasks.mp ht).1 _ (mem_tasks.mp ht').1 hjob
    have hfile := (hplain ht).eq_of_prefixOf (hplain ht') hname
    have hdir : t.svFileDir = t'.svFileDir := congrArg Prod.snd hpair
    cases t
    cases t'
    simp_all
  · unfold tasks
    rw [List.nodup_flatMap]
    constructor
    · intro p _
      apply List.Nodup.filter
      apply List.Nodup.map (fun itm itm' heq => (Task.mk.inj heq).1)
      apply List.Nodup.map_on _ (h.nodup.of_map.filter _)
      intro e he e' he' hfile
      rw [List.mem_filter, decide_eq_true_eq] at he he'
      apply List.inj_on_of_nodup_map h.nodup he.1 he'.1
      obtain ⟨⟨dir, file⟩, _⟩ := e
      obtain ⟨⟨dir', file'⟩, _⟩ := e'
      simp_all
    · apply hapart.nodup.imp
      intro p p' hne t ht ht'
      apply hne
      obtain ⟨_, _, rfl⟩ := List.mem_map.mp (List.mem_of_mem_filter ht)
      obtain ⟨_, _, heq⟩ := List.mem_map.mp (List.mem_of_mem_filter ht')
      obtain ⟨_, hdir, hjob⟩ := Task.mk.inj heq
      exact Prod.ext hjob.symm hdir.symm

/-- A call of the script that is not stopped, where the model checker reports each time. -/
def Called (pairs : List (Name × Name)) (d d' : Disk τ) : Prop :=
  ∃ workers, ∃ c : Pool τ (tasks d pairs),
    PoolRun (· = .reported) (tasks d pairs) workers (start _ d) c ∧ Done _ c ∧ d' = c.shared

theorem exists_called (pairs : List (Name × Name)) (d : Disk τ) : ∃ d', Called pairs d d' := by
  have hstart : PoolRun (· = .reported) (tasks d pairs) 1 (start _ d) (start _ d) := .refl
  have hreported : ∃ o, o = Outcome.reported := ⟨_, rfl⟩
  obtain ⟨c, hrun, hdone⟩ := exists_done hreported Nat.one_pos _ hstart.busy_le
  exact ⟨c.shared, 1, c, hrun, hdone, rfl⟩

theorem Apart.mono {pairs' : List (Name × Name)} (h : Apart pairs) (hnd : pairs'.Nodup)
    (hsub : pairs' ⊆ pairs) : Apart pairs' :=
  ⟨hnd, fun p hp p' hp' => h.dir p (hsub hp) p' (hsub hp')⟩

theorem Steady.mono {pairs' : List (Name × Name)} (h : Steady pairs want d) (hsub : pairs' ⊆ pairs) :
    Steady pairs' want d where
  wanted := h.wanted
  names := h.names
  nodup := h.nodup
  plain e he hdir := h.plain e he (List.map_subset _ hsub hdir)
  current t hpair := h.current t (hsub hpair)
  text := h.text
  taken e he job hpair := h.taken e he job (hsub hpair)

/-- Directories stay steady when the script is called for some of them, and then every file there has
its results. -/
theorem Steady.called {pairs' : List (Name × Name)} (h : Steady pairs want d) (hapart : Apart pairs)
    (hnd : pairs'.Nodup) (hsub : pairs' ⊆ pairs) (hcall : Called pairs' d d') :
    d'.sv = d.sv ∧ Complete d' pairs' ∧ Steady pairs want d' := by
  obtain ⟨workers, c, hrun, hdone, rfl⟩ := hcall
  have hplain {t : Task} (ht : t ∈ tasks d pairs') : Plain t.fileName := by
    obtain ⟨hpair, ⟨text, htext⟩, _⟩ := mem_tasks.mp ht
    exact (h.mono hsub).plain _ htext (List.mem_map_of_mem hpair)
  have hkeys := (h.mono hsub).nodup_tasks (hapart.mono hnd hsub)
  have hstem (t : Task) (ht : t ∈ tasks d pairs') : t.stemKey = t.key :=
    congrArg (Key.mk t.job) (hplain ht).stem
  obtain ⟨hsv, hcomplete⟩ :=
    results_complete h.nodup hkeys hstem (h.mono hsub).current hrun.run hdone
  -- a file whose name was a task's is that task's
  have htask {job dir file : Name} (hpair : (job, dir) ∈ pairs) (hfile : Plain file)
      (hmem : (⟨job, prefixOf file⟩ : Key) ∈ (tasks d pairs').map Task.key) :
      (⟨file, dir, job⟩ : Task) ∈ tasks d pairs' := by
    obtain ⟨t, ht, hkey⟩ := List.mem_map.mp hmem
    obtain ⟨hjob, hname⟩ := Key.mk.inj hkey
    have hdir : t.svFileDir = dir :=
      congrArg Prod.snd (hapart.dir _ (hsub (mem_tasks.mp ht).1) _ hpair hjob)
    rw [← hdir, ← hjob, ← (hplain ht).eq_of_prefixOf hfile hname]
    exact ht
  refine ⟨hsv, hcomplete, h.wanted, h.names, ?_, ?_, ?_, ?_, ?_⟩
  · rw [hsv]
    exact h.nodup
  · rw [hsv]
    exact h.plain
  · intro t hpair hname text htext htaken
    by_cases hmem : t.key ∈ (tasks d pairs').map Task.key
    · have hfile : Plain t.fileName := by
        rw [hsv] at htext
        exact h.plain _ htext (List.mem_map_of_mem hpair)
      have ht := htask hpair hfile hmem
      exact hcomplete t (mem_tasks.mp ht).1 hname text htext
    · have hsame := sameFor_of_run (key_dotless t) hmem hrun.run
      rw [hsv] at htext
      rw [hsame.taken] at htaken
      rw [hsame.csv]
      exact h.current t hpair hname text htext htaken
  · rw [hsv]
    exact h.text
  · intro e he job hpair htaken
    by_cases hmem : (⟨job, prefixOf e.1.file⟩ : Key) ∈ (tasks d pairs').map Task.key
    · have ht := htask hpair (h.names e he) hmem
      obtain ⟨htpair, ⟨text, htext⟩, hname, _⟩ := mem_tasks.mp ht
      rw [← h.text e he text htext]
      exact hcomplete _ htpair hname text (by rw [hsv]; exact htext)
    · have hsame := sameFor_of_run (dot_not_mem_prefixOf e.1.file) hmem hrun.run
      rw [hsame.taken] at htaken
      rw [hsame.csv]
      exact h.taken e he job hpair htaken

/-- Results that are there stay. -/
theorem Called.csv {pairs' : List (Name × Name)} (hcall : Called pairs' d d') {k : Key}
    (hdot : '.' ∉ k.name) {text : τ} (h : d.csv.lookup k = some text) :
    d'.csv.lookup k = some text := by
  obtain ⟨workers, c, hrun, _, rfl⟩ := hcall
  rw [← h]
  apply SameFor.csv
  apply sameFor_of_run hdot _ hrun.run
  intro hmem
  obtain ⟨t, ht, hkey⟩ := List.mem_map.mp hmem
  have hfree := taken_eq_false.mp (not_taken_of_mem_tasks ht)
  rw [hkey, h] at hfree
  cases hfree.2

/-- What writing files leaves: the files, those there were before, and the results. -/
structure Wrote (pairs : List (Name × Name)) (want : List (Path × τ)) (d : Disk τ)
    (new : List (Path × τ)) (d' : Disk τ) : Prop where
  steady : Steady pairs want d'
  csv : d'.csv = d.csv
  wants : ∀ e ∈ new, e ∈ want
  old : ∀ e ∈ want, e ∈ d.sv → e ∈ d'.sv
  new : ∀ e ∈ new, e ∈ d'.sv

theorem Wrote.refl (h : Steady pairs want d) : Wrote pairs want d [] d :=
  ⟨h, rfl, nofun, fun _ _ he => he, nofun⟩

/-- A file that is there stays when one is written: where it is the same file, the text is the
same. -/
theorem Steady.mem_write (h : Steady pairs want d) {e e' : Path × τ} (he : e ∈ want) (he' : e' ∈ want)
    (hmem : e' = e ∨ e' ∈ d.sv) : e' ∈ (d.write e).sv := by
  rw [Dict.mem_iff_lookup (h.write he).nodup, Disk.write, Dict.lookup_set]
  split
  · rw [h.wanted e' he' e he ‹_›]
  · obtain rfl | hmem := hmem
    · contradiction
    · exact (Dict.mem_iff_lookup h.nodup).mp hmem

theorem Wrote.write {new : List (Path × τ)} (h : Wrote pairs want d new d') {e : Path × τ}
    (he : e ∈ want) : Wrote pairs want d (new ++ [e]) (d'.write e) := by
  refine ⟨h.steady.write he, h.csv, ?_, ?_, ?_⟩
  · intro e' he'
    obtain he' | he' := List.mem_append.mp he'
    · exact h.wants e' he'
    · rw [List.mem_singleton.mp he']
      exact he
  · intro e' hwant hmem
    exact h.steady.mem_write he hwant (.inr (h.old e' hwant hmem))
  · intro e' he'
    obtain he' | he' := List.mem_append.mp he'
    · exact h.steady.mem_write he (h.wants e' he') (.inr (h.new e' he'))
    · obtain rfl := List.mem_singleton.mp he'
      exact h.steady.mem_write he he (.inl rfl)

theorem Wrote.writes {α : Type} (f : α → Path × τ) {xs : List α} (hf : ∀ x ∈ xs, f x ∈ want)
    {new : List (Path × τ)} (h : Wrote pairs want d new d') :
    Wrote pairs want d (new ++ xs.map f) (xs.foldl (fun d x => d.write (f x)) d') := by
  induction xs generalizing new d' with
  | nil => simpa using h
  | cons x xs ih =>
    have hrest := ih (fun y hy => hf y (List.mem_cons_of_mem _ hy)) (h.write (hf x List.mem_cons_self))
    rwa [List.append_assoc] at hrest

/-- One of the files to be written is written, or the script is called for some of the jobs. -/
inductive Builds (pairs : List (Name × Name)) (want : List (Path × τ)) : Disk τ → Disk τ → Prop
  | write (d : Disk τ) (e : Path × τ) (he : e ∈ want) : Builds pairs want d (d.write e)
  | call (d d' : Disk τ) (pairs' : List (Name × Name)) (hnd : pairs'.Nodup) (hsub : pairs' ⊆ pairs)
      (h : Called pairs' d d') : Builds pairs want d d'

theorem Steady.builds (h : Steady pairs want d) (hapart : Apart pairs)
    (hbuilds : Relation.ReflTransGen (Builds pairs want) d d') : Steady pairs want d' := by
  induction hbuilds with
  | refl => exact h
  | tail _ hstep ih =>
    cases hstep with
    | write e he => exact ih.write he
    | call _ pairs' hnd hsub hcall => exact (ih.called hapart hnd hsub hcall).2.2

/-- Property files that are added in any order between calls of the script: whenever it is called for
all jobs and ends, every file has results, and they are those of the text it has. -/
theorem added_files_get_their_results (h : Steady pairs want d) (hapart : Apart pairs)
    (hbuilds : Relation.ReflTransGen (Builds pairs want) d d') {d'' : Disk τ}
    (hcall : Called pairs d' d'') : d''.sv = d'.sv ∧ Complete d'' pairs := by
  have hsteady := h.builds hapart hbuilds
  have hcalled := hsteady.called hapart hapart.nodup (fun _ hp => hp) hcall
  exact ⟨hcalled.1, hcalled.2.1⟩

/-- No files yet. -/
def emptyDisk : Disk τ := ⟨[], [], [], []⟩

theorem emptyDisk_steady (hwanted : ∀ e ∈ want, ∀ e' ∈ want, e.1 = e'.1 → e = e')
    (hnames : ∀ e ∈ want, Plain e.1.file) : Steady pairs want emptyDisk where
  wanted := hwanted
  names := hnames
  nodup := .nil
  plain := nofun
  current := nofun
  text := nofun
  taken := nofun

/-- Property files of one directory. -/
def outFile (name : String) (text : Bool) : Path × Bool := (⟨['o'], name.toList⟩, text)

def threeWanted : List (Path × Bool) :=
  [outFile "0_g.sv" true, outFile "1_g.sv" false, outFile "1_ADD.sv" true]

theorem threeWanted_steady : Steady [(['j'], ['o'])] threeWanted emptyDisk := by
  apply emptyDisk_steady
  · decide
  · intro e he
    obtain rfl | rfl | rfl : e = _ ∨ e = _ ∨ e = _ := by simpa [threeWanted] using he
    · exact ⟨"0_g".toList, by decide, by decide, by decide⟩
    · exact ⟨"1_g".toList, by decide, by decide, by decide⟩
    · exact ⟨"1_ADD".toList, by decide, by decide, by decide⟩

/-- What the first call leaves for the first file. -/
def firstDone : Disk Bool where
  sv := [outFile "0_g.sv" true]
  rundir := [⟨['j'], "0_g".toList⟩]
  csv := [(⟨['j'], "0_g".toList⟩, true)]
  calls := [⟨['j'], "0_g".toList⟩]

/-- The two others are written after it. -/
def othersAdded : Disk Bool :=
  (firstDone.write (outFile "1_g.sv" false)).write (outFile "1_ADD.sv" true)

/-- A file is written and the script is called; two more are written and it is called again, with
two workers that take turns. -/
theorem three_files_get_their_results : ∃ d',
    Called [(['j'], ['o'])] (emptyDisk.write (outFile "0_g.sv" true)) firstDone ∧
    Called [(['j'], ['o'])] othersAdded d' ∧
    d'.calls = [⟨['j'], "0_g".toList⟩, ⟨['j'], "1_g".toList⟩, ⟨['j'], "1_ADD".toList⟩] ∧
    Complete d' [(['j'], ['o'])] := by
  obtain ⟨c, hc, hshared, hdone⟩ : ∃ c, runSchedule
      (tasks (emptyDisk.write (outFile "0_g.sv" true)) [(['j'], ['o'])]) 1
      (List.replicate 5 (⟨0, by decide⟩, .reported))
      (start _ (emptyDisk.write (outFile "0_g.sv" true))) = some c ∧
      c.shared = firstDone ∧ ∀ i, c.loc i = .finished true := by
    refine ⟨_, rfl, rfl, by decide⟩
  obtain ⟨c', hc', hcalls, hdone'⟩ : ∃ c, runSchedule (tasks othersAdded [(['j'], ['o'])]) 2
      (List.replicate 5 [(⟨0, by decide⟩, .reported), (⟨1, by decide⟩, .reported)]).flatten
      (start _ othersAdded) = some c ∧
      c.shared.calls = [⟨['j'], "0_g".toList⟩, ⟨['j'], "1_g".toList⟩, ⟨['j'], "1_ADD".toList⟩] ∧
      ∀ i, c.loc i = .finished true := by
    refine ⟨_, rfl, rfl, by decide⟩
  have hfirst : Called [(['j'], ['o'])] (emptyDisk.write (outFile "0_g.sv" true)) firstDone :=
    ⟨1, c, .of_schedule (by simp) hc, fun i => ⟨true, hdone i⟩, hshared.symm⟩
  have hsecond : Called [(['j'], ['o'])] othersAdded c'.shared :=
    ⟨2, c', .of_schedule (by simp) hc', fun i => ⟨true, hdone' i⟩, rfl⟩
  have hapart : Apart [(['j'], ['o'])] := ⟨by simp, by simp⟩
  have hbuilds : Relation.ReflTransGen (Builds [(['j'], ['o'])] threeWanted) emptyDisk
      othersAdded := by
    apply Relation.ReflTransGen.head (.write _ _ (by decide : outFile "0_g.sv" true ∈ threeWanted))
    apply Relation.ReflTransGen.head (.call _ _ _ (by simp) (fun _ hp => hp) hfirst)
    apply Relation.ReflTransGen.head (.write _ _ (by decide : outFile "1_g.sv" false ∈ threeWanted))
    exact .single (.write _ _ (by decide : outFile "1_ADD.sv" true ∈ threeWanted))
  exact ⟨c'.shared, hfirst, hsecond, hcalls,
    (added_files_get_their_results threeWanted_steady hapart hbuilds hsecond).2⟩

end Steady

end BatchRun

end SynthLC
