import SynthLC.Dict
import SynthLC.Interleave
import Mathlib.Data.List.TakeWhile

/-! `host_batch_run_template_v2.py`: the property files of a directory are handed to a pool of
workers, and each worker calls the model checker for files that have no results yet. What says that
a file is taken is a directory that the worker makes after it has looked for it. -/
namespace SynthLC

namespace BatchRun

open Interleave

/-- Names of files and directories. -/
abbrev Name := List Char

/-- `file_name.split(".")[0]` -/
def prefixOf (name : Name) : Name := name.takeWhile (· ≠ '.')

/-- `"${filename%.*}"`, which the script `RUN_JG.sh` calls its files by. -/
def stem (name : Name) : Name :=
  if '.' ∈ name then (name.reverse.dropWhile (· ≠ '.')).tail.reverse else name

/-- A job and what its files are called by. -/
structure Key where
  job : Name
  name : Name
  deriving DecidableEq

/-- A property file in its directory. -/
structure Path where
  dir : Name
  file : Name
  deriving DecidableEq

/-- What a worker is called with. -/
structure Task where
  fileName : Name
  svFileDir : Name
  job : Name
  deriving DecidableEq

def Task.key (t : Task) : Key := ⟨t.job, prefixOf t.fileName⟩

def Task.stemKey (t : Task) : Key := ⟨t.job, stem t.fileName⟩

def Task.path (t : Task) : Path := ⟨t.svFileDir, t.fileName⟩

/-- Property files, run directories, result files with the text they are the results of, and the
calls of the model checker so far. -/
structure Disk (τ : Type) where
  sv : List (Path × τ)
  rundir : List Key
  csv : List (Key × τ)
  calls : List Key

/-- How a call ends: the script refuses to start, the model checker stops, or it reports. -/
inductive Outcome where
  | refused | failed | reported
  deriving DecidableEq

/-- Where the function `foo` is in its body. -/
inductive Phase where
  | queued | noRundir | checked | made | running
  | finished (called : Bool)
  deriving DecidableEq

section Model

variable {τ : Type}

/-- `<prefix>_rundir` or `<prefix>.csv` exists. -/
def Disk.taken (d : Disk τ) (k : Key) : Bool := decide (k ∈ d.rundir) || (d.csv.lookup k).isSome

def Disk.mkdir (d : Disk τ) (k : Key) : Disk τ := { d with rundir := Loop.insertNew d.rundir k }

/-- `report -csv`, over results that were there before. -/
def Disk.report (d : Disk τ) (k : Key) (text : τ) : Disk τ :=
  { d with csv := Dict.upsert k (fun _ => text) text d.csv }

/-- What `RUN_JG.sh` leaves. Without the property file it stops at once. -/
def Disk.finish (d : Disk τ) (t : Task) (o : Outcome) : Disk τ :=
  match o, d.sv.lookup t.path with
  | .failed, some _ => d.mkdir t.stemKey
  | .reported, some text => (d.mkdir t.stemKey).report t.stemKey text
  | _, _ => d

/-- `os.listdir`, in whatever order. -/
def Disk.listdir (d : Disk τ) (dir : Name) : List Name :=
  (d.sv.filter (·.1.dir = dir)).map (·.1.file)

/-- `"sv" in itm and (not running) and itm[0] != '.'` -/
def Disk.wanted (d : Disk τ) (t : Task) : Bool :=
  decide (['s', 'v'] <:+: t.fileName) && !d.taken t.key && decide (t.fileName.head? ≠ some '.')

/-- `tasks`, for the pairs of a job and a directory on the command line. -/
def tasks (d : Disk τ) (pairs : List (Name × Name)) : List Task :=
  pairs.flatMap fun p => ((d.listdir p.2).map fun itm => ⟨itm, p.2, p.1⟩).filter d.wanted

/-- The next step of `foo`; the outcome is that of the call if this step ends it. -/
def foo (t : Task) (o : Outcome) (d : Disk τ) : Phase → Option (Disk τ × Phase)
  | .queued => some (d, if t.key ∈ d.rundir then .finished false else .noRundir)
  | .noRundir => some (d, if (d.csv.lookup t.key).isSome then .finished false else .checked)
  | .checked => some (d.mkdir t.key, .made)
  | .made => some ({ d with calls := d.calls ++ [t.key] }, .running)
  | .running => some (d.finish t o, .finished true)
  | .finished _ => none

/-- The processes of a pool, one for each task. -/
abbrev Pool (τ : Type) (ts : List Task) := Conf (Fin ts.length) (Disk τ) Phase

variable (allowed : Outcome → Prop) (ts : List Task)

/-- A step of one task, where calls end in one of the outcomes allowed. -/
def acts (i : Fin ts.length) (d : Disk τ) (l : Phase) (d' : Disk τ) (l' : Phase) : Prop :=
  ∃ o, allowed o ∧ foo (ts.get i) o d l = some (d', l')

def start (d : Disk τ) : Pool τ ts := ⟨d, fun _ => .queued⟩

def Phase.active : Phase → Bool
  | .queued | .finished _ => false
  | _ => true

/-- Tasks that are begun and not finished. -/
def busy (c : Pool τ ts) : Nat := c.number fun _ l => l.active

/-- A step of the pool: there are not more tasks at work than workers. -/
def PoolStep (workers : Nat) (c c' : Pool τ ts) : Prop :=
  Step (acts allowed ts) c c' ∧ busy ts c' ≤ workers

abbrev PoolRun (workers : Nat) : Pool τ ts → Pool τ ts → Prop :=
  Relation.ReflTransGen (PoolStep allowed ts workers)

def Done (c : Pool τ ts) : Prop := ∀ i, ∃ called, c.loc i = .finished called

/-- The pool under a given schedule: whose turn it is, and how the call ends if it ends then. -/
def runSchedule (workers : Nat) : List (Fin ts.length × Outcome) → Pool τ ts → Option (Pool τ ts)
  | [], c => some c
  | (i, o) :: rest, c => do
    let (d', l') ← foo (ts.get i) o c.shared (c.loc i)
    if busy ts (c.set i d' l') ≤ workers then runSchedule workers rest (c.set i d' l') else none

end Model

section Names

theorem dot_not_mem_prefixOf (name : Name) : '.' ∉ prefixOf name := by
  intro h
  have hdot := List.mem_takeWhile_imp h
  simp at hdot

theorem prefixOf_append_dot {xs ys : Name} (h : '.' ∉ xs) : prefixOf (xs ++ '.' :: ys) = xs := by
  have hall : ∀ c ∈ xs, decide (c ≠ '.') = true := by
    intro c hc
    rw [decide_eq_true_iff]
    exact fun heq => h (heq ▸ hc)
  rw [prefixOf, List.takeWhile_append_of_pos hall, List.takeWhile_cons_of_neg (by simp),
    List.append_nil]

theorem stem_append_dot (xs : Name) {ys : Name} (h : '.' ∉ ys) : stem (xs ++ '.' :: ys) = xs := by
  have hall : ∀ c ∈ ys.reverse, decide (c ≠ '.') = true := by
    intro c hc
    rw [decide_eq_true_iff]
    exact fun heq => h (heq ▸ List.mem_reverse.mp hc)
  rw [stem, if_pos (by simp), List.reverse_append, List.reverse_cons, List.append_assoc,
    List.dropWhile_append_of_pos hall, List.singleton_append, List.dropWhile_cons_of_neg (by simp),
    List.tail_cons, List.reverse_reverse]

/-- The two ways to name the files of a job agree where the name has one dot, and otherwise the
second gives a name with a dot or the first is all of it. -/
theorem stem_eq_prefixOf {name : Name} (h : '.' ∉ stem name) : stem name = prefixOf name := by
  by_cases hdot : '.' ∈ name
  · obtain ⟨ys, zs, hname, hzs⟩ := List.eq_append_cons_of_mem (List.mem_reverse.mpr hdot)
    have hsplit : name = zs.reverse ++ '.' :: ys.reverse := by
      rw [← List.reverse_reverse name, hname]
      simp
    have hys : '.' ∉ ys.reverse := by simpa using hzs
    rw [hsplit, stem_append_dot _ hys] at h ⊢
    exact (prefixOf_append_dot h).symm
  · have hall : ∀ c ∈ name, decide (c ≠ '.') = true := by
      intro c hc
      rw [decide_eq_true_iff]
      exact fun heq => hdot (heq ▸ hc)
    rw [stem, if_neg hdot, prefixOf, List.takeWhile_eq_self_iff.mpr hall]

/-- Files made under a name without a dot are made by a task of that name. -/
theorem key_eq_of_stemKey {t : Task} {k : Key} (hk : '.' ∉ k.name) (h : t.stemKey = k) : t.key = k := by
  rw [← h] at hk ⊢
  exact congrArg (Key.mk t.job) (stem_eq_prefixOf hk).symm

end Names

section Steps

variable {τ : Type} {allowed : Outcome → Prop} {ts : List Task} {t : Task} {o : Outcome}
  {d d' : Disk τ} {l l' : Phase} {k : Key}

/-- What a step of `foo` can do. -/
inductive Moves (t : Task) (o : Outcome) (d : Disk τ) : Phase → Disk τ → Phase → Prop
  | skipRundir (h : t.key ∈ d.rundir) : Moves t o d .queued d (.finished false)
  | noRundir (h : t.key ∉ d.rundir) : Moves t o d .queued d .noRundir
  | skipCsv (h : (d.csv.lookup t.key).isSome) : Moves t o d .noRundir d (.finished false)
  | checked (h : d.csv.lookup t.key = none) : Moves t o d .noRundir d .checked
  | made : Moves t o d .checked (d.mkdir t.key) .made
  | call : Moves t o d .made { d with calls := d.calls ++ [t.key] } .running
  | ends : Moves t o d .running (d.finish t o) (.finished true)

theorem moves_of_foo (h : foo t o d l = some (d', l')) : Moves t o d l d' l' := by
  cases l with
  | queued =>
    obtain ⟨rfl, rfl⟩ := Prod.mk.inj (Option.some.inj h)
    split
    · exact .skipRundir ‹_›
    · exact .noRundir ‹_›
  | noRundir =>
    obtain ⟨rfl, rfl⟩ := Prod.mk.inj (Option.some.inj h)
    split
    · exact .skipCsv ‹_›
    · exact .checked (Option.not_isSome_iff_eq_none.mp ‹_›)
  | checked =>
    obtain ⟨rfl, rfl⟩ := Prod.mk.inj (Option.some.inj h)
    exact .made
  | made =>
    obtain ⟨rfl, rfl⟩ := Prod.mk.inj (Option.some.inj h)
    exact .call
  | running =>
    obtain ⟨rfl, rfl⟩ := Prod.mk.inj (Option.some.inj h)
    exact .ends
  | finished b => cases h

/-- What a call leaves: the run directory if it got so far, and the results if it reports. -/
theorem finish_cases (d : Disk τ) (t : Task) (o : Outcome) :
    d.finish t o = d ∨ d.finish t o = d.mkdir t.stemKey ∨
      ∃ text, d.sv.lookup t.path = some text ∧
        d.finish t o = (d.mkdir t.stemKey).report t.stemKey text := by
  unfold Disk.finish
  split
  · exact .inr (.inl rfl)
  · exact .inr (.inr ⟨_, ‹_›, rfl⟩)
  · exact .inl rfl

/-- Nothing about a job of this name has changed. -/
structure SameFor (k : Key) (d d' : Disk τ) : Prop where
  rundir : k ∈ d'.rundir ↔ k ∈ d.rundir
  csv : d'.csv.lookup k = d.csv.lookup k
  calls : d'.calls.count k = d.calls.count k

theorem SameFor.refl (k : Key) (d : Disk τ) : SameFor k d d := ⟨.rfl, rfl, rfl⟩

theorem SameFor.trans {d'' : Disk τ} (h : SameFor k d d') (h' : SameFor k d' d'') :
    SameFor k d d'' :=
  ⟨h'.rundir.trans h.rundir, h'.csv.trans h.csv, h'.calls.trans h.calls⟩

theorem SameFor.taken (h : SameFor k d d') : d'.taken k = d.taken k := by
  simp only [Disk.taken, h.rundir, h.csv]

theorem sameFor_mkdir {k' : Key} (h : k' ≠ k) (d : Disk τ) : SameFor k d (d.mkdir k') := by
  refine ⟨?_, rfl, rfl⟩
  show k ∈ Loop.insertNew d.rundir k' ↔ _
  rw [Loop.mem_insertNew]
  exact or_iff_left (Ne.symm h)

theorem sameFor_finish (hdot : '.' ∉ k.name) (hk : t.key ≠ k) : SameFor k d (d.finish t o) := by
  have hstem : t.stemKey ≠ k := fun h => hk (key_eq_of_stemKey hdot h)
  obtain h | h | ⟨text, _, h⟩ := finish_cases d t o
  · rw [h]
    exact .refl k d
  · rw [h]
    exact sameFor_mkdir hstem d
  · rw [h]
    refine ⟨(sameFor_mkdir hstem d).rundir, ?_, rfl⟩
    exact Dict.lookup_set.trans (if_neg (Ne.symm hstem))

/-- The tasks of other names leave a job alone. -/
theorem Moves.sameFor (hdot : '.' ∉ k.name) (hk : t.key ≠ k) (h : Moves t o d l d' l') :
    SameFor k d d' := by
  cases h with
  | made => exact sameFor_mkdir hk d
  | call => exact ⟨.rfl, rfl, by simp [List.count_append, hk]⟩
  | ends => exact sameFor_finish hdot hk
  | _ => exact .refl k d

theorem Moves.sv (h : Moves t o d l d' l') : d'.sv = d.sv := by
  cases h with
  | ends =>
    obtain h | h | ⟨_, _, h⟩ := finish_cases d t o
    all_goals
      rw [h]
      try rfl
  | _ => rfl

theorem calls_finish (d : Disk τ) (t : Task) (o : Outcome) : (d.finish t o).calls = d.calls := by
  obtain heq | heq | ⟨_, _, heq⟩ := finish_cases d t o
  · rw [heq]
  all_goals
    rw [heq]
    rfl

theorem taken_eq_false : d.taken k = false ↔ k ∉ d.rundir ∧ d.csv.lookup k = none := by
  simp only [Disk.taken, Bool.or_eq_false_iff, decide_eq_false_iff_not, Option.isSome_eq_false_iff,
    Option.isNone_iff_eq_none]

theorem taken_of_mem (h : k ∈ d.rundir) : d.taken k = true := by simp [Disk.taken, h]

theorem mem_mkdir (d : Disk τ) (k : Key) : k ∈ (d.mkdir k).rundir :=
  Loop.mem_insertNew.mpr (.inr rfl)

theorem rundir_finish (h : k ∈ d.rundir) : k ∈ (d.finish t o).rundir := by
  obtain heq | heq | ⟨_, _, heq⟩ := finish_cases d t o
  · rw [heq]
    exact h
  all_goals
    rw [heq]
    exact Loop.mem_insertNew.mpr (.inl h)

/-- Run directories stay. -/
theorem Moves.rundir (h : Moves t o d l d' l') (hk : k ∈ d.rundir) : k ∈ d'.rundir := by
  cases h with
  | made => exact Loop.mem_insertNew.mpr (.inl hk)
  | ends => exact rundir_finish hk
  | _ => exact hk

theorem key_dotless (t : Task) : '.' ∉ t.key.name := dot_not_mem_prefixOf t.fileName

/-- Property files by name: the ones that a call of the script looks at. -/
def isProperty (name : Name) : Bool :=
  decide (['s', 'v'] <:+: name) && decide (name.head? ≠ some '.')

theorem mem_tasks {pairs : List (Name × Name)} : t ∈ tasks d pairs ↔
    (t.job, t.svFileDir) ∈ pairs ∧ (∃ text, (t.path, text) ∈ d.sv) ∧
      isProperty t.fileName = true ∧ d.taken t.key = false := by
  simp only [tasks, List.mem_flatMap, List.mem_filter, List.mem_map, Disk.listdir,
    decide_eq_true_eq]
  constructor
  · intro h
    obtain ⟨p, hp, ⟨itm, ⟨x, ⟨hx, hdir⟩, rfl⟩, rfl⟩, hwanted⟩ := h
    simp only [Disk.wanted, Bool.and_eq_true, Bool.not_eq_true'] at hwanted
    refine ⟨hp, ⟨x.2, ?_⟩, ?_, hwanted.1.2⟩
    · rw [Task.path, ← hdir]
      exact hx
    · rw [isProperty, hwanted.1.1, hwanted.2]
      rfl
  · intro h
    obtain ⟨hpair, ⟨text, htext⟩, hname, hfree⟩ := h
    refine ⟨_, hpair, ⟨t.fileName, ⟨_, ⟨htext, rfl⟩, rfl⟩, rfl⟩, ?_⟩
    simp only [isProperty, Bool.and_eq_true] at hname
    rw [Disk.wanted, hname.1, hname.2, hfree]
    rfl

theorem not_taken_of_mem_tasks {pairs : List (Name × Name)} (h : t ∈ tasks d pairs) :
    d.taken t.key = false :=
  (mem_tasks.mp h).2.2.2

end Steps

section Once

variable {τ : Type} {allowed : Outcome → Prop} {ts : List Task} {t : Task} {o : Outcome}
  {d d' : Disk τ} {l l' : Phase} {k : Key} {n : Nat}

/-- The model checker has been called for the task. -/
def Phase.called : Phase → Bool
  | .running | .finished true => true
  | _ => false

/-- The worker has not made the run directory yet. -/
def Phase.early : Phase → Bool
  | .queued | .noRundir | .checked => true
  | _ => false

/-- The worker has made the run directory. -/
def Phase.begun : Phase → Bool
  | .made | .running | .finished true => true
  | _ => false

theorem Moves.mem_rundir (h : Moves t o d l d' l') (hbefore : l.begun = true → t.key ∈ d.rundir)
    (hbegun : l'.begun = true) : t.key ∈ d'.rundir := by
  cases h with
  | made => exact mem_mkdir d t.key
  | call => exact hbefore rfl
  | ends => exact rundir_finish (hbefore rfl)
  | _ => cases hbegun

/-- What is true of a task while no other has its name: it is not passed over. -/
structure Alone (n : Nat) (t : Task) (d : Disk τ) (l : Phase) : Prop where
  free : l.early = true → d.taken t.key = false
  made : l.begun = true → t.key ∈ d.rundir
  calls : d.calls.count t.key = n + l.called.toNat
  kept : l ≠ .finished false

theorem Moves.count_self (h : Moves t o d l d' l') :
    d'.calls.count t.key + l.called.toNat = d.calls.count t.key + l'.called.toNat := by
  cases h with
  | call => simp [Phase.called]
  | ends => rw [calls_finish]; rfl
  | _ => rfl

theorem Alone.moves (h : Alone n t d l) (hmove : Moves t o d l d' l') : Alone n t d' l' := by
  have hcount := hmove.count_self
  have hcalls := h.calls
  refine ⟨?_, hmove.mem_rundir h.made, by omega, ?_⟩
  · intro hearly
    cases hmove with
    | noRundir _ => exact h.free rfl
    | checked _ => exact h.free rfl
    | _ => cases hearly
  · intro hskip
    rw [hskip] at hmove
    cases hmove with
    | skipRundir hrundir =>
      have hfree := taken_eq_false.mp (h.free rfl)
      exact hfree.1 hrundir
    | skipCsv hcsv =>
      have hfree := taken_eq_false.mp (h.free rfl)
      rw [hfree.2] at hcsv
      cases hcsv

theorem Alone.sameFor (h : Alone n t d l) (hsame : SameFor t.key d d') : Alone n t d' l := by
  refine ⟨?_, ?_, hsame.calls.trans h.calls, h.kept⟩
  · intro hearly
    rw [hsame.taken]
    exact h.free hearly
  · intro hbegun
    exact hsame.rundir.mpr (h.made hbegun)

theorem key_ne_of_nodup (hnd : (ts.map Task.key).Nodup) {i j : Fin ts.length} (hij : j ≠ i) :
    (ts.get i).key ≠ (ts.get j).key := by
  intro heq
  apply hij
  apply List.nodup_iff_injective_get.mp hnd.of_map
  exact (List.inj_on_of_nodup_map hnd (ts.get_mem i) (ts.get_mem j) heq).symm

/-- Calls are for names of tasks only. -/
theorem Moves.calls_of_ne (hk : t.key ≠ k) (h : Moves t o d l d' l') :
    d'.calls.count k = d.calls.count k := by
  cases h with
  | call => simp [List.count_append, hk]
  | ends => rw [calls_finish]
  | _ => rfl

theorem keeps_alone (allowed : Outcome → Prop) (hnd : (ts.map Task.key).Nodup) (d : Disk τ) :
    Keeps (acts allowed ts)
      (fun d' : Disk τ => ∀ k ∉ ts.map Task.key, d'.calls.count k = d.calls.count k)
      (fun i => Alone (d.calls.count (ts.get i).key) (ts.get i)) where
  shared := by
    intro i s l s' l' hI _ hact k hk
    obtain ⟨o, _, hact⟩ := hact
    rw [← hI k hk]
    apply (moves_of_foo hact).calls_of_ne
    intro heq
    exact hk (heq ▸ List.mem_map_of_mem (ts.get_mem i))
  own := by
    intro i s l s' l' _ hA hact
    obtain ⟨o, _, hact⟩ := hact
    exact hA.moves (moves_of_foo hact)
  others := by
    intro i j s l s' l' m hij _ _ hA hact
    obtain ⟨o, _, hact⟩ := hact
    exact hA.sameFor ((moves_of_foo hact).sameFor (key_dotless _) (key_ne_of_nodup hnd hij))

/-- In every interleaving of tasks with different names. -/
theorem alone_of_run (hnd : (ts.map Task.key).Nodup) (hfree : ∀ t ∈ ts, d.taken t.key = false)
    {c : Pool τ ts} (h : Run (acts allowed ts) (start ts d) c) :
    (∀ k ∉ ts.map Task.key, c.shared.calls.count k = d.calls.count k) ∧
      ∀ i, Alone (d.calls.count (ts.get i).key) (ts.get i) c.shared (c.loc i) := by
  apply (keeps_alone allowed hnd d).run _ _ h
  · intro k _
    rfl
  · intro i
    exact ⟨fun _ => hfree _ (ts.get_mem i), nofun, rfl, nofun⟩

end Once

section Progress

variable {τ : Type} {allowed : Outcome → Prop} {ts : List Task} {workers : Nat} {c c' : Pool τ ts}

theorem PoolRun.run (h : PoolRun allowed ts workers c c') : Run (acts allowed ts) c c' :=
  Relation.ReflTransGen.mono (r := PoolStep allowed ts workers) (fun _ _ hstep => hstep.1) _ _ h

theorem PoolRun.of_schedule {sched : List (Fin ts.length × Outcome)}
    (hallowed : ∀ x ∈ sched, allowed x.2) (h : runSchedule ts workers sched c = some c') :
    PoolRun allowed ts workers c c' := by
  induction sched generalizing c with
  | nil =>
    obtain rfl := Option.some.inj h
    exact .refl
  | cons x rest ih =>
    obtain ⟨i, o⟩ := x
    obtain ⟨⟨d', l'⟩, hfoo, h⟩ := Option.bind_eq_some_iff.mp h
    by_cases hbusy : busy ts (c.set i d' l') ≤ workers
    · have hrest := (if_pos hbusy).symm.trans h
      have hstep : PoolStep allowed ts workers c (c.set i d' l') :=
        ⟨.mk c i d' l' ⟨o, hallowed _ List.mem_cons_self, hfoo⟩, hbusy⟩
      exact .head hstep (ih (fun x hx => hallowed x (List.mem_cons_of_mem _ hx)) hrest)
    · cases (if_neg hbusy).symm.trans h

theorem PoolRun.busy_le {d : Disk τ} (h : PoolRun allowed ts workers (start ts d) c) :
    busy ts c ≤ workers := by
  cases h with
  | refl =>
    have hzero : busy ts (start ts d) = 0 := by
      by_contra hpos
      obtain ⟨i, hi⟩ := number_pos.mp (Nat.pos_of_ne_zero hpos)
      cases hi
    omega
  | tail _ hstep => exact hstep.2

/-- Steps that are left of the function `foo`. -/
def Phase.left : Phase → Nat
  | .queued => 5
  | .noRundir => 4
  | .checked => 3
  | .made => 2
  | .running => 1
  | .finished _ => 0

theorem left_lt_of_acts (i : Fin ts.length) (d : Disk τ) (l : Phase) (d' : Disk τ) (l' : Phase)
    (h : acts allowed ts i d l d' l') : l'.left < l.left := by
  obtain ⟨o, _, h⟩ := h
  cases moves_of_foo h <;> decide

theorem exists_foo {l : Phase} (t : Task) (o : Outcome) (d : Disk τ) (h : l.left ≠ 0) :
    ∃ d' l', foo t o d l = some (d', l') := by
  cases l with
  | finished b => cases h rfl
  | _ => exact ⟨_, _, rfl⟩

/-- A pool that is not done has a task that can go on: one that is begun, or if there is none the
next one. -/
theorem exists_poolStep (hallowed : ∃ o, allowed o) (hworkers : 0 < workers)
    (hbusy : busy ts c ≤ workers) (hdone : ¬Done ts c) : ∃ c', PoolStep allowed ts workers c c' := by
  obtain ⟨o, ho⟩ := hallowed
  have hstep (i : Fin ts.length) (hi : (c.loc i).left ≠ 0)
      (hroom : ∀ d l, busy ts (c.set i d l) ≤ workers) : ∃ c', PoolStep allowed ts workers c c' := by
    obtain ⟨d', l', hfoo⟩ := exists_foo (ts.get i) o c.shared hi
    exact ⟨_, .mk c i d' l' ⟨o, ho, hfoo⟩, hroom d' l'⟩
  have hset (i : Fin ts.length) (d : Disk τ) (l : Phase) :
      busy ts (c.set i d l) + (c.loc i).active.toNat ≤ busy ts c + 1 := by
    have hnumber := number_set (p := fun _ l => l.active) c i d l
    have hone := Bool.toNat_le l.active
    unfold busy
    omega
  by_cases hactive : ∃ i, (c.loc i).active = true
  · obtain ⟨i, hi⟩ := hactive
    apply hstep i
    · intro hzero
      cases hl : c.loc i <;> simp_all [Phase.active, Phase.left]
    · intro d l
      have hnumber := hset i d l
      rw [hi] at hnumber
      simp only [Bool.toNat_true] at hnumber
      omega
  · have hnone : busy ts c = 0 := by
      by_contra hpos
      exact hactive (number_pos.mp (Nat.pos_of_ne_zero hpos))
    unfold Done at hdone
    push Not at hdone
    obtain ⟨i, hi⟩ := hdone
    apply hstep i
    · intro hzero
      cases hl : c.loc i <;> simp_all [Phase.left]
    · intro d l
      have hnumber := hset i d l
      omega

/-- A pool can always be brought to its end. -/
theorem exists_done (hallowed : ∃ o, allowed o) (hworkers : 0 < workers) (c : Pool τ ts)
    (hbusy : busy ts c ≤ workers) : ∃ c', PoolRun allowed ts workers c c' ∧ Done ts c' := by
  by_cases hdone : Done ts c
  · exact ⟨c, .refl, hdone⟩
  · obtain ⟨mid, hstep⟩ := exists_poolStep hallowed hworkers hbusy hdone
    have hless := hstep.1.sum_rank_lt left_lt_of_acts
    obtain ⟨c', hrun, hdone⟩ := exists_done hallowed hworkers mid hstep.2
    exact ⟨c', .head hstep hrun, hdone⟩
termination_by ∑ i, (c.loc i).left

/-- A directory is worked off in every interleaving of the workers: none goes on for ever or gets
stuck, no file is taken twice, and in the end the model checker has been called once for each file
that had no results. -/
theorem batch_calls_each_once (hallowed : ∃ o, allowed o) (hworkers : 0 < workers) (d : Disk τ)
    (pairs : List (Name × Name)) (hnd : ((tasks d pairs).map Task.key).Nodup) :
    (∀ f : Nat → Pool τ (tasks d pairs),
      ¬∀ t, PoolStep allowed (tasks d pairs) workers (f t) (f (t + 1))) ∧
    ∀ c, PoolRun allowed (tasks d pairs) workers (start (tasks d pairs) d) c →
      (∀ k, c.shared.calls.count k ≤
        d.calls.count k + if k ∈ (tasks d pairs).map Task.key then 1 else 0) ∧
      (Done (tasks d pairs) c ∨ ∃ c', PoolStep allowed (tasks d pairs) workers c c') ∧
      (Done (tasks d pairs) c → ∀ k, c.shared.calls.count k =
        d.calls.count k + if k ∈ (tasks d pairs).map Task.key then 1 else 0) := by
  constructor
  · intro f hf
    exact no_endless_run left_lt_of_acts f fun t => (hf t).1
  · intro c hrun
    obtain ⟨hother, halone⟩ := alone_of_run hnd (fun t => not_taken_of_mem_tasks) hrun.run
    have hcount (k : Key) (hk : k ∈ (tasks d pairs).map Task.key) : ∃ i,
        c.shared.calls.count k = d.calls.count k + (c.loc i).called.toNat := by
      obtain ⟨t, ht, rfl⟩ := List.mem_map.mp hk
      obtain ⟨i, rfl⟩ := List.get_of_mem ht
      exact ⟨i, (halone i).calls⟩
    refine ⟨?_, ?_, ?_⟩
    · intro k
      split
      · obtain ⟨i, hi⟩ := hcount k ‹_›
        have hone := Bool.toNat_le (c.loc i).called
        omega
      · exact (hother k ‹_›).le
    · by_cases hdone : Done (tasks d pairs) c
      · exact .inl hdone
      · exact .inr (exists_poolStep hallowed hworkers hrun.busy_le hdone)
    · intro hdone k
      split
      · obtain ⟨i, hi⟩ := hcount k ‹_›
        obtain ⟨called, hloc⟩ := hdone i
        have hkept := (halone i).kept
        rw [hloc] at hi hkept
        cases called with
        | false => cases hkept rfl
        | true => exact hi
      · exact hother k ‹_›

/-- Two property files without results and one whose run was begun before. -/
def threeFiles : Disk Unit where
  sv := [(⟨['o'], "0_g.sv".toList⟩, ()), (⟨['o'], "1_g.sv".toList⟩, ()),
    (⟨['o'], "1_ADD.sv".toList⟩, ())]
  rundir := [⟨['j'], "1_g".toList⟩]
  csv := []
  calls := []

theorem three_files_calls_each_once :
    (tasks threeFiles [(['j'], ['o'])]).map Task.key =
      [⟨['j'], "0_g".toList⟩, ⟨['j'], "1_ADD".toList⟩] ∧
    ∀ c, PoolRun (fun _ => True) (tasks threeFiles [(['j'], ['o'])]) 3
        (start (tasks threeFiles [(['j'], ['o'])]) threeFiles) c →
      Done (tasks threeFiles [(['j'], ['o'])]) c →
        ∀ k, c.shared.calls.count k = threeFiles.calls.count k +
          if k ∈ (tasks threeFiles [(['j'], ['o'])]).map Task.key then 1 else 0 := by
  refine ⟨by decide, ?_⟩
  intro c hrun hdone
  have hallowed : ∃ o : Outcome, (fun _ => True) o := ⟨.reported, trivial⟩
  have h := batch_calls_each_once hallowed (by decide : 0 < 3) threeFiles [(['j'], ['o'])] (by decide)
  exact (h.2 c hrun).2.2 hdone

end Progress

end BatchRun

end SynthLC
