import SynthLC.PruningUfsm

/-! `dyn_step1.py`, `dyn_step2.py` and `dyn_step3.py`: the taint queries of one decision source,
first for pairs of groups, then for the pairs of instructions of the covered ones, then for each
operand. After each step the generated files are run, and the next step reads the verdicts. -/
namespace SynthLC

namespace Dyn

/-- The define that says which operands are tainted: `BORTHRS`, `RS1` or `RS2`. -/
inductive Taint where
  | both | rs1 | rs2
  deriving DecidableEq

def ofOperand : Operand → Taint
  | .rs1 => .rs1
  | .rs2 => .rs2

/-- What constrains an instruction word: a group's file or an instruction's. -/
inductive Side where
  | group (id : Nat)
  | instn (i : Instn)
  deriving DecidableEq

/-- Terms of `TT0`: `transform_iso_t0` of a class, or `transform_iso_t0_neg` with the source. -/
inductive TaintTerm where
  | active (pl : String)
  | neg (pl decisionSrc : String)
  deriving DecidableEq

/-- The decision a query is about. A sign stands before each class of `FOLLOWERSET`. -/
structure Decision where
  decnode : String
  followerset : List (Bool × String)
  t0 : List TaintTerm
  deriving DecidableEq

/-- One cover, with the constraints on the two instruction words. -/
structure Body where
  i0 : Side
  i1 : Side
  decision : Decision
  deriving DecidableEq

inductive PropName where
  | field (f : OpField) (cnt : Nat)
  | pair (ip it : Instn)
  deriving DecidableEq

/-- Files by the directory of their group's field. -/
inductive FileName where
  | group (f : OpField) (id cnt : Nat)
  | intragp (f : OpField) (id cnt : Nat)
  | perfield (f : OpField) (cnt : Nat) (op : Operand)
  deriving DecidableEq

structure SvFile where
  taint : Taint
  props : List (PropName × Body)

abbrev FS := List (FileName × SvFile)

def write (fs : FS) (n : FileName) (f : SvFile) : FS := Dict.upsert n (fun _ => f) f fs

/-- What the scripts are called with: the transponder group, the decision source with its follower
sets, the groups of transmitters, and the files of the pruning. No instruction is in two groups. -/
structure Setup where
  ipId : Nat
  ipInstns : List Instn
  decisionSrc : String
  uniqPl : List String
  cntFollowerSets : List (Nat × List String)
  groups : List Group
  xPruning : PruningUfsm.Files
  intrinRes : Bits
  ip_ne : ipInstns ≠ []
  ip_nodup : ipInstns.Nodup
  cnt_nodup : (cntFollowerSets.map Prod.fst).Nodup
  id_nodup : (groups.map Group.id).Nodup
  instns_ne : ∀ g ∈ groups, g.instns ≠ []
  instns_nodup : (groups.flatMap Group.instns).Nodup

/-- The texts `followerset` and `t0`, which all three steps put together in the same way. -/
def Setup.decision (s : Setup) (afset : List String) : Decision where
  decnode := s.decisionSrc
  followerset :=
    (if s.decisionSrc ∈ afset then [] else [(false, s.decisionSrc)]) ++
      (s.uniqPl.filter (· ≠ "")).map fun eachN => (decide (eachN ∈ afset), eachN)
  t0 :=
    if afset = [] then (s.uniqPl.filter (· ≠ "")).map (.neg · s.decisionSrc)
    else afset.map .active

/-- `DEFINEOPTAINT` -/
def defineOpTaint : OpField → Taint
  | .rs1 => .rs1
  | _ => .both

def hasField (g : Group) : Bool := decide (g.field ≠ .none)

section Steps

variable (s : Setup) (cov : Taint → Body → Bool)

/-- `df_query`: the verdict of a property, which has to have exactly one row. -/
def query (f : SvFile) (p : PropName) : Option Bool :=
  match f.props.filter (·.1 = p) with
  | [x] => some (cov f.taint x.2)
  | _ => none

/-- A verdict from the CSV of a generated file. -/
def readCsv (ran : FS) (n : FileName) (p : PropName) : Option Bool :=
  (ran.lookup n).bind fun f => query cov f p

/-- The loops over follower sets and groups; a group without operands is passed over. -/
def Setup.todo : List ((Nat × List String) × Group) :=
  s.cntFollowerSets.flatMap fun x => (s.groups.filter hasField).map fun g => (x, g)

/-- `itertools.product(i_p_instns, t_instns)` -/
def Setup.allPairs (g : Group) : List (Instn × Instn) := s.ipInstns.product g.instns

/-- `{groupid}_{ID}.sv` -/
def groupName (x : (Nat × List String) × Group) : FileName := .group x.2.field x.2.id x.1.1

/-- `{groupid}_{ID}_intragp.sv` -/
def intragpName (x : (Nat × List String) × Group) : FileName := .intragp x.2.field x.2.id x.1.1

def groupSvFile (x : (Nat × List String) × Group) : SvFile where
  taint := defineOpTaint x.2.field
  props := [(.field x.2.field x.1.1, ⟨.group s.ipId, .group x.2.id, s.decision x.1.2⟩)]

def dynStep1Proc : FS :=
  s.todo.foldl (fun fs x => write fs (groupName x) (groupSvFile s x)) []

/-- `get_i_constraint`: every line of the file has to be an assumption. -/
def getIConstraint (inst : Instn) : Option (List BitField.Test) :=
  (Opcodes.opcodesGenAll inst).mapM Opcodes.Line.test?

def pairBody (afset : List String) (p : Instn × Instn) : Body :=
  ⟨.instn p.1, .instn p.2, s.decision afset⟩

def pairProp (afset : List String) (p : Instn × Instn) : Option (PropName × Body) := do
  let _ ← getIConstraint p.1
  let _ ← getIConstraint p.2
  pure (.pair p.1 p.2, pairBody s afset p)

def step2 (ran fs : FS) (x : (Nat × List String) × Group) : Option FS := do
  let res ← readCsv cov ran (groupName x) (.field x.2.field x.1.1)
  if res then
    let props ← (s.allPairs x.2).mapM (pairProp s x.1.2)
    pure (write fs (intragpName x) ⟨defineOpTaint x.2.field, props⟩)
  else pure fs

def dynStep2Proc (ran : FS) : Option FS := s.todo.foldlM (step2 s cov ran) ran

def stores : List Instn := [.SW, .SB, .SD, .SH]

/-- The skip of a store, asserted to be for `rs2` only. -/
def skipStore (afset : List String) (it : Instn) : Option Unit := do
  let skip ← PruningUfsm.skipUfsmBased s.xPruning [it] (if afset = [] then s.uniqPl else afset)
  if skip = ⟨false, true⟩ then pure () else none

/-- `header.replace("BORTHRS", ...)` -/
def perOperand (op : Operand) : Taint → Taint
  | .both => ofOperand op
  | t => t

/-- The files of the current follower set, and whether their handles are open. -/
structure Step3 where
  fs : FS
  opened : Bool

def openFiles (f : OpField) (cnt : Nat) (org : SvFile) (fs : FS) : FS :=
  write (write fs (.perfield f cnt .rs1) ⟨perOperand .rs1 org.taint, []⟩)
    (.perfield f cnt .rs2) ⟨perOperand .rs2 org.taint, []⟩

def appendProp (n : FileName) (x : PropName × Body) (fs : FS) : FS :=
  Dict.upsert n (fun f => { f with props := f.props ++ [x] }) ⟨.both, [x]⟩ fs

def appendProps (f : OpField) (cnt : Nat) (x : PropName × Body) (fs : FS) : FS :=
  appendProp (.perfield f cnt .rs2) x (appendProp (.perfield f cnt .rs1) x fs)

def step3Pair (x : Nat × List String) (g : Group) (org : SvFile) (st : Step3)
    (p : Instn × Instn) : Option Step3 := do
  let res ← query cov org (.pair p.1 p.2)
  if res ∧ g.field ≠ .rs1 then
    if p.2 ∈ stores then do
      skipStore s x.2 p.2
      pure st
    else
      let fs := if st.opened then st.fs else openFiles g.field x.1 org st.fs
      let body ← org.props.lookup (.pair p.1 p.2)
      pure ⟨appendProps g.field x.1 (.pair p.1 p.2, body) fs, true⟩
  else pure st

def step3Group (ran : FS) (x : Nat × List String) (st : Step3) (g : Group) : Option Step3 := do
  let res ← readCsv cov ran (groupName (x, g)) (.field g.field x.1)
  if res then
    let org ← ran.lookup (intragpName (x, g))
    (s.allPairs g).foldlM (step3Pair s cov x g org) st
  else pure st

def step3Set (ran fs : FS) (x : Nat × List String) : Option FS := do
  let st ← (s.groups.filter hasField).foldlM (step3Group s cov ran x) ⟨fs, false⟩
  pure st.fs

def dynStep3Proc (ran : FS) : Option FS := s.cntFollowerSets.foldlM (step3Set s cov ran) ran

end Steps

/-- The model checker: a group is covered if and only if some pair of its members is, both operands
together if and only if one of them is, a store never through `rs2`, and nothing where no location
is asked for taint (`TT0` is `|{1'b0}`). The pruning has recorded `1,0` for the stores. -/
structure Oracle (s : Setup) where
  covered : Taint → Body → Bool
  group_iff : ∀ g ∈ s.groups, ∀ taint d, covered taint ⟨.group s.ipId, .group g.id, d⟩ = true ↔
    ∃ ip ∈ s.ipInstns, ∃ it ∈ g.instns, covered taint ⟨.instn ip, .instn it, d⟩ = true
  both_iff : ∀ ip it d, covered .both ⟨.instn ip, .instn it, d⟩ = true ↔
    covered .rs1 ⟨.instn ip, .instn it, d⟩ = true ∨ covered .rs2 ⟨.instn ip, .instn it, d⟩ = true
  store_rs2 : ∀ ip d, ∀ it ∈ stores, covered .rs2 ⟨.instn ip, .instn it, d⟩ = false
  untainted : ∀ taint b, b.decision.t0 = [] → covered taint b = false
  pruned : ∀ it ∈ stores, ∃ rows, s.xPruning.lookup it = some rows ∧
    ∀ pl, pl ∈ s.uniqPl ∨ (∃ x ∈ s.cntFollowerSets, pl ∈ x.2) → rows.lookup pl = some ⟨true, false⟩

section Pairs

variable {s : Setup} {g g' : Group} {x x' : Nat × List String} {p : Instn × Instn}

theorem mem_todo : (x, g) ∈ s.todo ↔ x ∈ s.cntFollowerSets ∧ g ∈ s.groups ∧ g.field ≠ .none := by
  simp [Setup.todo, hasField]

theorem mem_allPairs : p ∈ s.allPairs g ↔ p.1 ∈ s.ipInstns ∧ p.2 ∈ g.instns := by
  obtain ⟨ip, it⟩ := p
  exact List.pair_mem_product

theorem Setup.instns_nodup_of_mem (s : Setup) (hg : g ∈ s.groups) : g.instns.Nodup :=
  (List.nodup_flatMap.mp s.instns_nodup).1 g hg

theorem nodup_allPairs (hg : g ∈ s.groups) : (s.allPairs g).Nodup :=
  s.ip_nodup.product (s.instns_nodup_of_mem hg)

theorem eq_of_id (hg : g ∈ s.groups) (hg' : g' ∈ s.groups) (h : g.id = g'.id) : g = g' :=
  List.inj_on_of_nodup_map s.id_nodup hg hg' h

theorem eq_of_cnt (hx : x ∈ s.cntFollowerSets) (hx' : x' ∈ s.cntFollowerSets) (h : x.1 = x'.1) :
    x = x' :=
  List.inj_on_of_nodup_map s.cnt_nodup hx hx' h

/-- A property written once has its verdict. -/
theorem query_map (cov : Taint → Body → Bool) (taint : Taint) (body : Instn × Instn → Body)
    {ps : List (Instn × Instn)} (hnd : ps.Nodup) (hp : p ∈ ps) :
    query cov ⟨taint, ps.map fun p => (.pair p.1 p.2, body p)⟩ (.pair p.1 p.2) =
      some (cov taint (body p)) := by
  have hone : (ps.map fun p => (PropName.pair p.1 p.2, body p)).filter
      (·.1 = .pair p.1 p.2) = [(.pair p.1 p.2, body p)] := by
    have hfilter : ps.filter (fun q => decide (PropName.pair q.1 q.2 = .pair p.1 p.2)) = [p] := by
      have heq : (fun q : Instn × Instn => decide (PropName.pair q.1 q.2 = .pair p.1 p.2)) =
          fun q => decide (q = p) := by
        funext q
        simp [Prod.ext_iff]
      rw [heq, List.filter_eq, List.count_eq_one_of_mem hnd hp]
      rfl
    rw [List.filter_map]
    exact congrArg (List.map _) hfilter
  unfold query
  rw [hone]

end Pairs

section Generated

variable {s : Setup} {cov : Taint → Body → Bool} {g : Group} {x : Nat × List String} {fs ran : FS}

/-- The verdict of a group query. -/
def groupCov (s : Setup) (cov : Taint → Body → Bool) (x : (Nat × List String) × Group) : Bool :=
  cov (defineOpTaint x.2.field) ⟨.group s.ipId, .group x.2.id, s.decision x.1.2⟩

/-- What the first step leaves: a file for each job, and none for an id that is not listed. -/
structure Step1Done (s : Setup) (fs : FS) : Prop where
  group : ∀ x ∈ s.todo, fs.lookup (groupName x) = some (groupSvFile s x)
  listed : ∀ f id cnt file, fs.lookup (.group f id cnt) = some file → ∃ g ∈ s.groups, g.id = id

theorem step1Done (s : Setup) : Step1Done s (dynStep1Proc s) := by
  constructor
  · intro x hx
    apply Dict.lookup_foldl_set groupName (groupSvFile s) hx
    intro y hy hkey
    obtain ⟨hx1, hg, _⟩ := mem_todo.mp hx
    obtain ⟨hy1, hg', _⟩ := mem_todo.mp hy
    injection hkey with _ hid hcnt
    rw [show y = x from Prod.ext (eq_of_cnt hy1 hx1 hcnt) (eq_of_id hg' hg hid)]
  · intro f id cnt file hfile
    by_contra hno
    have hnone : (dynStep1Proc s).lookup (.group f id cnt) = none := by
      apply Dict.lookup_foldl_set_of_ne groupName (groupSvFile s)
      intro y hy hkey
      injection hkey with _ hid _
      exact hno ⟨y.2, (mem_todo.mp hy).2.1, hid⟩
    rw [hnone] at hfile
    cases hfile

theorem Step1Done.readCsv (h : Step1Done s fs) {x : (Nat × List String) × Group} (hx : x ∈ s.todo) :
    readCsv cov fs (groupName x) (.field x.2.field x.1.1) =
      some (groupCov s cov x) := by
  rw [Dyn.readCsv, h.group x hx]
  simp [query, groupSvFile, groupCov]

/-- Names of the first step's files keep their content where only other files are written. -/
theorem Step1Done.congr (h : Step1Done s ran)
    (hsame : ∀ f id cnt, fs.lookup (.group f id cnt) = ran.lookup (.group f id cnt)) :
    Step1Done s fs := by
  constructor
  · intro x hx
    rw [groupName, hsame]
    exact h.group x hx
  · intro f id cnt file hfile
    rw [hsame] at hfile
    exact h.listed f id cnt file hfile

/-- Every file `get_i_constraint` is asked for has nothing but assumptions. -/
def OpcodesPlain (s : Setup) (cov : Taint → Body → Bool) : Prop :=
  ∀ x ∈ s.todo, groupCov s cov x = true → ∀ i ∈ s.ipInstns ++ x.2.instns,
    ∀ line ∈ Opcodes.opcodesGenAll i, ∃ t, line = .assume t

theorem getIConstraint_iff {i : Instn} : (∃ ts, getIConstraint i = some ts) ↔
    ∀ line ∈ Opcodes.opcodesGenAll i, ∃ t, line = .assume t := by
  unfold getIConstraint
  rw [Loop.exists_mapM]
  apply forall₂_congr
  intro line _
  cases line <;> simp [Opcodes.Line.test?]

theorem pairProp_eq {afset : List String} {p : Instn × Instn}
    (h1 : ∃ ts, getIConstraint p.1 = some ts) (h2 : ∃ ts, getIConstraint p.2 = some ts) :
    pairProp s afset p = some (.pair p.1 p.2, pairBody s afset p) := by
  obtain ⟨ts1, h1⟩ := h1
  obtain ⟨ts2, h2⟩ := h2
  simp [pairProp, h1, h2]

/-- The file of a covered job, one property for each pair. -/
def pairFile (s : Setup) (x : (Nat × List String) × Group) : SvFile :=
  ⟨defineOpTaint x.2.field,
    (s.allPairs x.2).map fun p => (.pair p.1 p.2, pairBody s x.1.2 p)⟩

theorem step2_eq (h : Step1Done s ran) (hplain : OpcodesPlain s cov) (fs : FS)
    (x : (Nat × List String) × Group) (hx : x ∈ s.todo) : step2 s cov ran fs x =
      some (if groupCov s cov x then write fs (intragpName x) (pairFile s x)
        else fs) := by
  unfold step2
  rw [h.readCsv hx]
  cases hcov : groupCov s cov x with
  | false => rfl
  | true =>
    have hprops : (s.allPairs x.2).mapM (pairProp s x.1.2) =
        some ((s.allPairs x.2).map fun p => (.pair p.1 p.2, pairBody s x.1.2 p)) := by
      apply Loop.mapM_eq_map
      intro p hp
      obtain ⟨hp1, hp2⟩ := mem_allPairs.mp hp
      have hfile := hplain x hx hcov
      apply pairProp_eq
      · exact getIConstraint_iff.mpr (hfile p.1 (List.mem_append_left _ hp1))
      · exact getIConstraint_iff.mpr (hfile p.2 (List.mem_append_right _ hp2))
    simp [hprops, pairFile]

/-- The second step ends only if it could read all the constraints it needs. -/
theorem opcodesPlain_of_step2 (h : Step1Done s ran) (hrun : dynStep2Proc s cov ran = some fs) :
    OpcodesPlain s cov := by
  intro x hx hcov i hi
  obtain ⟨_, hg, _⟩ := mem_todo.mp hx
  obtain ⟨a, b, hstep⟩ := Loop.step_of_foldlM hrun hx
  unfold step2 at hstep
  obtain ⟨res, hres, hstep⟩ := Option.bind_eq_some_iff.mp hstep
  rw [h.readCsv hx, hcov] at hres
  obtain rfl := Option.some.inj hres
  obtain ⟨props, hprops, _⟩ := Option.bind_eq_some_iff.mp hstep
  have hpair (p : Instn × Instn) (hp : p ∈ s.allPairs x.2) :
      (∃ ts, getIConstraint p.1 = some ts) ∧ ∃ ts, getIConstraint p.2 = some ts := by
    obtain ⟨y, hy⟩ := Loop.exists_mapM.mp ⟨props, hprops⟩ p hp
    obtain ⟨ts1, h1, hy⟩ := Option.bind_eq_some_iff.mp hy
    obtain ⟨ts2, h2, _⟩ := Option.bind_eq_some_iff.mp hy
    exact ⟨⟨ts1, h1⟩, ts2, h2⟩
  obtain ⟨ip, hip⟩ := List.exists_mem_of_ne_nil _ s.ip_ne
  obtain ⟨it, hit⟩ := List.exists_mem_of_ne_nil _ (s.instns_ne x.2 hg)
  apply getIConstraint_iff.mp
  rcases List.mem_append.mp hi with hi | hi
  · exact (hpair (i, it) (mem_allPairs.mpr ⟨hi, hit⟩)).1
  · exact (hpair (ip, i) (mem_allPairs.mpr ⟨hip, hi⟩)).2

/-- What the second step leaves in addition: the pairs of each covered job. -/
structure Step2Done (s : Setup) (cov : Taint → Body → Bool) (fs : FS) : Prop extends
    Step1Done s fs where
  intragp : ∀ x ∈ s.todo, groupCov s cov x = true →
    fs.lookup (intragpName x) = some (pairFile s x)

theorem step2Done (h : Step1Done s ran) (hplain : OpcodesPlain s cov) :
    ∃ fs, dynStep2Proc s cov ran = some fs ∧ Step2Done s cov fs := by
  have hrun : dynStep2Proc s cov ran = some ((s.todo.filter (groupCov s cov)).foldl
      (fun fs x => write fs (intragpName x) (pairFile s x)) ran) := by
    rw [dynStep2Proc, Loop.foldlM_eq_foldl (step2_eq h hplain), List.foldl_filter]
  refine ⟨_, hrun, h.congr ?_, ?_⟩
  · intro f id cnt
    apply Dict.lookup_foldl_set_of_ne intragpName (pairFile s)
    intro y _ hkey
    cases hkey
  · intro x hx hcov
    apply Dict.lookup_foldl_set intragpName (pairFile s) (List.mem_filter.mpr ⟨hx, hcov⟩)
    intro y hy hkey
    obtain ⟨hx1, hg, _⟩ := mem_todo.mp hx
    obtain ⟨hy1, hg', _⟩ := mem_todo.mp (List.mem_filter.mp hy).1
    injection hkey with _ hid hcnt
    rw [show y = x from Prod.ext (eq_of_cnt hy1 hx1 hcnt) (eq_of_id hg' hg hid)]

end Generated

section PerOperand

variable {s : Setup} {g : Group} {x : Nat × List String} {p : Instn × Instn} {f : OpField}
  {cnt : Nat} {fs fs' ran : FS} {n : FileName}

theorem lookup_openFiles {org : SvFile} (op : Operand) :
    (openFiles f cnt org fs).lookup (.perfield f cnt op) = some ⟨perOperand op org.taint, []⟩ := by
  unfold openFiles write
  cases op <;> simp [Dict.lookup_set]

theorem lookup_openFiles_of_ne {org : SvFile} (hn : ∀ op, n ≠ .perfield f cnt op) :
    (openFiles f cnt org fs).lookup n = fs.lookup n := by
  unfold openFiles write
  rw [Dict.lookup_set, Dict.lookup_set, if_neg (hn .rs2), if_neg (hn .rs1)]

theorem lookup_appendProps {prop : PropName × Body} {taint : Operand → Taint}
    {props : List (PropName × Body)}
    (h : ∀ op, fs.lookup (.perfield f cnt op) = some ⟨taint op, props⟩) (op : Operand) :
    (appendProps f cnt prop fs).lookup (.perfield f cnt op) = some ⟨taint op, props ++ [prop]⟩ := by
  unfold appendProps appendProp
  cases op <;> simp [Dict.lookup_upsert, h]

theorem lookup_appendProps_of_ne {prop : PropName × Body} (hn : ∀ op, n ≠ .perfield f cnt op) :
    (appendProps f cnt prop fs).lookup n = fs.lookup n := by
  unfold appendProps appendProp
  rw [Dict.lookup_upsert, if_neg (hn .rs2), Dict.lookup_upsert, if_neg (hn .rs1)]

/-- What is written for some pairs. -/
def propsOf (s : Setup) (afset : List String) (ps : List (Instn × Instn)) :
    List (PropName × Body) :=
  ps.map fun p => (.pair p.1 p.2, pairBody s afset p)

/-- The state of the third step for one follower set, once the given pairs are written. -/
structure Collected (s : Setup) (x : Nat × List String) (fs : FS) (acc : List (Instn × Instn))
    (st : Step3) : Prop where
  opened : st.opened = true ↔ acc ≠ []
  files : acc ≠ [] → ∀ op, st.fs.lookup (.perfield .rs1rs2 x.1 op) =
    some ⟨ofOperand op, propsOf s x.2 acc⟩
  frame : ∀ n, (∀ op, n ≠ .perfield .rs1rs2 x.1 op) → st.fs.lookup n = fs.lookup n

theorem Collected.append {acc : List (Instn × Instn)} {st : Step3} {org : SvFile}
    (h : Collected s x fs acc st) (horg : org.taint = .both) (p : Instn × Instn) :
    Collected s x fs (acc ++ [p]) ⟨appendProps .rs1rs2 x.1 (.pair p.1 p.2, pairBody s x.2 p)
      (if st.opened then st.fs else openFiles .rs1rs2 x.1 org st.fs), true⟩ := by
  have hfile (op : Operand) : (if st.opened then st.fs else openFiles .rs1rs2 x.1 org st.fs).lookup
      (.perfield .rs1rs2 x.1 op) = some ⟨ofOperand op, propsOf s x.2 acc⟩ := by
    split_ifs with hopen
    · exact h.files (h.opened.mp hopen) op
    · have hacc : acc = [] := by
        by_contra hne
        exact hopen (h.opened.mpr hne)
      rw [lookup_openFiles, horg, hacc]
      rfl
  constructor
  · simp
  · intro _ op
    rw [lookup_appendProps hfile, propsOf, propsOf, List.map_append]
    rfl
  · intro n hn
    rw [lookup_appendProps_of_ne hn]
    split_ifs
    · exact h.frame n hn
    · rw [lookup_openFiles_of_ne hn, h.frame n hn]

/-- A store whose pair is covered has a class to look at, and the pruning skips `rs2` only. -/
theorem skipStore_eq (o : Oracle s) (hx : x ∈ s.cntFollowerSets) (hit : p.2 ∈ stores)
    (hcov : o.covered .both (pairBody s x.2 p) = true) : skipStore s x.2 p.2 = some () := by
  have ht0 : (s.decision x.2).t0 ≠ [] := by
    intro hnil
    rw [o.untainted .both (pairBody s x.2 p) hnil] at hcov
    cases hcov
  obtain ⟨rows, hrows, hpruned⟩ := o.pruned p.2 hit
  have hskip : PruningUfsm.skipUfsmBased s.xPruning [p.2] (if x.2 = [] then s.uniqPl else x.2) =
      some ⟨false, true⟩ := by
    by_cases hafset : x.2 = []
    · rw [if_pos hafset]
      apply PruningUfsm.skipUfsmBased_of_rows hrows
      · intro huniq
        apply ht0
        simp [Setup.decision, hafset, huniq]
      · intro pl hpl
        exact hpruned pl (.inl hpl)
    · rw [if_neg hafset]
      apply PruningUfsm.skipUfsmBased_of_rows hrows hafset
      intro pl hpl
      exact hpruned pl (.inr ⟨x, hx, hpl⟩)
  unfold skipStore
  rw [hskip]
  rfl

/-- Pairs that are asked about operand by operand. -/
def wantsOperands (s : Setup) (cov : Taint → Body → Bool) (x : Nat × List String) (g : Group)
    (p : Instn × Instn) : Bool :=
  decide (g.field = .rs1rs2 ∧ p.2 ∉ stores) && cov .both (pairBody s x.2 p)

def wanted (s : Setup) (cov : Taint → Body → Bool) (x : Nat × List String) (g : Group) :
    List (Instn × Instn) :=
  if groupCov s cov (x, g) then (s.allPairs g).filter (wantsOperands s cov x g) else []

theorem query_pairFile {cov : Taint → Body → Bool} (hg : g ∈ s.groups) (hp : p ∈ s.allPairs g) :
    query cov (pairFile s (x, g)) (.pair p.1 p.2) =
      some (cov (defineOpTaint g.field) (pairBody s x.2 p)) :=
  query_map cov _ (pairBody s x.2) (nodup_allPairs hg) hp

theorem lookup_pairFile (hg : g ∈ s.groups) (hp : p ∈ s.allPairs g) :
    (pairFile s (x, g)).props.lookup (.pair p.1 p.2) = some (pairBody s x.2 p) := by
  have hkeys : ((pairFile s (x, g)).props.map Prod.fst).Nodup := by
    rw [pairFile, List.map_map]
    apply (nodup_allPairs hg).map
    intro q q' hq
    injection hq with h1 h2
    exact Prod.ext h1 h2
  apply (Dict.mem_iff_lookup hkeys).mp
  exact List.mem_map.mpr ⟨p, hp, rfl⟩

theorem step3Pair_spec (o : Oracle s) (hx : x ∈ s.cntFollowerSets) (hg : g ∈ s.groups)
    (hfield : g.field ≠ .none) (hp : p ∈ s.allPairs g) {acc : List (Instn × Instn)} {st : Step3}
    (h : Collected s x fs acc st) :
    ∃ st', step3Pair s o.covered x g (pairFile s (x, g)) st p = some st' ∧
      Collected s x fs (acc ++ [p].filter (wantsOperands s o.covered x g)) st' := by
  unfold step3Pair
  rw [query_pairFile hg hp]
  cases hf : g.field with
  | none => exact absurd hf hfield
  | rs1 =>
    have hno : wantsOperands s o.covered x g p = false := by simp [wantsOperands, hf]
    exact ⟨st, by simp, by simpa [hno] using h⟩
  | rs1rs2 =>
    cases hcov : o.covered .both (pairBody s x.2 p) with
    | false =>
      have hno : wantsOperands s o.covered x g p = false := by simp [wantsOperands, hcov]
      exact ⟨st, by simp [defineOpTaint, hcov], by simpa [hno] using h⟩
    | true =>
      by_cases hstore : p.2 ∈ stores
      · have hno : wantsOperands s o.covered x g p = false := by simp [wantsOperands, hstore]
        refine ⟨st, ?_, by simpa [hno] using h⟩
        simp [defineOpTaint, hcov, hstore, skipStore_eq o hx hstore hcov]
      · have hyes : wantsOperands s o.covered x g p = true := by
          simp [wantsOperands, hf, hstore, hcov]
        have horg : (pairFile s (x, g)).taint = .both := by simp [pairFile, hf, defineOpTaint]
        refine ⟨_, ?_, by simpa [hyes] using h.append horg p⟩
        simp [defineOpTaint, hcov, hstore, lookup_pairFile hg hp]

theorem step3Group_spec (o : Oracle s) (hran : Step2Done s o.covered ran)
    (hx : x ∈ s.cntFollowerSets) (hg : g ∈ s.groups) (hfield : g.field ≠ .none)
    {acc : List (Instn × Instn)} {st : Step3} (h : Collected s x fs acc st) :
    ∃ st', step3Group s o.covered ran x st g = some st' ∧
      Collected s x fs (acc ++ wanted s o.covered x g) st' := by
  have hjob : (x, g) ∈ s.todo := mem_todo.mpr ⟨hx, hg, hfield⟩
  have hcsv : readCsv o.covered ran (groupName (x, g)) (.field g.field x.1) =
      some (groupCov s o.covered (x, g)) := hran.readCsv hjob
  unfold step3Group wanted
  cases hcov : groupCov s o.covered (x, g) with
  | false =>
    rw [hcov] at hcsv
    exact ⟨st, by simp [hcsv], by simpa using h⟩
  | true =>
    rw [hcov] at hcsv
    obtain ⟨st', hrun, hend⟩ := Loop.foldlM_collects (I := Collected s x fs)
      (fun acc st hst p hp => step3Pair_spec o hx hg hfield hp hst) h
    refine ⟨st', ?_, ?_⟩
    · simpa [hcsv, hran.intragp (x, g) hjob hcov] using hrun
    · rw [← List.filter_flatMap, List.flatMap_singleton'] at hend
      exact hend

/-- All pairs of a follower set that are asked about operand by operand, in the order of the file. -/
def wantedAll (s : Setup) (cov : Taint → Body → Bool) (x : Nat × List String) :
    List (Instn × Instn) :=
  (s.groups.filter hasField).flatMap (wanted s cov x)

theorem mem_allPairs_of_wanted {cov : Taint → Body → Bool} (hp : p ∈ wanted s cov x g) :
    p ∈ s.allPairs g := by
  unfold wanted at hp
  split_ifs at hp
  · exact (List.mem_filter.mp hp).1
  · cases hp

theorem nodup_wantedAll {cov : Taint → Body → Bool} : (wantedAll s cov x).Nodup := by
  apply List.nodup_flatMap.mpr
  constructor
  · intro g hg
    unfold wanted
    split_ifs
    · exact (nodup_allPairs (List.mem_filter.mp hg).1).filter _
    · exact List.nodup_nil
  · have hdisjoint := (List.nodup_flatMap.mp s.instns_nodup).2
    apply (hdisjoint.sublist List.filter_sublist).imp
    intro g g' hgg' p hp hp'
    have hit := (mem_allPairs.mp (mem_allPairs_of_wanted hp)).2
    have hit' := (mem_allPairs.mp (mem_allPairs_of_wanted hp')).2
    exact hgg' hit hit'

theorem step3Set_spec (o : Oracle s) (hran : Step2Done s o.covered ran)
    (hx : x ∈ s.cntFollowerSets) (fs : FS) : ∃ st, step3Set s o.covered ran fs x = some st.fs ∧
      Collected s x fs (wantedAll s o.covered x) st := by
  have hstart : Collected s x fs [] ⟨fs, false⟩ := by
    constructor
    · simp
    · simp
    · simp
  have hstep (acc : List (Instn × Instn)) (st : Step3) (hst : Collected s x fs acc st) (g : Group)
      (hg : g ∈ s.groups.filter hasField) := by
    obtain ⟨hg, hfield⟩ := List.mem_filter.mp hg
    exact step3Group_spec o hran hx hg (of_decide_eq_true hfield) hst
  obtain ⟨st, hrun, hend⟩ := Loop.foldlM_collects hstep hstart
  refine ⟨st, ?_, hend⟩
  simp [step3Set, hrun]

/-- What the third step leaves in addition: for each operand, the pairs of all groups of a follower
set in one file. -/
structure Step3Done (s : Setup) (cov : Taint → Body → Bool) (fs : FS) : Prop extends
    Step2Done s cov fs where
  perfield : ∀ x ∈ s.cntFollowerSets, wantedAll s cov x ≠ [] → ∀ op,
    fs.lookup (.perfield .rs1rs2 x.1 op) =
      some ⟨ofOperand op, propsOf s x.2 (wantedAll s cov x)⟩

/-- The files of the third step for the follower sets passed so far. -/
structure Filled (s : Setup) (cov : Taint → Body → Bool) (ran : FS) (acc : List (Nat × List String))
    (fs : FS) : Prop where
  sets : acc ⊆ s.cntFollowerSets
  files : ∀ x ∈ acc, wantedAll s cov x ≠ [] → ∀ op, fs.lookup (.perfield .rs1rs2 x.1 op) =
    some ⟨ofOperand op, propsOf s x.2 (wantedAll s cov x)⟩
  frame : ∀ n, (∀ cnt op, n ≠ .perfield .rs1rs2 cnt op) → fs.lookup n = ran.lookup n

theorem step3Set_filled (o : Oracle s) (hran : Step2Done s o.covered ran)
    (acc : List (Nat × List String)) (fs : FS) (hfs : Filled s o.covered ran acc fs)
    (x : Nat × List String) (hx : x ∈ s.cntFollowerSets) :
    ∃ fs', step3Set s o.covered ran fs x = some fs' ∧ Filled s o.covered ran (acc ++ [x]) fs' := by
  obtain ⟨st, hrun, hend⟩ := step3Set_spec o hran hx fs
  refine ⟨st.fs, hrun, ?_, ?_, ?_⟩
  · exact List.append_subset.mpr ⟨hfs.sets, by simpa using hx⟩
  · intro y hy hwant op
    by_cases hyx : y = x
    · rw [hyx] at hwant ⊢
      exact hend.files hwant op
    · have hy : y ∈ acc := by simpa [hyx] using hy
      rw [hend.frame]
      · exact hfs.files y hy hwant op
      -- another follower set has another number in its file's name
      · intro op' hname
        injection hname with _ hcnt
        exact hyx (eq_of_cnt (hfs.sets hy) hx hcnt)
  · intro n hn
    rw [hend.frame n (hn x.1), hfs.frame n hn]

theorem step3Done (o : Oracle s) (hran : Step2Done s o.covered ran) :
    ∃ fs, dynStep3Proc s o.covered ran = some fs ∧ Step3Done s o.covered fs := by
  have hstart : Filled s o.covered ran [] ran := ⟨by simp, by simp, fun n _ => rfl⟩
  obtain ⟨fs, hrun, hfilled⟩ := Loop.foldlM_collects (step3Set_filled o hran) hstart
  rw [List.nil_append, List.flatMap_singleton'] at hfilled
  refine ⟨fs, hrun, ⟨hran.toStep1Done.congr ?_, ?_⟩, hfilled.files⟩
  · intro f id cnt
    exact hfilled.frame _ (by simp)
  · intro y hy hcov
    rw [hfilled.frame _ (by simp [intragpName])]
    exact hran.intragp y hy hcov

theorem Step3Done.query_perfield {cov : Taint → Body → Bool} (h : Step3Done s cov fs)
    (hx : x ∈ s.cntFollowerSets) (hg : g ∈ s.groups) (hgcov : groupCov s cov (x, g) = true)
    (hp : p ∈ s.allPairs g) (hwant : wantsOperands s cov x g p = true) (op : Operand) :
    ∃ file, fs.lookup (.perfield .rs1rs2 x.1 op) = some file ∧
      query cov file (.pair p.1 p.2) = some (cov (ofOperand op) (pairBody s x.2 p)) := by
  have hfield : g.field = .rs1rs2 := by
    simp only [wantsOperands, Bool.and_eq_true, decide_eq_true_eq] at hwant
    exact hwant.1.1
  have hmem : p ∈ wantedAll s cov x := by
    apply List.mem_flatMap.mpr
    refine ⟨g, List.mem_filter.mpr ⟨hg, by simp [hasField, hfield]⟩, ?_⟩
    rw [wanted, if_pos hgcov]
    exact List.mem_filter.mpr ⟨hp, hwant⟩
  refine ⟨_, h.perfield x hx (List.ne_nil_of_mem hmem) op, ?_⟩
  exact query_map cov _ (pairBody s x.2) nodup_wantedAll hmem

end PerOperand

end Dyn

end SynthLC
