import SynthLC.DynSteps

/-! `post_proc_all.py`: the table of one decision source, from the verdicts of the three steps. It
is compared with asking every pair of instructions for every operand and follower set. -/
namespace SynthLC

namespace Dyn

/-- Branch, DIV, JALR, Load, REM, Store. -/
def tableIn : List Nat := [9, 11, 10, 4, 11, 7]

/-- Block of `ret_arr` for one group. -/
structure Entry where
  groupId : Nat
  intrinsic : Bits
  dynamic : Bits

/-- `(i_p, i_t, rs1/rs2)` -/
structure ResKey where
  pair : Instn × Instn
  op : Operand
  deriving DecidableEq

/-- `res_map`, to the number of decisions that are tainted. -/
abbrev ResMap := List (ResKey × Nat)

/-- `df1` and `df2` keep what was read last, for whichever follower set that was. -/
structure Tally where
  df : Operand → Option SvFile
  resMap : ResMap

structure Post where
  df : Operand → Option SvFile
  ret : List Entry

section Model

variable (s : Setup) (cov : Taint → Body → Bool)

def Setup.tableOrder : List Nat := (s.groups.map Group.id).foldl Loop.insertNew tableIn

/-- The search for the line of a group. Where it is not found the loop ends with the last line. -/
def Setup.findGroup (id : Nat) : Option Group :=
  (s.groups.find? (·.id = id)).or s.groups.getLast?

def incr (k : ResKey) (m : ResMap) : ResMap := Dict.upsert k (· + 1) 1 m

/-- `if res == "covered"`, the operand is counted. -/
def countOperand (df : Operand → Option SvFile) (p : Instn × Instn) (m : ResMap) (op : Operand) :
    Option ResMap := do
  let file ← df op
  let res ← query cov file (.pair p.1 p.2)
  pure (if res then incr ⟨p, op⟩ m else m)

def countPair (f : OpField) (df : Operand → Option SvFile) (org : SvFile) (afset : List String)
    (m : ResMap) (p : Instn × Instn) : Option ResMap := do
  let res ← query cov org (.pair p.1 p.2)
  if res then
    if f = .rs1 then pure (incr ⟨p, .rs1⟩ m)
    else if p.2 ∈ stores then do
      skipStore s afset p.2
      pure (incr ⟨p, .rs1⟩ m)
    else [Operand.rs1, .rs2].foldlM (countOperand cov df p) m
  else pure m

def countSet (ran : FS) (id : Nat) (g : Group) (st : Tally) (x : Nat × List String) :
    Option Tally := do
  let res ← readCsv cov ran (.group g.field id x.1) (.field g.field x.1)
  if res then
    let org ← ran.lookup (.intragp g.field id x.1)
    let df := fun op => (ran.lookup (.perfield g.field x.1 op)).or (st.df op)
    let m ← (s.allPairs g).foldlM (countPair s cov g.field df org x.2) st.resMap
    pure ⟨df, m⟩
  else pure st

/-- Whether two decisions or more were counted. -/
def atLeastTwo (m : ResMap) (op : Operand) (p : Instn × Instn) : Bool :=
  decide (2 ≤ (m.lookup ⟨p, op⟩).getD 0)

/-- The loop that sets `rs1` and `rs2`, both `None` at first. -/
def flagStep (t : Instn × Instn → Bool) : Option Bool → Instn × Instn → Option Bool
  | none, p => some (t p)
  | some rs, p => some (if t p = rs then rs else rs || t p)

def intrinsicResult (id : Nat) (g : Group) : Bits :=
  if s.ipId = id ∨ s.ipInstns.Perm g.instns then s.intrinRes else ⟨false, false⟩

def postGroup (ran : FS) (st : Post) (id : Nat) : Option Post := do
  let g ← s.findGroup id
  if g.field = .none then pure st
  else
    let t ← s.cntFollowerSets.foldlM (countSet s cov ran id g) ⟨st.df, []⟩
    if id ∈ tableIn then
      let rs1 ← (s.allPairs g).foldl (flagStep (atLeastTwo t.resMap .rs1)) none
      let rs2 ← (s.allPairs g).foldl (flagStep (atLeastTwo t.resMap .rs2)) none
      pure ⟨t.df, st.ret ++ [⟨id, intrinsicResult s id g, ⟨rs1, rs2⟩⟩]⟩
    else pure ⟨t.df, st.ret⟩

/-- The number of decisions and the blocks of the groups in the table. -/
def postProcAll (ran : FS) : Option (Nat × List Entry) := do
  let st ← s.tableOrder.foldlM (postGroup s cov ran) ⟨fun _ => none, []⟩
  pure (s.cntFollowerSets.length, st.ret)

/-- The three steps, each run before the next reads its verdicts, and the table. -/
def allSteps : Option (Nat × List Entry) := do
  let fs ← dynStep2Proc s cov (dynStep1Proc s)
  let fs ← dynStep3Proc s cov fs
  postProcAll s cov fs

/-- Follower sets whose query for the pair and the operand is covered. -/
def taintedSets (op : Operand) (p : Instn × Instn) : Nat :=
  s.cntFollowerSets.countP fun x => cov (ofOperand op) (pairBody s x.2 p)

/-- Operands of a group. -/
def operands : OpField → List Operand
  | .none => []
  | .rs1 => [.rs1]
  | .rs1rs2 => [.rs1, .rs2]

/-- The exhaustive answer for a group and an operand. -/
def exhaustive (g : Group) (op : Operand) : Bool :=
  decide (op ∈ operands g.field) && (s.allPairs g).any fun p => decide (2 ≤ taintedSets s cov op p)

end Model

section Counting

variable {s : Setup} {g : Group} {x : Nat × List String} {p : Instn × Instn} {ran : FS} {m : ResMap}

/-- The counters hold how often each key was met. -/
def Counts (keys : List ResKey) (m : ResMap) : Prop :=
  ∀ k, (m.lookup k).getD 0 = keys.count k

theorem Counts.incr {keys : List ResKey} (h : Counts keys m)
    (k : ResKey) : Counts (keys ++ [k]) (incr k m) := by
  intro k'
  have hk := h k'
  rw [Dyn.incr, Dict.lookup_upsert, List.count_append, ← hk]
  by_cases hkk : k' = k
  · subst hkk
    cases m.lookup k' <;> simp
  · simp [hkk, Ne.symm hkk]

/-- What an operand of a pair adds for a follower set. -/
def hit (s : Setup) (cov : Taint → Body → Bool) (x : Nat × List String) (p : Instn × Instn)
    (op : Operand) : List ResKey :=
  if cov (ofOperand op) (pairBody s x.2 p) then [⟨p, op⟩] else []

def hits (s : Setup) (cov : Taint → Body → Bool) (g : Group) (x : Nat × List String)
    (p : Instn × Instn) : List ResKey :=
  (operands g.field).flatMap (hit s cov x p)

/-- A query for one operand is covered only if the query made for the field is. -/
theorem covered_field (o : Oracle s) {op : Operand} (hop : op ∈ operands g.field)
    (h : o.covered (ofOperand op) (pairBody s x.2 p) = true) :
    o.covered (defineOpTaint g.field) (pairBody s x.2 p) = true := by
  cases hf : g.field with
  | none => simp [hf, operands] at hop
  | rs1 =>
    obtain rfl : op = .rs1 := by simpa [hf, operands] using hop
    exact h
  | rs1rs2 =>
    apply (o.both_iff p.1 p.2 (s.decision x.2)).mpr
    cases op with
    | rs1 => exact .inl h
    | rs2 => exact .inr h

theorem hits_eq_nil (o : Oracle s)
    (h : o.covered (defineOpTaint g.field) (pairBody s x.2 p) = false) :
    hits s o.covered g x p = [] := by
  apply List.flatMap_eq_nil_iff.mpr
  intro op hop
  apply if_neg
  intro hcov
  rw [covered_field o hop hcov] at h
  cases h

theorem countOperand_counts (o : Oracle s) (h : Step3Done s o.covered ran)
    (hx : x ∈ s.cntFollowerSets) (hg : g ∈ s.groups) (hgcov : groupCov s o.covered (x, g) = true)
    (hp : p ∈ s.allPairs g) (hwant : wantsOperands s o.covered x g p = true)
    {df : Operand → Option SvFile}
    (hdf : ∀ op file, ran.lookup (.perfield .rs1rs2 x.1 op) = some file → df op = some file)
    (keys : List ResKey) (m : ResMap) (hm : Counts keys m) (op : Operand) :
    ∃ m', countOperand o.covered df p m op = some m' ∧
      Counts (keys ++ hit s o.covered x p op) m' := by
  obtain ⟨file, hfile, hres⟩ := h.query_perfield hx hg hgcov hp hwant op
  unfold countOperand hit
  rw [hdf op file hfile]
  refine ⟨_, by simp [hres]; rfl, ?_⟩
  split_ifs
  · exact hm.incr _
  · simpa using hm

/-- A covered store is covered through `rs1`, for which it is counted without being asked. -/
theorem covered_store (o : Oracle s) (hstore : p.2 ∈ stores)
    (hcov : o.covered .both (pairBody s x.2 p) = true) :
    o.covered .rs1 (pairBody s x.2 p) = true ∧ o.covered .rs2 (pairBody s x.2 p) = false := by
  have hrs2 : o.covered .rs2 (pairBody s x.2 p) = false :=
    o.store_rs2 p.1 (s.decision x.2) p.2 hstore
  have hone : o.covered .rs1 (pairBody s x.2 p) = true ∨ o.covered .rs2 (pairBody s x.2 p) = true :=
    (o.both_iff p.1 p.2 (s.decision x.2)).mp hcov
  rw [hrs2] at hone
  exact ⟨by simpa using hone, hrs2⟩

/-- A pair is counted for its covered operands, although a store is asked for `rs1` and `rs2`
together only. -/
theorem countPair_counts (o : Oracle s) (h : Step3Done s o.covered ran)
    (hx : x ∈ s.cntFollowerSets) (hg : g ∈ s.groups) (hfield : g.field ≠ .none)
    (hgcov : groupCov s o.covered (x, g) = true) {df : Operand → Option SvFile}
    (hdf : ∀ op file, ran.lookup (.perfield g.field x.1 op) = some file → df op = some file)
    (keys : List ResKey) (m : ResMap) (hm : Counts keys m)
    (p : Instn × Instn) (hp : p ∈ s.allPairs g) :
    ∃ m', countPair s o.covered g.field df (pairFile s (x, g)) x.2 m p = some m' ∧
      Counts (keys ++ hits s o.covered g x p) m' := by
  unfold countPair
  rw [query_pairFile hg hp]
  cases hcov : o.covered (defineOpTaint g.field) (pairBody s x.2 p) with
  | false => exact ⟨m, rfl, by simpa [hits_eq_nil o hcov] using hm⟩
  | true =>
    cases hf : g.field with
    | none => exact absurd hf hfield
    | rs1 =>
      rw [hf] at hcov
      have hone : hits s o.covered g x p = [⟨p, .rs1⟩] := by
        simp [hits, hit, hf, operands, ofOperand, show o.covered .rs1 _ = true from hcov]
      rw [hone]
      exact ⟨incr ⟨p, .rs1⟩ m, rfl, hm.incr _⟩
    | rs1rs2 =>
      rw [hf] at hcov hdf
      by_cases hstore : p.2 ∈ stores
      · obtain ⟨hrs1, hrs2⟩ := covered_store o hstore hcov
        have hone : hits s o.covered g x p = [⟨p, .rs1⟩] := by
          simp [hits, hit, hf, operands, ofOperand, hrs1, hrs2]
        rw [hone]
        refine ⟨incr ⟨p, .rs1⟩ m, ?_, hm.incr _⟩
        simp [hstore, skipStore_eq o hx hstore hcov]
      · have hwant : wantsOperands s o.covered x g p = true := by
          simpa [wantsOperands, hf, hstore, defineOpTaint] using hcov
        obtain ⟨m', hrun, hend⟩ := Loop.foldlM_collects
          (fun keys m hm op (_ : op ∈ [Operand.rs1, .rs2]) =>
            countOperand_counts o h hx hg hgcov hp hwant hdf keys m hm op) hm
        rw [hits, hf]
        exact ⟨m', by simpa [hstore] using hrun, hend⟩

/-- What a follower set adds for a group. -/
def setHits (s : Setup) (cov : Taint → Body → Bool) (g : Group) (x : Nat × List String) :
    List ResKey :=
  (s.allPairs g).flatMap (hits s cov g x)

/-- Nothing is lost where the group's query is not covered. -/
theorem setHits_eq_nil (o : Oracle s) (hg : g ∈ s.groups)
    (h : groupCov s o.covered (x, g) = false) : setHits s o.covered g x = [] := by
  apply List.flatMap_eq_nil_iff.mpr
  intro p hp
  apply hits_eq_nil o
  obtain ⟨hip, hit⟩ := mem_allPairs.mp hp
  apply Bool.eq_false_iff.mpr
  intro hcov
  have hgroup := (o.group_iff g hg (defineOpTaint g.field) (s.decision x.2)).mpr
    ⟨p.1, hip, p.2, hit, hcov⟩
  rw [groupCov, hgroup] at h
  cases h

theorem countSet_counts (o : Oracle s) (h : Step3Done s o.covered ran) (hg : g ∈ s.groups)
    (hfield : g.field ≠ .none) (keys : List ResKey) (st : Tally) (hst : Counts keys st.resMap)
    (x : Nat × List String) (hx : x ∈ s.cntFollowerSets) :
    ∃ st', countSet s o.covered ran g.id g st x = some st' ∧
      Counts (keys ++ setHits s o.covered g x) st'.resMap := by
  have hjob : (x, g) ∈ s.todo := mem_todo.mpr ⟨hx, hg, hfield⟩
  have hcsv : readCsv o.covered ran (.group g.field g.id x.1) (.field g.field x.1) =
      some (groupCov s o.covered (x, g)) := h.readCsv hjob
  unfold countSet
  rw [hcsv]
  cases hgcov : groupCov s o.covered (x, g) with
  | false => exact ⟨st, rfl, by simpa [setHits_eq_nil o hg hgcov] using hst⟩
  | true =>
    let df := fun op => (ran.lookup (.perfield g.field x.1 op)).or (st.df op)
    have hdf (op : Operand) (file : SvFile)
        (hfile : ran.lookup (.perfield g.field x.1 op) = some file) : df op = some file := by
      simp [df, hfile]
    have horg : ran.lookup (.intragp g.field g.id x.1) = some (pairFile s (x, g)) :=
      h.intragp (x, g) hjob hgcov
    obtain ⟨m, hrun, hm⟩ := Loop.foldlM_collects
      (countPair_counts o h hx hg hfield hgcov hdf) hst
    exact ⟨⟨df, m⟩, by simp [horg, df, hrun], hm⟩

/-- The counters of a group after all follower sets. -/
theorem countSets_counts (o : Oracle s) (h : Step3Done s o.covered ran) (hg : g ∈ s.groups)
    (hfield : g.field ≠ .none) (df : Operand → Option SvFile) :
    ∃ st, s.cntFollowerSets.foldlM (countSet s o.covered ran g.id g) ⟨df, []⟩ = some st ∧
      Counts (s.cntFollowerSets.flatMap (setHits s o.covered g)) st.resMap := by
  have hstart : Counts [] (Tally.mk df []).resMap := by
    intro k
    rfl
  exact Loop.foldlM_collects (I := fun keys (st : Tally) => Counts keys st.resMap)
    (countSet_counts o h hg hfield) hstart

theorem mem_hits {cov : Taint → Body → Bool} {k : ResKey} : k ∈ hits s cov g x p ↔
    k.pair = p ∧ k.op ∈ operands g.field ∧ cov (ofOperand k.op) (pairBody s x.2 p) = true := by
  simp only [hits, List.mem_flatMap, hit]
  constructor
  · intro hk
    obtain ⟨op, hop, hk⟩ := hk
    split_ifs at hk with hcov
    · obtain rfl := List.mem_singleton.mp hk
      exact ⟨rfl, hop, hcov⟩
    · cases hk
  · intro hk
    obtain ⟨rfl, hop, hcov⟩ := hk
    exact ⟨k.op, hop, by simp [hcov]⟩

theorem nodup_hits {cov : Taint → Body → Bool} : (hits s cov g x p).Nodup := by
  unfold hits hit
  cases g.field with
  | none => simp [operands]
  | rs1 => simp only [operands, List.flatMap_singleton]; split_ifs <;> simp
  | rs1rs2 => simp only [operands, List.flatMap_cons, List.flatMap_nil]; split_ifs <;> simp

/-- Each follower set counts a pair and an operand once. -/
theorem count_setHits {cov : Taint → Body → Bool} (hg : g ∈ s.groups) (hp : p ∈ s.allPairs g)
    (op : Operand) : (setHits s cov g x).count ⟨p, op⟩ =
      if op ∈ operands g.field ∧ cov (ofOperand op) (pairBody s x.2 p) = true then 1 else 0 := by
  have hnodup : (setHits s cov g x).Nodup := by
    apply List.nodup_flatMap.mpr
    refine ⟨fun p _ => nodup_hits, (nodup_allPairs hg).imp ?_⟩
    intro q q' hne k hk hk'
    exact hne ((mem_hits.mp hk).1.symm.trans (mem_hits.mp hk').1)
  have hmem : ⟨p, op⟩ ∈ setHits s cov g x ↔
      op ∈ operands g.field ∧ cov (ofOperand op) (pairBody s x.2 p) = true := by
    rw [setHits, List.mem_flatMap]
    constructor
    · intro hk
      obtain ⟨q, _, hk⟩ := hk
      obtain ⟨rfl, hk⟩ := mem_hits.mp hk
      exact hk
    · intro hk
      exact ⟨p, hp, mem_hits.mpr ⟨rfl, hk⟩⟩
  rw [hnodup.count]
  simp only [hmem]

theorem count_flatMap_setHits {cov : Taint → Body → Bool} (hg : g ∈ s.groups)
    (hp : p ∈ s.allPairs g) (op : Operand) :
    (s.cntFollowerSets.flatMap (setHits s cov g)).count ⟨p, op⟩ =
      if op ∈ operands g.field then taintedSets s cov op p else 0 := by
  rw [List.count_flatMap]
  have hcount : List.count ⟨p, op⟩ ∘ setHits s cov g = fun x =>
      if op ∈ operands g.field ∧ cov (ofOperand op) (pairBody s x.2 p) = true then 1 else 0 := by
    funext x
    exact count_setHits hg hp op
  rw [hcount]
  by_cases hop : op ∈ operands g.field
  · simp only [hop, true_and, reduceIte]
    exact Loop.sum_map_ite _ _
  · simp [hop]

end Counting

section Table

variable {s : Setup} {g : Group} {ran : FS} {id : Nat}

theorem foldl_flagStep_some (t : Instn × Instn → Bool) (ps : List (Instn × Instn)) (b : Bool) :
    ps.foldl (flagStep t) (some b) = some (b || ps.any t) := by
  induction ps generalizing b with
  | nil => simp
  | cons p ps ih =>
    have hstep : flagStep t (some b) p = some (b || t p) := by
      cases b <;> cases ht : t p <;> simp [flagStep, ht]
    rw [List.foldl_cons, hstep, ih, List.any_cons, Bool.or_assoc]

theorem foldl_flagStep (t : Instn × Instn → Bool) {ps : List (Instn × Instn)} (h : ps ≠ []) :
    ps.foldl (flagStep t) none = some (ps.any t) := by
  obtain ⟨p, ps, rfl⟩ := List.exists_cons_of_ne_nil h
  exact foldl_flagStep_some t ps (t p)

theorem allPairs_ne_nil (hg : g ∈ s.groups) : s.allPairs g ≠ [] := by
  obtain ⟨ip, hip⟩ := List.exists_mem_of_ne_nil _ s.ip_ne
  obtain ⟨it, hit⟩ := List.exists_mem_of_ne_nil _ (s.instns_ne g hg)
  have hpair : (ip, it) ∈ s.allPairs g := mem_allPairs.mpr ⟨hip, hit⟩
  exact List.ne_nil_of_mem hpair

/-- The flags of a group say what asking each pair would. -/
theorem any_atLeastTwo {cov : Taint → Body → Bool} {m : ResMap} (hg : g ∈ s.groups)
    (hm : Counts (s.cntFollowerSets.flatMap (setHits s cov g)) m) (op : Operand) :
    (s.allPairs g).any (atLeastTwo m op) = exhaustive s cov g op := by
  have hpair (p : Instn × Instn) (hp : p ∈ s.allPairs g) : atLeastTwo m op p =
      (decide (op ∈ operands g.field) && decide (2 ≤ taintedSets s cov op p)) := by
    rw [atLeastTwo, hm, count_flatMap_setHits hg hp]
    by_cases hop : op ∈ operands g.field <;> simp [hop]
  rw [Bool.eq_iff_iff]
  simp only [exhaustive, List.any_eq_true, Bool.and_eq_true]
  constructor
  · intro h
    obtain ⟨p, hp, htwo⟩ := h
    rw [hpair p hp, Bool.and_eq_true] at htwo
    exact ⟨htwo.1, p, hp, htwo.2⟩
  · intro h
    obtain ⟨hop, p, hp, htwo⟩ := h
    refine ⟨p, hp, ?_⟩
    rw [hpair p hp, Bool.and_eq_true]
    exact ⟨hop, htwo⟩

/-- The group of an id has files, or none are read for it: where the id is not listed the search
ends at the last line. -/
def Readable (s : Setup) (id : Nat) : Prop :=
  (∃ g ∈ s.groups, g.id = id) ∨
    ∃ last ∈ s.groups.getLast?, last.field = .none ∨ s.cntFollowerSets = []

theorem findGroup_of_mem (hg : g ∈ s.groups) : s.findGroup g.id = some g := by
  have hsome : (s.groups.find? (·.id = g.id)).isSome := by
    rw [List.find?_isSome]
    exact ⟨g, hg, by simp⟩
  obtain ⟨g', hg'⟩ := Option.isSome_iff_exists.mp hsome
  have hid : g'.id = g.id := by simpa using List.find?_some hg'
  rw [Setup.findGroup, hg', eq_of_id (List.mem_of_find?_eq_some hg') hg hid]
  rfl

theorem findGroup_of_not_listed (h : ¬∃ g ∈ s.groups, g.id = id) :
    s.findGroup id = s.groups.getLast? := by
  have hnone : s.groups.find? (·.id = id) = none := by
    rw [List.find?_eq_none]
    intro g hg
    simpa using fun hid => h ⟨g, hg, hid⟩
  rw [Setup.findGroup, hnone, Option.none_or]

theorem Readable.findGroup (h : Readable s id) : ∃ g ∈ s.groups, s.findGroup id = some g ∧
    (g.id = id ∨ g.field = .none ∨ s.cntFollowerSets = []) := by
  by_cases hlisted : ∃ g ∈ s.groups, g.id = id
  · obtain ⟨g, hg, rfl⟩ := hlisted
    exact ⟨g, hg, findGroup_of_mem hg, .inl rfl⟩
  · rcases h with h | h
    · exact absurd h hlisted
    · obtain ⟨last, hlast, hcase⟩ := h
      refine ⟨last, List.mem_of_getLast? hlast, ?_, .inr hcase⟩
      rw [findGroup_of_not_listed hlisted]
      exact hlast

/-- What a group puts into the table. -/
def entries (s : Setup) (cov : Taint → Body → Bool) (id : Nat) : List Entry :=
  match s.findGroup id with
  | none => []
  | some g =>
    if g.field ≠ .none ∧ id ∈ tableIn then
      [⟨id, intrinsicResult s id g, ⟨exhaustive s cov g .rs1, exhaustive s cov g .rs2⟩⟩]
    else []

theorem postGroup_ret (o : Oracle s) (h : Step3Done s o.covered ran) (hid : Readable s id)
    (st : Post) : ∃ st', postGroup s o.covered ran st id = some st' ∧
      st'.ret = st.ret ++ entries s o.covered id := by
  obtain ⟨g, hg, hfind, hcase⟩ := hid.findGroup
  unfold postGroup entries
  rw [hfind]
  by_cases hfield : g.field = .none
  · exact ⟨st, by simp [hfield], by simp [hfield]⟩
  · have hcounts : ∃ t, s.cntFollowerSets.foldlM (countSet s o.covered ran id g) ⟨st.df, []⟩ =
        some t ∧ Counts (s.cntFollowerSets.flatMap (setHits s o.covered g)) t.resMap := by
      rcases hcase with rfl | hnone | hempty
      · exact countSets_counts o h hg hfield st.df
      · exact absurd hnone hfield
      · rw [hempty]
        exact ⟨_, rfl, fun k => rfl⟩
    obtain ⟨t, hrun, ht⟩ := hcounts
    by_cases hin : id ∈ tableIn
    · refine ⟨⟨t.df, st.ret ++ [⟨id, intrinsicResult s id g,
        ⟨exhaustive s o.covered g .rs1, exhaustive s o.covered g .rs2⟩⟩]⟩, ?_, ?_⟩
      · simp [hfield, hrun, hin, foldl_flagStep _ (allPairs_ne_nil hg), any_atLeastTwo hg ht]
      · simp [hfield, hin]
    · exact ⟨⟨t.df, st.ret⟩, by simp [hfield, hrun, hin], by simp [hin]⟩

theorem readable_of_mem_tableOrder (h : ∀ id ∈ tableIn, Readable s id) (hid : id ∈ s.tableOrder) :
    Readable s id := by
  rcases Loop.mem_foldl_insertNew.mp hid with hid | hid
  · exact h id hid
  · obtain ⟨g, hg, rfl⟩ := List.mem_map.mp hid
    exact .inl ⟨g, hg, rfl⟩

theorem postProcAll_eq (o : Oracle s) (h : Step3Done s o.covered ran)
    (htable : ∀ id ∈ tableIn, Readable s id) : postProcAll s o.covered ran =
      some (s.cntFollowerSets.length, s.tableOrder.flatMap (entries s o.covered)) := by
  have hstep (acc : List Entry) (st : Post) (hst : st.ret = acc) (id : Nat)
      (hid : id ∈ s.tableOrder) : ∃ st', postGroup s o.covered ran st id = some st' ∧
        st'.ret = acc ++ entries s o.covered id := by
    rw [← hst]
    exact postGroup_ret o h (readable_of_mem_tableOrder htable hid) st
  have hstart : (Post.mk (fun _ => none) []).ret = [] := rfl
  obtain ⟨st, hrun, hret⟩ := Loop.foldlM_collects (I := fun acc (st : Post) => st.ret = acc)
    hstep hstart
  simp [postProcAll, hrun, hret]

/-- A table that was made has read the files of each of its groups. -/
theorem readable_of_postProcAll {cov : Taint → Body → Bool} (h : Step1Done s ran)
    {out : Nat × List Entry} (hrun : postProcAll s cov ran = some out) (hid : id ∈ tableIn) :
    Readable s id := by
  by_cases hlisted : ∃ g ∈ s.groups, g.id = id
  · exact .inl hlisted
  obtain ⟨st, hloop, _⟩ := Option.bind_eq_some_iff.mp hrun
  have hmem : id ∈ s.tableOrder := Loop.mem_foldl_insertNew.mpr (.inl hid)
  obtain ⟨a, b, hgroup⟩ := Loop.step_of_foldlM hloop hmem
  obtain ⟨last, hlast, hgroup⟩ := Option.bind_eq_some_iff.mp hgroup
  rw [findGroup_of_not_listed hlisted] at hlast
  refine .inr ⟨last, hlast, ?_⟩
  by_cases hfield : last.field = .none
  · exact .inl hfield
  · right
    rw [if_neg hfield] at hgroup
    obtain ⟨t, hsets, _⟩ := Option.bind_eq_some_iff.mp hgroup
    apply List.eq_nil_iff_forall_not_mem.mpr
    intro x hx
    -- the first follower set already asks for a file that no step has written
    obtain ⟨c, d, hset⟩ := Loop.step_of_foldlM hsets hx
    obtain ⟨res, hres, _⟩ := Option.bind_eq_some_iff.mp hset
    obtain ⟨file, hfile, _⟩ := Option.bind_eq_some_iff.mp hres
    exact hlisted (h.listed _ _ _ _ hfile)

/-- Groups of the map that have operands. -/
def Setup.listed (s : Setup) (id : Nat) : Bool :=
  s.groups.any fun g => decide (g.id = id) && hasField g

/-- A table as exhaustive queries would give it. Its groups stand in the order of `table_in`. -/
structure TableExhaustive (s : Setup) (cov : Taint → Body → Bool) (out : Nat × List Entry) :
    Prop where
  decisions : out.1 = s.cntFollowerSets.length
  groups : (out.2.map Entry.groupId).filter s.listed = tableIn.filter s.listed
  dynamic : ∀ e ∈ out.2, ∀ op, e.dynamic.get op = true ↔
    ∃ g ∈ s.groups, g.id = e.groupId ∧ exhaustive s cov g op = true

theorem filter_entries {cov : Taint → Body → Bool} : ((entries s cov id).map Entry.groupId).filter
    s.listed = if id ∈ tableIn then [id].filter s.listed else [] := by
  cases hlisted : s.listed id with
  | true =>
    simp only [Setup.listed, List.any_eq_true, Bool.and_eq_true, decide_eq_true_eq] at hlisted
    obtain ⟨g, hg, rfl, hfield⟩ := hlisted
    have hfield : g.field ≠ .none := of_decide_eq_true hfield
    unfold entries
    rw [findGroup_of_mem hg]
    by_cases hin : g.id ∈ tableIn <;> simp [hfield, hin]
  | false =>
    have hnil : ((entries s cov id).map Entry.groupId).filter s.listed = [] := by
      rw [List.filter_eq_nil_iff]
      intro id' hid'
      obtain ⟨e, he, rfl⟩ := List.mem_map.mp hid'
      unfold entries at he
      split at he
      · cases he
      · split_ifs at he
        · obtain rfl := List.mem_singleton.mp he
          simp [hlisted]
        · cases he
    rw [hnil]
    simp [hlisted]

theorem groups_flatMap_entries {cov : Taint → Body → Bool} :
    ((s.tableOrder.flatMap (entries s cov)).map Entry.groupId).filter s.listed =
      tableIn.filter s.listed := by
  obtain ⟨rest, horder, hrest⟩ := Loop.foldl_insertNew_eq_append (s.groups.map Group.id) tableIn
  have hin : tableIn.flatMap (fun id => if id ∈ tableIn then [id].filter s.listed else []) =
      tableIn.filter s.listed := by
    rw [List.flatMap_congr fun id hid => if_pos hid, ← List.filter_flatMap,
      List.flatMap_singleton']
  have hout : rest.flatMap (fun id => if id ∈ tableIn then [id].filter s.listed else []) = [] := by
    apply List.flatMap_eq_nil_iff.mpr
    intro id hid
    exact if_neg (hrest id hid)
  rw [List.map_flatMap, List.filter_flatMap]
  simp only [filter_entries]
  rw [Setup.tableOrder, horder, List.flatMap_append, hin, hout, List.append_nil]

theorem dynamic_entries {cov : Taint → Body → Bool} (hid : Readable s id) {e : Entry}
    (he : e ∈ entries s cov id) (op : Operand) : e.dynamic.get op = true ↔
      ∃ g ∈ s.groups, g.id = e.groupId ∧ exhaustive s cov g op = true := by
  obtain ⟨g, hg, hfind, hcase⟩ := hid.findGroup
  unfold entries at he
  rw [hfind] at he
  simp only at he
  split_ifs at he with hentry
  · obtain rfl := List.mem_singleton.mp he
    have hget : (Bits.mk (exhaustive s cov g .rs1) (exhaustive s cov g .rs2)).get op =
        exhaustive s cov g op := by
      cases op <;> rfl
    simp only [hget]
    rcases hcase with rfl | hnone | hempty
    · constructor
      · intro h
        exact ⟨g, hg, rfl, h⟩
      · intro h
        obtain ⟨g', hg', hid', h⟩ := h
        rwa [eq_of_id hg' hg hid'] at h
    · exact absurd hnone hentry.1
    · have hfalse (g : Group) : exhaustive s cov g op = false := by
        simp [exhaustive, taintedSets, hempty]
      simp [hfalse]
  · cases he

theorem allSteps_eq_some_iff {cov : Taint → Body → Bool} {out : Nat × List Entry} :
    allSteps s cov = some out ↔ ∃ fs2 fs3, dynStep2Proc s cov (dynStep1Proc s) = some fs2 ∧
      dynStep3Proc s cov fs2 = some fs3 ∧ postProcAll s cov fs3 = some out := by
  simp [allSteps, Option.bind_eq_some_iff]

/-- The steps give the table of exhaustive queries, and read only what was generated, if and only
if the constraints they need can be read and each group in the table has its files. -/
theorem allSteps_exhaustive_iff (s : Setup) (o : Oracle s) :
    (∃ out, allSteps s o.covered = some out ∧ TableExhaustive s o.covered out) ↔
      OpcodesPlain s o.covered ∧ ∀ id ∈ tableIn, Readable s id := by
  have hstep1 := step1Done s
  constructor
  · intro h
    obtain ⟨out, hrun, _⟩ := h
    obtain ⟨fs2, fs3, hrun2, hrun3, hrun⟩ := allSteps_eq_some_iff.mp hrun
    have hplain := opcodesPlain_of_step2 hstep1 hrun2
    obtain ⟨fs, hfs, hdone2⟩ := step2Done hstep1 hplain
    obtain rfl : fs2 = fs := Option.some.inj (hrun2.symm.trans hfs)
    obtain ⟨fs, hfs, hdone3⟩ := step3Done o hdone2
    obtain rfl : fs3 = fs := Option.some.inj (hrun3.symm.trans hfs)
    refine ⟨hplain, ?_⟩
    intro id hid
    exact readable_of_postProcAll hdone3.toStep1Done hrun hid
  · intro h
    obtain ⟨hplain, htable⟩ := h
    obtain ⟨fs2, hrun2, hdone2⟩ := step2Done hstep1 hplain
    obtain ⟨fs3, hrun3, hdone3⟩ := step3Done o hdone2
    refine ⟨(_, s.tableOrder.flatMap (entries s o.covered)), ?_, rfl, groups_flatMap_entries, ?_⟩
    · exact allSteps_eq_some_iff.mpr ⟨fs2, fs3, hrun2, hrun3, postProcAll_eq o hdone3 htable⟩
    · intro e he op
      obtain ⟨id, hid, he⟩ := List.mem_flatMap.mp he
      exact dynamic_entries (readable_of_mem_tableOrder htable hid) he op

end Table

/-- Group 3 as transponder against the groups of `group_map.txt`, with two decisions: to enter the
load store queue or not. -/
def twoDecisions : Setup where
  ipId := 3
  ipInstns := [.ADD, .SUB, .SLL, .SLT, .SLTU, .XOR, .SRL, .SRA, .OR, .AND]
  decisionSrc := "issue_s1"
  uniqPl := ["iso_0"]
  cntFollowerSets := [(0, ["iso_0"]), (1, [])]
  groups := Opcodes.groupMap
  xPruning := stores.map fun i => (i, [("iso_0", ⟨true, false⟩)])
  intrinRes := ⟨false, false⟩
  ip_ne := by decide
  ip_nodup := by decide
  cnt_nodup := by decide
  id_nodup := by decide
  instns_ne := by decide
  instns_nodup := by decide +kernel

/-- The transmitters taint both decisions through `rs1`. -/
def throughRs1 (transmits : Instn → Bool) (t : Taint) (b : Body) : Bool :=
  decide (t ≠ .rs2) && !b.decision.t0.isEmpty &&
    match b.i1 with
    | .group id => Opcodes.groupMap.any fun g => decide (g.id = id) && g.instns.any transmits
    | .instn i => transmits i

def throughRs1Oracle (transmits : Instn → Bool) : Oracle twoDecisions where
  covered := throughRs1 transmits
  group_iff := by
    intro g hg t d
    have hgroup : (Opcodes.groupMap.any fun g' => decide (g'.id = g.id) && g'.instns.any transmits)
        = g.instns.any transmits := by
      rw [Bool.eq_iff_iff, List.any_eq_true]
      constructor
      · intro h
        obtain ⟨g', hg', h⟩ := h
        simp only [Bool.and_eq_true, decide_eq_true_eq] at h
        obtain rfl : g' = g := eq_of_id hg' hg h.1
        exact h.2
      · intro h
        exact ⟨g, hg, by simpa using h⟩
    have hip : ∃ ip, ip ∈ twoDecisions.ipInstns := ⟨.ADD, by decide⟩
    simp only [throughRs1, hgroup, List.any_eq_true, Bool.and_eq_true]
    constructor
    · intro h
      obtain ⟨ip, hip⟩ := hip
      obtain ⟨h, it, hit, htr⟩ := h
      exact ⟨ip, hip, it, hit, h, htr⟩
    · intro h
      obtain ⟨_, _, it, hit, h, htr⟩ := h
      exact ⟨h, it, hit, htr⟩
  both_iff := by
    intro ip it d
    simp [throughRs1]
  store_rs2 := by
    intro ip d it _
    rfl
  untainted := by
    intro t b h
    simp [throughRs1, h]
  pruned := by
    intro it hit
    refine ⟨[("iso_0", ⟨true, false⟩)], ?_, ?_⟩
    · exact (Dict.lookup_map_const stores _).trans (if_pos hit)
    · intro pl hpl
      have hpl : pl = "iso_0" := by simpa [twoDecisions] using hpl
      rw [hpl]
      rfl

/-- Once a CSR instruction is a transmitter its constraint is asked for, and its file starts with
a define. -/
theorem csr_group_aborts : allSteps twoDecisions (throughRs1Oracle fun _ => true).covered = none := by
  rw [Option.eq_none_iff_forall_ne_some]
  intro out hrun
  obtain ⟨fs2, fs3, hrun2, _, _⟩ := allSteps_eq_some_iff.mp hrun
  have hplain := opcodesPlain_of_step2 (step1Done twoDecisions) hrun2
  have hjob : ((0, ["iso_0"]), ⟨6, .rs1, [.CSRRW, .CSRRS, .CSRRC]⟩) ∈ twoDecisions.todo := by
    apply mem_todo.mpr
    simp [twoDecisions, Opcodes.groupMap]
  obtain ⟨t, ht⟩ := hplain _ hjob (by decide +kernel) .CSRRW (by simp) .define (by decide)
  cases ht

/-- With loads as transmitters the table is that of exhaustive queries. -/
theorem allSteps_exhaustive_loads : ∃ out,
    allSteps twoDecisions (throughRs1Oracle fun i => i ∈ [.LB, .LW]).covered = some out ∧
      TableExhaustive twoDecisions (throughRs1Oracle fun i => i ∈ [.LB, .LW]).covered out := by
  apply (allSteps_exhaustive_iff _ _).mpr
  constructor
  · have hfiles : ∀ x ∈ twoDecisions.todo,
        groupCov twoDecisions (throughRs1 fun i => i ∈ [.LB, .LW]) x = true →
          ∀ i ∈ twoDecisions.ipInstns ++ x.2.instns, (getIConstraint i).isSome := by
      decide +kernel
    intro x hx hcov i hi
    exact getIConstraint_iff.mp (Option.isSome_iff_exists.mp (hfiles x hx hcov i hi))
  · have hlisted : ∀ id ∈ tableIn, ∃ g ∈ twoDecisions.groups, g.id = id := by decide
    intro id hid
    exact .inl (hlisted id hid)

end Dyn

end SynthLC
