import SynthLC.DecisionQueries
import SynthLC.Opcodes
import SynthLC.Verdict

/-! `gen` and `pp` of `intrinsic_step2_perfield.py`: the decisions of the instruction under
verification that are tainted by both of its operands are asked about again for each operand, and
the flags of a source say how many of its decisions each operand taints. -/
namespace SynthLC.Intrinsic

open Decisions Loop

/-! ### The numbered decisions -/

/-- One line of `dec_maps_v2.txt` below the separator, as `check_results` splits it. -/
structure Row where
  cnt : Nat
  node : String
  fset : List String
  deriving DecidableEq, Repr

/-- The log of `intrinsic_step1_or.py`, which numbers its queries. -/
def decRows (d : Maps) : Option (List Row) :=
  (queries intrinsic d).map fun qs =>
    qs.zipIdx.map fun q => ⟨q.2, q.1.decisionNode, readBack q.1.afset⟩

/-- The verdict files: of the query about the decision itself its `DEP` and its `DECSANITY` row,
and of the query for one operand the `DEP` row; `none` where there is no file. -/
structure Csvs where
  itself : Nat → Option (Result × Result)
  perField : Operand → Nat → Option Result

def Csvs.dep (c : Csvs) (cnt : Nat) : Option Result := (c.itself cnt).bind fun v => dfQuery v.1

def Csvs.decsanity (c : Csvs) (cnt : Nat) : Option Result :=
  (c.itself cnt).bind fun v => dfQuery v.2

/-- `check_results`: nothing as long as a file is missing. -/
def checkResults (c : Csvs) (rows : List Row) : List Row :=
  let todo := rows.filter fun r => decide (1 < (rows.filter (·.node = r.node)).length)
  if todo.all fun r => (c.itself r.cnt).isSome then todo else []

/-! ### `gen` -/

/-- `in_ufsm_arr` with `ufsm_arr_valid` unset. -/
def inUfsmArr (_pl : String) : Int := -1

/-- `decision_map` at a source. -/
def decisionMap (list : List Row) (node : String) : List String :=
  (list.filter (·.node = node)).flatMap fun r => r.fset.filter (· ≠ "")

def depg (list : List Row) (r : Row) : Option (Finset Int) :=
  r.fset.head?.map fun first =>
    ((if first = "" then decisionMap list r.node else r.fset).map inUfsmArr).toFinset

def bothFields (g : Finset Int) : Bool := decide (-1 ∈ g ∨ 3 ∈ g ∨ 1 ∈ g ∧ 2 ∈ g)

/-- `per_field_task.txt`, and `per_field_done.txt` with the columns after the number. -/
structure PerField where
  task : List Nat
  done : List (Nat × List String)

def doneColumns (g : Finset Int) : List String := if g = ∅ then [""] else g.sort.map toString

def PerField.add (list : List Row) (p : PerField) (r : Row) : Option PerField :=
  (depg list r).map fun g =>
    if bothFields g then { p with task := p.task ++ [r.cnt] }
    else { p with done := p.done ++ [(r.cnt, doneColumns g)] }

/-- `togen` -/
def togen (c : Csvs) (list : List Row) : Option (List Row) :=
  list.foldlM (fun acc r =>
    (c.dep r.cnt).map fun res => if res = .covered then acc ++ [r] else acc) []

def gen (c : Csvs) (field : OpField) (rows : List Row) : Option PerField :=
  if field ≠ .rs1rs2 then some ⟨[], []⟩
  else do
    let list := checkResults c rows
    let covered ← togen c list
    covered.foldlM (PerField.add list) ⟨[], []⟩

/-! ### `pp` -/

/-- The three flags of an operand; `none` where the instruction has no such operand. -/
structure Flags where
  noniso : Option Bool
  iso : Option Bool
  onlyOne : Option Bool
  deriving DecidableEq, Repr

def Flags.absent : Flags := ⟨none, none, none⟩

def Flags.allFalse : Flags := ⟨some false, some false, some false⟩

structure DivDecNode where
  cnt : Nat
  followerSets : List (List String)
  rs1 : Flags
  rs2 : Flags

namespace DivDecNode

def init : DivDecNode := ⟨0, [], .absent, .absent⟩

def rs1false (n : DivDecNode) : DivDecNode := { n with rs1 := .allFalse }

def rs2false (n : DivDecNode) : DivDecNode := { n with rs2 := .allFalse }

def addcnt (n : DivDecNode) (afset : List String) : DivDecNode :=
  { n with cnt := n.cnt + 1, followerSets := insertNew n.followerSets afset }

def flags (n : DivDecNode) : Operand → Flags
  | .rs1 => n.rs1
  | .rs2 => n.rs2

def setFlags (n : DivDecNode) (f : Flags → Flags) : Operand → DivDecNode
  | .rs1 => { n with rs1 := f n.rs1 }
  | .rs2 => { n with rs2 := f n.rs2 }

end DivDecNode

abbrev Nodes := List (String × DivDecNode)

/-- The tainted decisions of each source. -/
abbrev Raw := List (String × List (List String))

/-- `noniso_update` -/
def nonisoUpdate (v : List (List String)) : List (List String) :=
  (v.map fun aset => (aset.map transform).insertionSort (· ≤ ·)).foldl insertNew []

/-- What `get_dep` sets for the tainted decisions of one source. -/
def Flags.update (f : Flags) (v : List (List String)) : Flags where
  noniso := if 1 < (nonisoUpdate v).length then some true else f.noniso
  iso := if 1 < v.length then some true else f.iso
  onlyOne := if v.length = 1 then some true else f.onlyOne

/-- One source in `get_dep`: a decision that is listed twice fails the assertion, an unknown source
is a `KeyError`. -/
def getDepStep (op : Operand) (nodes : Nodes) (kv : String × List (List String)) : Option Nodes :=
  if kv.2.all (fun t => kv.2.count t = 1) ∧ kv.1 ∈ nodes.map Prod.fst then
    some (Dict.upsert kv.1 (fun n => n.setFlags (·.update kv.2) op) .init nodes)
  else none

/-- The assertion of `get_dep` about one operand of every source. -/
def exclusive (op : Operand) (nodes : Nodes) : Bool :=
  nodes.all fun e => ¬((e.2.flags op).onlyOne = some true ∧ (e.2.flags op).iso = some true)

def getDep (raw : Raw) (nodes : Nodes) (op : Operand) : Option Nodes := do
  let nodes ← raw.foldlM (getDepStep op) nodes
  if exclusive .rs1 nodes ∧ (op = .rs2 → exclusive .rs2 nodes) then some nodes else none

def collect (raw : Raw) (r : Row) : Raw := Dict.upsert r.node (· ++ [r.fset]) [r.fset] raw

/-- One row of the first loop; `todo_per_field` lists the covered rows. -/
def itselfStep (c : Csvs) (s : Nodes × List Row) (r : Row) : Option (Nodes × List Row) := do
  let nodes := Dict.upsert r.node id DivDecNode.init.rs1false s.1
  let res ← c.dep r.cnt
  let sane ← c.decsanity r.cnt
  pure (if sane = .covered then Dict.upsert r.node (·.addcnt r.fset) .init nodes else nodes,
    if res = .covered then s.2 ++ [r] else s.2)

/-- The query for one operand. Without its verdicts the decision is passed over, if the query has
been generated. -/
def ask (c : Csvs) (p : PerField) (op : Operand) (raw : Raw) (r : Row) : Option Raw :=
  match c.perField op r.cnt with
  | some v => (dfQuery v).map fun res => if res = .covered then collect raw r else raw
  | none => if r.cnt ∈ p.task then some raw else none

/-- One covered row of the second loop. A single column other than `2` is compared at its second
place, which is an `IndexError`. -/
def perFieldStep (c : Csvs) (p : PerField) (raws : Raw × Raw) (r : Row) : Option (Raw × Raw) :=
  match p.done.lookup r.cnt with
  | some [v] => if v = "2" then some (collect raws.1 r, raws.2) else none
  | _ => do
    let rs1Raw ← ask c p .rs1 raws.1 r
    let rs2Raw ← ask c p .rs2 raws.2 r
    pure (rs1Raw, rs2Raw)

/-- One line of `intrinsic_result.txt`. -/
structure ResultLine where
  node : String
  rs1 : Flags
  rs2 : Flags
  deriving DecidableEq, Repr

structure Output where
  intrinsicResult : List ResultLine
  decMapPp : Option (List (String × List String))
  deriving DecidableEq, Repr

/-- Sources with fewer than two reachable decisions are left out. -/
def emit (nodes : Nodes) : Output :=
  let shown := nodes.filter fun e => decide (2 ≤ e.2.cnt)
  { intrinsicResult := shown.map fun e => ⟨e.1, e.2.rs1, e.2.rs2⟩
    decMapPp := some (shown.flatMap fun e =>
      (e.2.followerSets.insertionSort (· ≤ ·)).map fun afset =>
        (e.1, afset.insertionSort (· ≤ ·))) }

def pp (c : Csvs) (field : OpField) (p : PerField) (d : Maps) (rows : List Row) : Option Output :=
  match field with
  | .none => some
      ⟨(d.1.filter fun e => decide (e.2.length ≠ 1)).map fun e => ⟨e.1, .absent, .absent⟩, none⟩
  | .rs1 => do
    let (nodes, todo) ← (checkResults c rows).foldlM (itselfStep c) ([], [])
    let nodes ← getDep (todo.foldl collect []) nodes .rs1
    pure (emit nodes)
  | .rs1rs2 => do
    let (nodes, todo) ← (checkResults c rows).foldlM (itselfStep c) ([], [])
    let raws ← todo.foldlM (perFieldStep c p) ([], [])
    let nodes ← getDep raws.1 (nodes.map fun e => (e.1, e.2.rs2false)) .rs1
    let nodes ← getDep raws.2 nodes .rs2
    pure (emit nodes)

/-! ### The flags of one source -/

/-- The flags of an operand that taints the decisions `v` of a source. -/
structure Counts (f : Flags) (v : List (List String)) : Prop where
  distinct : v.Nodup
  iso : f.iso = some (decide (2 ≤ v.length))
  onlyOne : f.onlyOne = some (decide (v.length = 1))
  noniso : f.noniso =
    some (decide (∃ a ∈ v, ∃ b ∈ v, ¬(a.map transform).Perm (b.map transform)))
  noniso_iso : f.noniso = some true → f.iso = some true

theorem insertionSort_eq_iff {l l' : List String} :
    l.insertionSort (· ≤ ·) = l'.insertionSort (· ≤ ·) ↔ l.Perm l' := by
  constructor
  · intro h
    have hperm := List.perm_insertionSort (· ≤ ·) l
    rw [h] at hperm
    exact hperm.symm.trans (List.perm_insertionSort (· ≤ ·) l')
  · intro h
    have hperm := ((List.perm_insertionSort (· ≤ ·) l).trans h).trans
      (List.perm_insertionSort (· ≤ ·) l').symm
    exact hperm.eq_of_pairwise' (List.pairwise_insertionSort _ l) (List.pairwise_insertionSort _ l')

theorem one_lt_length_iff {α : Type} [DecidableEq α] {l : List α} (h : l.Nodup) :
    1 < l.length ↔ ∃ a ∈ l, ∃ b ∈ l, a ≠ b := by
  rw [← List.toFinset_card_of_nodup h, Finset.one_lt_card]
  simp

/-- Two of the renamed decisions differ. -/
theorem one_lt_nonisoUpdate (v : List (List String)) : 1 < (nonisoUpdate v).length ↔
    ∃ a ∈ v, ∃ b ∈ v, ¬(a.map transform).Perm (b.map transform) := by
  unfold nonisoUpdate
  rw [one_lt_length_iff (nodup_foldl_insertNew List.nodup_nil)]
  simp only [mem_foldl_insertNew, List.not_mem_nil, false_or, List.mem_map, ne_eq,
    exists_exists_and_eq_and, insertionSort_eq_iff]

theorem counts_update {v : List (List String)} (hv : v.Nodup) :
    Counts (Flags.allFalse.update v) v := by
  have hflag (p : Prop) [Decidable p] :
      (if p then some true else some false) = some (decide p) := by
    split_ifs with hp <;> simp [hp]
  refine ⟨hv, hflag _, hflag _, ?_, ?_⟩
  · show (if 1 < (nonisoUpdate v).length then some true else some false) = _
    rw [hflag]
    simp only [one_lt_nonisoUpdate]
  · show (if 1 < (nonisoUpdate v).length then some true else some false) = some true →
      (if 1 < v.length then some true else some false) = some true
    rw [hflag, hflag, Option.some.injEq, Option.some.injEq, decide_eq_true_iff, decide_eq_true_iff,
      one_lt_nonisoUpdate, one_lt_length_iff hv]
    intro ⟨a, ha, b, hb, hne⟩
    exact ⟨a, ha, b, hb, fun heq => hne (by rw [heq])⟩

theorem Counts.not_both {f : Flags} {v : List (List String)} (h : Counts f v) :
    ¬(f.onlyOne = some true ∧ f.iso = some true) := by
  rw [h.onlyOne, h.iso]
  simp only [Option.some.injEq, decide_eq_true_iff]
  omega

/-! ### One pass of `get_dep` -/

/-- The decisions of a source among some rows. -/
def decisionsOf (rows : List Row) (k : String) : List (List String) :=
  (rows.filter (·.node = k)).map Row.fset

/-- No decision of a source is listed twice. -/
def Distinct (rows : List Row) : Prop := (rows.map fun r => (r.node, r.fset)).Nodup

section Pass

variable {rows : List Row} {nodes : Nodes} {op : Operand} {k : String}

theorem Distinct.filter (h : Distinct rows) (p : Row → Bool) : Distinct (rows.filter p) :=
  h.sublist (List.filter_sublist.map _)

theorem Distinct.nodup_decisionsOf (h : Distinct rows) (k : String) :
    (decisionsOf rows k).Nodup := by
  have hpairs : (rows.filter (·.node = k)).map (fun r => (r.node, r.fset)) =
      (decisionsOf rows k).map fun fset => (k, fset) := by
    unfold decisionsOf
    rw [List.map_map]
    apply List.map_congr_left
    intro r hr
    have hnode : r.node = k := by simpa using (List.mem_filter.mp hr).2
    simp [hnode]
  have hnd : ((decisionsOf rows k).map fun fset => (k, fset)).Nodup := by
    rw [← hpairs]
    exact h.filter fun r => decide (r.node = k)
  exact hnd.of_map

theorem keys_collected : ((rows.foldl collect []).map Prod.fst).Nodup := by
  show ((rows.foldl (fun d r => Dict.upsert r.node (· ++ [r.fset]) [r.fset] d) []).map
    Prod.fst).Nodup
  rw [Dict.keys_foldl_upsert]
  exact nodup_foldl_insertNew List.nodup_nil

theorem mem_keys_collected :
    k ∈ (rows.foldl collect []).map Prod.fst ↔ ∃ r ∈ rows, r.node = k := by
  show k ∈ (rows.foldl (fun d r => Dict.upsert r.node (· ++ [r.fset]) [r.fset] d) []).map
    Prod.fst ↔ _
  rw [Dict.keys_foldl_upsert, mem_foldl_insertNew]
  simp

theorem lookup_collected {v : List (List String)} (h : (rows.foldl collect []).lookup k = some v) :
    v = decisionsOf rows k :=
  Dict.lookup_foldl_append Row.node Row.fset h

theorem decisionsOf_eq_nil (h : (rows.foldl collect []).lookup k = none) :
    decisionsOf rows k = [] := by
  unfold decisionsOf
  rw [List.map_eq_nil_iff, List.filter_eq_nil_iff]
  intro r hr hnode
  have hkey := mem_keys_collected.mpr ⟨r, hr, by simpa using hnode⟩
  obtain ⟨v, hv⟩ := Dict.lookup_isSome_iff.mpr hkey
  rw [h] at hv
  cases hv

theorem DivDecNode.setFlags_update_nil (n : DivDecNode) : n.setFlags (·.update []) op = n := by
  cases op <;> rfl

/-- The loop of `get_dep` runs to its end and updates every source once. -/
theorem getDep_loop (op : Operand) (hdist : Distinct rows)
    (hkeys : ∀ r ∈ rows, r.node ∈ nodes.map Prod.fst) :
    ∃ nodes', (rows.foldl collect []).foldlM (getDepStep op) nodes = some nodes' ∧
      nodes'.map Prod.fst = nodes.map Prod.fst ∧ ∀ k, nodes'.lookup k =
        (nodes.lookup k).map fun n => n.setFlags (·.update (decisionsOf rows k)) op := by
  let upd (ns : Nodes) (kv : String × List (List String)) : Nodes :=
    Dict.upsert kv.1 (fun n => n.setFlags (·.update kv.2) op) .init ns
  have hentry (kv : String × List (List String)) (hkv : kv ∈ rows.foldl collect []) :
      kv.2 = decisionsOf rows kv.1 ∧ kv.1 ∈ nodes.map Prod.fst := by
    obtain ⟨r, hr, hnode⟩ := mem_keys_collected.mp (List.mem_map_of_mem hkv)
    rw [← hnode]
    refine ⟨?_, hkeys r hr⟩
    rw [hnode]
    exact lookup_collected ((Dict.mem_iff_lookup keys_collected).mp hkv)
  have hstep : ∀ ns : Nodes, ns.map Prod.fst = nodes.map Prod.fst → ∀ kv ∈ rows.foldl collect [],
      getDepStep op ns kv = some (upd ns kv) ∧ (upd ns kv).map Prod.fst = nodes.map Prod.fst := by
    intro ns hns kv hkv
    obtain ⟨hval, hkey⟩ := hentry kv hkv
    have honce : kv.2.all (fun t => kv.2.count t = 1) = true := by
      rw [List.all_eq_true]
      intro t ht
      rw [hval] at ht ⊢
      exact decide_eq_true (List.count_eq_one_of_mem (hdist.nodup_decisionsOf kv.1) ht)
    rw [← hns] at hkey
    refine ⟨if_pos ⟨honce, hkey⟩, ?_⟩
    show (Dict.upsert kv.1 _ _ ns).map Prod.fst = _
    rw [Dict.keys_upsert, insertNew, if_pos hkey, hns]
  obtain ⟨hrun, hend⟩ := foldlM_eq_foldl_of_inv hstep rfl
  refine ⟨_, hrun, hend, ?_⟩
  intro k
  show ((rows.foldl collect []).foldl (fun ns kv => Dict.upsert kv.1
    (fun n => n.setFlags (·.update kv.2) op) .init ns) nodes).lookup k = _
  rw [Dict.lookup_foldl_upsert, Dict.filter_key keys_collected]
  cases hraw : (rows.foldl collect []).lookup k with
  | none =>
    rw [decisionsOf_eq_nil hraw]
    simp [DivDecNode.setFlags_update_nil]
  | some v =>
    have hmem := (Dict.mem_iff_lookup keys_collected).mpr hraw
    obtain ⟨n, hn⟩ := Dict.lookup_isSome_iff.mpr (hentry (k, v) hmem).2
    have hn : nodes.lookup k = some n := hn
    rw [hn, lookup_collected hraw]
    rfl

theorem DivDecNode.flags_setFlags (n : DivDecNode) (f : Flags → Flags) (op' : Operand) :
    (n.setFlags f op).flags op' = if op' = op then f (n.flags op) else n.flags op' := by
  cases op <;> cases op' <;> rfl

/-- The flags of an operand count decisions at every source. -/
def CountsAt (op : Operand) (rows : List Row) (nodes : Nodes) : Prop :=
  ∀ k n, nodes.lookup k = some n → Counts (n.flags op) (decisionsOf rows k)

theorem CountsAt.exclusive (h : CountsAt op rows nodes) (hnd : (nodes.map Prod.fst).Nodup) :
    exclusive op nodes = true := by
  unfold Intrinsic.exclusive
  rw [List.all_eq_true]
  intro e he
  exact decide_eq_true (h e.1 e.2 ((Dict.mem_iff_lookup hnd).mp he)).not_both

/-- A pass for an operand whose flags are all false passes the assertions, if those about the
first operand hold already, and leaves the flags of the other operand as they are. -/
theorem getDep_counts (op : Operand) (hdist : Distinct rows)
    (hkeys : ∀ r ∈ rows, r.node ∈ nodes.map Prod.fst) (hnd : (nodes.map Prod.fst).Nodup)
    (hfresh : ∀ k n, nodes.lookup k = some n → n.flags op = .allFalse)
    (hfirst : op = .rs2 → ∃ rows', CountsAt .rs1 rows' nodes) :
    ∃ nodes', getDep (rows.foldl collect []) nodes op = some nodes' ∧
      nodes'.map Prod.fst = nodes.map Prod.fst ∧ CountsAt op rows nodes' ∧
      ∀ k n', nodes'.lookup k = some n' →
        ∃ n, nodes.lookup k = some n ∧ ∀ op' ≠ op, n'.flags op' = n.flags op' := by
  have ⟨nodes', hrun, hsame, hlookup⟩ := getDep_loop op hdist hkeys
  have hnode (k : String) (n' : DivDecNode) (hn' : nodes'.lookup k = some n') : ∃ n,
      nodes.lookup k = some n ∧ n' = n.setFlags (·.update (decisionsOf rows k)) op := by
    rw [hlookup] at hn'
    have ⟨n, hn, heq⟩ := Option.map_eq_some_iff.mp hn'
    exact ⟨n, hn, heq.symm⟩
  have hframe (k : String) (n' : DivDecNode) (hn' : nodes'.lookup k = some n') : ∃ n,
      nodes.lookup k = some n ∧ ∀ op' ≠ op, n'.flags op' = n.flags op' := by
    have ⟨n, hn, heq⟩ := hnode k n' hn'
    refine ⟨n, hn, ?_⟩
    intro op' hop
    rw [heq, DivDecNode.flags_setFlags, if_neg hop]
  have hcounts : CountsAt op rows nodes' := by
    intro k n' hn'
    have ⟨n, hn, heq⟩ := hnode k n' hn'
    rw [heq, DivDecNode.flags_setFlags, if_pos rfl, hfresh k n hn]
    exact counts_update (hdist.nodup_decisionsOf k)
  have hnd' : (nodes'.map Prod.fst).Nodup := by
    rw [hsame]
    exact hnd
  have hrs1 : exclusive .rs1 nodes' = true := by
    cases op with
    | rs1 => exact hcounts.exclusive hnd'
    | rs2 =>
      have ⟨rows', hrows'⟩ := hfirst rfl
      have hkept : CountsAt .rs1 rows' nodes' := by
        intro k n' hn'
        have ⟨n, hn, hflags⟩ := hframe k n' hn'
        rw [hflags .rs1 (by simp)]
        exact hrows' k n hn
      exact hkept.exclusive hnd'
  refine ⟨nodes', ?_, hsame, hcounts, hframe⟩
  unfold getDep
  rw [hrun]
  refine if_pos ⟨hrs1, ?_⟩
  intro hop
  rw [← hop]
  exact hcounts.exclusive hnd'

end Pass

/-! ### The loops over the verdict files -/

/-- Every query that the scripts read has its verdicts. -/
structure Complete (c : Csvs) (rows : List Row) : Prop where
  itself : ∀ r ∈ rows, ∃ v, c.itself r.cnt = some v ∧ v.1 ≠ .err ∧ v.2 ≠ .err
  perField : ∀ r ∈ rows, (c.itself r.cnt).map Prod.fst = some .covered →
    ∀ op, ∃ v, c.perField op r.cnt = some v ∧ v ≠ .err

/-- The decision is covered in the query of both operands. -/
def Csvs.coversBoth (c : Csvs) (r : Row) : Bool :=
  decide ((c.itself r.cnt).map Prod.fst = some .covered)

/-- The decision is covered in the query of both operands and in that of one. -/
def Csvs.taints (c : Csvs) (op : Operand) (r : Row) : Bool :=
  c.coversBoth r && decide (c.perField op r.cnt = some .covered)

/-- The decisions of a source that an operand taints. -/
def tainted (c : Csvs) (op : Operand) (rows : List Row) (node : String) : List (List String) :=
  decisionsOf (rows.filter (c.taints op)) node

section Loops

variable {c : Csvs} {rows : List Row} {p : PerField} {r : Row}

theorem dfQuery_of_ne {v : Result} (h : v ≠ .err) : dfQuery v = some v := if_neg h

theorem Complete.dep (hc : Complete c rows) (hr : r ∈ rows) :
    ∃ v, c.dep r.cnt = some v ∧ (v = .covered ↔ c.coversBoth r = true) := by
  have ⟨v, hv, hdep, _⟩ := hc.itself r hr
  refine ⟨v.1, ?_, ?_⟩
  · rw [Csvs.dep, hv, Option.bind_some, dfQuery_of_ne hdep]
  · simp [Csvs.coversBoth, hv]

theorem filter_snoc (seen : List Row) (r : Row) (q : Row → Bool) :
    (seen ++ [r]).filter q = if q r = true then seen.filter q ++ [r] else seen.filter q := by
  rw [List.filter_append]
  split_ifs with hq
  · rw [List.filter_cons_of_pos hq, List.filter_nil]
  · rw [List.filter_cons_of_neg hq, List.filter_nil, List.append_nil]

theorem togen_eq (hc : Complete c rows) : togen c rows = some (rows.filter c.coversBoth) := by
  have hstep : ∀ seen acc : List Row, acc = seen.filter c.coversBoth → ∀ r ∈ rows,
      ∃ acc', (c.dep r.cnt).map (fun res => if res = .covered then acc ++ [r] else acc) =
        some acc' ∧ acc' = (seen ++ [r]).filter c.coversBoth := by
    intro seen acc hacc r hr
    have ⟨v, hv, hcov⟩ := hc.dep hr
    refine ⟨_, by rw [hv, Option.map_some], ?_⟩
    simp only [filter_snoc, hacc, hcov]
  have hstart : ([] : List Row) = ([] : List Row).filter c.coversBoth := rfl
  have ⟨acc, hrun, hacc⟩ := foldlM_collects hstep hstart
  unfold togen
  rw [hrun, hacc, List.nil_append, List.flatMap_singleton']

/-- All covered decisions have a location that is not known to depend on one operand only, so none
of them is done. -/
theorem gen_eq (hc : Complete c rows) (hlist : checkResults c rows = rows)
    (hg : ∀ r ∈ rows, ∃ g, depg rows r = some g ∧ -1 ∈ g) :
    ∃ p, gen c .rs1rs2 rows = some p ∧ p.done = [] := by
  unfold gen
  rw [if_neg (by simp)]
  dsimp only
  rw [hlist, togen_eq hc]
  have hstep : ∀ p : PerField, p.done = [] → ∀ r ∈ rows.filter c.coversBoth,
      ∃ p', p.add rows r = some p' ∧ p'.done = [] := by
    intro p hp r hr
    have ⟨g, hdep, hmem⟩ := hg r (List.mem_filter.mp hr).1
    have hboth : bothFields g = true := decide_eq_true (.inl hmem)
    refine ⟨_, by rw [PerField.add, hdep, Option.map_some], ?_⟩
    rw [if_pos hboth]
    exact hp
  exact foldlM_some _ _ _ _ hstep rfl

/-- What the first loop of `pp` has noted of the rows it has seen. -/
structure Noted (c : Csvs) (seen : List Row) (s : Nodes × List Row) : Prop where
  todo : s.2 = seen.filter c.coversBoth
  nodup : (s.1.map Prod.fst).Nodup
  known : ∀ r ∈ seen, r.node ∈ s.1.map Prod.fst
  fresh : ∀ k n, s.1.lookup k = some n → n.rs1 = .allFalse

theorem Noted.step (hc : Complete c rows) {seen : List Row} {s : Nodes × List Row}
    (h : Noted c seen s) (hr : r ∈ rows) :
    ∃ s', itselfStep c s r = some s' ∧ Noted c (seen ++ [r]) s' := by
  have ⟨v, hv, hcov⟩ := hc.dep hr
  have ⟨w, hw, _, hsane⟩ := hc.itself r hr
  have hw : c.decsanity r.cnt = some w.2 := by
    rw [Csvs.decsanity, hw, Option.bind_some, dfQuery_of_ne hsane]
  let entered := Dict.upsert r.node id DivDecNode.init.rs1false s.1
  let counted := if w.2 = .covered then Dict.upsert r.node (·.addcnt r.fset) .init entered
    else entered
  have hkeys : entered.map Prod.fst = insertNew (s.1.map Prod.fst) r.node := Dict.keys_upsert
  have hentered : r.node ∈ entered.map Prod.fst := by
    rw [hkeys]
    exact mem_insertNew.mpr (.inr rfl)
  have hcounted : counted.map Prod.fst = entered.map Prod.fst := by
    dsimp only [counted]
    split_ifs
    · rw [Dict.keys_upsert, insertNew, if_pos hentered]
    · rfl
  have hfresh (k : String) (n : DivDecNode) (hn : entered.lookup k = some n) :
      n.rs1 = .allFalse := by
    rcases Dict.lookup_upsert_cases hn with ⟨_, hold⟩ | ⟨_, _, hinit⟩ | ⟨_, n₀, hold, heq⟩
    · exact h.fresh k n hold
    · rw [hinit]
      rfl
    · rw [heq]
      exact h.fresh r.node n₀ hold
  refine ⟨(counted, if v = .covered then s.2 ++ [r] else s.2), ?_, ?_, ?_, ?_, ?_⟩
  · unfold itselfStep
    rw [hv, hw]
    rfl
  · simp only [filter_snoc, h.todo, hcov]
  · rw [hcounted, hkeys]
    exact nodup_insertNew h.nodup r.node
  · intro r' hr'
    show r'.node ∈ counted.map Prod.fst
    rw [hcounted, hkeys]
    rcases List.mem_append.mp hr' with hseen | hnew
    · exact mem_insertNew.mpr (.inl (h.known r' hseen))
    · rw [List.mem_singleton.mp hnew]
      exact mem_insertNew.mpr (.inr rfl)
  · intro k n hn
    have hn : counted.lookup k = some n := hn
    dsimp only [counted] at hn
    split_ifs at hn
    · rcases Dict.lookup_upsert_cases hn with ⟨_, hold⟩ | ⟨_, hnone, _⟩ | ⟨_, n₀, hold, heq⟩
      · exact hfresh k n hold
      · obtain ⟨n', hn'⟩ := Dict.lookup_isSome_iff.mpr hentered
        rw [hnone] at hn'
        cases hn'
      · rw [heq]
        exact hfresh r.node n₀ hold
    · exact hfresh k n hn

theorem itself_loop (hc : Complete c rows) :
    ∃ s, rows.foldlM (itselfStep c) ([], []) = some s ∧ Noted c rows s := by
  have hstep : ∀ seen s, Noted c seen s → ∀ r ∈ rows,
      ∃ s', itselfStep c s r = some s' ∧ Noted c (seen ++ [r]) s' :=
    fun _ _ h _ hr => h.step hc hr
  have hstart : Noted c [] ([], []) := ⟨rfl, List.nodup_nil, by simp, by simp⟩
  have ⟨s, hrun, hs⟩ := foldlM_collects hstep hstart
  rw [List.nil_append, List.flatMap_singleton'] at hs
  exact ⟨s, hrun, hs⟩

theorem ask_eq (hc : Complete c rows) (hr : r ∈ rows.filter c.coversBoth) (op : Operand)
    (raw : Raw) :
    ask c p op raw r = some (if c.taints op r = true then collect raw r else raw) := by
  have ⟨hmem, hboth⟩ := List.mem_filter.mp hr
  have ⟨v, hv, hne⟩ := hc.perField r hmem (of_decide_eq_true hboth) op
  have htaint : v = .covered ↔ c.taints op r = true := by
    simp [Csvs.taints, hboth, hv]
  unfold ask
  rw [hv]
  simp only [dfQuery_of_ne hne, Option.map_some, htaint]

/-- The second loop of `pp` collects the decisions that each operand taints. -/
theorem perField_loop (hc : Complete c rows) (hp : p.done = []) :
    (rows.filter c.coversBoth).foldlM (perFieldStep c p) ([], []) =
      some ((rows.filter (c.taints .rs1)).foldl collect [],
        (rows.filter (c.taints .rs2)).foldl collect []) := by
  let keep (op : Operand) (raw : Raw) (r : Row) : Raw :=
    if c.taints op r = true then collect raw r else raw
  have hstep : ∀ raws : Raw × Raw, ∀ r ∈ rows.filter c.coversBoth,
      perFieldStep c p raws r = some (keep .rs1 raws.1 r, keep .rs2 raws.2 r) := by
    intro raws r hr
    unfold perFieldStep
    rw [hp, List.lookup_nil]
    dsimp only
    rw [ask_eq hc hr, ask_eq hc hr]
    rfl
  have hpair (xs : List Row) (raws : Raw × Raw) :
      xs.foldl (fun raws r => (keep .rs1 raws.1 r, keep .rs2 raws.2 r)) raws =
        (xs.foldl (keep .rs1) raws.1, xs.foldl (keep .rs2) raws.2) := by
    induction xs generalizing raws with
    | nil => rfl
    | cons r xs ih => rw [List.foldl_cons, ih, List.foldl_cons, List.foldl_cons]
  have hkeep (op : Operand) : (rows.filter c.coversBoth).foldl (keep op) [] =
      (rows.filter (c.taints op)).foldl collect [] := by
    have hand : rows.filter (c.taints op) = (rows.filter c.coversBoth).filter (c.taints op) := by
      rw [List.filter_filter]
      apply List.filter_congr
      intro r _
      unfold Csvs.taints
      cases c.coversBoth r <;> simp
    rw [hand]
    exact List.foldl_filter.symm
  rw [foldlM_eq_foldl hstep, hpair, hkeep, hkeep]

/-- The whole of `pp` for two operands. -/
theorem pp_counts (hc : Complete c rows) (hlist : checkResults c rows = rows)
    (hdist : Distinct rows) (hp : p.done = []) (d : Maps) :
    ∃ out, pp c .rs1rs2 p d rows = some out ∧ ∀ line ∈ out.intrinsicResult,
      Counts line.rs1 (tainted c .rs1 rows line.node) ∧
      Counts line.rs2 (tainted c .rs2 rows line.node) := by
  have ⟨s, hrun, hs⟩ := itself_loop hc
  let nodes : Nodes := s.1.map fun e => (e.1, e.2.rs2false)
  have hkeys : nodes.map Prod.fst = s.1.map Prod.fst := by
    dsimp only [nodes]
    rw [List.map_map]
    rfl
  have hnd : (nodes.map Prod.fst).Nodup := by
    rw [hkeys]
    exact hs.nodup
  have hlookup (k : String) (n : DivDecNode) (hn : nodes.lookup k = some n) :
      n.rs1 = .allFalse ∧ n.rs2 = .allFalse := by
    obtain ⟨e, he, heq⟩ := List.mem_map.mp ((Dict.mem_iff_lookup hnd).mpr hn)
    obtain ⟨rfl, rfl⟩ := Prod.mk.inj heq
    exact ⟨hs.fresh e.1 e.2 ((Dict.mem_iff_lookup hs.nodup).mp he), rfl⟩
  have hknown (op : Operand) : ∀ r ∈ rows.filter (c.taints op), r.node ∈ nodes.map Prod.fst := by
    intro r hr
    rw [hkeys]
    exact hs.known r (List.mem_filter.mp hr).1
  have ⟨nodes1, hdep1, hkeys1, hcounts1, hframe1⟩ := getDep_counts .rs1
    (hdist.filter (c.taints .rs1)) (hknown .rs1) hnd (fun k n hn => (hlookup k n hn).1) (by simp)
  rw [← hkeys1] at hnd
  have ⟨nodes2, hdep2, hkeys2, hcounts2, hframe2⟩ := getDep_counts .rs2
    (hdist.filter (c.taints .rs2)) (by rw [hkeys1]; exact hknown .rs2) hnd (by
      intro k n hn
      have ⟨n₀, hn₀, hsame⟩ := hframe1 k n hn
      rw [hsame .rs2 (by simp)]
      exact (hlookup k n₀ hn₀).2) fun _ => ⟨_, hcounts1⟩
  refine ⟨emit nodes2, ?_, ?_⟩
  · unfold pp
    dsimp only
    rw [hlist, hrun]
    show (s.2.foldlM (perFieldStep c p) ([], [])).bind _ = _
    rw [hs.todo, perField_loop hc hp]
    show (getDep ((rows.filter (c.taints .rs1)).foldl collect []) nodes .rs1).bind _ = _
    rw [hdep1]
    show (getDep ((rows.filter (c.taints .rs2)).foldl collect []) nodes1 .rs2).bind _ = _
    rw [hdep2]
    rfl
  · intro line hline
    obtain ⟨e, he, rfl⟩ := List.mem_map.mp hline
    rw [← hkeys2] at hnd
    have hn := (Dict.mem_iff_lookup hnd).mp (List.mem_filter.mp he).1
    have ⟨n₁, hn₁, hsame⟩ := hframe2 e.1 e.2 hn
    have hrs1 : e.2.rs1 = n₁.rs1 := hsame .rs1 (by simp)
    refine ⟨?_, hcounts2 e.1 e.2 hn⟩
    show Counts e.2.rs1 _
    rw [hrs1]
    exact hcounts1 e.1 n₁ hn₁

end Loops

/-! ### The rows of a log -/

/-- The queries are those of the decisions of the sources with other than one. -/
theorem queries_decisions {τ : Type} {S : Script τ} {allpl : List (String × Finset String)}
    {es : List (String × List (Finset String))} {qss : List (List (Query τ))}
    (h : es.mapM (sourceQueries S allpl) = some qss) :
    qss.flatten.map (fun q => (q.decisionNode, q.afset)) =
      (es.filter fun e => decide (e.2.length ≠ 1)).flatMap fun e => e.2.map fun a => (e.1, a) := by
  let decisions (e : String × List (Finset String)) : List (String × Finset String) :=
    if e.2.length = 1 then [] else e.2.map fun a => (e.1, a)
  have hsource : qss.map (List.map fun q => (q.decisionNode, q.afset)) = es.map decisions := by
    apply map_of_mapM h
    intro e _ qs hqs
    dsimp only [decisions]
    unfold sourceQueries at hqs
    split_ifs at hqs with hlen
    · obtain rfl := Option.some.inj hqs
      rw [if_pos hlen, List.map_nil]
    · obtain ⟨uniq, _, hqs⟩ := Option.bind_eq_some_iff.mp hqs
      rw [if_neg hlen]
      apply map_of_mapM hqs
      intro a _ q hq
      obtain ⟨b, _, rfl⟩ := Option.map_eq_some_iff.mp hq
      rfl
  have hfilter (es : List (String × List (Finset String))) : (es.map decisions).flatten =
      (es.filter fun e => decide (e.2.length ≠ 1)).flatMap fun e => e.2.map fun a => (e.1, a) := by
    induction es with
    | nil => rfl
    | cons e es ih =>
      rw [List.map_cons, List.flatten_cons, ih]
      by_cases hlen : e.2.length = 1
      · simp [decisions, hlen]
      · simp [decisions, hlen]
  rw [List.map_flatten, hsource, hfilter]

section Rows

variable {d : Maps} {rows : List Row}

/-- The pairs of source and decision, in the order of the rows. -/
def asked (d : Maps) : List (String × Finset String) :=
  (d.1.filter fun e => decide (e.2.length ≠ 1)).flatMap fun e => e.2.map fun a => (e.1, a)

theorem mem_asked_iff {k : String} {a : Finset String} :
    (k, a) ∈ asked d ↔ ∃ v, (k, v) ∈ d.1 ∧ v.length ≠ 1 ∧ a ∈ v := by
  unfold asked
  simp only [List.mem_flatMap, List.mem_filter, decide_eq_true_iff, List.mem_map, Prod.mk.injEq]
  constructor
  · intro ⟨e, ⟨he, hlen⟩, a', ha', hk, ha⟩
    subst hk ha
    exact ⟨e.2, he, hlen, ha'⟩
  · intro ⟨v, hv, hlen, ha⟩
    exact ⟨(k, v), ⟨hv, hlen⟩, a, ha, rfl, rfl⟩

theorem nodup_asked (hd : Decided d.1 (unionOf d.2)) : (asked d).Nodup := by
  have hkeys : (d.1.filter fun e => decide (e.2.length ≠ 1)).Pairwise fun e e' => e.1 ≠ e'.1 := by
    have hsub : (d.1.filter fun e => decide (e.2.length ≠ 1)).Sublist d.1 := List.filter_sublist
    exact List.pairwise_map.mp (hd.nodup_keys.sublist (hsub.map Prod.fst))
  unfold asked
  rw [List.nodup_flatMap]
  constructor
  · intro e he
    have hv := (Dict.mem_iff_lookup hd.nodup_keys).mp (List.mem_filter.mp he).1
    exact (hd.nodup e.1 e.2 hv).map fun _ _ h => (Prod.mk.inj h).2
  · apply hkeys.imp
    intro e e' hne x hx hx'
    obtain ⟨a, _, rfl⟩ := List.mem_map.mp hx
    obtain ⟨a', _, heq⟩ := List.mem_map.mp hx'
    exact hne (Prod.mk.inj heq).1.symm

theorem decRows_eq (h : decRows d = some rows) :
    rows.map (fun r => (r.node, r.fset)) = (asked d).map fun x => (x.1, readBack x.2) := by
  obtain ⟨qs, hqs, rfl⟩ := Option.map_eq_some_iff.mp h
  obtain ⟨qss, hqss, rfl⟩ := Option.map_eq_some_iff.mp hqs
  have hall := queries_decisions hqss
  unfold asked
  rw [← hall, List.map_map, List.map_map]
  have hfst := congrArg (List.map fun q : Query String => (q.decisionNode, readBack q.afset))
    (List.zipIdx_map_fst 0 qss.flatten)
  rw [List.map_map] at hfst
  exact hfst

/-- What the scripts need of the log: the rows name their decisions once, and the decision of a row
is one of at least two of its source. -/
structure Logged (d : Maps) (rows : List Row) : Prop where
  distinct : Distinct rows
  row : ∀ r ∈ rows, ∃ a, "" ∉ a ∧ r.fset = readBack a ∧
    ∃ r' ∈ rows, r'.node = r.node ∧ ∃ b, b ≠ a ∧ "" ∉ b ∧ r'.fset = readBack b

theorem logged (hd : Decided d.1 (unionOf d.2)) (hnames : ∀ e ∈ d.1, ∀ a ∈ e.2, "" ∉ a)
    (h : decRows d = some rows) : Logged d rows := by
  have hrows := decRows_eq h
  have hname {k : String} {a : Finset String} (hka : (k, a) ∈ asked d) : "" ∉ a := by
    have ⟨v, hv, _, ha⟩ := mem_asked_iff.mp hka
    exact hnames (k, v) hv a ha
  constructor
  · unfold Distinct
    rw [hrows]
    apply (nodup_asked hd).map_on
    intro x hx y hy heq
    have ⟨hk, ha⟩ := Prod.mk.inj heq
    exact Prod.ext hk (readBack_inj (hname hx) (hname hy) ha)
  · intro r hr
    have hpair : (r.node, r.fset) ∈ rows.map fun r => (r.node, r.fset) :=
      List.mem_map.mpr ⟨r, hr, rfl⟩
    rw [hrows] at hpair
    obtain ⟨⟨k, a⟩, hka, heq⟩ := List.mem_map.mp hpair
    have ⟨hk, ha⟩ := Prod.mk.inj heq
    have ⟨v, hv, hlen, hav⟩ := mem_asked_iff.mp hka
    refine ⟨a, hname hka, ha.symm, ?_⟩
    -- the source has another decision, and so another row
    have hnd := hd.nodup k v ((Dict.mem_iff_lookup hd.nodup_keys).mp hv)
    have hpos : 0 < v.length := List.length_pos_of_mem hav
    have ⟨x, hx, y, hy, hxy⟩ := (one_lt_length_iff hnd).mp (by omega)
    have ⟨b, hb, hba⟩ : ∃ b ∈ v, b ≠ a := by
      by_cases hxa : x = a
      · exact ⟨y, hy, fun hya => hxy (hxa.trans hya.symm)⟩
      · exact ⟨x, hx, hxa⟩
    have hkb : (k, b) ∈ asked d := mem_asked_iff.mpr ⟨v, hv, hlen, hb⟩
    have hother : (k, readBack b) ∈ rows.map fun r => (r.node, r.fset) := by
      rw [hrows]
      exact List.mem_map.mpr ⟨(k, b), hkb, rfl⟩
    obtain ⟨r', hr', heq'⟩ := List.mem_map.mp hother
    have ⟨hk', hb'⟩ := Prod.mk.inj heq'
    exact ⟨r', hr', hk'.trans hk, b, hba, hname hkb, hb'⟩

theorem Logged.checkResults_eq {c : Csvs} (h : Logged d rows) (hc : Complete c rows) :
    checkResults c rows = rows := by
  have hall : rows.filter (fun r => decide (1 < (rows.filter (·.node = r.node)).length)) =
      rows := by
    rw [List.filter_eq_self]
    intro r hr
    have ⟨a, ha, hfset, r', hr', hnode, b, hba, hb, hfset'⟩ := h.row r hr
    have hnd : (rows.filter (·.node = r.node)).Nodup := h.distinct.of_map.filter _
    apply decide_eq_true
    rw [one_lt_length_iff hnd]
    refine ⟨r, List.mem_filter.mpr ⟨hr, by simp⟩, r', List.mem_filter.mpr ⟨hr', by simpa⟩, ?_⟩
    intro heq
    apply hba
    apply readBack_inj hb ha
    rw [← hfset, ← hfset', heq]
  unfold checkResults
  dsimp only
  rw [hall, if_pos]
  rw [List.all_eq_true]
  intro r hr
  have ⟨v, hv, _⟩ := hc.itself r hr
  rw [hv]
  rfl

theorem mem_map_inUfsmArr {xs : List String} (h : xs ≠ []) : -1 ∈ (xs.map inUfsmArr).toFinset := by
  have ⟨x, hx⟩ := List.exists_mem_of_ne_nil xs h
  rw [List.mem_toFinset]
  exact List.mem_map.mpr ⟨x, hx, rfl⟩

/-- Every decision has a location, or its source has one in another decision. -/
theorem Logged.depg_both (h : Logged d rows) {r : Row} (hr : r ∈ rows) :
    ∃ g, depg rows r = some g ∧ -1 ∈ g := by
  have ⟨a, ha, hfset, r', hr', hnode, b, hba, hb, hfset'⟩ := h.row r hr
  have ⟨first, rest, hcons⟩ := List.exists_cons_of_ne_nil (readBack_ne_nil a)
  have hfirst : r.fset.head? = some first := by rw [hfset, hcons, List.head?_cons]
  refine ⟨_, by rw [depg, hfirst, Option.map_some], ?_⟩
  apply mem_map_inUfsmArr
  split_ifs with hempty
  · have hae : a = ∅ := by
      by_contra hne
      apply readBack_head ha hne
      rw [← hfset, ← hempty]
      exact List.mem_of_mem_head? hfirst
    have ⟨n, hn⟩ := Finset.nonempty_iff_ne_empty.mpr (hae ▸ hba)
    have hmem : n ∈ decisionMap rows r.node := by
      unfold decisionMap
      refine List.mem_flatMap.mpr ⟨r', List.mem_filter.mpr ⟨hr', by simpa⟩, ?_⟩
      rw [List.mem_filter, hfset', readBack, if_neg (hae ▸ hba)]
      exact ⟨(Finset.mem_sort _).mpr hn, decide_eq_true fun heq => hb (heq ▸ hn)⟩
    exact List.ne_nil_of_mem hmem
  · rw [hfset]
    exact readBack_ne_nil a

end Rows

/-- With the verdicts of all queries `pp` passes its assertions, and the flags of each line it
writes count the decisions of the source that are covered for both operands and for the one: at
least two, just one, and two that differ as lists of classes. -/
theorem flags_count_tainted {text : List Char} {d : Maps} (hd : getDecisionDic text = some d)
    (hnames : ∀ e ∈ d.1, ∀ a ∈ e.2, "" ∉ a) {rows : List Row} (hrows : decRows d = some rows)
    {c : Csvs} (hc : Complete c rows) :
    ∃ p out, gen c .rs1rs2 rows = some p ∧ pp c .rs1rs2 p d rows = some out ∧
      ∀ line ∈ out.intrinsicResult,
        Counts line.rs1 (tainted c .rs1 rows line.node) ∧
        Counts line.rs2 (tainted c .rs2 rows line.node) := by
  have hlog := logged (getDecisionDic_inv hd).decided hnames hrows
  have hlist := hlog.checkResults_eq hc
  have ⟨p, hgen, hdone⟩ := gen_eq hc hlist fun r hr => hlog.depg_both hr
  have ⟨out, hpp, hlines⟩ := pp_counts hc hlist hlog.distinct hdone d
  exact ⟨p, out, hgen, hpp, hlines⟩

/-- A source with two decisions: both depend on the first operand, one on the second. -/
theorem flags_count_tainted_two :
    let d : Maps := ([("a", [{"b"}, {"c"}])], [("a", {"b", "c"})])
    let rows : List Row := [⟨0, "a", ["b"]⟩, ⟨1, "a", ["c"]⟩]
    let c : Csvs := ⟨fun _ => some (.covered, .covered), fun op cnt =>
      some (if op = .rs1 ∨ cnt = 0 then .covered else .unreachable)⟩
    getDecisionDic "a:2\nb\nc\n".toList = some d ∧ decRows d = some rows ∧ Complete c rows ∧
      ∃ p out, gen c .rs1rs2 rows = some p ∧ pp c .rs1rs2 p d rows = some out ∧
        out.intrinsicResult = [⟨"a", ⟨some true, some true, some false⟩,
          ⟨some false, some false, some true⟩⟩] ∧
        ∀ line ∈ out.intrinsicResult,
          Counts line.rs1 (tainted c .rs1 rows line.node) ∧
          Counts line.rs2 (tainted c .rs2 rows line.node) := by
  intro d rows c
  have hd : getDecisionDic "a:2\nb\nc\n".toList = some d := by decide
  have hsort : ({"b", "c"} : Finset String).sort = ["b", "c"] := by
    rw [Finset.sort_insert (· ≤ ·) (by decide) (by decide), Finset.sort_singleton]
  have hrows : decRows d = some rows := by
    simp [decRows, d, rows, queries, sourceQueries, query, followerset, literal, intrinsic, hsort,
      readBack]
  have hc : Complete c rows := by
    refine ⟨fun r _ => ⟨_, rfl, by simp⟩, fun r _ _ op => ⟨_, rfl, ?_⟩⟩
    split_ifs <;> simp
  obtain ⟨p, out, hgen, hpp, hcounts⟩ := flags_count_tainted hd (by decide) hrows hc
  refine ⟨hd, hrows, hc, p, out, hgen, hpp, ?_, hcounts⟩
  have hval : (gen c .rs1rs2 rows).bind (fun p => (pp c .rs1rs2 p d rows).map
      Output.intrinsicResult) = some [⟨"a", ⟨some true, some true, some false⟩,
        ⟨some false, some false, some true⟩⟩] := by decide +kernel
  rw [hgen, Option.bind_some, hpp, Option.map_some] at hval
  exact Option.some.inj hval

end SynthLC.Intrinsic
