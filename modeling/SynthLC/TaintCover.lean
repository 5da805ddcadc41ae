import SynthLC.GroupCover
import SynthLC.IftHeader
import SynthLC.IntrinRuns

/-! What the queries of `itself_template_prop` say about a design with taint: the locations and their
taint as wires, the operands' taint as `common_header.sv` assumes it, and what the steps that ask for
groups, instructions and operands find out about such a design. -/
namespace SynthLC

namespace TaintCover

open Sva IftHeader Opcodes

/-! ### The query -/

/-- The wire of a location and that of its taint. -/
inductive Wire where
  | loc (pl : String)
  | t0 (pl : String)
  deriving DecidableEq

/-- `transform_iso_t0` -/
def transformIsoT0 (isopl : String) : Option (List (BExp Wire)) :=
  let term (n : String) : BExp Wire := .and (.sig (.loc n)) (.sig (.t0 n))
  if isoMark <:+: isopl.toList then (classNames isopl).map fun names => names.map term
  else some [term isopl]

/-- `transform_iso_t0_neg` -/
def transformIsoT0Neg (isopl decisionNode : String) : Option (List (BExp Wire)) := do
  let decNode ← decNodeSet decisionNode
  if isoMark <:+: isopl.toList then
    let plG ← isoIndex isopl
    let names ← classNames isopl
    match decNode.filter fun x => sameUfsm.any fun itm => x.1 ∈ itm ∧ plG ∈ itm with
    | some (_, decNames) =>
      some ((decNames.zip names).map fun x => .and (.past 1 (.sig (.loc x.1))) (.sig (.t0 x.2)))
    | none => some (names.map fun n => .sig (.t0 n))
  else some [.sig (.t0 isopl)]

def t0Terms : Dyn.TaintTerm → Option (List (BExp Wire))
  | .active pl => transformIsoT0 pl
  | .neg pl decisionSrc => transformIsoT0Neg pl decisionSrc

def literal (x : Bool × String) : Option (BExp Wire) :=
  (transformDisjunc x.2).map fun b => if x.1 then b.map .loc else .not (b.map .loc)

/-- `DECNODE ##1 (FOLLOWERSET && TT0)` -/
def cover (dec : Dyn.Decision) : Option (Seq Wire) := do
  let decnode ← transformDisjunc dec.decnode
  let followerset ← dec.followerset.mapM literal
  let t0 ← dec.t0.mapM t0Terms
  some (.cat (.bool (decnode.map .loc)) 1 (.bool (.and (.all followerset) (.any t0.flatten))))

/-- The locations are visited alike and at least as many are tainted. -/
structure Dominates (w' w : Wave Wire) : Prop where
  loc : ∀ t pl, w' t (.loc pl) = w t (.loc pl)
  t0 : ∀ t pl, w t (.t0 pl) = true → w' t (.t0 pl) = true

section Query

variable {w w' : Wave Wire}

theorem Dominates.eval_loc (h : Dominates w' w) (b : BExp String) (t : Nat) :
    (b.map Wire.loc).eval w' t = (b.map Wire.loc).eval w t := by
  have hloc : (fun t s => w' t (Wire.loc s)) = fun t s => w t (Wire.loc s) := by
    funext t pl
    exact h.loc t pl
  rw [eval_map, eval_map, hloc]

theorem Dominates.eval_literal (h : Dominates w' w) {x : Bool × String} {b : BExp Wire}
    (hb : literal x = some b) (t : Nat) : b.eval w' t = b.eval w t := by
  obtain ⟨b', _, rfl⟩ := Option.map_eq_some_iff.mp hb
  split
  · exact h.eval_loc b' t
  · simp only [BExp.eval, h.eval_loc]

theorem Dominates.eval_active (h : Dominates w' w) (pl : String) {t : Nat}
    (ht : (BExp.and (.sig (.loc pl)) (.sig (.t0 pl))).eval w t = true) :
    (BExp.and (.sig (.loc pl)) (.sig (.t0 pl))).eval w' t = true := by
  rw [eval_and, eval_sig, eval_sig] at ht ⊢
  exact ⟨by rw [h.loc, ht.1], h.t0 t pl ht.2⟩

theorem Dominates.eval_transformIsoT0 (h : Dominates w' w) {pl : String} {bs : List (BExp Wire)}
    (hbs : transformIsoT0 pl = some bs) {b : BExp Wire} (hb : b ∈ bs) {t : Nat}
    (ht : b.eval w t = true) : b.eval w' t = true := by
  unfold transformIsoT0 at hbs
  split at hbs
  · obtain ⟨names, _, rfl⟩ := Option.map_eq_some_iff.mp hbs
    obtain ⟨n, _, rfl⟩ := List.mem_map.mp hb
    exact h.eval_active n ht
  · obtain rfl := Option.some.inj hbs
    obtain rfl := List.mem_singleton.mp hb
    exact h.eval_active pl ht

theorem Dominates.eval_transformIsoT0Neg (h : Dominates w' w) {pl src : String}
    {bs : List (BExp Wire)} (hbs : transformIsoT0Neg pl src = some bs) {b : BExp Wire} (hb : b ∈ bs)
    {t : Nat} (ht : b.eval w t = true) : b.eval w' t = true := by
  obtain ⟨decNode, _, hbs⟩ := Option.bind_eq_some_iff.mp hbs
  by_cases hiso : isoMark <:+: pl.toList
  · rw [if_pos hiso] at hbs
    obtain ⟨plG, _, hbs⟩ := Option.bind_eq_some_iff.mp hbs
    obtain ⟨names, _, hbs⟩ := Option.bind_eq_some_iff.mp hbs
    split at hbs
    · obtain rfl := Option.some.inj hbs
      obtain ⟨x, _, rfl⟩ := List.mem_map.mp hb
      rw [eval_and, eval_past, eval_sig, eval_sig] at ht ⊢
      exact ⟨⟨ht.1.1, by rw [h.loc, ht.1.2]⟩, h.t0 t x.2 ht.2⟩
    · obtain rfl := Option.some.inj hbs
      obtain ⟨n, _, rfl⟩ := List.mem_map.mp hb
      exact h.t0 t n ht
  · rw [if_neg hiso] at hbs
    obtain rfl := Option.some.inj hbs
    obtain rfl := List.mem_singleton.mp hb
    exact h.t0 t pl ht

/-- A query that is covered stays so with more taint. -/
theorem Dominates.covered (h : Dominates w' w) {dec : Dyn.Decision} {q : Seq Wire}
    (hq : cover dec = some q) (hcov : q.Covered w) : q.Covered w' := by
  obtain ⟨decnode, _, hq⟩ := Option.bind_eq_some_iff.mp hq
  obtain ⟨followerset, hfollow, hq⟩ := Option.bind_eq_some_iff.mp hq
  obtain ⟨t0, ht0, hq⟩ := Option.bind_eq_some_iff.mp hq
  obtain rfl := Option.some.inj hq
  obtain ⟨_, _, i, ⟨rfl, hdec⟩, rfl, hnext⟩ := hcov
  rw [eval_and, eval_all, eval_any] at hnext
  refine ⟨i, i + 1, i, ⟨rfl, by rw [h.eval_loc, hdec]⟩, rfl, ?_⟩
  rw [eval_and, eval_all, eval_any]
  constructor
  · intro b hb
    obtain ⟨x, _, hx⟩ := (Loop.mem_mapM hfollow).mp hb
    rw [h.eval_literal hx]
    exact hnext.1 b hb
  · obtain ⟨b, hb, hval⟩ := hnext.2
    refine ⟨b, hb, ?_⟩
    obtain ⟨bs, hbs, hmem⟩ := List.mem_flatten.mp hb
    obtain ⟨term, _, hterm⟩ := (Loop.mem_mapM ht0).mp hbs
    cases term with
    | active pl => exact h.eval_transformIsoT0 hterm hmem hval
    | neg pl src => exact h.eval_transformIsoT0Neg hterm hmem hval

end Query

/-! ### Designs with taint -/

/-- `operand_a_q_t0` and `operand_b_q_t0` -/
structure OperandTaint where
  a : BitVec 64
  b : BitVec 64

/-- Every bit that is tainted on the left is on the right. -/
instance operandTaintLE : LE OperandTaint :=
  ⟨fun o o' => o.a &&& o'.a = o.a ∧ o.b &&& o'.b = o.b⟩

/-- `read_op_i` with `T_FROM_IUV` -/
def readOpI (x : In) : Bool := x.pcO == x.pc0

/-- The assumptions that `BORTHRS`, `RS1` and `RS2` switch on. -/
def TaintAssumed (taint : Dyn.Taint) (x : Nat → In) (o : Nat → OperandTaint) : Prop :=
  match taint with
  | .both =>
    (∀ t, readOpI (x t) = true → (o t).a = .allOnes 64 ∧ (o t).b = .allOnes 64) ∧
      ∀ t, readOpI (x t) = false → (o t).a = 0 ∧ (o t).b = 0
  | .rs1 =>
    (∀ t, readOpI (x t) = true → (o t).a = .allOnes 64) ∧
      (∀ t, readOpI (x t) = false → (o t).a = 0) ∧ ∀ t, (o t).b = 0
  | .rs2 =>
    (∀ t, readOpI (x t) = true → (o t).b = .allOnes 64) ∧
      (∀ t, readOpI (x t) = false → (o t).b = 0) ∧ ∀ t, (o t).a = 0

/-- The taint of the operands when both are tainted. -/
def bothTaint (x : In) : OperandTaint :=
  if readOpI x then ⟨.allOnes 64, .allOnes 64⟩ else ⟨0, 0⟩

theorem bothTaint_assumed (x : Nat → In) : TaintAssumed .both x fun t => bothTaint (x t) := by
  constructor
  · intro t ht
    simp [bothTaint, ht]
  · intro t ht
    simp [bothTaint, ht]

/-- One operand's taint is part of the taint of both. -/
theorem le_bothTaint {op : Operand} {x : Nat → In} {o : Nat → OperandTaint}
    (h : TaintAssumed (Dyn.ofOperand op) x o) (t : Nat) : o t ≤ bothTaint (x t) := by
  cases op with
  | rs1 =>
    obtain ⟨_, hnot, hother⟩ := h
    cases hr : readOpI (x t) with
    | true =>
      refine ⟨?_, ?_⟩
      · rw [bothTaint, if_pos hr]
        exact BitVec.and_allOnes
      · rw [hother]
        exact BitVec.zero_and
    | false =>
      refine ⟨?_, ?_⟩
      · rw [hnot t hr]
        exact BitVec.zero_and
      · rw [hother]
        exact BitVec.zero_and
  | rs2 =>
    obtain ⟨_, hnot, hother⟩ := h
    cases hr : readOpI (x t) with
    | true =>
      refine ⟨?_, ?_⟩
      · rw [hother]
        exact BitVec.zero_and
      · rw [bothTaint, if_pos hr]
        exact BitVec.and_allOnes
    | false =>
      refine ⟨?_, ?_⟩
      · rw [hother]
        exact BitVec.zero_and
      · rw [hnot t hr]
        exact BitVec.zero_and

/-- A design with taint logic beside it: the values do not depend on taint, and more taint in gives
more taint out. -/
structure Design (V T : Type) [Preorder T] where
  runs : Set (Nat → V)
  header : V → In
  loc : V → String → Bool
  init : T
  next : V → T → OperandTaint → T
  flag : V → T → OperandTaint → String → Bool
  next_mono : ∀ v {τ τ' o o'}, τ ≤ τ' → o ≤ o' → next v τ o ≤ next v τ' o'
  flag_mono : ∀ v {τ τ' o o'} pl, τ ≤ τ' → o ≤ o' → flag v τ o pl = true → flag v τ' o' pl = true

def sideHolds : Dyn.Side → BitVec 32 → Bool
  | .group id => groupHolds id
  | .instn i => memberHolds i

/-- Files of instructions may define `SYSINSN`, those of groups do not. -/
def sysinsn : Dyn.Side → Bool
  | .group _ => false
  | .instn i => decide (.define ∈ opcodesGenAll i)

section Design

variable {V T : Type} [Preorder T] (D : Design V T)

/-- The state of the taint logic over time. -/
def Design.taint (D : Design V T) (v : Nat → V) (o : Nat → OperandTaint) : Nat → T
  | 0 => D.init
  | t + 1 => D.next (v t) (D.taint v o t) (o t)

def Design.wave (v : Nat → V) (o : Nat → OperandTaint) : Wave Wire
  | t, .loc pl => D.loc (v t) pl
  | t, .t0 pl => D.flag (v t) (D.taint v o t) (o t) pl

def Design.input (v : Nat → V) (t : Nat) : In := D.header (v t)

/-- The cover is reached in a run that the header and the constraint on `i0` admit. -/
def Design.Reached (taint : Dyn.Taint) (side : Dyn.Side) (q : Seq Wire) : Prop :=
  ∃ v ∈ D.runs, Assumed (sysinsn side) (D.input v) ∧
    (∀ t, sideHolds side (D.input v t).i0 = true) ∧
    ∃ o, TaintAssumed taint (D.input v) o ∧ q.Covered (D.wave v o)

open Classical in
/-- What the model checker answers. -/
noncomputable def Design.answer (taint : Dyn.Taint) (side : Dyn.Side) (dec : Dyn.Decision) : Bool :=
  decide (∃ q, cover dec = some q ∧ D.Reached taint side q)

variable {D}

theorem Design.answer_iff {taint : Dyn.Taint} {side : Dyn.Side} {dec : Dyn.Decision} :
    D.answer taint side dec = true ↔ ∃ q, cover dec = some q ∧ D.Reached taint side q := by
  simp [Design.answer]

theorem Design.taint_mono {v : Nat → V} {o o' : Nat → OperandTaint} (h : ∀ t, o t ≤ o' t) (t : Nat) :
    D.taint v o t ≤ D.taint v o' t := by
  induction t with
  | zero => exact le_rfl
  | succ t ih => exact D.next_mono (v t) ih (h t)

theorem Design.dominates {v : Nat → V} {o o' : Nat → OperandTaint} (h : ∀ t, o t ≤ o' t) :
    Dominates (D.wave v o') (D.wave v o) where
  loc _ _ := rfl
  t0 t pl := D.flag_mono (v t) pl (D.taint_mono h t) (h t)

/-- What taint through one operand reaches, taint through both does. -/
theorem Design.answer_both {op : Operand} {side : Dyn.Side} {dec : Dyn.Decision}
    (h : D.answer (Dyn.ofOperand op) side dec = true) : D.answer .both side dec = true := by
  rw [Design.answer_iff] at h ⊢
  obtain ⟨q, hq, v, hv, hassumed, hside, o, ho, hcov⟩ := h
  refine ⟨q, hq, v, hv, hassumed, hside, _, bothTaint_assumed _, ?_⟩
  exact (Design.dominates fun t => le_bothTaint ho t).covered hq hcov

theorem define_of_csr : ∀ ip ∈ csrInstns, .define ∈ opcodesGenAll ip := by decide

/-- The query of a group is reached where that of an instruction is, if its file defines nothing. -/
theorem Design.answer_group {g : Group} (hg : g ∈ batchTransponder) {ip : Instn} (hip : ip ∈ g.instns)
    (hplain : .define ∉ opcodesGenAll ip) {taint : Dyn.Taint} {dec : Dyn.Decision}
    (h : D.answer taint (.instn ip) dec = true) : D.answer taint (.group g.id) dec = true := by
  rw [Design.answer_iff] at h ⊢
  obtain ⟨q, hq, v, hv, hassumed, hside, hcov⟩ := h
  have hcsr : ip ∉ csrInstns := fun hcsr => hplain (define_of_csr ip hcsr)
  have hwords := (groupHolds_of_memberHolds_iff (List.mem_append_right _ hg) hip).mpr hcsr
  refine ⟨q, hq, v, hv, ?_, fun t => hwords _ (hside t), hcov⟩
  have hsys : sysinsn (.instn ip) = false := decide_eq_false hplain
  rw [hsys] at hassumed
  exact hassumed

/-- Calls for a group as `batch_transponder_2.txt` lists it. -/
structure OfListed (g : Group) (calls : List Intrin.Call) : Prop extends
    Intrin.OfGroup g.id calls where
  instns : ∀ s ∈ calls, s.ipInstns = g.instns

/-- A store of the group is reached by the taint of its address only. -/
def StoresByAddress (D : Design V T) (g : Group) : Prop :=
  ∀ ip ∈ g.instns, ip ∈ Dyn.stores → ∀ dec, D.answer .rs2 (.instn ip) dec = false ∧
    (D.answer .both (.instn ip) dec = true → D.answer .rs1 (.instn ip) dec = true)

theorem Design.monotone {g : Group} (hg : g ∈ batchTransponder)
    (hplain : ∀ ip ∈ g.instns, .define ∉ opcodesGenAll ip) (hstores : StoresByAddress D g)
    {calls : List Intrin.Call} (hcalls : OfListed g calls) {s : Intrin.Call} (hs : s ∈ calls) :
    Intrin.Monotone s D.answer where
  group := by
    intro ip hip taint dec h
    rw [hcalls.instns s hs] at hip
    rw [hcalls.group s hs]
    exact Design.answer_group hg hip (hplain ip hip) h
  both _ _ _ h := Design.answer_both h
  store := by
    intro ip hip
    rw [hcalls.instns s hs] at hip
    exact hstores ip hip

end Design

/-! ### Groups whose instructions define `SYSINSN` -/

/-- The word of an instruction, with the cycle. -/
structure Cycle where
  word : BitVec 32
  t : Nat

/-- One instruction is fetched in the first cycle, and decoding it raises an exception. -/
def raising (v : Cycle) : In where
  rstNi := true
  fetchEx := false
  valid := true
  ready := true
  instruction := v.word
  address := if v.t = 0 then 1 else 0
  entryEx := false
  decodedEx := true
  halt := false
  pcO := 1
  i0 := v.word
  pc0 := 1
  i1 := 0
  pc1 := 0

/-- Taint that stays once it was there. -/
structure Latch where
  tainted : Bool

instance latchPreorder : Preorder Latch where
  le τ τ' := τ.tainted = true → τ'.tainted = true
  le_refl _ h := h
  le_trans _ _ _ h h' hτ := h' (h hτ)

def OperandTaint.any (o : OperandTaint) : Bool := o.a != 0 || o.b != 0

theorem OperandTaint.any_mono {o o' : OperandTaint} (h : o ≤ o') (ho : o.any = true) :
    o'.any = true := by
  have hzero {x y : BitVec 64} (hxy : x &&& y = x) (hx : x ≠ 0) : y ≠ 0 := by
    rintro rfl
    exact hx (hxy.symm.trans BitVec.and_zero)
  simp only [OperandTaint.any, Bool.or_eq_true, bne_iff_ne] at ho ⊢
  exact ho.imp (hzero h.1) (hzero h.2)

/-- The source `d` is visited in every other cycle, `p` after every other of these, and taint spreads
to everything. -/
def raisingDesign : Design Cycle Latch where
  runs := Set.range fun word t => ⟨word, t⟩
  header := raising
  loc v pl := (decide (pl = "d") && decide (v.t % 2 = 0)) || (decide (pl = "p") && decide (v.t % 4 = 1))
  init := ⟨false⟩
  next _ τ o := ⟨τ.tainted || o.any⟩
  flag _ τ o _ := τ.tainted || o.any
  next_mono := by
    intro v τ τ' o o' hτ ho h
    simp only [Bool.or_eq_true] at h ⊢
    exact h.imp hτ (OperandTaint.any_mono ho)
  flag_mono := by
    intro v τ τ' o o' pl hτ ho h
    simp only [Bool.or_eq_true] at h ⊢
    exact h.imp hτ (OperandTaint.any_mono ho)

theorem raising_assumed (word : BitVec 32) : Assumed true fun t => raising ⟨word, t⟩ := by
  have haddress (t : Nat) : (raising ⟨word, t⟩).address = 1 ↔ t = 0 := by
    by_cases ht : t = 0 <;> simp [raising, ht]
  have hbegin (t : Nat) : instnBegin (raising ⟨word, t⟩) = true ↔ t = 0 := by
    rw [← haddress]
    simp [instnBegin, raising]
  refine ⟨fun _ => rfl, ?_, fun _ => rfl, fun _ => rfl, fun _ => rfl, fun _ => rfl, ?_,
    fun _ _ => rfl, fun _ _ => ⟨rfl, rfl⟩, fun _ => rfl, ?_, ?_, fun _ _ => rfl⟩
  · intro t _ hready
    cases hready
  · intro t
    exact (by decide : (1 : BitVec 64) ≠ 0)
  · intro t _ u hu h
    have hzero := (haddress u).mp h
    omega
  · intro t hfirst
    cases t with
    | zero => exact ⟨0, le_rfl, (hbegin 0).mpr rfl⟩
    | succ t =>
      rw [run_succ (fun _ => rfl)] at hfirst
      simp [edge] at hfirst

/-- A group's query has no run to look at: the header wants an instruction that decodes. -/
theorem raising_group (id : Nat) (taint : Dyn.Taint) (dec : Dyn.Decision) :
    raisingDesign.answer taint (.group id) dec = false := by
  rw [← Bool.not_eq_true, Design.answer_iff]
  rintro ⟨q, _, _, ⟨word, rfl⟩, hassumed, _⟩
  have hdecoded := (hassumed.pc0I0Assoc2 0 rfl).2
  cases hdecoded

theorem raising_instn {ip : Instn} (hdefine : .define ∈ opcodesGenAll ip) {dec : Dyn.Decision}
    {q : Seq Wire} (hq : cover dec = some q)
    (hcov : ∀ word, q.Covered (raisingDesign.wave (fun t => ⟨word, t⟩) fun _ => ⟨.allOnes 64, 0⟩)) :
    raisingDesign.answer .rs1 (.instn ip) dec = true := by
  rw [Design.answer_iff]
  refine ⟨q, hq, _, ⟨BitField.sample (tests ip), rfl⟩, ?_, fun _ => memberHolds_sample ip,
    fun _ => ⟨.allOnes 64, 0⟩, ⟨fun _ _ => rfl, ?_, fun _ => rfl⟩, hcov _⟩
  · rw [show sysinsn (.instn ip) = true from decide_eq_true hdefine]
    exact raising_assumed _
  · intro t ht
    cases ht

/-- A group with a source and one location that may follow it. -/
def followedBy (g : Group) (hne : g.instns ≠ []) (hnd : g.instns.Nodup) : Intrin.Call where
  ipId := g.id
  ipInstns := g.instns
  decisionSrc := "d"
  uniqPl := ["p"]
  cntFollowerSets := [(0, ["p"]), (1, [])]
  groups := []
  xPruning := []
  intrinRes := ⟨false, false⟩
  ip_ne := hne
  ip_nodup := hnd
  cnt_nodup := by decide
  id_nodup := .nil
  instns_ne := nofun
  instns_nodup := .nil
  fieldIp := g.field

/-- The two decisions of the source, and what is asked for them. -/
def followed : Dyn.Decision := ⟨"d", [(false, "d"), (true, "p")], [.active "p"]⟩

def notFollowed : Dyn.Decision := ⟨"d", [(false, "d"), (false, "p")], [.neg "p" "d"]⟩

def followedCover : Seq Wire :=
  .cat (.bool (.sig (.loc "d"))) 1 (.bool (.and (.all [.not (.sig (.loc "d")), .sig (.loc "p")])
    (.any [.and (.sig (.loc "p")) (.sig (.t0 "p"))])))

def notFollowedCover : Seq Wire :=
  .cat (.bool (.sig (.loc "d"))) 1 (.bool (.and
    (.all [.not (.sig (.loc "d")), .not (.sig (.loc "p"))]) (.any [.sig (.t0 "p")])))

theorem raising_followed {ip : Instn} (hdefine : .define ∈ opcodesGenAll ip) :
    raisingDesign.answer .rs1 (.instn ip) followed = true := by
  apply raising_instn hdefine (by decide : cover followed = some followedCover)
  intro word
  refine ⟨0, 1, 0, ⟨rfl, ?_⟩, rfl, ?_⟩ <;>
    simp [BExp.all, BExp.any, Design.wave, raisingDesign, OperandTaint.any]

theorem raising_notFollowed {ip : Instn} (hdefine : .define ∈ opcodesGenAll ip) :
    raisingDesign.answer .rs1 (.instn ip) notFollowed = true := by
  apply raising_instn hdefine (by decide : cover notFollowed = some notFollowedCover)
  intro word
  refine ⟨2, 3, 2, ⟨rfl, ?_⟩, rfl, ?_⟩ <;>
    simp [BExp.all, BExp.any, Design.wave, raisingDesign, OperandTaint.any]

theorem raising_exhaustive {g : Group} (hne : g.instns ≠ []) (hnd : g.instns.Nodup)
    (hdefine : ∀ ip ∈ g.instns, .define ∈ opcodesGenAll ip) :
    Intrin.exhaustive (followedBy g hne hnd) raisingDesign.answer .rs1 = true := by
  have hsets : (followedBy g hne hnd).cntFollowerSets.map
      (fun x => (followedBy g hne hnd).decision x.2) = [followed, notFollowed] := by
    simp [followedBy, Dyn.Setup.decision, followed, notFollowed]
  rw [Intrin.exhaustive, Bool.and_eq_true, List.all_eq_true]
  refine ⟨by simp, ?_⟩
  intro ip hip
  have htwo : [followed, notFollowed].countP (raisingDesign.answer .rs1 (.instn ip)) = 2 := by
    rw [List.countP_cons_of_pos (raising_followed (hdefine ip hip)),
      List.countP_cons_of_pos (raising_notFollowed (hdefine ip hip)), List.countP_nil]
  rw [← hsets, List.countP_map] at htwo
  rw [decide_eq_true_iff]
  exact htwo.ge

theorem raising_flags {g : Group} (hne : g.instns ≠ []) (hnd : g.instns.Nodup) :
    Intrin.storesPass (followedBy g hne hnd) raisingDesign.answer = true ∧
      Intrin.tainted (followedBy g hne hnd) raisingDesign.answer .rs1 = false := by
  have hgroup (x : Nat × List String) :
      Intrin.answer (followedBy g hne hnd) raisingDesign.answer x (.group x.1) = false :=
    raising_group _ _ _
  constructor
  · simp [Intrin.storesPass, hgroup]
  · obtain ⟨ip, hip⟩ := List.exists_mem_of_ne_nil _ hne
    rw [← Bool.not_eq_true, Intrin.tainted, List.all_eq_true]
    intro hall
    have hnone : (followedBy g hne hnd).cntFollowerSets.countP
        (Intrin.counted (followedBy g hne hnd) raisingDesign.answer ip .rs1) = 0 := by
      rw [List.countP_eq_zero]
      intro x _
      simp [Intrin.counted, hgroup]
    have htwo := hall ip hip
    rw [hnone] at htwo
    cases htwo

/-- For every design with taint logic, and in every interleaving, the flags of the group are those
that asking each instruction and operand would give. -/
def FlagsExact (g : Group) : Prop :=
  ∀ (V T : Type) [Preorder T] (D : Design V T), StoresByAddress D g →
    ∀ calls, OfListed g calls →
      ∀ d, BatchRun.Steady (Intrin.jobs g.id) (calls.flatMap Intrin.Call.wanted) d →
        ∀ rs d', Intrin.Runs D.answer calls d rs d' →
          rs = (calls.takeWhile (Intrin.storesPass · D.answer)).map fun s =>
            ⟨Intrin.exhaustive s D.answer .rs1, Intrin.exhaustive s D.answer .rs2⟩

theorem listed_instns : ∀ g ∈ batchTransponder, g.instns ≠ [] ∧ g.instns.Nodup ∧
    ((∃ ip ∈ g.instns, .define ∈ opcodesGenAll ip) → ∀ ip ∈ g.instns, .define ∈ opcodesGenAll ip) := by
  decide +kernel

/-- Asking the group first loses nothing exactly for the groups whose instructions do not define
`SYSINSN`: with the define the header assumes less, but the query of the group comes without it. -/
theorem flagsExact_iff {g : Group} (hg : g ∈ batchTransponder) :
    FlagsExact g ↔ ∀ ip ∈ g.instns, .define ∉ opcodesGenAll ip := by
  constructor
  · intro h ip hip hdefine
    obtain ⟨hne, hnd, hall⟩ := listed_instns g hg
    have hdefines := hall ⟨ip, hip, hdefine⟩
    have hcalls : OfListed g [followedBy g hne hnd] := by
      refine ⟨⟨?_, (by decide : [0, 1].Nodup)⟩, ?_⟩
      · intro s hs
        rw [List.mem_singleton.mp hs]
        rfl
      · intro s hs
        rw [List.mem_singleton.mp hs]
        rfl
    have hstores : StoresByAddress raisingDesign g := by
      intro ip hip hstore
      have hplain : ∀ ip ∈ Dyn.stores, .define ∉ opcodesGenAll ip := by decide
      exact absurd (hdefines ip hip) (hplain ip hstore)
    obtain ⟨rs, d', hruns⟩ :=
      Intrin.exists_runs raisingDesign.answer [followedBy g hne hnd] BatchRun.emptyDisk
    have hexact := h _ _ raisingDesign hstores _ hcalls _ hcalls.steady_empty rs d' hruns
    rw [hruns.eq_flags hcalls.group (fun s hs => Intrin.wanted_subset hs) hcalls.steady_empty]
      at hexact
    obtain ⟨hpass, hflag⟩ := raising_flags hne hnd
    have htake : [followedBy g hne hnd].takeWhile (Intrin.storesPass · raisingDesign.answer) =
        [followedBy g hne hnd] := by
      simp [List.takeWhile, hpass]
    rw [htake] at hexact
    have hrs1 : Intrin.tainted (followedBy g hne hnd) raisingDesign.answer .rs1 =
        Intrin.exhaustive (followedBy g hne hnd) raisingDesign.answer .rs1 :=
      congrArg Bits.rs1 (List.cons.inj hexact).1
    rw [hflag, raising_exhaustive hne hnd hdefines] at hrs1
    cases hrs1
  · intro hplain V T _ D hstores calls hcalls d hsteady rs d' hruns
    exact hruns.eq_exhaustive hcalls.toOfGroup
      (fun s hs => Design.monotone hg hplain hstores hcalls hs) hsteady

theorem branches_exact_csr_not : FlagsExact ⟨9, .rs1rs2, [.BEQ, .BNE, .BLT, .BGE, .BLTU, .BGEU]⟩ ∧
    ¬FlagsExact ⟨6, .rs1, [.CSRRW, .CSRRS, .CSRRC]⟩ := by
  constructor
  · exact (flagsExact_iff (by simp [batchTransponder])).mpr (by decide)
  · intro h
    have hplain := (flagsExact_iff (by simp [batchTransponder])).mp h .CSRRW (by decide)
    exact absurd hplain (by decide)

end TaintCover

end SynthLC
