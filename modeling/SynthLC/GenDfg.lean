import SynthLC.Dict
import SynthLC.Summarize

/-! `xGenPerfLocDfgDiv/gen_dfg_all_pls.py`: the pairs of locations that data flows between, from
the signals of the locations and the signals the design connects.  The scripts that order nodes
go through this file, and an edge that came twice would give a pair one order twice. -/
namespace SynthLC.GenDfg

open Sva Graph Smt Loop

variable {PL σ IID : Type} [DecidableEq PL] [DecidableEq σ] [DecidableEq IID]

/-- `perfloc_signals`, from the lines of `perfloc_signals.txt`. -/
def perflocSignals (lines : List (PL × List σ)) : List (PL × List σ) :=
  lines.foldl (fun d line => Dict.upsert line.1 (fun _ => line.2) line.2 d) []

section Run

variable (table : List (PL × List σ))

def signals (p : PL) : List σ := (table.lookup p).getD []

def perfLocsNames : List PL := table.map Prod.fst

/-- `gen`: the signals the design is asked about, `seq_pairs.txt`. -/
def pairsSigs : List (σ × σ) :=
  (perfLocsNames table).foldl (fun acc itm =>
    (perfLocsNames table).foldl (fun acc itm2 =>
      if itm ≠ itm2 then
        (signals table itm).foldl (fun acc s1 =>
          (signals table itm2).foldl (fun acc s2 => insertNew acc (s1, s2)) acc) acc
      else acc) acc) []

def pairs : List (PL × PL) :=
  (perfLocsNames table).foldl (fun acc itm =>
    (perfLocsNames table).foldl (fun acc itm2 =>
      if itm ≠ itm2 then insertNew acc (itm, itm2) else acc) acc) []

/-- The inner loop over `s2`, left at the first signal that matches. -/
def scanTo (edgesExists : List (σ × σ)) (p : PL × PL) (s1 : σ) :
    List σ → List (PL × PL) → List (PL × PL)
  | [], dfe => dfe
  | s2 :: rest, dfe =>
    if (s1, s2) ∈ edgesExists ∨ s1 = s2 then insertNew dfe p else scanTo edgesExists p s1 rest dfe

/-- The loop over `s1`, left once the pair is listed. -/
def scanFrom (edgesExists : List (σ × σ)) (p : PL × PL) (ts : List σ) :
    List σ → List (PL × PL) → List (PL × PL)
  | [], dfe => dfe
  | s1 :: rest, dfe =>
    let dfe := scanTo edgesExists p s1 ts dfe
    if p ∈ dfe then dfe else scanFrom edgesExists p ts rest dfe

/-- `dfg_e.txt`, from `seq_pairs.txt` and the lines `ADD` of the log. -/
def pp (dfEdgesCandidates edgesExists : List (σ × σ)) : Option (List (PL × PL)) :=
  if ∀ e ∈ edgesExists, e ∈ dfEdgesCandidates then
    some ((pairs table).foldl (fun dfe p =>
      scanFrom edgesExists p (signals table p.2) (signals table p.1) dfe) [])
  else none

end Run

/-! ### The edges written -/

section Edges

variable {table : List (PL × List σ)} {ex : List (σ × σ)} {p : PL × PL} {dfe : List (PL × PL)}

/-- Some signal of the first location leads to one of the second, or is one. -/
def Linked (ex : List (σ × σ)) (fs ts : List σ) : Prop :=
  ∃ s1 ∈ fs, ∃ s2 ∈ ts, (s1, s2) ∈ ex ∨ s1 = s2

instance (ex : List (σ × σ)) (fs ts : List σ) : Decidable (Linked ex fs ts) :=
  inferInstanceAs (Decidable (∃ s1 ∈ fs, ∃ s2 ∈ ts, (s1, s2) ∈ ex ∨ s1 = s2))

theorem scanTo_eq (s1 : σ) (ts : List σ) : scanTo ex p s1 ts dfe =
    if ∃ s2 ∈ ts, (s1, s2) ∈ ex ∨ s1 = s2 then insertNew dfe p else dfe := by
  induction ts with
  | nil => simp [scanTo]
  | cons s2 rest ih =>
    rw [scanTo, ih]
    by_cases hlink : (s1, s2) ∈ ex ∨ s1 = s2
    · rw [if_pos hlink, if_pos ⟨s2, List.mem_cons_self, hlink⟩]
    · rw [if_neg hlink]
      simp only [List.exists_mem_cons_iff, hlink, false_or]

theorem insertNew_of_mem (h : p ∈ dfe) : insertNew dfe p = dfe := if_pos h

theorem scanFrom_eq (ts fs : List σ) : scanFrom ex p ts fs dfe =
    if Linked ex fs ts then insertNew dfe p else dfe := by
  induction fs with
  | nil => simp [scanFrom, Linked]
  | cons s1 rest ih =>
    rw [scanFrom, scanTo_eq]
    by_cases hlink : ∃ s2 ∈ ts, (s1, s2) ∈ ex ∨ s1 = s2
    · have hmem : p ∈ insertNew dfe p := mem_insertNew.mpr (.inr rfl)
      rw [if_pos hlink, if_pos hmem, if_pos ⟨s1, List.mem_cons_self, hlink⟩]
    · have hrest : Linked ex (s1 :: rest) ts ↔ Linked ex rest ts := by
        simp only [Linked, List.exists_mem_cons_iff, hlink, false_or]
      rw [if_neg hlink, ih]
      simp only [hrest]
      by_cases hmem : p ∈ dfe
      · rw [if_pos hmem, insertNew_of_mem hmem, ite_self]
      · rw [if_neg hmem]

omit [DecidableEq σ] in
theorem mem_pairs : p ∈ pairs table ↔
    p.1 ≠ p.2 ∧ p.1 ∈ perfLocsNames table ∧ p.2 ∈ perfLocsNames table := by
  have hflat : pairs table = ((perfLocsNames table).flatMap fun itm =>
      ((perfLocsNames table).filter (itm ≠ ·)).map fun itm2 => (itm, itm2)).foldl insertNew [] := by
    simp only [pairs, List.foldl_flatMap, List.foldl_map, List.foldl_filter, decide_eq_true_eq]
  rw [hflat, mem_foldl_insertNew]
  simp only [List.not_mem_nil, false_or, List.mem_flatMap, List.mem_map, List.mem_filter,
    decide_eq_true_eq]
  constructor
  · intro ⟨itm, hitm, itm2, ⟨hitm2, hne⟩, hp⟩
    rw [← hp]
    exact ⟨hne, hitm, hitm2⟩
  · intro ⟨hne, h1, h2⟩
    exact ⟨p.1, h1, p.2, ⟨h2, hne⟩, rfl⟩

omit [DecidableEq σ] in
theorem mem_names_of_mem_signals {q : PL} {s : σ} (hs : s ∈ signals table q) :
    q ∈ perfLocsNames table := by
  apply Dict.lookup_isSome_iff.mp
  unfold signals at hs
  cases hq : table.lookup q with
  | none =>
    rw [hq] at hs
    simp at hs
  | some v => exact ⟨v, rfl⟩

theorem mem_pairsSigs {e : σ × σ} : e ∈ pairsSigs table ↔
    ∃ p q, p ≠ q ∧ e.1 ∈ signals table p ∧ e.2 ∈ signals table q := by
  have hflat : pairsSigs table = ((perfLocsNames table).flatMap fun itm =>
      ((perfLocsNames table).filter (itm ≠ ·)).flatMap fun itm2 =>
        (signals table itm).flatMap fun s1 => (signals table itm2).map fun s2 =>
          (s1, s2)).foldl insertNew [] := by
    simp only [pairsSigs, List.foldl_flatMap, List.foldl_map, List.foldl_filter, decide_eq_true_eq]
  rw [hflat, mem_foldl_insertNew]
  simp only [List.not_mem_nil, false_or, List.mem_flatMap, List.mem_map, List.mem_filter,
    decide_eq_true_eq]
  constructor
  · intro ⟨p, _, q, ⟨_, hne⟩, s1, hs1, s2, hs2, he⟩
    rw [← he]
    exact ⟨p, q, hne, hs1, hs2⟩
  · intro ⟨p, q, hne, hs1, hs2⟩
    exact ⟨p, mem_names_of_mem_signals hs1, q, ⟨mem_names_of_mem_signals hs2, hne⟩, e.1, hs1, e.2,
      hs2, rfl⟩

/-- The file lists the linked pairs in the order of `pairs`. -/
theorem pp_eq_some {cands : List (σ × σ)} : pp table cands ex = some dfe ↔
    (∀ e ∈ ex, e ∈ cands) ∧ dfe = ((pairs table).filter fun p =>
      Linked ex (signals table p.1) (signals table p.2)).foldl insertNew [] := by
  unfold pp
  simp only [scanFrom_eq, List.foldl_filter, decide_eq_true_eq]
  split_ifs with h
  · rw [Option.some_inj, and_iff_right h]
    exact eq_comm
  · constructor
    · intro hnone
      cases hnone
    · intro hsome
      exact absurd hsome.1 h

theorem pp_spec {cands : List (σ × σ)} (h : pp table cands ex = some dfe) :
    dfe.Nodup ∧ ∀ p, p ∈ dfe ↔ p.1 ≠ p.2 ∧ Linked ex (signals table p.1) (signals table p.2) := by
  have ⟨_, hdfe⟩ := pp_eq_some.mp h
  rw [hdfe]
  refine ⟨nodup_foldl_insertNew List.nodup_nil, ?_⟩
  intro p
  rw [mem_foldl_insertNew, List.mem_filter, mem_pairs, decide_eq_true_eq]
  constructor
  · intro hp
    have hp := hp.resolve_left (List.not_mem_nil)
    exact ⟨hp.1.1, hp.2⟩
  · intro ⟨hne, hlink⟩
    have ⟨s1, hs1, s2, hs2, _⟩ := hlink
    exact .inr ⟨⟨hne, mem_names_of_mem_signals hs1, mem_names_of_mem_signals hs2⟩, hlink⟩

end Edges

/-! ### The orders asked about -/

section Orders

variable {f : Facts PL IID} {setIdx : Nat} {aSet : List PL} {comb : Comb PL}

theorem nodup_pairsTodo (pkg : Package (Node PL)) (slv : Solver (Var (Node PL)))
    (st : SolverState (Node PL)) (hedge : f.edge.Nodup) :
    ∀ line ∈ CollectReEval.pairsTodo pkg slv f setIdx aSet st, line.2.Nodup :=
  (todoInv_foldl _).nodup (((hedge.filter _).map enterPair_injective).filter _)

/-- A pair with a final node tells the edge it was made from. -/
theorem locs_of_mem_ePrimes {nodes : List (Node PL)} {eorg : PL × PL} {e : Node PL × Node PL}
    (he : e ∈ LeaveOrder.ePrimes nodes eorg) : (e.1.loc, e.2.loc) = eorg := by
  simp only [LeaveOrder.ePrimes, List.mem_append, List.mem_ite_nil_right, List.mem_singleton] at he
  rcases he with (⟨_, he⟩ | ⟨_, he⟩) | ⟨_, he⟩
  · rw [he]
    rfl
  · rw [he]
    rfl
  · rw [he]
    rfl

theorem nodup_ePrimes (nodes : List (Node PL)) (eorg : PL × PL) :
    (LeaveOrder.ePrimes nodes eorg).Nodup := by
  unfold LeaveOrder.ePrimes
  split_ifs <;> simp

theorem nodup_flatMap_ePrimes (nodes : List (Node PL)) {es : List (PL × PL)} (h : es.Nodup) :
    (es.flatMap (LeaveOrder.ePrimes nodes)).Nodup := by
  refine List.nodup_flatMap.mpr ⟨fun eorg _ => nodup_ePrimes nodes eorg, h.imp ?_⟩
  intro eorg eorg' hne e he he'
  exact hne ((locs_of_mem_ePrimes he).symm.trans (locs_of_mem_ePrimes he'))

theorem todoInv_pairsFinal (pkg : Package (Node PL)) (slv : Solver (Var (Node PL)))
    (st : SolverState (Node PL)) (hedge : f.edge.Nodup) :
    ((LeaveOrder.pairsFinal pkg slv f setIdx aSet comb st).map Prod.fst).Nodup ∧
      ∀ line ∈ LeaveOrder.pairsFinal pkg slv f setIdx aSet comb st, line.2.Nodup := by
  have hinv : TodoInv f _ (LeaveOrder.pairsFinal pkg slv f setIdx aSet comb st) := todoInv_foldl _
  exact ⟨hinv.nodup_keys, hinv.nodup ((nodup_flatMap_ePrimes _ (hedge.filter _)).filter _)⟩

end Orders

/-- `dfg_e.txt` has the pairs of different locations with a signal in common or connected ones,
each once; so no pair of nodes is asked about one order twice, and the assertions on the orders
read back hold whatever the verdicts are. -/
theorem dfg_edges_exact (lines : List (PL × List σ)) (connected : σ × σ → Bool)
    (pkg : Package (Node PL)) (slv : Solver (Var (Node PL))) (f : Facts PL IID) (setIdx : Nat)
    (aSet : List PL) (comb : Comb PL) (st : SolverState (Node PL)) :
    ∃ dfe, pp (perflocSignals lines) (pairsSigs (perflocSignals lines))
        ((pairsSigs (perflocSignals lines)).filter connected) = some dfe ∧
      dfe.Nodup ∧
      (∀ p q, (p, q) ∈ dfe ↔ p ≠ q ∧ ∃ s1 ∈ signals (perflocSignals lines) p,
        ∃ s2 ∈ signals (perflocSignals lines) q, connected (s1, s2) = true ∨ s1 = s2) ∧
      (∀ line ∈ CollectReEval.pairsTodo pkg slv { f with edge := dfe } setIdx aSet st,
        line.2.Nodup) ∧
      (∀ line ∈ LeaveOrder.pairsFinal pkg slv { f with edge := dfe } setIdx aSet comb st,
        line.2.Nodup) ∧
      ∀ csv d, readTodo (finalQuery csv)
          (LeaveOrder.pairsFinal pkg slv { f with edge := dfe } setIdx aSet comb st) = some d →
        ∀ e ∈ d, e.2.Nodup := by
  have hlog : ∀ e ∈ (pairsSigs (perflocSignals lines)).filter connected,
      e ∈ pairsSigs (perflocSignals lines) := fun e he => (List.mem_filter.mp he).1
  have ⟨dfe, hpp⟩ : ∃ dfe, pp (perflocSignals lines) (pairsSigs (perflocSignals lines))
      ((pairsSigs (perflocSignals lines)).filter connected) = some dfe :=
    ⟨_, pp_eq_some.mpr ⟨hlog, rfl⟩⟩
  have ⟨hnodup, hmem⟩ := pp_spec hpp
  have hfinal :=
    @todoInv_pairsFinal _ _ _ _ { f with edge := dfe } setIdx aSet comb pkg slv st hnodup
  refine ⟨dfe, hpp, hnodup, ?_, nodup_pairsTodo pkg slv st hnodup, hfinal.2, ?_⟩
  · intro p q
    rw [hmem]
    apply and_congr_right
    intro hne
    unfold Linked
    constructor
    · intro ⟨s1, hs1, s2, hs2, hlink⟩
      exact ⟨s1, hs1, s2, hs2, hlink.imp_left fun h => (List.mem_filter.mp h).2⟩
    · intro ⟨s1, hs1, s2, hs2, hlink⟩
      refine ⟨s1, hs1, s2, hs2, hlink.imp_left fun h => List.mem_filter.mpr ⟨?_, h⟩⟩
      exact mem_pairsSigs.mpr ⟨p, q, hne, hs1, hs2⟩
  · intro csv d hd
    exact nodup_readTodo hd hfinal.1 hfinal.2

end SynthLC.GenDfg
