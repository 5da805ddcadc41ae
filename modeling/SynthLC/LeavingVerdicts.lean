import SynthLC.Dict
import SynthLC.Pipeline
import SynthLC.Summarize

/-! The loop in which `xSummarize` reads the verdicts of leaving orders, with both tables that it
fills. A pair without a covered order is reported together with its entry in the second table. -/
namespace SynthLC.Summarize

open Sva Graph Smt Loop

variable {PL IID : Type} [DecidableEq PL] [DecidableEq IID]

/-- `result_edges_final`, `total_edges_possible_final` and the flag of the pair being read. -/
structure Verdicts (PL : Type) where
  result : TodoFile PL
  total : TodoFile PL
  hascover : Bool

section Loop

variable (q : Node PL × Node PL → HbType → Option Result)

/-- Body of the loop over the orders of a line. -/
def readVerdict (k : Node PL × Node PL) (s : Verdicts PL) (t : HbType) : Option (Verdicts PL) := do
  let res ← q k t
  pure {
    result := if res = .covered then push k t [t] s.result else s.result
    total := if res = .unreachable then s.total else push k t [t] s.total
    hascover := s.hascover || decide (res = .covered) }

/-- One line; printing the entry of a pair that has none is a `KeyError`. -/
def verdictLine (s : Verdicts PL) (line : (Node PL × Node PL) × List HbType) :
    Option (Verdicts PL) := do
  let s ← line.2.foldlM (readVerdict q line.1) { s with hascover := false }
  if s.hascover then pure s
  else if line.1 ∈ s.total.map Prod.fst then
    pure { s with total := Dict.upsert line.1 (fun _ => [.gt, .eq, .lt]) [.gt, .eq, .lt] s.total }
  else none

def verdictLoop (todo : TodoFile PL) : Option (Verdicts PL) :=
  todo.foldlM (verdictLine q) { result := [], total := [], hascover := false }

end Loop

section Spec

variable {q : Node PL × Node PL → HbType → Option Result}

/-- Some order of the line has a verdict other than unreachable. -/
def Open (q : Node PL × Node PL → HbType → Option Result)
    (line : (Node PL × Node PL) × List HbType) : Prop :=
  ∃ t ∈ line.2, q line.1 t ≠ some .unreachable

omit [DecidableEq PL] in
theorem open_cons {k : Node PL × Node PL} {t : HbType} {ts : List HbType} :
    Open q (k, t :: ts) ↔ q k t ≠ some .unreachable ∨ Open q (k, ts) := by
  simp [Open]

/-- The orders of a line: the first table is filled as by the other scripts, the second has an
entry of the pair once a verdict is not unreachable. -/
theorem readVerdicts_spec {k : Node PL × Node PL} {ts : List HbType}
    (hq : ∀ t ∈ ts, (q k t).isSome) (s : Verdicts PL) :
    ∃ s', ts.foldlM (readVerdict q k) s = some s' ∧
      ts.foldlM (readOrder q k) s.result = some s'.result ∧
      (s'.hascover = true → s.hascover = true ∨ Open q (k, ts)) ∧
      ∀ k', k' ∈ s'.total.map Prod.fst ↔ k' ∈ s.total.map Prod.fst ∨ k' = k ∧ Open q (k, ts) := by
  induction ts generalizing s with
  | nil => exact ⟨s, rfl, rfl, .inl, by simp [Open]⟩
  | cons t ts ih =>
    obtain ⟨res, hres⟩ := Option.isSome_iff_exists.mp (hq t (by simp))
    obtain ⟨s', hrun, hresult, hcover, htotal⟩ := ih (fun t ht => hq t (by simp [ht]))
      { result := if res = .covered then push k t [t] s.result else s.result
        total := if res = .unreachable then s.total else push k t [t] s.total
        hascover := s.hascover || decide (res = .covered) }
    refine ⟨s', ?_, ?_, ?_, ?_⟩
    · rw [List.foldlM_cons, readVerdict, hres]
      exact hrun
    · rw [List.foldlM_cons, readOrder, hres]
      exact hresult
    · intro hc
      rw [open_cons, hres]
      rcases hcover hc with hc | hc
      · rcases Bool.or_eq_true_iff.mp hc with hc | hc
        · exact .inl hc
        · rw [of_decide_eq_true hc]
          exact .inr (.inl (by simp))
      · exact .inr (.inr hc)
    · intro k'
      rw [htotal, open_cons, hres, and_or_left, ← or_assoc]
      apply or_congr_left
      by_cases hun : res = .unreachable
      · simp [hun]
      · simp [hun, mem_keys_push]

/-- One line: the script goes on if the pair has an entry, and then reads the same orders as the
other scripts. -/
theorem verdictLine_spec {line : (Node PL × Node PL) × List HbType}
    (hq : ∀ t ∈ line.2, (q line.1 t).isSome) (s : Verdicts PL) :
    ((∃ s', verdictLine q s line = some s') ↔ line.1 ∈ s.total.map Prod.fst ∨ Open q line) ∧
    ∀ s', verdictLine q s line = some s' → readLine q s.result line = some s'.result ∧
      ∀ k, k ∈ s'.total.map Prod.fst ↔ k ∈ s.total.map Prod.fst ∨ k = line.1 ∧ Open q line := by
  obtain ⟨mid, hmid, hread, hcover, htotal⟩ := readVerdicts_spec hq { s with hascover := false }
  have hrun : verdictLine q s line =
      if mid.hascover then some mid
      else if line.1 ∈ mid.total.map Prod.fst then
        some { mid with
          total := Dict.upsert line.1 (fun _ => [.gt, .eq, .lt]) [.gt, .eq, .lt] mid.total }
      else none := by
    rw [verdictLine, hmid]
    rfl
  have hentry : line.1 ∈ mid.total.map Prod.fst ↔ line.1 ∈ s.total.map Prod.fst ∨ Open q line := by
    rw [htotal]
    simp
  rw [hrun, ← hentry]
  by_cases hc : mid.hascover = true
  · have hopen : Open q line := (hcover hc).resolve_left (by simp)
    rw [if_pos hc]
    refine ⟨iff_of_true ⟨mid, rfl⟩ (hentry.mpr (.inr hopen)), fun s' hs' => ?_⟩
    obtain rfl := Option.some.inj hs'
    exact ⟨hread, htotal⟩
  · rw [if_neg hc]
    by_cases hin : line.1 ∈ mid.total.map Prod.fst
    · rw [if_pos hin]
      refine ⟨iff_of_true ⟨_, rfl⟩ hin, fun s' hs' => ?_⟩
      obtain rfl := Option.some.inj hs'
      refine ⟨hread, fun k => ?_⟩
      have hsame : k ∈ (Dict.upsert line.1 (fun _ => [.gt, .eq, .lt]) [.gt, .eq, .lt]
          mid.total).map Prod.fst ↔ k ∈ mid.total.map Prod.fst := by
        rw [Dict.keys_upsert, mem_insertNew, or_iff_left_of_imp]
        intro hk
        rw [hk]
        exact hin
      rw [hsame, htotal]
    · rw [if_neg hin]
      exact ⟨iff_of_false (by simp) hin, fun s' hs' => nomatch hs'⟩

/-- All lines of a file that names no pair twice: each of them needs an entry of its own. -/
theorem verdictLines_spec {todo : TodoFile PL} (hnd : (todo.map Prod.fst).Nodup)
    (hq : ∀ x ∈ asked todo, (q x.1 x.2).isSome) (s : Verdicts PL)
    (hnew : ∀ line ∈ todo, line.1 ∉ s.total.map Prod.fst) :
    ((∃ s', todo.foldlM (verdictLine q) s = some s') ↔ ∀ line ∈ todo, Open q line) ∧
    ∀ s', todo.foldlM (verdictLine q) s = some s' →
      todo.foldlM (readLine q) s.result = some s'.result := by
  induction todo generalizing s with
  | nil =>
    refine ⟨iff_of_true ⟨s, rfl⟩ (by simp), fun s' hs' => ?_⟩
    obtain rfl : s = s' := Option.some.inj hs'
    rfl
  | cons line todo ih =>
    obtain ⟨hline, hnd⟩ := List.nodup_cons.mp hnd
    obtain ⟨hgo, hstep⟩ := verdictLine_spec
      (fun t ht => hq (line.1, t) (mem_asked (List.mem_cons_self ..) ht)) s
    rw [or_iff_right (hnew line (by simp))] at hgo
    rw [List.foldlM_cons, List.foldlM_cons, List.forall_mem_cons, ← hgo]
    cases hmid : verdictLine q s line with
    | none => exact ⟨by simp, fun s' hs' => nomatch hs'⟩
    | some mid =>
      obtain ⟨hread, htotal⟩ := hstep mid hmid
      have hrest := ih hnd (fun x hx => hq x (by simp [asked] at hx ⊢; exact .inr hx)) mid
        (fun l hl => by
          rw [htotal, not_or]
          refine ⟨hnew l (by simp [hl]), fun heq => hline ?_⟩
          rw [← heq.1]
          exact List.mem_map_of_mem hl)
      rw [hread]
      simpa using hrest

/-- The shorter account of the same prints: only the second table's keys matter. -/
theorem printable_iff {todo : TodoFile PL} (hnd : (todo.map Prod.fst).Nodup)
    (hq : ∀ x ∈ asked todo, (q x.1 x.2).isSome) (total : List (Node PL × Node PL))
    (hnew : ∀ line ∈ todo, line.1 ∉ total) :
    printable q (fun r => decide (r = .covered)) total todo = true ↔
      ∀ line ∈ todo, Open q line := by
  induction todo generalizing total with
  | nil => simp [printable]
  | cons line todo ih =>
    obtain ⟨hline, hnd⟩ := List.nodup_cons.mp hnd
    have hq' : ∀ x ∈ asked todo, (q x.1 x.2).isSome :=
      fun x hx => hq x (by simp [asked] at hx ⊢; exact .inr hx)
    have hany : ((line.2.filterMap (q line.1)).any fun r => decide (r ≠ .unreachable)) = true ↔
        Open q line := by
      simp only [List.any_eq_true, List.mem_filterMap, decide_eq_true_eq]
      constructor
      · intro h
        obtain ⟨r, ⟨t, ht, hr⟩, hne⟩ := h
        exact ⟨t, ht, by rw [hr]; simpa using hne⟩
      · intro h
        obtain ⟨t, ht, hne⟩ := h
        obtain ⟨r, hr⟩ := Option.isSome_iff_exists.mp
          (hq (line.1, t) (mem_asked (List.mem_cons_self ..) ht))
        exact ⟨r, ⟨t, ht, hr⟩, fun hun => hne (by rw [← hun]; exact hr)⟩
    rw [printable, Bool.and_eq_true, List.forall_mem_cons]
    by_cases hopen : Open q line
    · rw [if_pos (hany.mpr hopen), ih hnd hq']
      · simp [hopen]
      · intro l hl
        rw [List.mem_cons, not_or]
        refine ⟨fun heq => hline ?_, hnew l (by simp [hl])⟩
        rw [← heq]
        exact List.mem_map_of_mem hl
    · rw [if_neg (mt hany.mp hopen)]
      have hcov : ((line.2.filterMap (q line.1)).any fun r => decide (r = .covered)) = false := by
        rw [Bool.eq_false_iff]
        intro hc
        obtain ⟨r, hr, hcov⟩ := List.any_eq_true.mp hc
        refine hopen (hany.mp (List.any_eq_true.mpr ⟨r, hr, ?_⟩))
        rw [of_decide_eq_true hcov]
        rfl
      simp [hcov, hnew line (by simp), hopen]

/-- What is done with the tables after the loop. -/
theorem combEdgesFinal_eq_verdictLoop {todo : TodoFile PL} {csv : Csv PL}
    (hnd : (todo.map Prod.fst).Nodup) (hq : ∀ x ∈ asked todo, (finalQuery csv x.1 x.2).isSome) :
    combEdgesFinal todo csv = (verdictLoop (finalQuery csv) todo).bind fun s =>
      (dfQuery (csv .setR)).bind fun res =>
        if ∀ e ∈ s.result, e.2.Nodup then
          if res = .covered then some (choices s.result) else some []
        else none := by
  obtain ⟨hgo, hread⟩ := verdictLines_spec hnd hq ⟨[], [], false⟩ (by simp)
  have hprint := printable_iff hnd hq [] (by simp)
  cases hloop : verdictLoop (finalQuery csv) todo with
  | none =>
    have hstop : ¬printable (finalQuery csv) (fun r => decide (r = .covered)) [] todo = true := by
      rw [hprint, ← hgo]
      intro h
      obtain ⟨s, hs⟩ := h
      cases hs.symm.trans hloop
    obtain ⟨d, hd⟩ := readTodo_some hq
    simp only [combEdgesFinal, hd, if_neg hstop]
    rfl
  | some s =>
    have hd : readTodo (finalQuery csv) todo = some s.result := hread s hloop
    have hpass : printable (finalQuery csv) (fun r => decide (r = .covered)) [] todo = true :=
      hprint.mpr (hgo.mp ⟨s, hloop⟩)
    simp only [combEdgesFinal, hd, if_pos hpass]
    rfl

end Spec

section Abort

variable {todo : TodoFile PL} {csv : Csv PL}

/-- The lines of a file of leaving orders. -/
theorem nodup_keys_of_gen {pkg : Package (Node PL)} {slv : Solver (Var (Node PL))}
    {f : Facts PL IID} {setIdx : Nat} {aSet : List PL} {comb : Comb PL}
    (hgen : LeaveOrder.gen pkg slv f setIdx aSet comb = some (some todo)) :
    (todo.map Prod.fst).Nodup := by
  obtain ⟨_, st, _, rfl⟩ := LeaveOrder.gen_eq_some.mp hgen
  exact (todoInv_foldl _).nodup_keys

/-- With the verdicts a checker may give, the loop gets to its end exactly if every pair has an
order that is not unreachable. -/
theorem verdictLoop_finishes_iff (pkg : Package (Node PL)) (slv : Solver (Var (Node PL)))
    (f : Facts PL IID) (setIdx : Nat) (aSet : List PL) (comb : Comb PL) (todo : TodoFile PL)
    (hgen : LeaveOrder.gen pkg slv f setIdx aSet comb = some (some todo)) (csv : Csv PL)
    (hcsv : ∀ x ∈ asked todo, csv (finalCoverName x.1 x.2) = .covered ∨
      csv (finalCoverName x.1 x.2) = .unreachable ∨ csv (finalCoverName x.1 x.2) = .undetermined) :
    (∃ s, verdictLoop (finalQuery csv) todo = some s) ↔
      ∀ line ∈ todo, ∃ t ∈ line.2, csv (finalCoverName line.1 t) ≠ .unreachable := by
  have hquery (x : (Node PL × Node PL) × HbType) (hx : x ∈ asked todo) :
      finalQuery csv x.1 x.2 = some (csv (finalCoverName x.1 x.2)) := by
    refine if_neg fun herr => ?_
    have hverdict := hcsv x hx
    simp [herr] at hverdict
  have hspec := verdictLines_spec (q := finalQuery csv) (nodup_keys_of_gen hgen)
    (fun x hx => by rw [hquery x hx]; rfl) ⟨[], [], false⟩ (by simp)
  refine hspec.1.trans (forall₂_congr fun line hline => exists_congr fun t => ?_)
  refine and_congr_right fun ht => ?_
  rw [hquery (line.1, t) (mem_asked hline ht), ne_eq, ne_eq, Option.some.injEq]

theorem overlap_verdictLoop_finishes :
    LeaveOrder.gen Warshall.package Solver.classical Overlap.facts 0 [0, 1] [] =
      some (some Overlap.todo) ∧
    (∃ s, verdictLoop (finalQuery fun _ => .covered) Overlap.todo = some s) ∧
    ∀ line ∈ Overlap.todo, ∃ t ∈ line.2,
      (fun _ => .covered : Csv (Fin 2)) (finalCoverName line.1 t) ≠ .unreachable := by
  have hgen := Overlap.finalTodo Solver.classical
  have hiff := verdictLoop_finishes_iff _ _ _ 0 [0, 1] [] _ hgen (fun _ => .covered) (by simp)
  have hopen : ∀ line ∈ Overlap.todo, ∃ t ∈ line.2,
      (fun _ => .covered : Csv (Fin 2)) (finalCoverName line.1 t) ≠ .unreachable := by decide
  exact ⟨hgen, hiff.mpr hopen, hopen⟩

/-- No order of a pair is reachable: the script stops where it wants to report that. -/
theorem overlap_verdictLoop_aborts :
    LeaveOrder.gen Warshall.package Solver.classical Overlap.facts 0 [0, 1] [] =
      some (some Overlap.todo) ∧
    ¬∃ s, verdictLoop (finalQuery fun _ => .unreachable) Overlap.todo = some s := by
  refine ⟨Overlap.finalTodo Solver.classical, ?_⟩
  intro hs
  obtain ⟨s, hs⟩ := hs
  have hnone : verdictLoop (finalQuery fun _ => .unreachable) Overlap.todo = none := by decide
  rw [hnone] at hs
  cases hs

end Abort

end SynthLC.Summarize
