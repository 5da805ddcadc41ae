import Mathlib.Data.Finset.Sort
import SynthLC.Decisions
import SynthLC.DynSteps
import SynthLC.Gconsts

/-! The queries of `intrinsic_step1_or.py` and `dyn_step1_older.py`: for each decision of a source
that has more than one, an expression over the location signals that says which of the source's
followers are visited.  The first script reads plain locations, the second classes of them. -/
namespace SynthLC.Decisions

open Sva TextFile Loop

/-! ### The decisions of classes -/

/-- One line `source|followers`; another number of columns stops the script. -/
def ppRow (line : List Char) : Option (String × List String) :=
  match line.dropLast.splitOn '|' with
  | [ddn, afset] => some (String.ofList ddn,
      if afset = [] then [] else (afset.splitOn ',').map String.ofList)
  | _ => none

def ppRows (text : List Char) : Option (List (String × List String)) :=
  (lines '\n' (universalNewlines text)).mapM ppRow

abbrev Maps := List (String × List (Finset String)) × List (String × Finset String)

/-- A source enters `map_allpl` with its first follower. -/
def ppStep (d : Maps) (row : String × List String) : Maps :=
  let ddn := transform row.1
  let afset := (row.2.map transform).toFinset
  (Dict.upsert ddn (insertNew · afset) [afset] d.1,
    if afset = ∅ then d.2 else Dict.upsert ddn (· ∪ afset) afset d.2)

/-- `get_decision_dic_pp_file` -/
def getDecisionDicPpFile (text : List Char) : Option Maps :=
  (ppRows text).map fun rows => rows.foldl ppStep ([], [])

/-! ### The queries -/

structure Query (τ : Type) where
  decisionNode : String
  afset : Finset String
  followerset : BExp String
  t0 : List τ

/-- What the two scripts do differently: the expression of a name, and the taint terms, with the
source where the follower set is empty. -/
structure Script (τ : Type) where
  expr : String → Option (BExp String)
  neg : String → String → τ
  pos : String → τ

def intrinsic : Script String where
  expr n := some (.sig n)
  neg _ n := n ++ "_t0"
  pos n := n ++ "_t0"

def dyn : Script Dyn.TaintTerm where
  expr := transformDisjunc
  neg node n := .neg n node
  pos := .active

section Queries

variable {τ : Type} (S : Script τ)

def literal (afset : Finset String) (n : String) : Option (BExp String) :=
  (S.expr n).map fun b => if n ∈ afset then b else .not b

/-- `FOLLOWERSET`: the source comes first, negated, unless it follows itself. -/
def followerset (node : String) (uniq : List String) (afset : Finset String) :
    Option (BExp String) :=
  (((if node ∈ afset then [] else [node]) ++ uniq.filter (· ≠ "")).mapM (literal S afset)).map
    BExp.all

def query (node : String) (uniq : List String) (afset : Finset String) : Option (Query τ) :=
  (followerset S node uniq afset).map fun b =>
    { decisionNode := node
      afset := afset
      followerset := b
      t0 := if afset = ∅ then (uniq.filter (· ≠ "")).map (S.neg node) else afset.sort.map S.pos }

/-- The queries of one source; one decision alone is not asked about. -/
def sourceQueries (allpl : List (String × Finset String)) (e : String × List (Finset String)) :
    Option (List (Query τ)) :=
  if e.2.length = 1 then some []
  else do
    let uniq ← allpl.lookup e.1
    e.2.mapM (query S e.1 uniq.sort)

/-- The queries in the order of their numbers. -/
def queries (d : Maps) : Option (List (Query τ)) :=
  (d.1.mapM (sourceQueries S d.2)).map List.flatten

end Queries

/-- A sorted set, joined by commas and split again: the empty set comes back as one empty name. -/
def readBack (afset : Finset String) : List String := if afset = ∅ then [""] else afset.sort

theorem readBack_ne_nil (a : Finset String) : readBack a ≠ [] := by
  unfold readBack
  split_ifs with ha
  · simp
  · intro hnil
    apply ha
    rw [← Finset.sort_toFinset a (· ≤ ·), hnil, List.toFinset_nil]

theorem readBack_head {a : Finset String} (hne : "" ∉ a) (ha : a ≠ ∅) :
    "" ∉ readBack a := by
  unfold readBack
  rw [if_neg ha]
  simpa using hne

theorem readBack_inj {a b : Finset String} (ha : "" ∉ a) (hb : "" ∉ b)
    (h : readBack a = readBack b) : a = b := by
  by_cases hae : a = ∅
  · by_cases hbe : b = ∅
    · rw [hae, hbe]
    · apply absurd _ (readBack_head hb hbe)
      rw [← h, readBack, if_pos hae]
      simp
  · by_cases hbe : b = ∅
    · apply absurd _ (readBack_head ha hae)
      rw [h, readBack, if_pos hbe]
      simp
    · rw [readBack, readBack, if_neg hae, if_neg hbe] at h
      have heq := congrArg List.toFinset h
      rwa [Finset.sort_toFinset, Finset.sort_toFinset] at heq

/-! ### One source -/

/-- The valuation of the location signals makes the expression true. -/
def Satisfies (v : String → Bool) (b : BExp String) : Prop := b.eval (fun _ => v) 0 = true

/-- The queries of a source: one for each of its decisions, no two true at once and each of them
true somewhere. -/
structure Separated {τ : Type} (decisions : List (Finset String)) (qs : List (Query τ)) : Prop where
  afsets : qs.map Query.afset = decisions
  exclusive : qs.Pairwise fun q q' => ∀ v, ¬(Satisfies v q.followerset ∧ Satisfies v q'.followerset)
  possible : ∀ q ∈ qs, ∃ v, Satisfies v q.followerset

/-- The name has an expression, and where exactly the names of `A` are visited the expression
says whether the name is one of them. -/
def Readable {τ : Type} (S : Script τ) (visit : Finset String → String → Bool) (n : String) :
    Prop :=
  ∃ b, S.expr n = some b ∧ ∀ A, Satisfies (visit A) b ↔ n ∈ A

section Source

variable {τ : Type} {S : Script τ} {visit : Finset String → String → Bool} {node : String}
  {u : Finset String} {decisions : List (Finset String)} {afset afset' : Finset String}

/-- The names of a `FOLLOWERSET`. -/
def asked (node : String) (u afset : Finset String) : List String :=
  (if node ∈ afset then [] else [node]) ++ u.sort.filter (· ≠ "")

theorem mem_asked {n : String} (hn : n ∈ u) (hne : n ≠ "") : n ∈ asked node u afset := by
  rw [asked, List.mem_append, List.mem_filter, Finset.mem_sort]
  exact .inr ⟨hn, by simpa using hne⟩

theorem readable_of_mem_asked (hnode : Readable S visit node) (hu : ∀ n ∈ u, Readable S visit n)
    {n : String} (hn : n ∈ asked node u afset) : Readable S visit n := by
  rw [asked, List.mem_append, List.mem_filter, Finset.mem_sort] at hn
  rcases hn with hn | hn
  · split_ifs at hn with hmem
    · cases hn
    · rw [List.mem_singleton.mp hn]
      exact hnode
  · exact hu n hn.1

/-- The expression of a name that has one. -/
def exprOf (S : Script τ) (n : String) : BExp String := (S.expr n).getD .one

theorem Readable.expr_eq {n : String} (h : Readable S visit n) : S.expr n = some (exprOf S n) := by
  have ⟨b, hb, _⟩ := h
  rw [exprOf, hb, Option.getD_some]

theorem Readable.satisfies {n : String} (h : Readable S visit n) (A : Finset String) :
    Satisfies (visit A) (exprOf S n) ↔ n ∈ A := by
  have ⟨b, hb, hvisit⟩ := h
  rw [exprOf, hb, Option.getD_some]
  exact hvisit A

/-- The `FOLLOWERSET` of a decision over names that have expressions. -/
def predicate (S : Script τ) (node : String) (u afset : Finset String) : BExp String :=
  .all ((asked node u afset).map fun n => if n ∈ afset then exprOf S n else .not (exprOf S n))

theorem followerset_eq (h : ∀ n ∈ asked node u afset, Readable S visit n) :
    followerset S node u.sort afset = some (predicate S node u afset) := by
  have hlit : ∀ n ∈ asked node u afset, literal S afset n =
      some (if n ∈ afset then exprOf S n else .not (exprOf S n)) := by
    intro n hn
    rw [literal, (h n hn).expr_eq, Option.map_some]
  rw [followerset, ← asked, mapM_eq_map hlit, Option.map_some, predicate]

theorem satisfies_predicate {v : String → Bool} : Satisfies v (predicate S node u afset) ↔
    ∀ n ∈ asked node u afset, n ∈ afset ↔ Satisfies v (exprOf S n) := by
  unfold Satisfies predicate
  rw [eval_all, List.forall_mem_map]
  apply forall₂_congr
  intro n _
  split_ifs with hn
  · simp [hn]
  · simp [hn]

/-- Where the names of the follower set are visited and no others, its expression is true. -/
theorem satisfies_own (h : ∀ n ∈ asked node u afset, Readable S visit n) :
    Satisfies (visit afset) (predicate S node u afset) :=
  satisfies_predicate.mpr fun n hn => ((h n hn).satisfies afset).symm

/-- Two follower sets differ in a follower, which one expression has and the other denies. -/
theorem not_both {v : String → Bool} (hne : afset ≠ afset') (hsub : afset ⊆ u) (hsub' : afset' ⊆ u)
    (hempty : "" ∉ u) (h : Satisfies v (predicate S node u afset))
    (h' : Satisfies v (predicate S node u afset')) : False := by
  apply hne
  ext n
  by_cases hn : n ∈ u
  · have hname : n ≠ "" := fun heq => hempty (heq ▸ hn)
    rw [satisfies_predicate.mp h n (mem_asked hn hname),
      satisfies_predicate.mp h' n (mem_asked hn hname)]
  · exact ⟨fun hmem => absurd (hsub hmem) hn, fun hmem => absurd (hsub' hmem) hn⟩

variable {allpl : List (String × Finset String)}

theorem sourceQueries_separated (hnode : Readable S visit node) (hu : ∀ n ∈ u, Readable S visit n)
    (hempty : "" ∉ u) (hnd : decisions.Nodup) (hunion : ∀ x, x ∈ u ↔ ∃ a ∈ decisions, x ∈ a)
    (hlookup : allpl.lookup node = some u) (hlen : decisions.length ≠ 1) :
    ∃ qs, sourceQueries S allpl (node, decisions) = some qs ∧ Separated decisions qs ∧
      ∀ q ∈ qs, q.decisionNode = node := by
  have hread (afset : Finset String) : ∀ n ∈ asked node u afset, Readable S visit n :=
    fun n hn => readable_of_mem_asked hnode hu hn
  let mk (afset : Finset String) : Query τ :=
    { decisionNode := node
      afset := afset
      followerset := predicate S node u afset
      t0 := if afset = ∅ then (u.sort.filter (· ≠ "")).map (S.neg node) else afset.sort.map S.pos }
  have hmk (afset : Finset String) : query S node u.sort afset = some (mk afset) := by
    rw [query, followerset_eq (hread afset), Option.map_some]
  refine ⟨decisions.map mk, ?_, ⟨?_, ?_, ?_⟩, ?_⟩
  · rw [sourceQueries, if_neg hlen, hlookup]
    exact mapM_eq_map fun afset _ => hmk afset
  · rw [List.map_map]
    exact List.map_id decisions
  · rw [List.pairwise_map]
    apply hnd.imp_of_mem
    intro a a' ha ha' hne v hboth
    have hsub : a ⊆ u := fun x hx => (hunion x).mpr ⟨a, ha, hx⟩
    have hsub' : a' ⊆ u := fun x hx => (hunion x).mpr ⟨a', ha', hx⟩
    exact not_both hne hsub hsub' hempty hboth.1 hboth.2
  · rw [List.forall_mem_map]
    intro a _
    exact ⟨visit a, satisfies_own (hread a)⟩
  · rw [List.forall_mem_map]
    intro a _
    rfl

end Source

/-! ### Whole files -/

section Files

variable {τ : Type} {S : Script τ} {visit : Finset String → String → Bool} {d : Maps}

/-- What the script needs to know of a source: its name and its followers can be read, and unless
it has just one decision its followers are collected. -/
structure Source (S : Script τ) (visit : Finset String → String → Bool) (d : Maps)
    (e : String × List (Finset String)) : Prop where
  node : Readable S visit e.1
  followers : ∀ a ∈ e.2, ∀ n ∈ a, Readable S visit n ∧ n ≠ ""
  lookup : e.2.length ≠ 1 → ∃ u, d.2.lookup e.1 = some u

theorem sourceQueries_of_source (hd : Decided d.1 (unionOf d.2))
    {e : String × List (Finset String)} (he : e ∈ d.1) (hsource : Source S visit d e) :
    ∃ qs, sourceQueries S d.2 e = some qs ∧ (e.2.length ≠ 1 → Separated e.2 qs) ∧
      ∀ q ∈ qs, q.decisionNode = e.1 := by
  by_cases hlen : e.2.length = 1
  · exact ⟨[], if_pos hlen, fun hne => absurd hlen hne, by simp⟩
  · obtain ⟨u, hu⟩ := hsource.lookup hlen
    have hv := (Dict.mem_iff_lookup hd.nodup_keys).mp he
    have hunion := hd.union e.1 e.2 hv
    rw [unionOf, hu, Option.getD_some] at hunion
    have hfollow : ∀ n ∈ u, Readable S visit n ∧ n ≠ "" := by
      intro n hn
      obtain ⟨a, ha, hna⟩ := (hunion n).mp hn
      exact hsource.followers a ha n hna
    obtain ⟨qs, hsome, hsep, hnodes⟩ := sourceQueries_separated hsource.node
      (fun n hn => (hfollow n hn).1) (fun hmem => (hfollow "" hmem).2 rfl) (hd.nodup e.1 e.2 hv)
      hunion hu hlen
    exact ⟨qs, hsome, fun _ => hsep, hnodes⟩

/-- The queries of a source are found by its name among those of the whole file. -/
theorem queries_separated (hd : Decided d.1 (unionOf d.2))
    (hsource : ∀ e ∈ d.1, Source S visit d e) :
    ∃ qs, queries S d = some qs ∧ ∀ e ∈ d.1, 2 ≤ e.2.length →
      Separated e.2 (qs.filter fun q => q.decisionNode = e.1) := by
  let g (e : String × List (Finset String)) : List (Query τ) := (sourceQueries S d.2 e).getD []
  have hg (e : String × List (Finset String)) (he : e ∈ d.1) :
      sourceQueries S d.2 e = some (g e) ∧ (e.2.length ≠ 1 → Separated e.2 (g e)) ∧
        ∀ q ∈ g e, q.decisionNode = e.1 := by
    have ⟨qs, hsome, hsep, hnodes⟩ := sourceQueries_of_source hd he (hsource e he)
    have hge : g e = qs := by simp only [g, hsome, Option.getD_some]
    rw [hge]
    exact ⟨hsome, hsep, hnodes⟩
  refine ⟨d.1.flatMap g, ?_, ?_⟩
  · rw [queries, mapM_eq_map fun e he => (hg e he).1, Option.map_some, List.flatMap_def]
  · intro e he hlen
    have hfilter : (d.1.flatMap g).filter (fun q => q.decisionNode = e.1) = g e := by
      apply filter_flatMap_of_unique hd.nodup_keys.of_map he
      · intro q hq
        exact decide_eq_true ((hg e he).2.2 q hq)
      · intro e' he' hne q hq
        apply decide_eq_false
        rw [(hg e' he').2.2 q hq]
        exact fun heq => hne (List.inj_on_of_nodup_map hd.nodup_keys he' he heq)
    rw [hfilter]
    exact (hg e he).2.1 (by omega)

theorem readable_intrinsic (n : String) : Readable intrinsic (fun A x => decide (x ∈ A)) n :=
  ⟨.sig n, rfl, fun A => by simp [Satisfies]⟩

/-- A location's name: not empty, and not the name of a class. -/
structure LocName (n : String) : Prop where
  ne : n ≠ ""
  plain : ¬isoMark <:+: n.toList

def Class (c : String) : Prop := ∃ n, LocName n ∧ c = transform n

theorem Class.readable {c : String} (h : Class c) :
    Readable dyn (fun A x => decide (transform x ∈ A)) c := by
  have ⟨n, hn, hc⟩ := h
  rw [hc]
  exact transformDisjunc_spec hn.plain

theorem Class.ne {c : String} (h : Class c) : c ≠ "" := by
  have ⟨n, hn, hc⟩ := h
  rw [hc]
  rcases transform_cases n with ⟨k, _, _, hk⟩ | hn'
  · rw [hk]
    intro hnil
    have hlen := congrArg String.length hnil
    simp at hlen
  · rw [hn']
    exact hn.ne

/-- The maps after some rows over names of locations. -/
structure PpInv (d : Maps) : Prop where
  decided : Decided d.1 (unionOf d.2)
  ne_nil : ∀ k v, d.1.lookup k = some v → v ≠ []
  source : ∀ k v, d.1.lookup k = some v → Class k
  followers : ∀ k v, d.1.lookup k = some v → ∀ a ∈ v, ∀ n ∈ a, Class n

theorem PpInv.step (h : PpInv d) {row : String × List String} (hsrc : LocName row.1)
    (hrow : ∀ n ∈ row.2, LocName n) : PpInv (ppStep d row) where
  decided := by
    apply h.decided.add
    intro j
    by_cases hempty : (row.2.map transform).toFinset = ∅
    · have hsame : (ppStep d row).2 = d.2 := if_pos hempty
      rw [hsame, hempty, Finset.union_empty, ite_self]
    · have hnew : (ppStep d row).2 = Dict.upsert (transform row.1)
          (· ∪ (row.2.map transform).toFinset) (row.2.map transform).toFinset d.2 := if_neg hempty
      rw [hnew]
      exact unionOf_upsert d.2 _ j _
  ne_nil := by
    intro k v hv
    rcases Dict.lookup_upsert_cases hv with ⟨_, hv⟩ | ⟨_, _, rfl⟩ | ⟨_, v', _, rfl⟩
    · exact h.ne_nil k v hv
    · simp
    · exact List.ne_nil_of_mem (mem_insertNew.mpr (.inr rfl))
  source := by
    intro k v hv
    rcases Dict.lookup_upsert_cases hv with ⟨_, hv⟩ | ⟨rfl, _⟩ | ⟨rfl, _⟩
    · exact h.source k v hv
    · exact ⟨row.1, hsrc, rfl⟩
    · exact ⟨row.1, hsrc, rfl⟩
  followers := by
    have hnew : ∀ n ∈ (row.2.map transform).toFinset, Class n := by
      intro n hn
      have ⟨m, hm, hmn⟩ := List.mem_map.mp (List.mem_toFinset.mp hn)
      exact ⟨m, hrow m hm, hmn.symm⟩
    intro k v hv a ha
    rcases Dict.lookup_upsert_cases hv with ⟨_, hv⟩ | ⟨_, _, rfl⟩ | ⟨_, v', hold, rfl⟩
    · exact h.followers k v hv a ha
    · rw [List.mem_singleton.mp ha]
      exact hnew
    · rcases mem_insertNew.mp ha with ha | ha
      · exact h.followers _ v' hold a ha
      · rw [ha]
        exact hnew

theorem ppInv_foldl (rows : List (String × List String))
    (hrows : ∀ row ∈ rows, LocName row.1 ∧ ∀ n ∈ row.2, LocName n) (h : PpInv d) :
    PpInv (rows.foldl ppStep d) := by
  induction rows generalizing d with
  | nil => exact h
  | cons row rows ih =>
    have hrow := hrows row List.mem_cons_self
    exact ih (fun r hr => hrows r (List.mem_cons_of_mem row hr)) (h.step hrow.1 hrow.2)

/-- With two decisions a source has a follower, and so an entry in `map_allpl`. -/
theorem PpInv.lookup_allpl (h : PpInv d) {k : String} {v : List (Finset String)}
    (hv : d.1.lookup k = some v) (hlen : v.length ≠ 1) : ∃ u, d.2.lookup k = some u := by
  cases hu : d.2.lookup k with
  | some u => exact ⟨u, rfl⟩
  | none =>
    have hempty : ∀ a ∈ v, a = ∅ := by
      intro a ha
      apply Finset.eq_empty_of_forall_notMem
      intro x hx
      have hmem := (h.decided.union k v hv x).mpr ⟨a, ha, hx⟩
      rw [unionOf, hu] at hmem
      simp at hmem
    have hsingle : v = [∅] := by
      have hrep := List.eq_replicate_of_mem hempty
      have hnd := h.decided.nodup k v hv
      rw [hrep, List.nodup_replicate] at hnd
      have hpos := List.length_pos_iff.mpr (h.ne_nil k v hv)
      have hone : v.length = 1 := by omega
      rw [hrep, hone, List.replicate_one]
    exact absurd (congrArg List.length hsingle) hlen

end Files

/-- Whatever a file of decisions over names of locations holds: of the queries about one source no
two are true in one valuation of the location signals, and each is true in some valuation. -/
theorem decisions_exclusive (text ppText : List Char) :
    (∀ d, getDecisionDic text = some d → (∀ e ∈ d.1, ∀ a ∈ e.2, "" ∉ a) →
      ∃ qs, queries intrinsic d = some qs ∧ ∀ e ∈ d.1, 2 ≤ e.2.length →
        Separated e.2 (qs.filter fun q => q.decisionNode = e.1)) ∧
    ∀ rows, ppRows ppText = some rows →
      (∀ row ∈ rows, LocName row.1 ∧ ∀ n ∈ row.2, LocName n) →
      ∃ d qs, getDecisionDicPpFile ppText = some d ∧ queries dyn d = some qs ∧
        ∀ e ∈ d.1, 2 ≤ e.2.length → Separated e.2 (qs.filter fun q => q.decisionNode = e.1) := by
  constructor
  · intro d hd hnames
    have hinv := getDecisionDic_inv hd
    apply queries_separated hinv.decided
    intro e he
    refine ⟨readable_intrinsic e.1, ?_, ?_⟩
    · intro a ha n hn
      exact ⟨readable_intrinsic n, fun heq => hnames e he a ha (heq ▸ hn)⟩
    · intro _
      have hv := (Dict.mem_iff_lookup hinv.decided.nodup_keys).mp he
      obtain ⟨u, hu, _⟩ := hinv.lookup_allpl hv
      exact ⟨u, hu⟩
  · intro rows hrows hnames
    have hstart : PpInv ([], []) :=
      ⟨⟨List.nodup_nil, by simp [unionOf], by simp, by simp⟩, by simp, by simp, by simp⟩
    have hinv := ppInv_foldl rows hnames hstart
    obtain ⟨qs, hqs, hsep⟩ := queries_separated (S := dyn) hinv.decided fun e he => by
      have hv := (Dict.mem_iff_lookup hinv.decided.nodup_keys).mp he
      refine ⟨(hinv.source _ _ hv).readable, ?_, hinv.lookup_allpl hv⟩
      intro a ha n hn
      have hclass := hinv.followers _ _ hv a ha n hn
      exact ⟨hclass.readable, hclass.ne⟩
    exact ⟨_, qs, by rw [getDecisionDicPpFile, hrows, Option.map_some], hqs, hsep⟩

/-- A source with two decisions, in a file of plain locations and in one where the first follower
is one of four copies. -/
theorem decisions_exclusive_two :
    (getDecisionDic "a:2\nb\nc\n".toList = some ([("a", [{"b"}, {"c"}])], [("a", {"b", "c"})]) ∧
      ∃ qs, queries intrinsic ([("a", [{"b"}, {"c"}])], [("a", {"b", "c"})]) = some qs ∧
        Separated [{"b"}, {"c"}] (qs.filter fun q => q.decisionNode = "a")) ∧
    getDecisionDicPpFile "a|scb_0_s12\na|b\n".toList =
      some ([("a", [{"iso_1"}, {"b"}])], [("a", {"iso_1", "b"})]) ∧
    ∃ qs, queries dyn ([("a", [{"iso_1"}, {"b"}])], [("a", {"iso_1", "b"})]) = some qs ∧
      Separated [{"iso_1"}, {"b"}] (qs.filter fun q => q.decisionNode = "a") := by
  have hplain : getDecisionDic "a:2\nb\nc\n".toList =
      some ([("a", [{"b"}, {"c"}])], [("a", {"b", "c"})]) := by decide
  have hclass : getDecisionDicPpFile "a|scb_0_s12\na|b\n".toList =
      some ([("a", [{"iso_1"}, {"b"}])], [("a", {"iso_1", "b"})]) := by decide
  have hname : ∀ n ∈ ["a", "scb_0_s12", "b"], LocName n := by
    intro n hn
    have hall : ∀ n ∈ ["a", "scb_0_s12", "b"], n ≠ "" ∧ ¬isoMark <:+: n.toList := by decide
    exact ⟨(hall n hn).1, (hall n hn).2⟩
  have hboth := decisions_exclusive "a:2\nb\nc\n".toList "a|scb_0_s12\na|b\n".toList
  have ⟨qs, hqs, hsep⟩ := hboth.1 _ hplain (by decide)
  have ⟨d, qs', hd, hqs', hsep'⟩ := hboth.2 [("a", ["scb_0_s12"]), ("a", ["b"])] (by decide) (by
    intro row hrow
    have hrows : ∀ row ∈ [("a", ["scb_0_s12"]), ("a", ["b"])],
        row.1 ∈ ["a", "scb_0_s12", "b"] ∧ ∀ n ∈ row.2, n ∈ ["a", "scb_0_s12", "b"] := by decide
    exact ⟨hname _ (hrows row hrow).1, fun n hn => hname n ((hrows row hrow).2 n hn)⟩)
  obtain rfl := Option.some.inj (hclass.symm.trans hd)
  exact ⟨⟨hplain, qs, hqs, hsep _ (List.mem_singleton_self _) (by decide)⟩, hclass, qs', hqs',
    hsep' _ (List.mem_singleton_self _) (by decide)⟩

end SynthLC.Decisions
