import Mathlib.Data.Finset.Basic
import SynthLC.Dict
import SynthLC.OrderGraph
import SynthLC.TextFile

/-! The follower sets of `xSummarize` as a text file, and `get_decision_dic` of
`src_ift_utils/util.py`, which reads the file as the decisions of each location. -/
namespace SynthLC.Decisions

open TextFile Loop

/-- `"___final"` -/
def finalMark : List Char := ['_', '_', '_', 'f', 'i', 'n', 'a', 'l']

/-- `"__final"`, one underscore less. -/
def finalPart : List Char := ['_', '_', 'f', 'i', 'n', 'a', 'l']

/-- `tmpmap` and `map_allpl` after some lines, and the location of the last header. -/
structure State where
  pl : Option (List Char)
  tmpmap : List (String × List (Finset String))
  mapAllpl : List (String × Finset String)

/-- A header: the location gets an entry. -/
def State.enter (s : State) (pl : List Char) : State where
  pl := some pl
  tmpmap := Dict.upsert (String.ofList pl) id [] s.tmpmap
  mapAllpl := Dict.upsert (String.ofList pl) id ∅ s.mapAllpl

/-- A decision: listed once, and its locations counted in. -/
def State.add (pl : List Char) (s : State) (aset : Finset String) : State where
  pl := s.pl
  tmpmap := Dict.upsert (String.ofList pl) (insertNew · aset) [aset] s.tmpmap
  mapAllpl := Dict.upsert (String.ofList pl) (· ∪ aset) aset s.mapAllpl

def names (items : List (List Char)) : Finset String := (items.map String.ofList).toFinset

/-- `line2` of a line without its end: what is left without the final nodes of other locations. -/
def line2 (pl line : List Char) : Option (Finset String) :=
  let items := line.splitOn ','
  if 1 < items.length ∧ finalPart <:+: line then
    some (names ((items.filter fun itm => ¬finalPart <:+: itm ∨ itm = pl ++ finalMark).map
      (remove finalMark)))
  else none

/-- `aset` of a line with its end. -/
def asetOf (line : List Char) : Finset String :=
  let line := if finalMark <:+: line then remove finalMark line else line
  if line.dropLast = [] then ∅ else names (line.dropLast.splitOn ',')

/-- One line of the file; a set before the first header stops the script. -/
def readLine (s : State) (line : List Char) : Option State :=
  if ':' ∈ line then
    let pl := line.takeWhile (· ≠ ':')
    some (s.enter (if finalMark <:+: pl then before finalMark pl else pl))
  else
    s.pl.map fun pl => (asetOf line :: (line2 pl line.dropLast).toList).foldl (State.add pl) s

/-- `get_decision_dic` of the text of a file. -/
def getDecisionDic (text : List Char) :
    Option (List (String × List (Finset String)) × List (String × Finset String)) :=
  ((lines '\n' (universalNewlines text)).foldlM readLine ⟨none, [], []⟩).map fun s =>
    (s.tmpmap, s.mapAllpl)

/-! ### The writer -/

/-- The name of a location. -/
structure IsName (s : List Char) : Prop where
  ne_nil : s ≠ []
  comma : ',' ∉ s
  colon : ':' ∉ s
  newline : '\n' ∉ s
  carriage : '\r' ∉ s
  final : ¬finalPart <:+: s

abbrev Loc := { s : List Char // IsName s }

def nodeText : Node Loc → List Char
  | .enter p => p.1
  | .final p => p.1 ++ finalMark

/-- A set in the order its elements are listed. -/
abbrev FollowerSet := { l : List (Node Loc) // l.Nodup }

def setRow (t : FollowerSet) : List Char := [','].intercalate (t.1.map nodeText)

def headerRow (e : Node Loc × List FollowerSet) : List Char :=
  nodeText e.1 ++ ':' :: Nat.toDigits 10 e.2.length

/-- `follower_set_v2.txt` -/
def followerRows (m : List (Node Loc × List FollowerSet)) : List (List Char) :=
  m.flatMap fun e => headerRow e :: e.2.map setRow

def followerFile (m : List (Node Loc × List FollowerSet)) : List Char :=
  (followerRows m).flatMap fun row => row ++ ['\n']

/-- A location's name as the reader stores it. -/
def Loc.key (p : Loc) : String := String.ofList p.1

/-- The set without the marks of final nodes. -/
def dropped (t : FollowerSet) : Finset String := (t.1.map fun n => n.loc.key).toFinset

def keeps (p : Loc) : Node Loc → Bool
  | .enter _ => true
  | .final q => decide (q = p)

/-- The nodes that are not final, with the location itself if its own final node is there. -/
def kept (p : Loc) (t : FollowerSet) : Finset String :=
  ((t.1.filter (keeps p)).map fun n => n.loc.key).toFinset

def isFinal : Node Loc → Bool
  | .enter _ => false
  | .final _ => true

/-- What one follower set of a node of `p` contributes. -/
def taken (p : Loc) (t : FollowerSet) : List (Finset String) :=
  dropped t :: if 2 ≤ t.1.length ∧ t.1.any isFinal then [kept p t] else []

/-! ### One line -/

section Line

variable {p : Loc} {n : Node Loc} {t : FollowerSet}

theorem finalPart_in_mark : finalPart <:+: finalMark := ⟨['_'], [], rfl⟩

theorem finalMark_free (p : Loc) : ¬finalMark <:+: p.1 :=
  fun h => p.2.final (finalPart_in_mark.trans h)

theorem finalMark_unbordered (n : Nat) (hpos : 0 < n) (hlt : n < finalMark.length) :
    ¬finalMark.drop n <+: finalMark := by
  have hall : ∀ i < 8, 0 < i → ¬finalMark.drop i <+: finalMark := by decide
  exact hall n hlt hpos

theorem not_earlier_final (p : Loc) :
    ∀ ys, ys <:+ p.1 → ys ≠ [] → ¬finalMark <+: ys ++ finalMark :=
  not_earlier finalMark_unbordered (finalMark_free p)

theorem remove_nodeText (n : Node Loc) : remove finalMark (nodeText n) = n.loc.1 := by
  cases n with
  | enter p => exact remove_of_free (finalMark_free p)
  | final p => exact remove_append_self (by decide) (not_earlier_final p)

theorem finalPart_nodeText : finalPart <:+: nodeText n ↔ isFinal n = true := by
  cases n with
  | enter p => simpa [isFinal, nodeText] using p.2.final
  | final p =>
    simp only [isFinal, iff_true, nodeText]
    exact finalPart_in_mark.trans (List.suffix_append p.1 finalMark).isInfix

theorem not_mem_nodeText {c : Char} (hname : ∀ p : Loc, c ∉ p.1) (hmark : c ∉ finalMark)
    (n : Node Loc) : c ∉ nodeText n := by
  cases n with
  | enter p => exact hname p
  | final p =>
    rw [nodeText, List.mem_append, not_or]
    exact ⟨hname p, hmark⟩

theorem keeps_iff : (¬finalPart <:+: nodeText n ∨ nodeText n = p.1 ++ finalMark) ↔
    keeps p n = true := by
  rw [finalPart_nodeText]
  cases n with
  | enter q => simp [isFinal, keeps]
  | final q => simp [isFinal, keeps, nodeText, Subtype.ext_iff]

theorem finalPart_row (ns : List (Node Loc)) :
    finalPart <:+: [','].intercalate (ns.map nodeText) ↔ ns.any isFinal = true := by
  induction ns with
  | nil => simp [List.intercalate, finalPart]
  | cons n ns ih =>
    cases ns with
    | nil => simp [finalPart_nodeText]
    | cons n' ns =>
      rw [List.map_cons, List.map_cons, List.intercalate_cons_cons, List.append_assoc,
        List.singleton_append, Occurs.infix_append_cons (by decide) (by decide), finalPart_nodeText,
        ← List.map_cons, ih]
      simp

theorem splitOn_setRow (hne : t.1 ≠ []) : (setRow t).splitOn ',' = t.1.map nodeText := by
  apply List.splitOn_intercalate
  · intro x hx
    have ⟨n, _, hn⟩ := List.mem_map.mp hx
    rw [← hn]
    exact not_mem_nodeText (fun p => p.2.comma) (by decide) n
  · simpa using hne

theorem line2_setRow (p : Loc) (t : FollowerSet) : line2 p.1 (setRow t) =
    if 2 ≤ t.1.length ∧ t.1.any isFinal then some (kept p t) else none := by
  unfold line2
  by_cases hne : t.1 = []
  · simp [setRow, hne, List.intercalate, finalPart]
  · have hcond : finalPart <:+: setRow t ↔ t.1.any isFinal = true := finalPart_row t.1
    simp only [splitOn_setRow hne, List.length_map, hcond]
    have hitems : ((t.1.map nodeText).filter fun itm =>
        ¬finalPart <:+: itm ∨ itm = p.1 ++ finalMark).map (remove finalMark) =
        (t.1.filter (keeps p)).map fun n => n.loc.1 := by
      rw [List.filter_map, List.map_map]
      have hfilter : t.1.filter ((fun itm =>
          decide (¬finalPart <:+: itm ∨ itm = p.1 ++ finalMark)) ∘ nodeText) =
          t.1.filter (keeps p) := by
        apply List.filter_congr
        intro n _
        rw [Function.comp_apply, Bool.eq_iff_iff, decide_eq_true_iff, keeps_iff]
      rw [hfilter]
      exact List.map_congr_left fun n _ => remove_nodeText n
    simp only [hitems, names, List.map_map]
    rfl

theorem asetOf_setRow (t : FollowerSet) : asetOf (setRow t ++ ['\n']) = dropped t := by
  unfold asetOf
  have hremove : (if finalMark <:+: setRow t ++ ['\n'] then remove finalMark (setRow t ++ ['\n'])
      else setRow t ++ ['\n']) = [','].intercalate (t.1.map fun n => n.loc.1) ++ ['\n'] := by
    have hall : remove finalMark (setRow t ++ ['\n']) =
        [','].intercalate (t.1.map fun n => n.loc.1) ++ ['\n'] := by
      rw [remove_append_cons (by decide) (by decide), setRow,
        remove_intercalate (by decide) (by decide), List.map_map]
      congr 2
      exact List.map_congr_left fun n _ => remove_nodeText n
    split_ifs with hmark
    · exact hall
    · rw [← hall, remove_of_free hmark]
  simp only [hremove, List.dropLast_concat]
  by_cases hne : t.1 = []
  · simp [hne, List.intercalate, dropped]
  · have hsplit : ([','].intercalate (t.1.map fun n => n.loc.1)).splitOn ',' =
        t.1.map fun n => n.loc.1 := by
      apply List.splitOn_intercalate
      · intro x hx
        have ⟨n, _, hn⟩ := List.mem_map.mp hx
        rw [← hn]
        exact n.loc.2.comma
      · simpa using hne
    have hfull : [','].intercalate (t.1.map fun n => n.loc.1) ≠ [] := by
      intro hnil
      rw [hnil, List.splitOn_nil] at hsplit
      have hmem : [] ∈ t.1.map fun n => n.loc.1 := hsplit ▸ List.mem_singleton_self _
      have ⟨n, _, hn⟩ := List.mem_map.mp hmem
      exact n.loc.2.ne_nil hn
    rw [if_neg hfull, hsplit, names, List.map_map]
    rfl

variable {s : State}

theorem readLine_headerRow (s : State) (e : Node Loc × List FollowerSet) :
    readLine s (headerRow e ++ ['\n']) = some (s.enter e.1.loc.1) := by
  have hcolon : ':' ∉ nodeText e.1 := not_mem_nodeText (fun p => p.2.colon) (by decide) e.1
  have htake : (headerRow e ++ ['\n']).takeWhile (· ≠ ':') = nodeText e.1 := by
    rw [headerRow, List.append_assoc, List.takeWhile_append_of_pos, List.cons_append,
      List.takeWhile_cons_of_neg (by simp), List.append_nil]
    intro c hc
    rw [decide_eq_true_iff]
    exact fun heq => hcolon (heq ▸ hc)
  have hname : (if finalMark <:+: nodeText e.1 then before finalMark (nodeText e.1)
      else nodeText e.1) = e.1.loc.1 := by
    cases e.1 with
    | enter p => exact if_neg (finalMark_free p)
    | final p =>
      have hmark : finalMark <:+: nodeText (.final p) := (List.suffix_append p.1 finalMark).isInfix
      rw [if_pos hmark]
      exact before_append_self (not_earlier_final p)
  unfold readLine
  rw [if_pos (by simp [headerRow])]
  simp only [htake, hname]

theorem readLine_setRow (hpl : s.pl = some p.1) (t : FollowerSet) :
    readLine s (setRow t ++ ['\n']) = some ((taken p t).foldl (State.add p.1) s) := by
  have hcolon : ':' ∉ setRow t ++ ['\n'] := by
    rw [List.mem_append, not_or]
    refine ⟨not_mem_intercalate (by decide) ?_, by decide⟩
    intro x hx
    have ⟨n, _, hn⟩ := List.mem_map.mp hx
    rw [← hn]
    exact not_mem_nodeText (fun p => p.2.colon) (by decide) n
  have hline2 : (line2 p.1 (setRow t)).toList =
      if 2 ≤ t.1.length ∧ t.1.any isFinal then [kept p t] else [] := by
    rw [line2_setRow]
    split_ifs <;> rfl
  unfold readLine
  rw [if_neg hcolon, hpl, asetOf_setRow, List.dropLast_concat, Option.map_some, hline2]
  rfl

end Line

/-! ### Whole files -/

section Run

variable {s s' : State} {pl : List Char} {k : String} {a : Finset String}

/-- The decision is listed for the location. -/
def State.Holds (s : State) (k : String) (a : Finset String) : Prop :=
  ∃ v, s.tmpmap.lookup k = some v ∧ a ∈ v

/-- The locations in the decisions of a source; none where it has no entry. -/
def unionOf (allpl : List (String × Finset String)) (k : String) : Finset String :=
  (allpl.lookup k).getD ∅

/-- Every source has its decisions once, and their union. -/
structure Decided (tmpmap : List (String × List (Finset String))) (U : String → Finset String) :
    Prop where
  nodup_keys : (tmpmap.map Prod.fst).Nodup
  fresh : ∀ k, tmpmap.lookup k = none → U k = ∅
  nodup : ∀ k v, tmpmap.lookup k = some v → v.Nodup
  union : ∀ k v, tmpmap.lookup k = some v → ∀ x, x ∈ U k ↔ ∃ a ∈ v, x ∈ a

section Decided

variable {tmpmap : List (String × List (Finset String))} {U U' : String → Finset String}

theorem Decided.enter (h : Decided tmpmap U) (k : String) :
    Decided (Dict.upsert k id [] tmpmap) U where
  nodup_keys := by
    rw [Dict.keys_upsert]
    exact nodup_insertNew h.nodup_keys _
  fresh := by
    intro j hj
    rw [Dict.lookup_upsert] at hj
    split_ifs at hj with hk
    exact h.fresh j hj
  nodup := by
    intro j v hv
    rcases Dict.lookup_upsert_cases hv with ⟨_, hv⟩ | ⟨_, _, rfl⟩ | ⟨_, v', hold, hv'⟩
    · exact h.nodup j v hv
    · exact List.nodup_nil
    · rw [hv']
      exact h.nodup k v' hold
  union := by
    intro j v hv
    rcases Dict.lookup_upsert_cases hv with ⟨_, hv⟩ | ⟨rfl, hold, rfl⟩ | ⟨rfl, v', hold, hv'⟩
    · exact h.union j v hv
    · simp [h.fresh j hold]
    · rw [hv']
      exact h.union j v' hold

theorem Decided.add (h : Decided tmpmap U) {k : String} {aset : Finset String}
    (hU : ∀ j, U' j = if j = k then U j ∪ aset else U j) :
    Decided (Dict.upsert k (insertNew · aset) [aset] tmpmap) U' where
  nodup_keys := by
    rw [Dict.keys_upsert]
    exact nodup_insertNew h.nodup_keys _
  fresh := by
    intro j hj
    rw [Dict.lookup_upsert] at hj
    split_ifs at hj with hk
    rw [hU, if_neg hk]
    exact h.fresh j hj
  nodup := by
    intro j v hv
    rcases Dict.lookup_upsert_cases hv with ⟨_, hv⟩ | ⟨_, _, rfl⟩ | ⟨_, v', hold, rfl⟩
    · exact h.nodup j v hv
    · exact List.nodup_singleton aset
    · exact nodup_insertNew (h.nodup k v' hold) aset
  union := by
    intro j v hv x
    rw [hU]
    rcases Dict.lookup_upsert_cases hv with ⟨hne, hv⟩ | ⟨rfl, hold, rfl⟩ | ⟨rfl, v', hold, rfl⟩
    · rw [if_neg hne]
      exact h.union j v hv x
    · simp [h.fresh j hold]
    · rw [if_pos rfl, Finset.mem_union, h.union j v' hold]
      simp only [mem_insertNew, or_and_right, exists_or, exists_eq_left]

end Decided

structure State.Inv (s : State) : Prop where
  decided : Decided s.tmpmap (unionOf s.mapAllpl)
  keys : s.mapAllpl.map Prod.fst = s.tmpmap.map Prod.fst

theorem holds_enter : (s.enter pl).Holds k a ↔ s.Holds k a := by
  unfold State.Holds State.enter
  simp only [Dict.lookup_upsert]
  split_ifs with hk
  · rw [hk]
    cases s.tmpmap.lookup (String.ofList pl) with
    | none => simp
    | some v => simp
  · rfl

theorem holds_add {aset : Finset String} : (s.add pl aset).Holds k a ↔
    s.Holds k a ∨ (k = String.ofList pl ∧ a = aset) := by
  unfold State.Holds State.add
  simp only [Dict.lookup_upsert]
  split_ifs with hk
  · rw [hk]
    cases s.tmpmap.lookup (String.ofList pl) with
    | none => simp
    | some v => simp [mem_insertNew]
  · simp [hk]

theorem State.Inv.enter (h : s.Inv) (pl : List Char) : (s.enter pl).Inv where
  decided := by
    have hsame : unionOf (s.enter pl).mapAllpl = unionOf s.mapAllpl := by
      funext j
      simp only [unionOf, State.enter, Dict.lookup_upsert]
      split_ifs with hj
      · rw [hj]
        cases s.mapAllpl.lookup (String.ofList pl) <;> rfl
      · rfl
    rw [hsame]
    exact h.decided.enter _
  keys := by simp only [State.enter, Dict.keys_upsert, h.keys]

theorem unionOf_upsert (allpl : List (String × Finset String)) (k j : String)
    (aset : Finset String) : unionOf (Dict.upsert k (· ∪ aset) aset allpl) j =
      if j = k then unionOf allpl j ∪ aset else unionOf allpl j := by
  simp only [unionOf, Dict.lookup_upsert]
  split_ifs with hj
  · rw [hj]
    cases allpl.lookup k with
    | none => simp
    | some u => rfl
  · rfl

theorem State.Inv.add (h : s.Inv) (pl : List Char) (aset : Finset String) :
    (s.add pl aset).Inv where
  decided := h.decided.add fun j => unionOf_upsert s.mapAllpl _ j aset
  keys := by simp only [State.add, Dict.keys_upsert, h.keys]

theorem State.Inv.adds (h : s.Inv) (pl : List Char) (asets : List (Finset String)) :
    (asets.foldl (State.add pl) s).Inv := by
  induction asets generalizing s with
  | nil => exact h
  | cons a asets ih => exact ih (h.add pl a)

theorem State.Inv.readLine {line : List Char} (h : s.Inv) (hs : readLine s line = some s') :
    s'.Inv := by
  unfold Decisions.readLine at hs
  split_ifs at hs with hcolon
  · rw [← Option.some.inj hs]
    exact h.enter _
  · have ⟨pl, _, hs⟩ := Option.map_eq_some_iff.mp hs
    rw [← hs]
    exact h.adds pl _

theorem State.Inv.lookup_allpl (h : s.Inv) {v : List (Finset String)}
    (hv : s.tmpmap.lookup k = some v) :
    ∃ u, s.mapAllpl.lookup k = some u ∧ ∀ x, x ∈ u ↔ ∃ a ∈ v, x ∈ a := by
  have hmem : k ∈ s.mapAllpl.map Prod.fst := by
    rw [h.keys]
    exact Dict.lookup_isSome_iff.mp ⟨v, hv⟩
  have ⟨u, hu⟩ := Dict.lookup_isSome_iff.mpr hmem
  have hunion := h.decided.union k v hv
  rw [unionOf, hu] at hunion
  exact ⟨u, hu, hunion⟩

/-- What `get_decision_dic` returns, whatever the text of the file. -/
theorem getDecisionDic_inv {text : List Char} {retmap : List (String × List (Finset String))}
    {allpl : List (String × Finset String)} (h : getDecisionDic text = some (retmap, allpl)) :
    (State.mk none retmap allpl).Inv := by
  have ⟨s, hs, hret⟩ := Option.map_eq_some_iff.mp h
  have hstart : (State.mk none [] []).Inv :=
    ⟨⟨List.nodup_nil, by simp [unionOf], by simp, by simp⟩, rfl⟩
  have hinv : s.Inv := foldlM_inv (fun _ _ _ _ hs hstep => hs.readLine hstep) hstart hs
  cases hret
  exact ⟨hinv.decided, hinv.keys⟩

theorem pl_adds (pl : List Char) (asets : List (Finset String)) (s : State) :
    (asets.foldl (State.add pl) s).pl = s.pl := by
  induction asets generalizing s with
  | nil => rfl
  | cons a asets ih => exact ih (s.add pl a)

theorem holds_adds (asets : List (Finset String)) : (asets.foldl (State.add pl) s).Holds k a ↔
    s.Holds k a ∨ (k = String.ofList pl ∧ a ∈ asets) := by
  induction asets generalizing s with
  | nil => simp
  | cons b asets ih =>
    rw [List.foldl_cons, ih, holds_add, List.mem_cons, and_or_left, or_assoc]

theorem mem_keys_adds (asets : List (Finset String)) :
    k ∈ (asets.foldl (State.add pl) (s.enter pl)).tmpmap.map Prod.fst ↔
      k ∈ s.tmpmap.map Prod.fst ∨ k = String.ofList pl := by
  have hadds (s : State) (hpl : String.ofList pl ∈ s.tmpmap.map Prod.fst) :
      (asets.foldl (State.add pl) s).tmpmap.map Prod.fst = s.tmpmap.map Prod.fst := by
    induction asets generalizing s with
    | nil => rfl
    | cons a asets ih =>
      have hadd : (s.add pl a).tmpmap.map Prod.fst = s.tmpmap.map Prod.fst := by
        rw [State.add, Dict.keys_upsert, insertNew, if_pos hpl]
      rw [List.foldl_cons, ih (s.add pl a) (hadd ▸ hpl), hadd]
  have henter (k : String) : k ∈ (s.enter pl).tmpmap.map Prod.fst ↔
      k ∈ s.tmpmap.map Prod.fst ∨ k = String.ofList pl := by
    rw [State.enter, Dict.keys_upsert, mem_insertNew]
  rw [hadds _ ((henter _).mpr (.inr rfl)), henter]

/-- What the lines of one node do. -/
def entryStep (s : State) (e : Node Loc × List FollowerSet) : State :=
  (e.2.flatMap (taken e.1.loc)).foldl (State.add e.1.loc.1) (s.enter e.1.loc.1)

theorem readSets {p : Loc} (hpl : s.pl = some p.1) (ts : List FollowerSet) :
    (ts.map fun t => setRow t ++ ['\n']).foldlM readLine s =
      some ((ts.flatMap (taken p)).foldl (State.add p.1) s) := by
  induction ts generalizing s with
  | nil => rfl
  | cons t ts ih =>
    have hnext : ((taken p t).foldl (State.add p.1) s).pl = some p.1 := (pl_adds _ _ s).trans hpl
    rw [List.map_cons, List.foldlM_cons, readLine_setRow hpl, List.flatMap_cons, List.foldl_append]
    exact ih hnext

theorem readRows (m : List (Node Loc × List FollowerSet)) (s : State) :
    ((followerRows m).map fun row => row ++ ['\n']).foldlM readLine s =
      some (m.foldl entryStep s) := by
  induction m generalizing s with
  | nil => rfl
  | cons e m ih =>
    have hsets := readSets (s := s.enter e.1.loc.1) (p := e.1.loc) rfl e.2
    rw [followerRows, List.flatMap_cons, List.map_append, List.foldlM_append, List.map_cons,
      List.foldlM_cons, readLine_headerRow, List.map_map]
    change ((e.2.map fun t => setRow t ++ ['\n']).foldlM readLine (s.enter e.1.loc.1) >>= fun s =>
      ((followerRows m).map fun row => row ++ ['\n']).foldlM readLine s) = _
    rw [hsets]
    exact ih _

theorem holds_entries (m : List (Node Loc × List FollowerSet)) :
    (m.foldl entryStep s).Holds k a ↔ s.Holds k a ∨
      ∃ e ∈ m, k = e.1.loc.key ∧ a ∈ e.2.flatMap (taken e.1.loc) := by
  induction m generalizing s with
  | nil => simp
  | cons e m ih =>
    rw [List.foldl_cons, ih, entryStep, holds_adds, holds_enter, List.exists_mem_cons_iff, or_assoc]
    rfl

theorem mem_keys_entries (m : List (Node Loc × List FollowerSet)) :
    k ∈ (m.foldl entryStep s).tmpmap.map Prod.fst ↔ k ∈ s.tmpmap.map Prod.fst ∨
      ∃ e ∈ m, k = e.1.loc.key := by
  induction m generalizing s with
  | nil => simp
  | cons e m ih =>
    rw [List.foldl_cons, ih, entryStep, mem_keys_adds, List.exists_mem_cons_iff, or_assoc]
    rfl

theorem lines_followerFile (m : List (Node Loc × List FollowerSet)) :
    lines '\n' (universalNewlines (followerFile m)) =
      (followerRows m).map fun row => row ++ ['\n'] := by
  have hclean {c : Char} (hname : ∀ p : Loc, c ∉ p.1) (hmark : c ∉ finalMark) (hcomma : c ≠ ',')
      (hcolon : c ≠ ':') (hdigit : c.isDigit = false) : ∀ row ∈ followerRows m, c ∉ row := by
    intro row hrow hc
    have ⟨e, _, hrow⟩ := List.mem_flatMap.mp hrow
    rcases List.mem_cons.mp hrow with rfl | hrow
    · rw [headerRow, List.mem_append, List.mem_cons] at hc
      rcases hc with hc | hc | hc
      · exact not_mem_nodeText hname hmark e.1 hc
      · exact hcolon hc
      · have hdigits := Nat.isDigit_of_mem_toDigits (by decide) (by decide) hc
        rw [hdigit] at hdigits
        cases hdigits
    · have ⟨t, _, ht⟩ := List.mem_map.mp hrow
      rw [← ht] at hc
      refine not_mem_intercalate hcomma ?_ hc
      intro x hx
      have ⟨n, _, hn⟩ := List.mem_map.mp hx
      rw [← hn]
      exact not_mem_nodeText hname hmark n
  have hret := hclean (fun p => p.2.carriage) (by decide) (by decide) (by decide) (by decide)
  have hnl := hclean (fun p => p.2.newline) (by decide) (by decide) (by decide) (by decide)
  have htext : universalNewlines (followerFile m) = followerFile m := by
    apply universalNewlines_of_not_mem
    intro hmem
    have ⟨row, hrow, hmem⟩ := List.mem_flatMap.mp hmem
    rcases List.mem_append.mp hmem with hmem | hmem
    · exact hret row hrow hmem
    · simp at hmem
  rw [htext]
  exact lines_flatMap id hnl

theorem mem_taken {p : Loc} {t : FollowerSet} : a ∈ taken p t ↔
    a = dropped t ∨ (2 ≤ t.1.length ∧ (∃ q, Node.final q ∈ t.1) ∧ a = kept p t) := by
  have hany : t.1.any isFinal = true ↔ ∃ q, Node.final q ∈ t.1 := by
    rw [List.any_eq_true]
    constructor
    · intro ⟨n, hn, hfin⟩
      cases n with
      | enter q => cases hfin
      | final q => exact ⟨q, hn⟩
    · intro ⟨q, hq⟩
      exact ⟨_, hq, rfl⟩
  rw [taken, List.mem_cons, List.mem_ite_nil_right, hany, List.mem_singleton, and_assoc]

end Run

/-- Reading back the file of a map from nodes to follower sets: the locations are those of the
nodes, and each has, once, every follower set of its nodes without the marks of final nodes, every
larger follower set with final nodes cut down to the rest, and the union of all these. -/
theorem decisions_survive (m : List (Node Loc × List FollowerSet)) :
    ∃ retmap allpl, getDecisionDic (followerFile m) = some (retmap, allpl) ∧
      (retmap.map Prod.fst).Nodup ∧ allpl.map Prod.fst = retmap.map Prod.fst ∧
      (∀ k, k ∈ retmap.map Prod.fst ↔ ∃ e ∈ m, k = e.1.loc.key) ∧
      ∀ p : Loc, (∃ e ∈ m, e.1.loc = p) → ∃ v u,
        retmap.lookup p.key = some v ∧ allpl.lookup p.key = some u ∧ v.Nodup ∧
        (∀ a, a ∈ v ↔ ∃ e ∈ m, e.1.loc = p ∧ ∃ t ∈ e.2, a = dropped t ∨
          (2 ≤ t.1.length ∧ (∃ q, Node.final q ∈ t.1) ∧ a = kept p t)) ∧
        ∀ x, x ∈ u ↔ ∃ a ∈ v, x ∈ a := by
  have hread : getDecisionDic (followerFile m) =
      some ((m.foldl entryStep ⟨none, [], []⟩).tmpmap,
        (m.foldl entryStep ⟨none, [], []⟩).mapAllpl) := by
    rw [getDecisionDic, lines_followerFile, readRows, Option.map_some]
  have hinv := getDecisionDic_inv hread
  have hkeys (k : String) : k ∈ (m.foldl entryStep ⟨none, [], []⟩).tmpmap.map Prod.fst ↔
      ∃ e ∈ m, k = e.1.loc.key := by simp [mem_keys_entries]
  refine ⟨_, _, hread, hinv.decided.nodup_keys, hinv.keys, hkeys, ?_⟩
  intro p ⟨e, he, hep⟩
  have ⟨v, hv⟩ := Dict.lookup_isSome_iff.mpr ((hkeys p.key).mpr ⟨e, he, by rw [hep]⟩)
  have ⟨u, hu, hunion⟩ := hinv.lookup_allpl hv
  refine ⟨v, u, hv, hu, hinv.decided.nodup p.key v hv, ?_, hunion⟩
  intro a
  have hholds : a ∈ v ↔ (m.foldl entryStep ⟨none, [], []⟩).Holds p.key a := by
    unfold State.Holds
    rw [hv]
    simp
  have hkey (q : Loc) : p.key = q.key ↔ q = p := by
    unfold Loc.key
    rw [String.ofList_inj, Subtype.ext_iff]
    exact eq_comm
  rw [hholds, holds_entries]
  simp only [hkey, List.mem_flatMap, mem_taken]
  constructor
  · intro h
    rcases h with ⟨v, hv, _⟩ | ⟨e, he, rfl, ha⟩
    · simp at hv
    · exact ⟨e, he, rfl, ha⟩
  · intro ⟨e, he, hep, ha⟩
    subst hep
    exact .inr ⟨e, he, rfl, ha⟩

/-- A line with a final node of another location counts twice. -/
example : getDecisionDic "a:1\na,b___final\n".toList =
    some ([("a", [{"a", "b"}, {"a"}])], [("a", {"a", "b"})]) := by decide

end SynthLC.Decisions
