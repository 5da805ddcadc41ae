import SynthLC.TaintCover

/-! The texts of a decision in the files of `dyn_step2.py`, against the query that they stand for:
apart from blanks, each text is the expression, printed. -/
namespace SynthLC.Intragp

open Sva TaintCover SvExpr Loop

/-! ### Printed expressions -/

def wireText : Wire → List Char
  | .loc pl => pl.toList
  | .t0 pl => pl.toList ++ "_t0".toList

/-- The operators that join more than two operands without brackets. -/
inductive Chain where
  | none | conj | disj
  deriving DecidableEq

def enclosed (inside : Bool) (t : List Char) : List Char :=
  if inside then t else '(' :: (t ++ [')'])

/-- An expression, as the last operand of a chain; `conj` is `&&`, and `&` between single bits. -/
def svText (conj : List Char) : Chain → BExp Wire → List Char
  | _, .one => "1'b1".toList
  | _, .sig x => wireText x
  | _, .not .one => "1'b0".toList
  | _, .not b => '!' :: svText conj .none b
  | _, .past n b => "$past(".toList ++ (svText conj .none b ++
      (if n = 1 then [')'] else ',' :: (Nat.toDigits 10 n ++ [')'])))
  | c, .and a b => enclosed (c = .conj) (svText conj .none a ++ (conj ++ svText conj .conj b))
  | c, .or a b => enclosed (c = .disj)
      (svText conj .none a ++ (['|', '|'] ++ svText conj .disj b))

def logical : List Char := ['&', '&']

def bitwise : List Char := ['&']

/-- The three texts, for the query made of the same parts. -/
def Prints (d : DecisionTexts) (q : Seq Wire) : Prop :=
  ∃ (decnode : BExp String) (followerset t0 : List (BExp Wire)),
    q = .cat (.bool (decnode.map .loc)) 1 (.bool (.and (.all followerset) (.any t0))) ∧
    squeeze d.decnode = squeeze (svText logical .none (decnode.map .loc)) ∧
    squeeze d.followerset = squeeze ('(' :: (svText logical .conj (.all followerset) ++ [')'])) ∧
    squeeze d.t0 = squeeze ('|' :: '\x7b' ::
      (t0.flatMap (svText bitwise .none · ++ [',']) ++ "1'b0".toList ++ ['\x7d']))

/-! ### Classes -/

section Classes

variable {isopl : String} {names : List String}

theorem classNames_ne_nil (h : classNames isopl = some names) : names ≠ [] := by
  have hsets : ∀ theset ∈ isomorphicSets, theset.insertionSort (· ≤ ·) ≠ [] := by decide
  obtain ⟨idx, _, h⟩ := Option.bind_eq_some_iff.mp h
  obtain ⟨theset, hset, h⟩ := Option.bind_eq_some_iff.mp h
  rw [← Option.some.inj h]
  exact hsets theset (List.mem_of_getElem? hset)

/-- A text for an expression that a negation can stand before. -/
def Operand (t : List Char) (b : BExp String) : Prop :=
  b ≠ .one ∧ squeeze t = squeeze (svText logical .none (b.map .loc))

theorem squeeze_names (names : List String) :
    squeeze (names.flatMap (fun n => n.toList ++ " || ".toList) ++ " 1'b0)".toList) =
      squeeze (svText logical .disj ((BExp.any (names.map .sig)).map .loc) ++ [')']) := by
  induction names with
  | nil => rfl
  | cons n names ih =>
    rw [List.flatMap_cons, List.append_assoc, squeeze_append, ih]
    simp [BExp.any, BExp.map, svText, enclosed, wireText, squeeze]

theorem transformDisjunc_prints (isopl : String) :
    Option.Rel Operand (transformDisjunc isopl) (SynthLC.transformDisjunc isopl) := by
  unfold transformDisjunc SynthLC.transformDisjunc
  split_ifs with hiso
  · refine rel_map fun names hnames => ?_
    have htext := squeeze_names names
    cases names with
    | nil => exact absurd rfl (classNames_ne_nil hnames)
    | cons n names =>
      refine ⟨by simp [BExp.any], ?_⟩
      rw [squeeze_cons (by decide), htext, ← squeeze_cons (by decide)]
      rfl
  · exact .some ⟨by simp, rfl⟩

/-! ### Taint -/

/-- A text of terms with commas between them. -/
def Terms (t : List Char) (bs : List (BExp Wire)) : Prop :=
  ∃ ts ≠ [], t = listed ts ∧
    List.Forall₂ (fun u b => squeeze u = squeeze (svText bitwise .none b)) ts bs

theorem Terms.map {ι : Type} {is : List ι} (his : is ≠ []) {f : ι → List Char} {g : ι → BExp Wire}
    (h : ∀ i, squeeze (f i) = squeeze (svText bitwise .none (g i))) :
    Terms (listed (is.map f)) (is.map g) := by
  refine ⟨is.map f, by simpa using his, rfl, ?_⟩
  rw [List.forall₂_map_left_iff, List.forall₂_map_right_iff, List.forall₂_same]
  exact fun i _ => h i

theorem Terms.single {t : List Char} {b : BExp Wire}
    (h : squeeze t = squeeze (svText bitwise .none b)) : Terms t [b] :=
  ⟨[t], by simp, by simp [listed], .cons h .nil⟩

theorem squeeze_active (n : String) :
    squeeze ('(' :: (n.toList ++ " & ".toList ++ n.toList ++ "_t0 )".toList)) =
      squeeze (svText bitwise .none (.and (.sig (.loc n)) (.sig (.t0 n)))) := by
  simp [svText, enclosed, wireText, bitwise, squeeze]

theorem transformIsoT0_prints (isopl : String) :
    Option.Rel Terms (transformIsoT0 isopl) (TaintCover.transformIsoT0 isopl) := by
  unfold transformIsoT0 TaintCover.transformIsoT0
  split_ifs with hiso
  · exact rel_map fun names hnames => .map (classNames_ne_nil hnames) squeeze_active
  · exact .some (.single (squeeze_active isopl))

theorem squeeze_past (x : String × String) :
    squeeze ("($past(".toList ++ x.1.toList ++ ") & ".toList ++ x.2.toList ++ "_t0 )".toList) =
      squeeze (svText bitwise .none (.and (.past 1 (.sig (.loc x.1))) (.sig (.t0 x.2)))) := by
  simp [svText, enclosed, wireText, bitwise, squeeze]

theorem squeeze_t0 (n : String) :
    squeeze (n.toList ++ "_t0 ".toList) = squeeze (svText bitwise .none (.sig (.t0 n))) := by
  simp [svText, wireText, squeeze]

theorem decNodeSet_ne_nil {decisionNode : String} {x : Nat × List String}
    (h : decNodeSet decisionNode = some (some x)) : x.2 ≠ [] := by
  unfold decNodeSet at h
  split_ifs at h
  · obtain ⟨g, _, h⟩ := Option.bind_eq_some_iff.mp h
    obtain ⟨names, hnames, h⟩ := Option.bind_eq_some_iff.mp h
    cases h
    exact classNames_ne_nil hnames
  · cases h

theorem transformIsoT0Neg_prints (isopl decisionNode : String) :
    Option.Rel Terms (transformIsoT0Neg isopl decisionNode)
      (TaintCover.transformIsoT0Neg isopl decisionNode) := by
  unfold transformIsoT0Neg TaintCover.transformIsoT0Neg
  cases hdec : decNodeSet decisionNode with
  | none => exact .none
  | some decNode =>
    simp only [Option.bind_eq_bind, Option.bind_some]
    split_ifs with hiso
    · cases hidx : isoIndex isopl with
      | none => exact .none
      | some plG =>
        cases hnames : classNames isopl with
        | none => exact .none
        | some names =>
          simp only [Option.bind_some]
          cases hsame : decNode.filter fun x =>
              sameUfsm.any fun itm => x.1 ∈ itm ∧ plG ∈ itm with
          | none => exact .some (.map (classNames_ne_nil hnames) squeeze_t0)
          | some x =>
            obtain ⟨rfl, _⟩ := Option.filter_eq_some_iff.mp hsame
            have hne : x.2.zip names ≠ [] := by
              rw [Ne, List.zip_eq_nil_iff, not_or]
              exact ⟨decNodeSet_ne_nil hdec, classNames_ne_nil hnames⟩
            exact .some (.map hne squeeze_past)
    · exact .some (.single (by simp [svText, wireText]))

end Classes

/-! ### The whole decision -/

theorem literal_prints (afset : List String) (n : String) :
    Option.Rel (fun u b => squeeze u = squeeze (svText logical .none b ++ logical))
      (literalText afset n) (literal (decide (n ∈ afset), n)) := by
  unfold literalText literal
  rcases rel_cases (transformDisjunc_prints n) with ⟨ht, hb⟩ | ⟨t, b, ht, hb, hne, htext⟩
  · rw [ht, hb]
    exact .none
  · rw [ht, hb]
    refine .some ?_
    have hand : squeeze " && ".toList = squeeze logical := by decide
    rw [squeeze_append, squeeze_append, hand]
    congr 1
    by_cases hn : n ∈ afset
    · simp [hn, htext]
    · have hnot : svText logical .none (.not (b.map .loc)) =
          '!' :: svText logical .none (b.map .loc) := by
        cases b with
        | one => exact absurd rfl hne
        | _ => rfl
      simp [hn, hnot, squeeze_cons (by decide : '!' ≠ ' '), htext]

theorem squeeze_literals {us : List (List Char)} {bs : List (BExp Wire)}
    (h : List.Forall₂ (fun u b => squeeze u = squeeze (svText logical .none b ++ logical)) us bs) :
    squeeze (us.flatten ++ " 1'b1".toList) = squeeze (svText logical .conj (.all bs)) := by
  induction h with
  | nil => rfl
  | @cons u b us bs hu _ ih =>
    have htext : svText logical .conj (.all (b :: bs)) =
        (svText logical .none b ++ logical) ++ svText logical .conj (.all bs) := by
      simp [BExp.all, svText, enclosed]
    rw [htext, List.flatten_cons, List.append_assoc, squeeze_append, hu, ih, ← squeeze_append]

theorem followerset_prints (s : Dyn.Setup) (afset : List String) :
    Option.Rel (fun t bs => squeeze t =
        squeeze ('(' :: (svText logical .conj (.all bs) ++ [')'])))
      (followersetText s.decisionSrc s.uniqPl afset)
      ((s.decision afset).followerset.mapM literal) := by
  have hset : (s.decision afset).followerset =
      ((if s.decisionSrc ∈ afset then [] else [s.decisionSrc]) ++ s.uniqPl.filter (· ≠ "")).map
        fun n => (decide (n ∈ afset), n) := by
    by_cases hsrc : s.decisionSrc ∈ afset <;> simp [Dyn.Setup.decision, hsrc]
  unfold followersetText
  rw [hset, List.mapM_map]
  rcases rel_cases (rel_mapM fun n _ => literal_prints afset n) with
    ⟨ht, hb⟩ | ⟨ts, bs, ht, hb, htext⟩
  · rw [ht]
    exact hb ▸ .none
  · rw [ht]
    refine hb ▸ .some ?_
    have hinner := squeeze_literals htext
    rw [squeeze_cons (by decide), squeeze_append, hinner, ← squeeze_append,
      ← squeeze_cons (by decide)]

theorem listed_append {ts : List (List Char)} (h : ts ≠ []) :
    listed ts ++ [' ', ','] = ts.flatMap (· ++ [' ', ',']) := by
  induction ts with
  | nil => exact absurd rfl h
  | cons t ts ih =>
    cases ts with
    | nil => simp [listed]
    | cons u ts =>
      have hrest := ih (List.cons_ne_nil u ts)
      have hcons : listed (t :: u :: ts) = t ++ ([' ', ','] ++ listed (u :: ts)) := by
        simp [listed, List.intercalate]
      rw [hcons, List.flatMap_cons, ← hrest]
      simp

theorem terms_prints {ts : List (List Char)} {bss : List (List (BExp Wire))}
    (h : List.Forall₂ Terms ts bss) : squeeze (ts.flatMap (· ++ [' ', ','])) =
      squeeze (bss.flatten.flatMap (svText bitwise .none · ++ [','])) := by
  have hone {us : List (List Char)} {bs : List (BExp Wire)}
      (h : List.Forall₂ (fun u b => squeeze u = squeeze (svText bitwise .none b)) us bs) :
      squeeze (us.flatMap (· ++ [' ', ','])) =
        squeeze (bs.flatMap (svText bitwise .none · ++ [','])) := by
    induction h with
    | nil => rfl
    | cons hu _ ih =>
      simp only [List.flatMap_cons, squeeze_append, hu, ih]
      rfl
  induction h with
  | nil => rfl
  | cons ht _ ih =>
    obtain ⟨us, hne, rfl, hus⟩ := ht
    rw [List.flatMap_cons, listed_append hne, squeeze_append, ih, hone hus, ← squeeze_append,
      List.flatten_cons, List.flatMap_append]

theorem t0_prints (s : Dyn.Setup) (afset : List String) :
    Option.Rel (fun t bss => squeeze t = squeeze ('|' :: '\x7b' ::
        (bss.flatten.flatMap (svText bitwise .none · ++ [',']) ++ "1'b0".toList ++ ['\x7d'])))
      (t0Text s.decisionSrc s.uniqPl afset) ((s.decision afset).t0.mapM t0Terms) := by
  have ht0 : (s.decision afset).t0 =
      if afset = [] then (s.uniqPl.filter (· ≠ "")).map (.neg · s.decisionSrc)
      else afset.map .active := rfl
  have hterms : Option.Rel (List.Forall₂ Terms)
      (if afset = [] then (s.uniqPl.filter (· ≠ "")).mapM (transformIsoT0Neg · s.decisionSrc)
        else afset.mapM transformIsoT0) ((s.decision afset).t0.mapM t0Terms) := by
    rw [ht0]
    split_ifs
    · rw [List.mapM_map]
      exact rel_mapM fun pl _ => transformIsoT0Neg_prints pl s.decisionSrc
    · rw [List.mapM_map]
      exact rel_mapM fun pl _ => transformIsoT0_prints pl
  unfold t0Text
  rcases rel_cases hterms with ⟨ht, hb⟩ | ⟨ts, bss, ht, hb, htext⟩
  · rw [ht, hb]
    exact .none
  · rw [ht, hb]
    refine .some ?_
    simp only [List.cons_append, squeeze_cons (by decide : '|' ≠ ' '),
      squeeze_cons (by decide : '\x7b' ≠ ' '), squeeze_append, terms_prints htext]

/-- The texts stand for the query that the cover is modelled as, or neither exists. -/
theorem decisionTexts_prints (s : Dyn.Setup) (afset : List String) :
    Option.Rel Prints (decisionTexts s.decisionSrc s.uniqPl afset)
      (TaintCover.cover (s.decision afset)) := by
  have hsrc : (s.decision afset).decnode = s.decisionSrc := rfl
  unfold decisionTexts TaintCover.cover
  rw [hsrc]
  rcases rel_cases (transformDisjunc_prints s.decisionSrc) with ⟨hd, hb⟩ | ⟨d, b, hd, hb, _, hdec⟩
  · rw [hd, hb]
    cases followersetText s.decisionSrc s.uniqPl afset with
    | none => exact .none
    | some _ => cases t0Text s.decisionSrc s.uniqPl afset <;> exact .none
  · rw [hd, hb]
    rcases rel_cases (followerset_prints s afset) with ⟨hf, hfs⟩ | ⟨f, fs, hf, hfs, hfollow⟩
    · rw [hf, hfs]
      exact .none
    · rw [hf, hfs]
      rcases rel_cases (t0_prints s afset) with ⟨ht, hts⟩ | ⟨t, ts, ht, hts, htaint⟩
      · rw [ht, hts]
        exact .none
      · rw [ht, hts]
        exact .some ⟨b, fs, ts.flatten, rfl, hdec, hfollow, htaint⟩

/-- `BORTHRS`, `RS1` and `RS2` -/
def taintText : Dyn.Taint → List Char
  | .both => "BORTHRS".toList
  | .rs1 => "RS1".toList
  | .rs2 => "RS2".toList

theorem defineOpTaint_prints (f : OpField) :
    defineOpTaint f = "`define ".toList ++ taintText (Dyn.defineOpTaint f) := by
  cases f <;> rfl

end SynthLC.Intragp
