import SynthLC.LeavingNames
import SynthLC.TextFile
import SynthLC.Dict

/-! `gen_s2` and `pp` of `xHBPerfG_leaving`: the checks that failed are asked again as weak orders,
and the verdicts of both rounds are collected. Each step decides for itself which checks an edge
has, and looks their verdicts up by name. -/
namespace SynthLC.Leaving

open Graph Loop

variable {PL IID : Type}

/-- A property that was looked up: the number of its file, its edge, and what it is. -/
structure LookUp (PL : Type) where
  cnt : Nat
  e : PL × PL
  prop : Kind × Check

/-- `WHB_LEAVING_{cnt}.sv` with its edge, a line of `whb_check_e.txt` -/
structure WhbFile (PL : Type) where
  e : PL × PL
  cnt : Nat
  checks : List Check

/-- Under `define WHB` each template asserts two properties. -/
def WhbFile.props (w : WhbFile PL) : List (Kind × Check) :=
  w.checks.flatMap fun c => [(.whb, c), (.concur, c)]

def HbFile.props (file : HbFile PL) : List (Kind × Check) := file.checks.map fun c => (.hb, c)

theorem HbFile.mem_props {file : HbFile PL} {p : Kind × Check} :
    p ∈ file.props ↔ p.1 = .hb ∧ p.2 ∈ file.checks := by
  obtain ⟨k, c⟩ := p
  cases k <;> simp [HbFile.props]

theorem WhbFile.mem_props {w : WhbFile PL} {p : Kind × Check} :
    p ∈ w.props ↔ p.1 ≠ .hb ∧ p.2 ∈ w.checks := by
  obtain ⟨k, c⟩ := p
  simp only [WhbFile.props, List.mem_flatMap, List.mem_pair, Prod.mk.injEq]
  cases k <;> simp

theorem WhbFile.nodup_props {w : WhbFile PL} (h : w.checks.Nodup) : w.props.Nodup := by
  refine List.nodup_flatMap.mpr ⟨fun c _ => by simp, h.imp fun hne => ?_⟩
  intro p hp hp'
  rcases List.mem_pair.mp hp with rfl | rfl <;> simp [hne] at hp'

/-- `res.values[0]` of a search -/
def first (prop : String) (csv : Rows) : Option Result :=
  (containing prop.toList csv).head?.map Prod.snd

theorem first_eq_some {prop : String} {rows : Rows} (h : containing prop.toList rows ≠ []) :
    ∃ r, first prop rows = some r := by
  obtain ⟨row, rest, hrows⟩ := List.exists_cons_of_ne_nil h
  exact ⟨row.2, by rw [first, hrows]; rfl⟩

variable [DecidableEq PL]

section Steps

variable (pkg : Package PL) (f : Facts PL IID)

/-- The checks of an edge, as the conditions of `gen_s2` and of `pp` say it. -/
def laterChecks (e : PL × PL) : List Check :=
  (if over1cyc f e.1 && !(eInTcEdge pkg f e.2 e.1 || inConcurrent f e.2 e.1) then [.leavingEnter]
    else []) ++
  (if over1cyc f e.2 && !eInTcEdge pkg f e.1 e.2 && !inConcurrent f e.1 e.2 then [.enterLeaving]
    else []) ++
  (if over1cyc f e.1 && over1cyc f e.2 then [.leavingLeaving] else [])

def edgeLabel (e : PL × PL) (p : Kind × Check) : String := label (f.name e.1) (f.name e.2) p.1 p.2

/-- A line of `check_e.txt` -/
def checkLine (file : HbFile PL) : List Char :=
  [','].intercalate [(f.name file.e.1).toList, (f.name file.e.2).toList, Nat.toDigits 10 file.cnt] ++
    ['\n']

/-- `consider_edge`, read from `check_e.txt`; each line must have three fields. -/
def considerEdge (files : List (HbFile PL)) : Option (List ((PL × PL) × Nat)) := do
  let items ← files.mapM fun file =>
    if (TextFile.fields ',' (checkLine f file)).length = 3 then some (file.e, file.cnt) else none
  some (items.foldl (fun d itm => Dict.upsert itm.1 (fun _ => itm.2) itm.2 d) [])

variable (csv csvWhb : Nat → Rows)

/-- One check in `gen_s2`: asked again after a counterexample. -/
def s2Check (x : (PL × PL) × Nat) (c : Check) : Option (List Check × List (LookUp PL)) := do
  let res ← first (edgeLabel f x.1 (.hb, c)) (csvNoprecon (csv x.2))
  some (if res = .cex then [c] else [], [⟨x.2, x.1, (.hb, c)⟩])

/-- `gen_s2`, with the properties it looks up -/
def genS2 (files : List (HbFile PL)) : Option (List (WhbFile PL) × List (LookUp PL)) := do
  let considered ← considerEdge f files
  let outs ← considered.mapM fun x => do
    let checks ← (laterChecks pkg f x.1).mapM (s2Check f csv x)
    some ((⟨x.1, x.2, checks.flatMap Prod.fst⟩ : WhbFile PL), checks.flatMap Prod.snd)
  some ((outs.map Prod.fst).filter fun w => !w.checks.isEmpty, outs.flatMap Prod.snd)

/-- What one check adds to `agg_res`, `hb_proven_res`, `whb_leaving_res` and `aws_concur_res`. -/
structure PpOut (PL : Type) where
  aggRes : List (String × Result × Result)
  hbProvenRes : List (Node PL × Node PL)
  whbLeavingRes : List (Node PL × Node PL)
  awsConcurRes : List (Node PL × Node PL)

/-- The pair, if it is proven and its precondition is covered. -/
def ifProven (n : Node PL × Node PL) (res pre : Result) : List (Node PL × Node PL) :=
  if res = .proven ∧ pre = .covered then [n] else []

/-- One check in `pp`; after a counterexample the verdicts of the second round are read too. -/
def ppCheck (x : (PL × PL) × Nat) (c : Check) : Option (PpOut PL × List (LookUp PL)) := do
  let prop := edgeLabel f x.1 (.hb, c)
  let res ← first prop (csvNoprecon (csv x.2))
  let resPrecond ← first prop (csvPercond (csv x.2))
  if res = .cex then
    let whb := edgeLabel f x.1 (.whb, c)
    let resLis := (containing whb.toList (csvWhb x.2)).map Prod.snd
    if resLis.length = 2 then
      let r ← resLis[0]?
      let pre ← resLis[1]?
      let concur := edgeLabel f x.1 (.concur, c)
      let resLis' := (containing concur.toList (csvWhb x.2)).map Prod.snd
      let r' ← resLis'[0]?
      let pre' ← resLis'[1]?
      some ({ aggRes := [(prop, res, resPrecond), (whb, r, pre), (concur, r', pre')]
              hbProvenRes := []
              whbLeavingRes := ifProven (c.nodes x.1) r pre
              awsConcurRes := ifProven (c.nodes x.1) r' pre' },
        [⟨x.2, x.1, (.hb, c)⟩, ⟨x.2, x.1, (.whb, c)⟩, ⟨x.2, x.1, (.concur, c)⟩])
    else none
  else
    some ({ aggRes := [(prop, res, resPrecond)]
            hbProvenRes := ifProven (c.nodes x.1) res resPrecond
            whbLeavingRes := []
            awsConcurRes := [] },
      [⟨x.2, x.1, (.hb, c)⟩])

/-- The files of `pp` -/
structure PpFiles (PL : Type) where
  leavingHb : List (String × Result × Result)
  leavingHbProven : List (Node PL × Node PL)
  leavingConcurProven : List (Node PL × Node PL)
  leavingWhbProven : List (Node PL × Node PL)

/-- The files from what the checks add; a pair that is simultaneous is no weak order. -/
def ppFiles (outs : List (PpOut PL)) : PpFiles PL :=
  let awsConcurRes := outs.flatMap PpOut.awsConcurRes
  { leavingHb := outs.flatMap PpOut.aggRes
    leavingHbProven := outs.flatMap PpOut.hbProvenRes
    leavingConcurProven := awsConcurRes
    leavingWhbProven := (outs.flatMap PpOut.whbLeavingRes).filter fun itm =>
      itm ∉ awsConcurRes ∧ (itm.2, itm.1) ∉ awsConcurRes }

/-- `pp`, with the properties it looks up -/
def pp (files : List (HbFile PL)) : Option (PpFiles PL × List (LookUp PL)) := do
  let considered ← considerEdge f files
  let outs ← considered.mapM fun x => (laterChecks pkg f x.1).mapM (ppCheck f csv csvWhb x)
  some (ppFiles (outs.flatten.map Prod.fst), outs.flatten.flatMap Prod.snd)

end Steps

variable {pkg : Package PL} {f : Facts PL IID} {e : PL × PL}

/-- The three functions agree on the checks of an edge. -/
theorem laterChecks_eq : laterChecks pkg f e = genChecks pkg f e := by
  unfold laterChecks genChecks
  simp only [inConcurrent_eq_false]
  cases over1cyc f e.1 <;> cases over1cyc f e.2 <;> cases eInTcEdge pkg f e.2 e.1 <;>
    cases eInTcEdge pkg f e.1 e.2 <;> rfl

theorem nodup_genChecks : (genChecks pkg f e).Nodup := by
  unfold genChecks
  simp only [inConcurrent_eq_false]
  cases over1cyc f e.1 <;> cases over1cyc f e.2 <;> cases eInTcEdge pkg f e.2 e.1 <;>
    cases eInTcEdge pkg f e.1 e.2 <;> decide

/-- Names are fields of comma separated lines. -/
theorem considerEdge_eq (hcomma : ∀ p, ',' ∉ (f.name p).toList) (files : List (HbFile PL)) :
    ∃ d, considerEdge f files = some d ∧ (∀ x ∈ d, ∃ file ∈ files, x = (file.e, file.cnt)) ∧
      ∀ file ∈ files, ∃ x ∈ d, x.1 = file.e := by
  have hline (file : HbFile PL) : (TextFile.fields ',' (checkLine f file)).length = 3 := by
    unfold checkLine
    rw [TextFile.fields_intercalate (by simp)]
    · rfl
    · intro field hfield
      simp only [List.mem_cons, List.not_mem_nil, or_false] at hfield
      rcases hfield with rfl | rfl | rfl
      · exact hcomma _
      · exact hcomma _
      · intro hmem
        have hdigit := Nat.isDigit_of_mem_toDigits (by omega) (by omega) hmem
        exact absurd hdigit (by decide)
  have hitems : files.mapM (fun file =>
      if (TextFile.fields ',' (checkLine f file)).length = 3 then some (file.e, file.cnt) else none) =
        some (files.map fun file => (file.e, file.cnt)) :=
    mapM_eq_map fun file _ => if_pos (hline file)
  unfold considerEdge
  rw [hitems]
  refine ⟨_, rfl, fun x hx => ?_, fun file hfile => ?_⟩
  · rcases Dict.mem_foldl_set Prod.fst Prod.snd hx with hx | ⟨y, hy, rfl⟩
    · simp at hx
    · obtain ⟨file, hfile, rfl⟩ := List.mem_map.mp hy
      exact ⟨file, hfile, rfl⟩
  · have hkey : file.e ∈ ((files.map fun file => (file.e, file.cnt)).foldl
        (fun d itm => Dict.upsert itm.1 (fun _ => itm.2) itm.2 d) []).map Prod.fst := by
      rw [Dict.keys_foldl_upsert Prod.fst, mem_foldl_insertNew]
      exact .inr (List.mem_map.mpr ⟨(file.e, file.cnt), List.mem_map.mpr ⟨file, hfile, rfl⟩, rfl⟩)
    obtain ⟨x, hx, hxe⟩ := List.mem_map.mp hkey
    exact ⟨x, hx, hxe⟩

section Agree

variable {path : List Char} {csv csvWhb : Nat → Rows} {d : List ((PL × PL) × Nat)}

/-- What the search for a check of the first round reads. -/
def hbRes (f : Facts PL IID) (csv : Nat → Rows) (x : (PL × PL) × Nat) (c : Check) : Result :=
  (first (edgeLabel f x.1 (.hb, c)) (csvNoprecon (csv x.2))).getD .err

/-- The checks of an edge that are asked again. -/
def whbFile (pkg : Package PL) (f : Facts PL IID) (csv : Nat → Rows) (x : (PL × PL) × Nat) :
    WhbFile PL :=
  ⟨x.1, x.2, (genChecks pkg f x.1).filter fun c => hbRes f csv x c = .cex⟩

/-- Every edge has a file of the first round in which its checks can be found. -/
def Readable (pkg : Package PL) (f : Facts PL IID) (csv : Nat → Rows) (x : (PL × PL) × Nat) : Prop :=
  ∀ c ∈ genChecks pkg f x.1,
    containing (edgeLabel f x.1 (.hb, c)).toList (csvNoprecon (csv x.2)) ≠ [] ∧
      containing (edgeLabel f x.1 (.hb, c)).toList (csvPercond (csv x.2)) ≠ []

theorem Readable.s2Check_eq {x : (PL × PL) × Nat} (h : Readable pkg f csv x) {c : Check}
    (hc : c ∈ genChecks pkg f x.1) : s2Check f csv x c =
      some (if hbRes f csv x c = .cex then [c] else [], [⟨x.2, x.1, (.hb, c)⟩]) := by
  obtain ⟨r, hr⟩ := first_eq_some (h c hc).1
  simp [s2Check, hbRes, hr]

/-- `gen_s2` on files it can read. -/
theorem genS2_eq {files : List (HbFile PL)} (hd : considerEdge f files = some d)
    (h : ∀ x ∈ d, Readable pkg f csv x) : genS2 pkg f csv files =
      some ((d.map (whbFile pkg f csv)).filter fun w => !w.checks.isEmpty,
        d.flatMap fun x => (genChecks pkg f x.1).map fun c => ⟨x.2, x.1, (.hb, c)⟩) := by
  have hedge : ∀ x ∈ d, (do
      let checks ← (laterChecks pkg f x.1).mapM (s2Check f csv x)
      some ((⟨x.1, x.2, checks.flatMap Prod.fst⟩ : WhbFile PL), checks.flatMap Prod.snd)) =
        some (whbFile pkg f csv x,
          (genChecks pkg f x.1).map fun c => (⟨x.2, x.1, (.hb, c)⟩ : LookUp PL)) := by
    intro x hx
    rw [laterChecks_eq, mapM_eq_map fun c hc => (h x hx).s2Check_eq hc]
    simp only [Option.bind_eq_bind, Option.bind_some, List.flatMap_map, whbFile,
      flatMap_ite_singleton, ← List.map_eq_flatMap]
  unfold genS2
  rw [hd]
  simp only [Option.bind_eq_bind, Option.bind_some] at hedge ⊢
  rw [mapM_eq_map hedge]
  simp [List.flatMap_map, Function.comp_def]

/-- One check in `pp`, if the files of both rounds have its rows. -/
theorem Readable.ppCheck_eq {x : (PL × PL) × Nat} (h : Readable pkg f csv x) {c : Check}
    (hc : c ∈ genChecks pkg f x.1) (hwhb : hbRes f csv x c = .cex → ∀ k, k ≠ .hb →
      (containing (edgeLabel f x.1 (k, c)).toList (csvWhb x.2)).length = 2) :
    ∃ out log, ppCheck f csv csvWhb x c = some (out, log) ∧ ⟨x.2, x.1, (.hb, c)⟩ ∈ log ∧
      ∀ l ∈ log, l.cnt = x.2 ∧ l.e = x.1 ∧ l.prop.2 = c ∧
        (l.prop.1 ≠ .hb → hbRes f csv x c = .cex) := by
  obtain ⟨r, hr⟩ := first_eq_some (h c hc).1
  obtain ⟨pre, hpre⟩ := first_eq_some (h c hc).2
  have hres : hbRes f csv x c = r := by simp [hbRes, hr]
  rw [hres] at hwhb ⊢
  by_cases hcex : r = .cex
  · obtain ⟨a, b, hab⟩ := List.length_eq_two.mp (hwhb hcex .whb (by simp))
    obtain ⟨a', b', hab'⟩ := List.length_eq_two.mp (hwhb hcex .concur (by simp))
    simp only [ppCheck, hr, hpre, hab, hab', hcex, if_true, Option.bind_eq_bind, Option.bind_some,
      List.map_cons, List.map_nil, List.length_cons, List.length_nil, List.getElem?_cons_zero,
      List.getElem?_cons_succ]
    exact ⟨_, _, rfl, by simp, by simp⟩
  · simp only [ppCheck, hr, hpre, hcex, if_false, Option.bind_eq_bind, Option.bind_some]
    exact ⟨_, _, rfl, by simp, by simp⟩

/-- `pp` on files it can read: what it looks up in the second round has a counterexample in the
first. -/
theorem pp_done {files : List (HbFile PL)} (hd : considerEdge f files = some d)
    (h : ∀ x ∈ d, Readable pkg f csv x)
    (hwhb : ∀ x ∈ d, ∀ c ∈ genChecks pkg f x.1, hbRes f csv x c = .cex → ∀ k, k ≠ .hb →
      (containing (edgeLabel f x.1 (k, c)).toList (csvWhb x.2)).length = 2) :
    ∃ out log, pp pkg f csv csvWhb files = some (out, log) ∧ ∀ l ∈ log,
      ∃ x ∈ d, ∃ c ∈ genChecks pkg f x.1, l.cnt = x.2 ∧ l.e = x.1 ∧ l.prop.2 = c ∧
        (l.prop.1 ≠ .hb → hbRes f csv x c = .cex) := by
  have hchecks : ∀ x ∈ d, ∃ outs, (laterChecks pkg f x.1).mapM (ppCheck f csv csvWhb x) =
      some outs := by
    intro x hx
    refine exists_mapM.mpr fun c hc => ?_
    rw [laterChecks_eq] at hc
    obtain ⟨out, log, hout, _⟩ := (h x hx).ppCheck_eq hc (hwhb x hx c hc)
    exact ⟨(out, log), hout⟩
  obtain ⟨outs, houts⟩ := exists_mapM.mpr hchecks
  refine ⟨ppFiles (outs.flatten.map Prod.fst), outs.flatten.flatMap Prod.snd, ?_, ?_⟩
  · simp only [pp, hd, Option.bind_eq_bind, Option.bind_some, houts]
  · intro l hl
    obtain ⟨out, hout, hl⟩ := List.mem_flatMap.mp hl
    obtain ⟨outs', houts', hout⟩ := List.mem_flatten.mp hout
    obtain ⟨x, hx, hmap⟩ := (mem_mapM houts).mp houts'
    obtain ⟨c, hc, hcheck⟩ := (mem_mapM hmap).mp hout
    rw [laterChecks_eq] at hc
    obtain ⟨out', log, heq, _, hlog⟩ := (h x hx).ppCheck_eq hc (hwhb x hx c hc)
    rw [hcheck] at heq
    obtain rfl := Option.some.inj heq
    exact ⟨x, hx, c, hc, hlog l hl⟩

end Agree

section Claims

variable [DecidableEq IID] {path : List Char} {csv csvWhb : Nat → Rows}

/-- The property was written to a file of the first round, and the search finds no other. -/
def FindsHb (files : List (HbFile PL)) (f : Facts PL IID) (path : List Char) (csv : Nat → Rows)
    (l : LookUp PL) : Prop :=
  (∃ file ∈ files, file.cnt = l.cnt ∧ file.e = l.e ∧ l.prop ∈ file.props) ∧
    SelectsOnly path (f.name l.e.1) (f.name l.e.2) l.prop (csv l.cnt)

/-- The same for the second round. -/
def FindsWhb (files : List (WhbFile PL)) (f : Facts PL IID) (path : List Char) (csv : Nat → Rows)
    (l : LookUp PL) : Prop :=
  (∃ w ∈ files, w.cnt = l.cnt ∧ w.e = l.e ∧ l.prop ∈ w.props) ∧
    SelectsOnly path (f.name l.e.1) (f.name l.e.2) l.prop (csv l.cnt)

/-- `gen_s2` comes to its end and looks up only what `gen` wrote, and so does `pp` with whatever
verdicts the files of `gen_s2` get; every search finds its own property only. -/
def StepsAgree (pkg : Package PL) (f : Facts PL IID) (path : List Char) (csv : Nat → Rows) : Prop :=
  ∃ whbFiles log, genS2 pkg f csv (gen pkg f) = some (whbFiles, log) ∧
    (∀ l ∈ log, FindsHb (gen pkg f) f path csv l) ∧
    ∀ csvWhb : Nat → Rows, (∀ w ∈ whbFiles,
        ListsExactly path (f.name w.e.1) (f.name w.e.2) w.props (csvWhb w.cnt)) →
      ∃ out log', pp pkg f csv csvWhb (gen pkg f) = some (out, log') ∧
        ∀ l ∈ log', if l.prop.1 = .hb then FindsHb (gen pkg f) f path csv l
          else FindsWhb whbFiles f path csvWhb l

section Names

variable (hname : ∀ p, FreeName (f.name p).toList) (hpath : ¬wordHb <:+: path)
include hname hpath

omit [DecidableEq PL] [DecidableEq IID] in
/-- Searches of the second round find the property and its precondition. -/
theorem WhbFile.finds {w : WhbFile PL} (hnd : w.checks.Nodup) {rows : Rows}
    (hrows : ListsExactly path (f.name w.e.1) (f.name w.e.2) w.props rows) {p : Kind × Check}
    (hp : p ∈ w.props) : (containing (edgeLabel f w.e p).toList rows).length = 2 ∧
      SelectsOnly path (f.name w.e.1) (f.name w.e.2) p rows := by
  have hhb {q : Kind × Check} (hq : q ∈ w.props) : q.1 ≠ .hb := (WhbFile.mem_props.mp hq).1
  have hk : ∀ q ∈ w.props, p.1 = .hb ↔ q.1 = .hb := fun q hq => iff_of_false (hhb hp) (hhb hq)
  have hno : ∀ q ∈ w.props, ¬Astray (f.name w.e.2) p q := by
    intro q _ hastray
    exact hhb hp (by rw [hastray.1])
  exact ⟨length_containing hpath (hname _) (hname _) hrows hk (WhbFile.nodup_props hnd) hp hno,
    selectsOnly_of_not_astray hpath (hname _) (hname _) hrows hk hno⟩

omit [DecidableEq PL] [DecidableEq IID] in
/-- A search of the first round finds its own property only, unless it goes astray. -/
theorem HbFile.selectsOnly_iff {file : HbFile PL} {rows : Rows}
    (hrows : ListsExactly path (f.name file.e.1) (f.name file.e.2) file.props rows) {c : Check} :
    SelectsOnly path (f.name file.e.1) (f.name file.e.2) (.hb, c) rows ↔
      ¬(c = .leavingEnter ∧ .leavingLeaving ∈ file.checks ∧
        (f.name file.e.2).toList <+: wordLeaving) := by
  constructor
  · intro hsel h
    obtain ⟨rfl, hll, hs2⟩ := h
    have hq : (Kind.hb, Check.leavingLeaving) ∈ file.props := HbFile.mem_props.mpr ⟨rfl, hll⟩
    exact not_selectsOnly_of_astray hrows hq ⟨rfl, rfl, hs2⟩ hsel
  · intro h
    refine selectsOnly_of_not_astray hpath (hname _) (hname _) hrows ?_ ?_
    · intro q hq
      exact iff_of_true rfl (HbFile.mem_props.mp hq).1
    · intro q hq hastray
      obtain ⟨hp, rfl, hs2⟩ := hastray
      exact h ⟨(Prod.mk.inj hp).2, (HbFile.mem_props.mp hq).2, hs2⟩

end Names

/-- The files `gen_s2` writes, one for each edge that has something to ask again. -/
def whbFiles (pkg : Package PL) (f : Facts PL IID) (csv : Nat → Rows) (d : List ((PL × PL) × Nat)) :
    List (WhbFile PL) :=
  (d.map (whbFile pkg f csv)).filter fun w => !w.checks.isEmpty

omit [DecidableEq IID] in
theorem mem_whbFiles {d : List ((PL × PL) × Nat)} {x : (PL × PL) × Nat} (hx : x ∈ d) {c : Check}
    (hc : c ∈ genChecks pkg f x.1) (hcex : hbRes f csv x c = .cex) :
    c ∈ (whbFile pkg f csv x).checks ∧ whbFile pkg f csv x ∈ whbFiles pkg f csv d := by
  have hmem : c ∈ (whbFile pkg f csv x).checks := List.mem_filter.mpr ⟨hc, by simpa using hcex⟩
  refine ⟨hmem, List.mem_filter.mpr ⟨List.mem_map.mpr ⟨x, hx, rfl⟩, ?_⟩⟩
  simpa using List.ne_nil_of_mem hmem

section Rounds

variable (hname : ∀ p, FreeName (f.name p).toList) (hpath : ¬wordHb <:+: path)
  {d : List ((PL × PL) × Nat)}
include hname hpath

omit [DecidableEq IID] in
/-- What `pp` looks up in the second round was asked there. -/
theorem finds_second (hcsvWhb : ∀ w ∈ whbFiles pkg f csv d,
      ListsExactly path (f.name w.e.1) (f.name w.e.2) w.props (csvWhb w.cnt))
    {x : (PL × PL) × Nat} (hx : x ∈ d) {c : Check} (hc : c ∈ genChecks pkg f x.1)
    (hcex : hbRes f csv x c = .cex) {k : Kind} (hk : k ≠ .hb) :
    (containing (edgeLabel f x.1 (k, c)).toList (csvWhb x.2)).length = 2 ∧
      FindsWhb (whbFiles pkg f csv d) f path csvWhb ⟨x.2, x.1, (k, c)⟩ := by
  obtain ⟨hmem, hfile⟩ := mem_whbFiles hx hc hcex
  have hp : (k, c) ∈ (whbFile pkg f csv x).props := WhbFile.mem_props.mpr ⟨hk, hmem⟩
  obtain ⟨hlen, hsel⟩ :=
    WhbFile.finds hname hpath (nodup_genChecks.filter _) (hcsvWhb _ hfile) hp
  exact ⟨hlen, ⟨_, hfile, rfl, rfl, hp⟩, hsel⟩

variable (hcsv : ∀ file ∈ gen pkg f,
  ListsExactly path (f.name file.e.1) (f.name file.e.2) file.props (csv file.cnt))
include hcsv

/-- What is looked up in the first round was written by `gen`, and is found alone if no label goes
astray. -/
theorem finds_first_iff {file : HbFile PL} (hgen : file ∈ gen pkg f) {c : Check}
    (hc : c ∈ file.checks) :
    FindsHb (gen pkg f) f path csv ⟨file.cnt, file.e, (.hb, c)⟩ ↔
      ¬(c = .leavingEnter ∧ .leavingLeaving ∈ file.checks ∧
        (f.name file.e.2).toList <+: wordLeaving) := by
  rw [FindsHb, HbFile.selectsOnly_iff hname hpath (hcsv file hgen)]
  exact and_iff_right ⟨file, hgen, rfl, rfl, HbFile.mem_props.mpr ⟨rfl, hc⟩⟩

variable (hpath' : ¬wordPrecondition <:+: path) (hd : considerEdge f (gen pkg f) = some d)
  (hfile : ∀ x ∈ d, ∃ file ∈ gen pkg f, x = (file.e, file.cnt))

omit hpath in
include hpath' hfile in
theorem readable_of_files : ∀ x ∈ d, Readable pkg f csv x := by
  intro x hx c hc
  obtain ⟨file, hgen, rfl⟩ := hfile x hx
  refine exists_first hpath' (hname _) (hname _) (hcsv file hgen) (p := (.hb, c)) ?_
  exact HbFile.mem_props.mpr ⟨rfl, by rwa [checks_of_mem_genLoop hgen]⟩

include hpath' hd hfile in
/-- A name that is the start of `LEAVING` leads the search for the first check astray. -/
theorem not_starts_of_stepsAgree (hkey : ∀ file ∈ gen pkg f, ∃ x ∈ d, x.1 = file.e)
    (h : StepsAgree pkg f path csv) {file : HbFile PL} (hgen : file ∈ gen pkg f)
    (hle : .leavingEnter ∈ file.checks) (hll : .leavingLeaving ∈ file.checks) :
    ¬(f.name file.e.2).toList <+: wordLeaving := by
  intro hstart
  obtain ⟨_, log, heq, hlog, _⟩ := h
  rw [genS2_eq hd (readable_of_files hname hcsv hpath' hfile)] at heq
  obtain ⟨_, rfl⟩ := Prod.mk.inj (Option.some.inj heq)
  -- with a repeated edge the file that is read may be another one with the same checks
  obtain ⟨x, hx, hxe⟩ := hkey file hgen
  obtain ⟨file', hgen', rfl⟩ := hfile x hx
  have he : file'.e = file.e := hxe
  have hchecks : file'.checks = file.checks := by
    rw [checks_of_mem_genLoop hgen, checks_of_mem_genLoop hgen', he]
  have hmem : (⟨file'.cnt, file'.e, (.hb, .leavingEnter)⟩ : LookUp PL) ∈
      d.flatMap fun x => (genChecks pkg f x.1).map fun c => ⟨x.2, x.1, (.hb, c)⟩ := by
    refine List.mem_flatMap.mpr ⟨_, hx, List.mem_map.mpr ⟨.leavingEnter, ?_, rfl⟩⟩
    rwa [← checks_of_mem_genLoop hgen', hchecks]
  have hfinds := (finds_first_iff hname hpath hcsv hgen' (hchecks ▸ hle)).mp (hlog _ hmem)
  exact hfinds ⟨rfl, hchecks ▸ hll, by rwa [he]⟩

include hpath' hd hfile in
theorem stepsAgree_of_not_starts (hno : ∀ file ∈ gen pkg f, .leavingEnter ∈ file.checks →
    .leavingLeaving ∈ file.checks → ¬(f.name file.e.2).toList <+: wordLeaving) :
    StepsAgree pkg f path csv := by
  have hread := readable_of_files hname hcsv hpath' hfile
  have hhb {x : (PL × PL) × Nat} (hx : x ∈ d) {c : Check} (hc : c ∈ genChecks pkg f x.1) :
      FindsHb (gen pkg f) f path csv ⟨x.2, x.1, (.hb, c)⟩ := by
    obtain ⟨file, hgen, rfl⟩ := hfile x hx
    rw [← checks_of_mem_genLoop hgen] at hc
    refine (finds_first_iff hname hpath hcsv hgen hc).mpr fun h => ?_
    obtain ⟨rfl, hll, hstart⟩ := h
    exact hno file hgen hc hll hstart
  refine ⟨whbFiles pkg f csv d, _, genS2_eq hd hread, ?_, fun csvWhb hcsvWhb => ?_⟩
  · intro l hl
    obtain ⟨x, hx, hl⟩ := List.mem_flatMap.mp hl
    obtain ⟨c, hc, rfl⟩ := List.mem_map.mp hl
    exact hhb hx hc
  · obtain ⟨out, log', hpp, hlog'⟩ := pp_done hd hread fun x hx c hc hcex k hk =>
      (finds_second hname hpath hcsvWhb hx hc hcex hk).1
    refine ⟨out, log', hpp, fun l hl => ?_⟩
    obtain ⟨cnt, e, k, c⟩ := l
    obtain ⟨x, hx, _, hc, rfl, rfl, rfl, hcex⟩ := hlog' _ hl
    by_cases hk : k = .hb
    · rw [if_pos hk, hk]
      exact hhb hx hc
    · rw [if_neg hk]
      exact (finds_second hname hpath hcsvWhb hx hc (hcex hk) hk).2

end Rounds

/-- A verdict file of the first round in which everything is proven. -/
def allProven (s1 s2 : String) (props : List (Kind × Check)) : Rows :=
  props.flatMap fun p => [(rowName ['t', 'o', 'p'] (label s1 s2 p.1 p.2), .proven),
    (preName ['t', 'o', 'p'] (label s1 s2 p.1 p.2), .covered)]

end Claims

end SynthLC.Leaving
