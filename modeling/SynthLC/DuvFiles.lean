import SynthLC.DuvHeader

/-! The two files that `xDUVPLs/gen.py` leaves for the later scripts, as texts, and how they are
read: `get_perflocs` takes the names of the locations from the header, and `perfloc_signals.txt`
gives each location its register, the `iid`.  The later scripts take two locations of one `iid` for
two states of one place. -/
namespace SynthLC.DuvFiles

open DuvPls DuvAnnotation DuvHeader

def pcrRow (pcr : Text) : Text := '\t' :: '(' :: (pcr ++ " == pc0) && ".toList)

def eqRow (e : Text × Nat × Int) : Text :=
  '\t' :: '(' :: (e.1 ++ " == ".toList ++ Nat.toDigits 10 e.2.1 ++ "'d".toList ++
    TextFile.intText e.2.2 ++ ") && ".toList)

/-- The lines of `def_s`. -/
def wireRows (l : Wire Text) : List Text :=
  ("wire ".toList ++ (l.name.toList ++ " = ".toList)) ::
    (l.pcr.toList.map pcrRow ++ l.eqs.map eqRow ++ ["\t 1'b1; ".toList])

/-- `reachable_duvpls.sv` -/
def reachableDuvpls (out : List (Wire Text × List Text)) : Text :=
  fileOf (out.flatMap fun x => wireRows x.1)

/-- What `run_duvpls.sh` puts between the common header and the locations. -/
def banner : List Text :=
  [[], "// =============================================================================".toList,
    "// ## Performing location annotation".toList,
    "// ============================================================================= ".toList,
    [], []]

/-- `header.sv` of an instruction: the common header, the locations and what is assumed of the
instruction. -/
def headerText (common : Text) (out : List (Wire Text × List Text)) (instn : Text) : Text :=
  common ++ (fileOf banner ++ (reachableDuvpls out ++ instn))

def startTag : Text := "Performing location".toList

/-- `"wire" in line[:5]` -/
def StartsWire (line : Text) : Prop := "wire".toList <:+: line.take 5

instance decidableStartsWire (line : Text) : Decidable (StartsWire line) :=
  inferInstanceAs (Decidable ("wire".toList <:+: line.take 5))

/-- One line, with `st` and `ret`. -/
def perflocLine (s : Bool × List Text) (line : Text) : Option (Bool × List Text) :=
  let st := s.1 || decide (startTag <:+: line)
  if s.1 ∧ StartsWire line then
    (line.splitOn ' ')[1]?.map fun perfloc => (st, s.2 ++ [perfloc])
  else some (st, s.2)

/-- `get_perflocs(HEADERFILE)` -/
def getPerflocs (f : List Text) : Option (List Text) :=
  (f.foldlM perflocLine (false, [])).map Prod.snd

/-- A line of `perfloc_signals.txt`. -/
def signalRow (x : Wire Text × List Text) : Text :=
  x.1.name.toList ++ (" : ".toList ++ [','].intercalate x.2)

def perflocSignals (out : List (Wire Text × List Text)) : Text := fileOf (out.map signalRow)

/-- `pl, sigs = line[:-1].split(" : ")`, and `sigs.split(",")` -/
def splitSignals (line : Text) : Option (Text × List Text) :=
  let sigs := TextFile.afterFirst " : ".toList line.dropLast
  if " : ".toList <:+: line.dropLast ∧ ¬" : ".toList <:+: sigs then
    some (TextFile.before " : ".toList line.dropLast, sigs.splitOn ',')
  else none

/-- `pl_signals` -/
def plSignals (f : List Text) : Option (List (Text × List Text)) :=
  f.foldlM (fun m line => (splitSignals line).map fun (pl, sigs) =>
    Dict.upsert pl (fun _ => sigs) sigs m) []

/-- `iid_map[pl]`, the first signal of a location. -/
def iidMap (m : List (Text × List Text)) (pl : Text) : Option Text :=
  (Dict.get m pl).bind List.head?

def taintOf (pl : Text) : Text := pl ++ "_t0".toList

/-- `arr` of `gen_static_pl_prop.py`: for each register the taint of the last location with it. -/
def staticArr (f : List Text) : Option (List Text) :=
  (f.foldlM (fun m line => (splitSignals line).map fun (pl, sigs) =>
    Dict.upsert (sigs.headD []) (fun _ => taintOf pl) (taintOf pl) m) []).map
      fun m => m.map Prod.snd

/-! ### The names in the header -/

section Names

variable {line : Text}

theorem perflocLine_skip (h : ¬StartsWire line) (ret : List Text) :
    perflocLine (true, ret) line = some (true, ret) := by
  unfold perflocLine
  rw [if_neg fun hw => h hw.2]
  rfl

theorem perflocLine_before (h : ¬startTag <:+: line) (ret : List Text) :
    perflocLine (false, ret) line = some (false, ret) := by
  unfold perflocLine
  simp [h]

theorem perflocLine_wire {name : Text} (hname : ' ' ∉ name) (ret : List Text) :
    perflocLine (true, ret) ("wire ".toList ++ (name ++ " = ".toList) ++ ['\n']) =
      some (true, ret ++ [name]) := by
  have hline : "wire ".toList ++ (name ++ " = ".toList) ++ ['\n'] =
      [' '].intercalate ["wire".toList, name, "=".toList, ['\n']] := by
    simp [List.intercalate]
  have hfree : ∀ t ∈ ["wire".toList, name, "=".toList, ['\n']], ' ' ∉ t := by
    simpa using hname
  have hsplit := List.splitOn_intercalate ' ' hfree (by simp)
  have hwire : StartsWire ("wire ".toList ++ (name ++ " = ".toList) ++ ['\n']) :=
    ⟨[], [' '], by simp⟩
  unfold perflocLine
  rw [if_pos ⟨rfl, hwire⟩, hline, hsplit]
  rfl

/-- The other lines of a wire start with a tab and one character more. -/
theorem not_startsWire {d : Char} {t : Text} (hd : d ≠ 'w') : ¬StartsWire ('\t' :: d :: t) := by
  intro h
  have hlen : (t.take 3).length ≤ 3 := List.length_take_le 3 t
  have h : "wire".toList <:+: '\t' :: d :: t.take 3 := h
  rw [List.infix_cons_iff, List.infix_cons_iff] at h
  rcases h with h | h | h
  · exact absurd (List.cons_prefix_cons.mp h).1 (by decide)
  · exact hd (List.cons_prefix_cons.mp h).1.symm
  · have hle := h.length_le
    have hfour : "wire".toList.length = 4 := rfl
    omega

theorem foldlM_wireRows {l : Wire Text} (hname : ' ' ∉ l.name.toList) (ret : List Text) :
    ((wireRows l).map (· ++ ['\n'])).foldlM perflocLine (true, ret) =
      some (true, ret ++ [l.name.toList]) := by
  have hrest : ∀ line ∈ (l.pcr.toList.map pcrRow ++ l.eqs.map eqRow ++ ["\t 1'b1; ".toList]).map
      (· ++ ['\n']), ¬StartsWire line := by
    intro line hline
    have ⟨row, hrow, hline⟩ := List.mem_map.mp hline
    rw [← hline]
    simp only [List.mem_append, List.mem_map, List.mem_singleton] at hrow
    rcases hrow with (⟨p, _, hrow⟩ | ⟨e, _, hrow⟩) | hrow
    · rw [← hrow]
      exact not_startsWire (by decide)
    · rw [← hrow]
      exact not_startsWire (by decide)
    · rw [hrow]
      exact not_startsWire (d := ' ') (by decide)
  rw [wireRows, List.map_cons, List.foldlM_cons, perflocLine_wire hname]
  exact Loop.foldlM_fixed fun line hline => perflocLine_skip (hrest line hline) _

theorem foldlM_locations {out : List (Wire Text × List Text)}
    (hnames : ∀ x ∈ out, ' ' ∉ x.1.name.toList) (ret : List Text) :
    ((out.flatMap fun x => wireRows x.1).map (· ++ ['\n'])).foldlM perflocLine (true, ret) =
      some (true, ret ++ out.map fun x => x.1.name.toList) := by
  induction out generalizing ret with
  | nil => simp
  | cons x out ih =>
    obtain ⟨hx, hout⟩ := List.forall_mem_cons.mp hnames
    rw [List.flatMap_cons, List.map_append, List.foldlM_append, foldlM_wireRows hx]
    change List.foldlM perflocLine _ _ = _
    rw [ih hout, List.append_assoc]
    rfl

theorem startTag_free {common : Text} (h : ¬startTag <:+: common) :
    ¬startTag <:+: common ++ ['\n'] := by
  rw [List.infix_concat_iff, not_or]
  refine ⟨?_, h⟩
  intro hend
  rcases List.suffix_concat_iff.mp hend with hnil | ⟨t, htag, _⟩
  · exact absurd hnil (by decide)
  · have hmem : '\n' ∈ startTag := htag ▸ List.mem_concat_self
    exact absurd hmem (by decide)

theorem foldlM_common {common : Text} (h : ¬startTag <:+: common) (ret : List Text) :
    (TextFile.lines '\n' (common ++ ['\n'])).foldlM perflocLine (false, ret) =
      some (false, ret) :=
  Loop.foldlM_fixed fun _ hline =>
    perflocLine_before (TextFile.not_infix_line (startTag_free h) hline) ret

theorem foldlM_banner : (banner.tail.map (· ++ ['\n'])).foldlM perflocLine (false, []) =
    some (true, []) := by
  decide +kernel

theorem lines_fileOf {rows : List Text} (h : ∀ row ∈ rows, '\n' ∉ row) :
    TextFile.lines '\n' (fileOf rows) = rows.map (· ++ ['\n']) :=
  TextFile.lines_flatMap (fun row => row) h

theorem lines_header {rows : List Text} (h : ∀ row ∈ rows, '\n' ∉ row) (common instn : Text) :
    TextFile.lines '\n' (common ++ (fileOf banner ++ (fileOf rows ++ instn))) =
      TextFile.lines '\n' (common ++ ['\n']) ++ (banner.tail.map (· ++ ['\n']) ++
        (rows.map (· ++ ['\n']) ++ TextFile.lines '\n' instn)) := by
  have hjoin : fileOf banner.tail ++ (fileOf rows ++ instn) =
      fileOf (banner.tail ++ rows) ++ instn := by
    simp only [fileOf, List.flatMap_append, List.append_assoc]
  have hfree : ∀ row ∈ banner.tail ++ rows, '\n' ∉ row := by
    intro row hrow
    rcases List.mem_append.mp hrow with hrow | hrow
    · exact (by decide : ∀ row ∈ banner.tail, '\n' ∉ row) row hrow
    · exact h row hrow
  have hended : TextFile.Ended (fileOf (banner.tail ++ rows)) := .flatMap (by simp [banner])
  -- the first line of the banner is empty: it closes the common header
  change TextFile.lines '\n' (common ++ '\n' :: (fileOf banner.tail ++ (fileOf rows ++ instn))) = _
  rw [TextFile.lines_append, hjoin, hended.lines_append, lines_fileOf hfree, List.map_append,
    List.append_assoc]

/-- The names of the locations come back from the header in their order. -/
theorem getPerflocs_headerText {out : List (Wire Text × List Text)} {common instn : Text}
    (hnames : ∀ x ∈ out, ' ' ∉ x.1.name.toList)
    (hrows : ∀ x ∈ out, ∀ row ∈ wireRows x.1, '\n' ∉ row) (hcommon : ¬startTag <:+: common)
    (hinstn : ∀ line ∈ TextFile.lines '\n' instn, ¬StartsWire line) :
    getPerflocs (TextFile.lines '\n' (headerText common out instn)) =
      some (out.map fun x => x.1.name.toList) := by
  have hfree : ∀ row ∈ out.flatMap fun x => wireRows x.1, '\n' ∉ row := by
    intro row hrow
    have ⟨x, hx, hrow⟩ := List.mem_flatMap.mp hrow
    exact hrows x hx row hrow
  have hlast (ret : List Text) :
      (TextFile.lines '\n' instn).foldlM perflocLine (true, ret) = some (true, ret) :=
    Loop.foldlM_fixed fun line hline => perflocLine_skip (hinstn line hline) ret
  unfold getPerflocs headerText reachableDuvpls
  simp only [lines_header hfree, List.foldlM_append, foldlM_common hcommon, foldlM_banner,
    foldlM_locations hnames, hlast, Option.bind_eq_bind, Option.bind_some, Option.map_some,
    List.nil_append]

end Names

/-! ### The signals of a location -/

section Signals

variable {x : Wire Text × List Text} {out : List (Wire Text × List Text)}

/-- The texts of a location can be told apart in its line. -/
structure Readable (x : Wire Text × List Text) : Prop where
  name : ' ' ∉ x.1.name.toList ∧ '\n' ∉ x.1.name.toList
  sigs : x.2 ≠ [] ∧ ∀ s ∈ x.2, ' ' ∉ s ∧ ',' ∉ s ∧ '\n' ∉ s

theorem splitSignals_row (h : Readable x) :
    splitSignals (signalRow x ++ ['\n']) = some (x.1.name.toList, x.2) := by
  have hsep : " : ".toList = ' ' :: ": ".toList := rfl
  have hblank : ' ' ∉ [','].intercalate x.2 :=
    TextFile.not_mem_intercalate (by decide) fun s hs => (h.sigs.2 s hs).1
  have hbefore : TextFile.before " : ".toList (signalRow x) = x.1.name.toList :=
    TextFile.before_append_of_not_mem h.name.1
  have hafter : TextFile.afterFirst " : ".toList (signalRow x) = [','].intercalate x.2 :=
    TextFile.afterFirst_append_of_not_mem h.name.1
  have hin : " : ".toList <:+: signalRow x := List.infix_append' _ _ _
  have hout : ¬" : ".toList <:+: [','].intercalate x.2 := fun hsub =>
    hblank (hsub.subset (by decide))
  have hsplit : ([','].intercalate x.2).splitOn ',' = x.2 :=
    List.splitOn_intercalate ',' (fun s hs => (h.sigs.2 s hs).2.1) h.sigs.1
  unfold splitSignals
  rw [List.dropLast_concat, hbefore, hafter, if_pos ⟨hin, hout⟩, hsplit]

theorem lines_perflocSignals (h : ∀ x ∈ out, Readable x) :
    TextFile.lines '\n' (perflocSignals out) = out.map fun x => signalRow x ++ ['\n'] := by
  have hfree : ∀ row ∈ out.map signalRow, '\n' ∉ row := by
    intro row hrow
    have ⟨x, hx, hrow⟩ := List.mem_map.mp hrow
    have hsigs : '\n' ∉ [','].intercalate x.2 :=
      TextFile.not_mem_intercalate (by decide) fun s hs => ((h x hx).sigs.2 s hs).2.2
    rw [← hrow, signalRow]
    simp only [List.mem_append, not_or]
    exact ⟨(h x hx).name.2, by decide, hsigs⟩
  rw [perflocSignals, lines_fileOf hfree, List.map_map]
  rfl

/-- A loop over the file goes through the locations. -/
theorem foldlM_signals {β : Type} (h : ∀ x ∈ out, Readable x) (f : β → Text × List Text → β)
    (s : β) : (TextFile.lines '\n' (perflocSignals out)).foldlM
      (fun m line => (splitSignals line).map (f m)) s =
        some (out.foldl (fun m x => f m (x.1.name.toList, x.2)) s) := by
  rw [lines_perflocSignals h, List.foldlM_map]
  apply Loop.foldlM_eq_foldl
  intro m x hx
  rw [splitSignals_row (h x hx)]
  rfl

end Signals

/-! ### The locations of the blocks -/

section Located

variable {W : Text → Nat} {e e' : Entry} {x y : Wire Text × List Text}

/-- What an item puts into the list of signals. -/
def listed : Item → List Text
  | .signal sig _ => [sig]
  | .cond _ sigs => sigs

/-- The texts of the block have no blank, except for the conditions themselves. -/
structure Blankless (e : Entry) : Prop where
  nm : ' ' ∉ e.nm
  pcr : ' ' ∉ e.pcr ∧ ',' ∉ e.pcr
  items : ∀ i ∈ e.items, ∀ s ∈ listed i, ' ' ∉ s

theorem listed_free {i : Item} (h : i.WF) : ∀ s ∈ listed i, ',' ∉ s ∧ '\n' ∉ s := by
  obtain ⟨hplain, hcomma, hkind⟩ := h
  cases i with
  | signal sig fix =>
    intro s hs
    obtain rfl := List.mem_singleton.mp hs
    exact ⟨hcomma, hplain.2.2⟩
  | cond expr sigs => exact hkind.2

theorem signals_item {i : Item} (hi : i ∈ e.items) : (e.condOf i.sig).getD [i.sig] = listed i := by
  rw [condOf_item hi]
  obtain ⟨_, _, hkind⟩ := e.items_wf i hi
  cases i with
  | signal sig fix =>
    have hnot : ¬IsCond (Item.signal sig fix).sig := hkind.1
    rw [if_neg hnot]
    rfl
  | cond expr sigs =>
    have hcond : IsCond (Item.cond expr sigs).sig := hkind.1
    rw [if_pos hcond]
    rfl

theorem mem_locs : x ∈ locs W e ↔ ∃ idx ∈ List.range' 1 (totalCnt (e.ufsms W) - 1),
    x = (⟨plName (String.ofList e.nm) idx, some e.pcr, eqsOf (e.ufsms W) idx⟩,
      e.pcr :: e.items.flatMap listed) := by
  have hsigs : ((e.ufsms W).flatMap fun u => (e.condOf u.sig).getD [u.sig]) =
      e.items.flatMap listed := by
    rw [Entry.ufsms, List.flatMap_map]
    exact List.flatMap_congr fun i hi => signals_item hi
  rw [locs, postprocGen, hsigs, List.mem_map]
  simp only [eq_comm]

theorem register_of_mem_locs (h : x ∈ locs W e) : x.2.head? = some e.pcr := by
  have ⟨idx, _, hx⟩ := mem_locs.mp h
  rw [hx]
  rfl

theorem readable_of_mem_locs (he : Blankless e) (h : x ∈ locs W e) : Readable x := by
  have ⟨idx, _, hx⟩ := mem_locs.mp h
  rw [hx]
  refine ⟨⟨?_, ?_⟩, List.cons_ne_nil _ _, ?_⟩
  · exact not_mem_plName he.nm (by decide) (by decide) idx
  · exact not_mem_plName e.nm_plain.2.2 (by decide) (by decide) idx
  · intro s hs
    rcases List.mem_cons.mp hs with hs | hs
    · rw [hs]
      exact ⟨he.pcr.1, he.pcr.2, e.pcr_plain.2.2⟩
    · have ⟨i, hi, hs⟩ := List.mem_flatMap.mp hs
      exact ⟨he.items i hi s hs, listed_free (e.items_wf i hi) s hs⟩

/-- A wire stays on its lines. -/
theorem wireRows_of_mem_locs (h : x ∈ locs W e) : ∀ row ∈ wireRows x.1, '\n' ∉ row := by
  obtain ⟨idx, _, hx⟩ := mem_locs.mp h
  have hname := not_mem_plName e.nm_plain.2.2 (by decide) (by decide) idx
  have hpcr : '\n' ∉ pcrRow e.pcr := by simp [pcrRow, e.pcr_plain.2.2]
  have heqs : ∀ q ∈ eqsOf (e.ufsms W) idx, '\n' ∉ eqRow q := by
    intro q hq
    rw [eqsOf, ← List.map_uncurry_zip_eq_zipWith] at hq
    obtain ⟨⟨u, v⟩, huv, hq⟩ := List.mem_map.mp hq
    obtain ⟨i, hi, hu⟩ := List.mem_map.mp (List.of_mem_zip huv).1
    have hsig : '\n' ∉ q.1 := by
      rw [← hq, ← hu]
      exact (e.items_wf i hi).1.2.2
    simp [eqRow, hsig, TextFile.not_mem_intText (by decide : '\n'.isDigit = false) (by decide),
      TextFile.not_mem_toDigits (by decide : '\n'.isDigit = false)]
  rw [hx]
  simp only [wireRows, List.forall_mem_cons, List.forall_mem_append, List.forall_mem_map,
    Option.toList_some, List.not_mem_nil, false_implies, implies_true, and_true]
  refine ⟨?_, ⟨hpcr, heqs⟩, by decide⟩
  simp [hname]

variable {es : List Entry}

theorem eq_of_name (hnames : (es.map Entry.nm).Nodup) (he : e ∈ es) (he' : e' ∈ es)
    (hx : x ∈ locs W e) (hy : y ∈ locs W e') (hname : x.1.name = y.1.name) : e = e' ∧ x = y := by
  have ⟨i, _, hx⟩ := mem_locs.mp hx
  have ⟨j, _, hy⟩ := mem_locs.mp hy
  rw [hx, hy] at hname
  obtain ⟨hnm, rfl⟩ := plName_inj₂ hname
  obtain rfl := List.inj_on_of_nodup_map hnames he he' (String.ofList_injective hnm)
  exact ⟨rfl, hx.trans hy.symm⟩

/-- The locations written, for any verdicts. -/
theorem located_of_genHeader {rows : List Text} {m : List (Text × Nat)} {df : List Row}
    {out : List (Wire Text × List Text)} (h : Lays es rows) (hm : ∀ e ∈ es, Knows W m e)
    (hout : genHeader df m (linesOf rows) = some out) : ∀ x ∈ out, ∃ e ∈ es, x ∈ locs W e := by
  intro x hx
  cases hreach : reachableOf df with
  | none =>
    rw [genHeader, hreach] at hout
    cases hout
  | some reachable =>
    obtain ⟨out', hout', hmem⟩ := genHeader_lays h hm hreach
    obtain rfl := Option.some.inj (hout.symm.trans hout')
    obtain ⟨e, he, hloc, _⟩ := (hmem x).mp hx
    exact ⟨e, he, hloc⟩

variable {out : List (Wire Text × List Text)}

theorem readable_of_located (hblank : ∀ e ∈ es, Blankless e)
    (hloc : ∀ x ∈ out, ∃ e ∈ es, x ∈ locs W e) : ∀ x ∈ out, Readable x := by
  intro x hx
  have ⟨e, he, hxe⟩ := hloc x hx
  exact readable_of_mem_locs (hblank e he) hxe

/-- Every location has its signals in the dictionary that is read. -/
theorem plSignals_located (hnames : (es.map Entry.nm).Nodup)
    (hblank : ∀ e ∈ es, Blankless e) (hloc : ∀ x ∈ out, ∃ e ∈ es, x ∈ locs W e) :
    ∃ m, plSignals (TextFile.lines '\n' (perflocSignals out)) = some m ∧
      ∀ x ∈ out, Dict.get m x.1.name.toList = some x.2 := by
  refine ⟨_, foldlM_signals (readable_of_located hblank hloc) _ [], ?_⟩
  intro x hx
  refine Dict.lookup_foldl_set (fun y : Wire Text × List Text => y.1.name.toList) Prod.snd hx
    (fun y hy hname => ?_) []
  have ⟨e, he, hxe⟩ := hloc x hx
  have ⟨e', he', hye⟩ := hloc y hy
  rw [(eq_of_name hnames he' he hye hxe (String.toList_injective hname)).2]

/-- The header and the list of signals agree on the locations: the names come back from the header
in the order they were written in, the `iid` of each is the register of its block, and two
locations of one `iid` never hold together. -/
theorem iid_of_header {rows : List Text} {m : List (Text × Nat)} {df : List Row}
    (h : Lays es rows) (hm : ∀ e ∈ es, Knows W m e)
    (hout : genHeader df m (linesOf rows) = some out) (hnames : (es.map Entry.nm).Nodup)
    (hregs : (es.map Entry.pcr).Nodup) (hblank : ∀ e ∈ es, Blankless e) {common instn : Text}
    (hcommon : ¬startTag <:+: common)
    (hinstn : ∀ line ∈ TextFile.lines '\n' instn, ¬StartsWire line) :
    getPerflocs (TextFile.lines '\n' (headerText common out instn)) =
        some (out.map fun x => x.1.name.toList) ∧
      ∃ m, plSignals (TextFile.lines '\n' (perflocSignals out)) = some m ∧
        (∀ x ∈ out, ∃ e ∈ es, x ∈ locs W e) ∧
        (∀ x ∈ out, ∀ e ∈ es, x ∈ locs W e → iidMap m x.1.name.toList = some e.pcr) ∧
        ∀ x ∈ out, ∀ y ∈ out, iidMap m x.1.name.toList = iidMap m y.1.name.toList →
          ∀ st pc0, x.1.Holds st pc0 → y.1.Holds st pc0 → x.1 = y.1 := by
  have hloc := located_of_genHeader h hm hout
  have ⟨m, hread, hget⟩ := plSignals_located hnames hblank hloc
  have hiid : ∀ x ∈ out, ∀ e ∈ es, x ∈ locs W e → iidMap m x.1.name.toList = some e.pcr := by
    intro x hx e _ hxe
    rw [iidMap, hget x hx]
    exact register_of_mem_locs hxe
  refine ⟨getPerflocs_headerText ?_ ?_ hcommon hinstn, m, hread, hloc, hiid, ?_⟩
  · intro x hx
    exact (readable_of_located hblank hloc x hx).name.1
  · intro x hx
    have ⟨e, _, hxe⟩ := hloc x hx
    exact wireRows_of_mem_locs hxe
  · intro x hx y hy hsame st pc0 hold hold'
    have ⟨e, he, hxe⟩ := hloc x hx
    have ⟨e', he', hye⟩ := hloc y hy
    rw [hiid x hx e he hxe, hiid y hy e' he' hye, Option.some.injEq] at hsame
    obtain rfl := List.inj_on_of_nodup_map hregs he he' hsame
    have hxw : x.1 ∈ wiresOf W e := List.mem_map_of_mem hxe
    have hyw : y.1 ∈ wiresOf W e := List.mem_map_of_mem hye
    exact eq_of_holds hxw hyw hold hold'

def twoRead : List (Text × Nat) :=
  [("mem_q[0].valid".toList, 1), ("valid_i".toList, 1), ("state_q".toList, 2)]

/-- The queue is never entered. -/
def twoVerdicts : List Row :=
  [⟨"ariane.CHECK_lsq_enq_0_s1".toList, .unreachable⟩,
    ⟨"ariane.CHECK_load_unit_op_s3".toList, .covered⟩,
    ⟨"ariane.CHECK_load_unit_op_s1".toList, .covered⟩]

theorem knows_twoRead : ∀ e ∈ [lsqEnq0, loadUnitOp], Knows twoWidths twoRead e := by
  unfold Knows
  decide

theorem blankless_two : ∀ e ∈ [lsqEnq0, loadUnitOp], Blankless e := by
  intro e he
  rcases List.mem_cons.mp he with rfl | he
  · exact ⟨by decide, by decide, by decide⟩
  · obtain rfl := List.mem_singleton.mp he
    exact ⟨by decide, by decide, by decide⟩

/-- The location of the load unit with this number. -/
def loadAt (idx : Nat) : Wire Text × List Text :=
  (⟨plName (String.ofList loadUnitOp.nm) idx, some loadUnitOp.pcr,
    eqsOf (loadUnitOp.ufsms twoWidths) idx⟩, loadUnitOp.pcr :: loadUnitOp.items.flatMap listed)

theorem loadAt_mem {idx : Nat} (h : idx ∈ List.range' 1 3) :
    loadAt idx ∈ locs twoWidths loadUnitOp := mem_locs.mpr ⟨idx, h, rfl⟩

theorem header_twoBlocks : ∃ out, genHeader twoVerdicts twoRead (linesOf twoBlocks) = some out ∧
    loadAt 1 ∈ out ∧ loadAt 3 ∈ out := by
  have hreach : reachableOf twoVerdicts = some ["load_unit_op_s3", "load_unit_op_s1"] := by
    decide +kernel
  have ⟨out, hout, hmem⟩ := genHeader_lays lays_twoBlocks knows_twoRead hreach
  have hin {idx : Nat} (hidx : idx ∈ List.range' 1 3)
      (hname : (loadAt idx).1.name ∈ ["load_unit_op_s3", "load_unit_op_s1"]) :
      loadAt idx ∈ out := (hmem _).mpr ⟨loadUnitOp, by simp, loadAt_mem hidx, hname⟩
  exact ⟨out, hout, hin (by decide) (by decide +kernel), hin (by decide) (by decide +kernel)⟩

/-- Two states of the load unit that no cycle shows together, in a header whose other parts are a
comment and an assumption. -/
theorem load_states_apart : ∃ out m,
    genHeader twoVerdicts twoRead (linesOf twoBlocks) = some out ∧ loadAt 1 ∈ out ∧
      loadAt 3 ∈ out ∧
      getPerflocs (TextFile.lines '\n' (headerText "// Clock\n".toList out
        "assume property (instn == 0);\n".toList)) = some (out.map fun x => x.1.name.toList) ∧
      plSignals (TextFile.lines '\n' (perflocSignals out)) = some m ∧
      iidMap m "load_unit_op_s1".toList = some "lsu_ctrl_i.pc".toList ∧
      iidMap m "load_unit_op_s3".toList = some "lsu_ctrl_i.pc".toList ∧
      ∀ st pc0, ¬((loadAt 1).1.Holds st pc0 ∧ (loadAt 3).1.Holds st pc0) := by
  have ⟨out, hout, hone, hthree⟩ := header_twoBlocks
  have ⟨hnames, m, hm, _, hiid, hapart⟩ := iid_of_header lays_twoBlocks knows_twoRead hout
    (by decide) (by decide) blankless_two (by decide : ¬startTag <:+: "// Clock\n".toList)
    (by decide : ∀ line ∈ TextFile.lines '\n' "assume property (instn == 0);\n".toList,
      ¬StartsWire line)
  have hiid₁ := hiid _ hone loadUnitOp (by simp) (loadAt_mem (by decide))
  have hiid₃ := hiid _ hthree loadUnitOp (by simp) (loadAt_mem (by decide))
  refine ⟨out, m, hout, hone, hthree, hnames, hm, hiid₁, hiid₃, ?_⟩
  intro st pc0 ⟨hold, hold'⟩
  have hsame := hapart _ hone _ hthree (hiid₁.trans hiid₃.symm) st pc0 hold hold'
  have hidx : 1 = 3 := plName_inj (congrArg Wire.name hsame)
  omega

/-- The dictionary of `gen_static_pl_prop.py`: one entry for each register, with a location that
has it. -/
theorem staticArr_entries (hread : ∀ x ∈ out, Readable x) :
    ∃ d : List (Text × Text),
      staticArr (TextFile.lines '\n' (perflocSignals out)) = some (d.map Prod.snd) ∧
      (d.map Prod.fst).Nodup ∧ (∀ x ∈ out, ∃ p ∈ d, p.1 = x.2.headD []) ∧
      ∀ p ∈ d, ∃ y ∈ out, p = (y.2.headD [], taintOf y.1.name.toList) := by
  let reg (x : Wire Text × List Text) : Text := x.2.headD []
  let val (x : Wire Text × List Text) : Text := taintOf x.1.name.toList
  let d : List (Text × Text) :=
    out.foldl (fun d x => Dict.upsert (reg x) (fun _ => val x) (val x) d) []
  have hkeys : d.map Prod.fst = (out.map reg).foldl Loop.insertNew [] :=
    Dict.keys_foldl_upsert reg (fun x _ => val x) val out []
  refine ⟨d, ?_, ?_, ?_, ?_⟩
  · rw [staticArr, foldlM_signals hread]
    rfl
  · rw [hkeys]
    exact Loop.nodup_foldl_insertNew .nil
  · intro x hx
    have hmem : reg x ∈ d.map Prod.fst := by
      rw [hkeys, Loop.mem_foldl_insertNew]
      exact .inr (List.mem_map_of_mem hx)
    exact List.mem_map.mp hmem
  · intro p hp
    exact (Dict.mem_foldl_set reg val hp).resolve_left List.not_mem_nil

/-- A taint belongs to one location. -/
theorem eq_of_taint (hnames : (es.map Entry.nm).Nodup)
    (hloc : ∀ x ∈ out, ∃ e ∈ es, x ∈ locs W e) : ∀ y ∈ out, ∀ z ∈ out,
      taintOf y.1.name.toList = taintOf z.1.name.toList → y = z := by
  intro y hy z hz htaint
  have ⟨e, he, hye⟩ := hloc y hy
  have ⟨e', he', hze⟩ := hloc z hz
  have hname := String.toList_injective (List.append_cancel_right htaint)
  exact (eq_of_name hnames he he' hye hze hname).2

/-- `gen_static_pl_prop.py` covers one location of each block that has any in the header. -/
theorem static_one_each {rows : List Text} {m : List (Text × Nat)} {df : List Row}
    (h : Lays es rows) (hm : ∀ e ∈ es, Knows W m e)
    (hout : genHeader df m (linesOf rows) = some out) (hnames : (es.map Entry.nm).Nodup)
    (hregs : (es.map Entry.pcr).Nodup) (hblank : ∀ e ∈ es, Blankless e) :
    ∃ arr, staticArr (TextFile.lines '\n' (perflocSignals out)) = some arr ∧ arr.Nodup ∧
      (∀ t ∈ arr, ∃ x ∈ out, t = taintOf x.1.name.toList) ∧
      ∀ e ∈ es, ∀ x ∈ out, x ∈ locs W e →
        ∃! y, y ∈ out ∧ y ∈ locs W e ∧ taintOf y.1.name.toList ∈ arr := by
  have hloc := located_of_genHeader h hm hout
  have ⟨d, hrun, hnd, hkey, hentry⟩ := staticArr_entries (readable_of_located hblank hloc)
  have hreg : ∀ x e, x ∈ locs W e → x.2.headD [] = e.pcr := by
    intro x e hxe
    rw [List.headD_eq_head?_getD, register_of_mem_locs hxe]
    rfl
  have hsame := eq_of_taint hnames hloc
  refine ⟨d.map Prod.snd, hrun, ?_, ?_, ?_⟩
  · refine List.Nodup.map_on (fun p hp q hq hpq => ?_) hnd.of_map
    have ⟨y, hy, hpy⟩ := hentry p hp
    have ⟨z, hz, hqz⟩ := hentry q hq
    rw [hpy, hqz] at hpq
    rw [hpy, hqz, hsame y hy z hz hpq]
  · intro t ht
    have ⟨p, hp, hpt⟩ := List.mem_map.mp ht
    have ⟨y, hy, hpy⟩ := hentry p hp
    exact ⟨y, hy, by rw [← hpt, hpy]⟩
  · intro e he x hx hxe
    have ⟨p, hp, hpx⟩ := hkey x hx
    have ⟨y, hy, hpy⟩ := hentry p hp
    have ⟨e', he', hye⟩ := hloc y hy
    have hpcr : e'.pcr = e.pcr := by
      rw [← hreg y e' hye, ← hreg x e hxe, ← hpx, hpy]
    obtain rfl := List.inj_on_of_nodup_map hregs he' he hpcr
    refine ⟨y, ⟨hy, hye, List.mem_map.mpr ⟨p, hp, by rw [hpy]⟩⟩, ?_⟩
    -- another location of the block in the list is under the same register, so it is this one
    intro z ⟨hz, hze, hin⟩
    have ⟨q, hq, hqz⟩ := List.mem_map.mp hin
    have ⟨z', hz', hqz'⟩ := hentry q hq
    rw [hqz'] at hqz
    obtain rfl := hsame z' hz' z hz hqz
    have hpq : p.1 = q.1 := by rw [hpy, hqz', hreg y e' hye, hreg z' e' hze]
    have heq := List.inj_on_of_nodup_map hnd hp hq hpq
    rw [hpy, hqz'] at heq
    exact (hsame y hy z' hz (Prod.mk.inj heq).2).symm

/-- Of the two states of the load unit one is covered. -/
theorem load_state_once : ∃ out arr,
    genHeader twoVerdicts twoRead (linesOf twoBlocks) = some out ∧ loadAt 1 ∈ out ∧
      loadAt 3 ∈ out ∧ staticArr (TextFile.lines '\n' (perflocSignals out)) = some arr ∧
      ∃! y, y ∈ out ∧ y ∈ locs twoWidths loadUnitOp ∧ taintOf y.1.name.toList ∈ arr := by
  have ⟨out, hout, hone, hthree⟩ := header_twoBlocks
  have ⟨arr, harr, _, _, hall⟩ := static_one_each lays_twoBlocks knows_twoRead hout (by decide)
    (by decide) blankless_two
  exact ⟨out, arr, hout, hone, hthree, harr,
    hall loadUnitOp (by simp) _ hone (loadAt_mem (by decide))⟩

end Located

end SynthLC.DuvFiles
