import SynthLC.Loop

/-! Dictionaries as lists of entries in the order their keys came, read with `List.lookup`. -/
namespace Dict

open Loop

variable {κ α ι : Type} [DecidableEq κ]

/-- Change the entry of a key, or start it. -/
def upsert (k : κ) (f : α → α) (init : α) : List (κ × α) → List (κ × α)
  | [] => [(k, init)]
  | (k', v) :: d => if k' = k then (k', f v) :: d else (k', v) :: upsert k f init d

/-- `d.get(k)`.  Keys such as texts bring a comparison of their own, which `List.lookup` would use. -/
def get (d : List (κ × α)) (k : κ) : Option α := d.lookup k

variable {k k' : κ} {f : α → α} {init v : α} {d : List (κ × α)}

theorem lookup_cons : ((k', v) :: d).lookup k = if k = k' then some v else d.lookup k := by
  rw [List.lookup_cons]
  by_cases h : k = k'
  · simp [h]
  · have hbeq : (k == k') = false := beq_eq_false_iff_ne.mpr h
    rw [hbeq, if_neg h]

theorem lookup_upsert : (upsert k f init d).lookup k' =
    if k' = k then some (((d.lookup k).map f).getD init) else d.lookup k' := by
  induction d with
  | nil => simp [upsert, lookup_cons]
  | cons e d ih =>
    obtain ⟨k₀, v⟩ := e
    unfold upsert
    by_cases hk : k₀ = k
    · subst hk
      rw [if_pos rfl, lookup_cons, lookup_cons, lookup_cons, if_pos rfl]
      by_cases hk' : k' = k₀
      · rw [if_pos hk', if_pos hk']
        rfl
      · rw [if_neg hk', if_neg hk', if_neg hk']
    · rw [if_neg hk, lookup_cons, ih, lookup_cons, lookup_cons, if_neg (Ne.symm hk)]
      by_cases hk' : k' = k₀
      · have hne : k' ≠ k := fun h => hk (hk'.symm.trans h)
        rw [if_pos hk', if_neg hne, if_pos hk']
      · rw [if_neg hk', if_neg hk']

/-- Where an entry found after an update comes from. -/
theorem lookup_upsert_cases (h : (upsert k f init d).lookup k' = some v) :
    (k' ≠ k ∧ d.lookup k' = some v) ∨ (k' = k ∧ d.lookup k = none ∧ v = init) ∨
      (k' = k ∧ ∃ v₀, d.lookup k = some v₀ ∧ v = f v₀) := by
  rw [lookup_upsert] at h
  split_ifs at h with hk
  · cases hold : d.lookup k with
    | none =>
      rw [hold] at h
      exact .inr (.inl ⟨hk, rfl, (Option.some.inj h).symm⟩)
    | some v₀ =>
      rw [hold] at h
      exact .inr (.inr ⟨hk, v₀, rfl, (Option.some.inj h).symm⟩)
  · exact .inl ⟨hk, h⟩

theorem keys_upsert : (upsert k f init d).map Prod.fst = insertNew (d.map Prod.fst) k := by
  induction d with
  | nil => simp [upsert, insertNew]
  | cons e d ih =>
    obtain ⟨k₀, v⟩ := e
    unfold upsert
    by_cases hk : k₀ = k
    · simp [hk, insertNew]
    · have hk' : k ≠ k₀ := Ne.symm hk
      rw [if_neg hk, List.map_cons, ih]
      unfold insertNew
      by_cases hmem : k ∈ d.map Prod.fst
      · simp [hmem]
      · simp [hmem, hk']

theorem upsert_of_not_mem (h : k ∉ d.map Prod.fst) : upsert k f init d = d ++ [(k, init)] := by
  induction d with
  | nil => rfl
  | cons e d ih =>
    obtain ⟨k', v⟩ := e
    obtain ⟨hk, hd⟩ : k ≠ k' ∧ k ∉ d.map Prod.fst := by simpa using h
    rw [upsert, if_neg (Ne.symm hk), ih hd, List.cons_append]

theorem lookup_isSome_iff : (∃ v, d.lookup k = some v) ↔ k ∈ d.map Prod.fst := by
  induction d with
  | nil => simp
  | cons e d ih =>
    obtain ⟨k', v⟩ := e
    rw [lookup_cons, List.map_cons, List.mem_cons, ← ih]
    by_cases hk : k = k'
    · simp [hk]
    · simp [hk]

/-- Where no key comes twice, looking up finds each entry. -/
theorem mem_iff_lookup (h : (d.map Prod.fst).Nodup) : (k, v) ∈ d ↔ d.lookup k = some v := by
  induction d with
  | nil => simp
  | cons e d ih =>
    obtain ⟨k', v'⟩ := e
    obtain ⟨hk', hd⟩ := List.nodup_cons.mp h
    rw [lookup_cons, List.mem_cons, ih hd, Prod.mk.injEq]
    by_cases hk : k = k'
    · have hnone : d.lookup k ≠ some v := by
        intro hv
        apply hk'
        rw [← hk]
        exact lookup_isSome_iff.mp ⟨v, hv⟩
      rw [if_pos hk]
      simp [hk, hk ▸ hnone, eq_comm]
    · simp [hk]

theorem filter_key (h : (d.map Prod.fst).Nodup) :
    d.filter (·.1 = k) = (d.lookup k).toList.map fun v => (k, v) := by
  induction d with
  | nil => rfl
  | cons e d ih =>
    obtain ⟨k', v⟩ := e
    obtain ⟨hk', hd⟩ := List.nodup_cons.mp h
    rw [lookup_cons]
    by_cases hk : k = k'
    · subst hk
      have hnone : d.filter (·.1 = k) = [] := by
        rw [List.filter_eq_nil_iff]
        intro e he
        have hne : e.1 ≠ k := fun heq => hk' (List.mem_map.mpr ⟨e, he, heq⟩)
        simpa using hne
      simp [hnone]
    · rw [List.filter_cons_of_neg (by simpa using Ne.symm hk), ih hd, if_neg hk]

/-- A dictionary is given by its keys and what each of them holds. -/
theorem eq_map_of_lookup {ks : List κ} {g : κ → α} (hkeys : d.map Prod.fst = ks) (hnd : ks.Nodup)
    (h : ∀ k ∈ ks, d.lookup k = some (g k)) : d = ks.map fun k => (k, g k) := by
  have hentry : ∀ e ∈ d, e = (e.1, g e.1) := by
    intro e he
    have hkey : e.1 ∈ ks := by
      rw [← hkeys]
      exact List.mem_map_of_mem he
    have hlookup := (mem_iff_lookup (by rwa [hkeys])).mp he
    rw [h _ hkey] at hlookup
    rw [Option.some.inj hlookup]
  calc
    d = d.map id := (List.map_id d).symm
    _ = d.map fun e => (e.1, g e.1) := List.map_congr_left hentry
    _ = ks.map fun k => (k, g k) := by rw [← hkeys, List.map_map]; rfl

section Runs

variable (key : ι → κ) (upd : ι → α → α) (start : ι → α)

/-- A loop of updates, seen at one key: the updates of that key in their order. -/
theorem lookup_foldl_upsert (xs : List ι) (d : List (κ × α)) :
    (xs.foldl (fun d x => upsert (key x) (upd x) (start x) d) d).lookup k =
      (xs.filter (key · = k)).foldl (fun o x => some ((o.map (upd x)).getD (start x)))
        (d.lookup k) := by
  induction xs generalizing d with
  | nil => rfl
  | cons x xs ih =>
    rw [List.foldl_cons, ih, lookup_upsert]
    by_cases hk : key x = k
    · rw [List.filter_cons_of_pos (by simpa using hk), List.foldl_cons, if_pos hk.symm, hk]
    · rw [List.filter_cons_of_neg (by simpa using hk), if_neg (Ne.symm hk)]

theorem keys_foldl_upsert (xs : List ι) (d : List (κ × α)) :
    (xs.foldl (fun d x => upsert (key x) (upd x) (start x) d) d).map Prod.fst =
      (xs.map key).foldl insertNew (d.map Prod.fst) := by
  induction xs generalizing d with
  | nil => rfl
  | cons x xs ih => rw [List.foldl_cons, ih, keys_upsert, List.map_cons, List.foldl_cons]

end Runs

section Sets

variable (key : ι → κ) (val : ι → α)

theorem lookup_set : (upsert k (fun _ => v) v d).lookup k' =
    if k' = k then some v else d.lookup k' := by
  rw [lookup_upsert]
  cases d.lookup k <;> rfl

/-- Entries that are set: what was set for the key, if all of its settings agree. -/
theorem lookup_foldl_set {xs : List ι} {x : ι} (hx : x ∈ xs)
    (hval : ∀ y ∈ xs, key y = key x → val y = val x) (d : List (κ × α)) :
    (xs.foldl (fun d y => upsert (key y) (fun _ => val y) (val y) d) d).lookup (key x) =
      some (val x) := by
  have hkept (ys : List ι) (hys : ∀ y ∈ ys, key y = key x → val y = val x) (d : List (κ × α))
      (hd : d.lookup (key x) = some (val x)) :
      (ys.foldl (fun d y => upsert (key y) (fun _ => val y) (val y) d) d).lookup (key x) =
        some (val x) := by
    induction ys generalizing d with
    | nil => exact hd
    | cons y ys ih =>
      rw [List.foldl_cons]
      apply ih fun y' hy' => hys y' (by simp [hy'])
      rw [lookup_set]
      split_ifs with hk
      · rw [hys y (by simp) hk.symm]
      · exact hd
  induction xs generalizing d with
  | nil => simp at hx
  | cons y ys ih =>
    have hrest : ∀ z ∈ ys, key z = key x → val z = val x := fun z hz => hval z (by simp [hz])
    rw [List.foldl_cons]
    rcases List.mem_cons.mp hx with rfl | hx
    · apply hkept ys hrest
      rw [lookup_set, if_pos rfl]
    · exact ih hx hrest _

/-- Of several settings the last one stands. -/
theorem lookup_foldl_set_last (xs : List ι) (d : List (κ × α)) :
    (xs.foldl (fun d y => upsert (key y) (fun _ => val y) (val y) d) d).lookup k =
      ((xs.filter (key · = k)).getLast?.map val).or (d.lookup k) := by
  induction xs generalizing d with
  | nil => rfl
  | cons y ys ih =>
    rw [List.foldl_cons, ih, lookup_set]
    by_cases hk : key y = k
    · rw [if_pos hk.symm, List.filter_cons_of_pos (by simpa using hk), List.getLast?_cons]
      cases (ys.filter (key · = k)).getLast? <;> rfl
    · rw [if_neg (Ne.symm hk), List.filter_cons_of_neg (by simpa using hk)]

theorem lookup_foldl_set_of_ne {xs : List ι} (hne : ∀ y ∈ xs, key y ≠ k) (d : List (κ × α)) :
    (xs.foldl (fun d y => upsert (key y) (fun _ => val y) (val y) d) d).lookup k = d.lookup k := by
  induction xs generalizing d with
  | nil => rfl
  | cons y ys ih =>
    rw [List.foldl_cons, ih fun z hz => hne z (by simp [hz]), lookup_set,
      if_neg (hne y (by simp)).symm]

theorem mem_set {x : κ × α} (h : x ∈ upsert k (fun _ => v) v d) : x ∈ d ∨ x = (k, v) := by
  induction d with
  | nil => exact .inr (List.mem_singleton.mp h)
  | cons e d ih =>
    rw [upsert] at h
    split_ifs at h with hk
    · rcases List.mem_cons.mp h with rfl | h
      · exact .inr (by rw [hk])
      · exact .inl (List.mem_cons_of_mem e h)
    · rcases List.mem_cons.mp h with rfl | h
      · exact .inl List.mem_cons_self
      · exact (ih h).imp_left (List.mem_cons_of_mem e)

/-- No entry holds anything but what was set. -/
theorem mem_foldl_set {xs : List ι} {x : κ × α}
    (h : x ∈ xs.foldl (fun d y => upsert (key y) (fun _ => val y) (val y) d) d) :
    x ∈ d ∨ ∃ y ∈ xs, x = (key y, val y) := by
  induction xs generalizing d with
  | nil => exact .inl h
  | cons y ys ih =>
    rcases ih h with h | ⟨z, hz, rfl⟩
    · rcases mem_set h with h | rfl
      · exact .inl h
      · exact .inr ⟨y, List.mem_cons_self, rfl⟩
    · exact .inr ⟨z, List.mem_cons_of_mem y hz, rfl⟩

end Sets

/-- Entries that are kept once started: the first of each key. -/
theorem lookup_foldl_first (xs : List (κ × α)) :
    (xs.foldl (fun d x => upsert x.1 id x.2 d) []).lookup k = xs.lookup k := by
  rw [lookup_foldl_upsert]
  have hkept (xs : List (κ × α)) (v : α) :
      xs.foldl (fun o x => some ((o.map id).getD x.2)) (some v) = some v := by
    induction xs with
    | nil => rfl
    | cons x xs ih => exact ih
  induction xs with
  | nil => rfl
  | cons x xs ih =>
    obtain ⟨k', v⟩ := x
    rw [lookup_cons]
    by_cases hk : k' = k
    · rw [List.filter_cons_of_pos (by simpa using hk), List.foldl_cons, if_pos hk.symm]
      exact hkept _ v
    · rw [List.filter_cons_of_neg (by simpa using hk), if_neg (Ne.symm hk)]
      exact ih

/-- Entries that collect values: those of the key, in their order. -/
theorem lookup_foldl_append (key : ι → κ) (val : ι → α) {xs : List ι} {vs : List α}
    (h : (xs.foldl (fun d x => upsert (key x) (· ++ [val x]) [val x] d) []).lookup k = some vs) :
    vs = (xs.filter (key · = k)).map val := by
  have hrest (ys : List ι) (vs : List α) :
      ys.foldl (fun o y => some ((o.map (· ++ [val y])).getD [val y])) (some vs) =
        some (vs ++ ys.map val) := by
    induction ys generalizing vs with
    | nil => simp
    | cons y ys ih =>
      rw [List.foldl_cons, Option.map_some, Option.getD_some, ih, List.map_cons, List.append_assoc]
      rfl
  rw [lookup_foldl_upsert, List.lookup_nil] at h
  cases hys : xs.filter (key · = k) with
  | nil =>
    rw [hys] at h
    cases h
  | cons y ys =>
    rw [hys, List.foldl_cons, Option.map_none, Option.getD_none, hrest] at h
    exact (Option.some.inj h).symm

theorem lookup_map_const (ks : List κ) (v : α) :
    (ks.map fun k => (k, v)).lookup k = if k ∈ ks then some v else none := by
  induction ks with
  | nil => rfl
  | cons k' ks ih =>
    rw [List.map_cons, lookup_cons, ih]
    by_cases hk : k = k'
    · simp [hk]
    · simp [hk]

/-- Blocks of entries with one value each: the value of the first block with the key. -/
theorem lookup_flatMap_map (rs : List ι) (ks : ι → List κ) (g : ι → α) :
    (rs.flatMap fun r => (ks r).map fun k => (k, g r)).lookup k =
      (rs.find? fun r => decide (k ∈ ks r)).map g := by
  induction rs with
  | nil => rfl
  | cons r rs ih =>
    rw [List.flatMap_cons, List.lookup_append, lookup_map_const, ih]
    by_cases hk : k ∈ ks r
    · rw [if_pos hk, List.find?_cons_of_pos (by simpa using hk)]
      rfl
    · rw [if_neg hk, List.find?_cons_of_neg (by simpa using hk)]
      rfl

/-- Counters that hold how often each key was met. -/
structure Tallies (ks : List κ) (m : List (κ × Nat)) : Prop where
  nodup : (m.map Prod.fst).Nodup
  count : ∀ k, (m.lookup k).getD 0 = ks.count k

theorem Tallies.nil : Tallies ([] : List κ) [] := ⟨.nil, fun _ => rfl⟩

theorem Tallies.incr {ks : List κ} {m : List (κ × Nat)} (h : Tallies ks m) (k : κ) :
    Tallies (ks ++ [k]) (upsert k (· + 1) 1 m) := by
  constructor
  · rw [keys_upsert]
    exact nodup_insertNew h.nodup k
  · intro k'
    rw [lookup_upsert, List.count_append, ← h.count k']
    by_cases hk : k' = k
    · subst hk
      cases m.lookup k' <;> simp
    · simp [hk, Ne.symm hk]

/-- A counter that has come to a number. -/
theorem Tallies.reached {ks : List κ} {m : List (κ × Nat)} (h : Tallies ks m) {n : Nat} (hn : 0 < n) :
    (∃ e ∈ m, e.1 = k ∧ n ≤ e.2) ↔ n ≤ ks.count k := by
  rw [← h.count k]
  constructor
  · intro hex
    obtain ⟨⟨_, v⟩, he, rfl, hle⟩ := hex
    rwa [(mem_iff_lookup h.nodup).mp he]
  · intro hle
    cases hv : m.lookup k with
    | none =>
      rw [hv, Option.getD_none] at hle
      omega
    | some v =>
      rw [hv, Option.getD_some] at hle
      exact ⟨(k, v), (mem_iff_lookup h.nodup).mpr hv, rfl, hle⟩

end Dict
