import Mathlib.Algebra.GroupWithZero.Nat
import Mathlib.Data.List.Nodup
import Mathlib.Data.List.Sublists

/-! Loops that may stop on a failed assertion, sublists taken in list order, tables of lists
in the order their keys came, and products of lists. -/
namespace Loop

variable {α β : Type}

/-! A definition has the proofs inside it as they stand, instances included.  Those that several
modules need are here under one name, for the modules that open this namespace, so that the proofs
stay the same term from module to module. -/

scoped instance lawfulBEqPair [DecidableEq α] : LawfulBEq (α × α) := inferInstance

scoped instance neZeroTwo : NeZero 2 := inferInstance

scoped instance neZeroThree : NeZero 3 := inferInstance

scoped instance neZeroFour : NeZero 4 := inferInstance

/-- A loop whose body cannot fail from a state that meets the invariant, and keeps it,
runs to its end. -/
theorem foldlM_some (f : β → α → Option β) (P : β → Prop) (xs : List α) (s : β)
    (hstep : ∀ s, P s → ∀ x ∈ xs, ∃ s', f s x = some s' ∧ P s') (hs : P s) :
    ∃ s', xs.foldlM f s = some s' ∧ P s' := by
  induction xs generalizing s with
  | nil => exact ⟨s, rfl, hs⟩
  | cons x xs ih =>
    obtain ⟨s', hx, hs'⟩ := hstep s hs x (by simp)
    have hrest (s : β) (hs : P s) (y : α) (hy : y ∈ xs) := hstep s hs y (by simp [hy])
    obtain ⟨s'', hrun, hend⟩ := ih s' hrest hs'
    exact ⟨s'', by simp [List.foldlM_cons, hx, hrun], hend⟩

/-- A run of elements that leave the state as it is. -/
theorem foldlM_fixed {f : β → α → Option β} {xs : List α} {s : β} (h : ∀ x ∈ xs, f s x = some s) :
    xs.foldlM f s = some s := by
  have ⟨s', hrun, hs'⟩ := foldlM_some f (· = s) xs s
    (fun s' hs' x hx => ⟨s, by rw [hs', h x hx], rfl⟩) rfl
  rw [hrun, hs']

/-- What every step of a loop keeps holds where it ends. -/
theorem foldlM_inv {f : β → α → Option β} {P : β → Prop} {xs : List α} {s s' : β}
    (hstep : ∀ s s', ∀ x ∈ xs, P s → f s x = some s' → P s') (hs : P s)
    (hrun : xs.foldlM f s = some s') : P s' := by
  induction xs generalizing s with
  | nil =>
    obtain rfl := Option.some.inj hrun
    exact hs
  | cons x xs ih =>
    rw [List.foldlM_cons] at hrun
    obtain ⟨mid, hmid, hrest⟩ := Option.bind_eq_some_iff.mp hrun
    exact ih (fun s s' y hy => hstep s s' y (by simp [hy])) (hstep s mid x (by simp) hs hmid) hrest

/-- A loop fails if one of its steps fails from every state the loop can be in. -/
theorem foldlM_eq_none {f : β → α → Option β} {P : β → Prop} {xs : List α} {s : β}
    (hstep : ∀ s s', ∀ x ∈ xs, P s → f s x = some s' → P s') (hs : P s) {x : α} (hx : x ∈ xs)
    (hfail : ∀ s, P s → f s x = none) : xs.foldlM f s = none := by
  induction xs generalizing s with
  | nil => cases hx
  | cons y xs ih =>
    rw [List.foldlM_cons]
    cases hy : f s y with
    | none => rfl
    | some mid =>
      have hmid : P mid := hstep s mid y List.mem_cons_self hs hy
      rcases List.mem_cons.mp hx with rfl | hx
      · rw [hfail s hs] at hy
        cases hy
      · exact ih (fun s s' z hz => hstep s s' z (List.mem_cons_of_mem y hz)) hmid hx

/-- A loop that collects: each step succeeds and adds what its element gives. -/
theorem foldlM_collects {γ : Type} {f : β → α → Option β} {I : List γ → β → Prop}
    {out : α → List γ} {xs : List α} {acc : List γ} {s : β}
    (hstep : ∀ acc s, I acc s → ∀ x ∈ xs, ∃ s', f s x = some s' ∧ I (acc ++ out x) s')
    (hs : I acc s) : ∃ s', xs.foldlM f s = some s' ∧ I (acc ++ xs.flatMap out) s' := by
  induction xs generalizing acc s with
  | nil => exact ⟨s, rfl, by simpa using hs⟩
  | cons x xs ih =>
    obtain ⟨mid, hx, hmid⟩ := hstep acc s hs x (by simp)
    obtain ⟨s', hrun, hend⟩ := ih (fun acc s hs y hy => hstep acc s hs y (by simp [hy])) hmid
    refine ⟨s', by simp [List.foldlM_cons, hx, hrun], ?_⟩
    rwa [List.flatMap_cons, ← List.append_assoc]

/-- A loop that runs to its end has taken every step. -/
theorem step_of_foldlM {f : β → α → Option β} {xs : List α} {s s' : β}
    (hrun : xs.foldlM f s = some s') {x : α} (hx : x ∈ xs) : ∃ a b, f a x = some b := by
  induction xs generalizing s with
  | nil => simp at hx
  | cons y xs ih =>
    rw [List.foldlM_cons] at hrun
    obtain ⟨mid, hmid, hrest⟩ := Option.bind_eq_some_iff.mp hrun
    rcases List.mem_cons.mp hx with rfl | hx
    · exact ⟨s, mid, hmid⟩
    · exact ih hrest hx

/-- A loop whose steps never fail is a plain one. -/
theorem foldlM_eq_foldl {f : β → α → Option β} {g : β → α → β} {xs : List α}
    (h : ∀ s, ∀ x ∈ xs, f s x = some (g s x)) (s : β) : xs.foldlM f s = some (xs.foldl g s) := by
  induction xs generalizing s with
  | nil => rfl
  | cons x xs ih =>
    have hrest := ih fun s y hy => h s y (by simp [hy])
    rw [List.foldlM_cons, h s x (by simp), List.foldl_cons]
    exact hrest (g s x)

/-- A loop whose steps do not fail while the invariant holds is a plain one. -/
theorem foldlM_eq_foldl_of_inv {f : β → α → Option β} {g : β → α → β} {P : β → Prop} {xs : List α}
    (h : ∀ s, P s → ∀ x ∈ xs, f s x = some (g s x) ∧ P (g s x)) {s : β} (hs : P s) :
    xs.foldlM f s = some (xs.foldl g s) ∧ P (xs.foldl g s) := by
  induction xs generalizing s with
  | nil => exact ⟨rfl, hs⟩
  | cons x xs ih =>
    have hx := h s hs x (by simp)
    rw [List.foldlM_cons, hx.1, List.foldl_cons]
    exact ih (fun s hs y hy => h s hs y (by simp [hy])) hx.2

/-- A quantity to which every step of a loop adds its share. -/
theorem foldlM_measure {f : β → α → Option β} {N : β → Nat} {w : α → Nat} {xs : List α} {s s' : β}
    (hstep : ∀ s s', ∀ x ∈ xs, f s x = some s' → N s' = N s + w x)
    (hrun : xs.foldlM f s = some s') : N s' = N s + (xs.map w).sum := by
  induction xs generalizing s with
  | nil =>
    obtain rfl := Option.some.inj hrun
    simp
  | cons x xs ih =>
    rw [List.foldlM_cons] at hrun
    obtain ⟨mid, hmid, hrest⟩ := Option.bind_eq_some_iff.mp hrun
    have htail := ih (fun s s' y hy => hstep s s' y (by simp [hy])) hrest
    have hhead := hstep s mid x (by simp) hmid
    rw [htail, hhead, List.map_cons, List.sum_cons]
    omega

/-- Only one element with a given key adds to the sum. -/
theorem sum_map_key {κ : Type} [DecidableEq κ] {key : α → κ} {xs : List α} {x : α}
    (hnd : (xs.map key).Nodup) (hx : x ∈ xs) (w : α → Nat) :
    (xs.map fun y => if key y = key x then w y else 0).sum = w x := by
  have hnone (ys : List α) (hys : key x ∉ ys.map key) :
      (ys.map fun y => if key y = key x then w y else 0).sum = 0 := by
    rw [List.sum_eq_zero_iff_forall_eq_nat]
    intro n hn
    obtain ⟨y, hy, rfl⟩ := List.mem_map.mp hn
    apply if_neg
    intro h
    apply hys
    rw [← h]
    exact List.mem_map_of_mem hy
  induction xs with
  | nil => simp at hx
  | cons y ys ih =>
    obtain ⟨hy, hys⟩ := List.nodup_cons.mp hnd
    rw [List.map_cons, List.sum_cons]
    rcases List.mem_cons.mp hx with rfl | hx
    · rw [if_pos rfl, hnone ys hy, Nat.add_zero]
    · have hne : key y ≠ key x := by
        intro h
        apply hy
        rw [h]
        exact List.mem_map_of_mem hx
      rw [if_neg hne, ih hys hx, Nat.zero_add]

theorem sum_map_ite (p : α → Bool) (xs : List α) :
    (xs.map fun x => if p x then 1 else 0).sum = xs.countP p := by
  induction xs with
  | nil => rfl
  | cons x xs ih =>
    rw [List.map_cons, List.sum_cons, ih, List.countP_cons]
    omega

theorem foldlM_congr {f g : β → α → Option β} {xs : List α} {s : β}
    (h : ∀ s, ∀ x ∈ xs, f s x = g s x) : xs.foldlM f s = xs.foldlM g s := by
  induction xs generalizing s with
  | nil => rfl
  | cons x xs ih =>
    have hrest (s : β) : xs.foldlM f s = xs.foldlM g s := ih fun s y hy => h s y (by simp [hy])
    rw [List.foldlM_cons, List.foldlM_cons, h s x (by simp)]
    exact bind_congr hrest

theorem mapM_eq_map {f : α → Option β} {g : α → β} {xs : List α} (h : ∀ x ∈ xs, f x = some (g x)) :
    xs.mapM f = some (xs.map g) := by
  induction xs with
  | nil => rfl
  | cons x xs ih =>
    rw [List.mapM_cons, h x (by simp), ih fun y hy => h y (by simp [hy])]
    rfl

theorem mem_mapM {f : α → Option β} {xs : List α} {ys : List β} (h : xs.mapM f = some ys) {y : β} :
    y ∈ ys ↔ ∃ x ∈ xs, f x = some y := by
  induction xs generalizing ys with
  | nil =>
    obtain rfl := Option.some.inj h
    simp
  | cons x xs ih =>
    rw [List.mapM_cons] at h
    obtain ⟨z, hz, h⟩ := Option.bind_eq_some_iff.mp h
    obtain ⟨zs, hzs, h⟩ := Option.bind_eq_some_iff.mp h
    obtain rfl := Option.some.inj h
    simp only [List.mem_cons, ih hzs, exists_eq_or_imp, hz, Option.some.injEq, eq_comm (a := z)]

/-- What is read off the results, if each result tells it of its entry. -/
theorem map_of_mapM {γ : Type} {f : α → Option β} {g : β → γ} {h : α → γ} {xs : List α}
    {ys : List β} (hrun : xs.mapM f = some ys) (hval : ∀ x ∈ xs, ∀ y, f x = some y → g y = h x) :
    ys.map g = xs.map h := by
  induction xs generalizing ys with
  | nil =>
    obtain rfl := Option.some.inj hrun
    rfl
  | cons x xs ih =>
    rw [List.mapM_cons] at hrun
    obtain ⟨y, hy, hrun⟩ := Option.bind_eq_some_iff.mp hrun
    obtain ⟨rest, hrest, hrun⟩ := Option.bind_eq_some_iff.mp hrun
    obtain rfl := Option.some.inj hrun
    rw [List.map_cons, List.map_cons, hval x (by simp) y hy,
      ih hrest fun x' hx' => hval x' (by simp [hx'])]

theorem exists_mapM {f : α → Option β} {xs : List α} :
    (∃ ys, xs.mapM f = some ys) ↔ ∀ x ∈ xs, ∃ y, f x = some y := by
  induction xs with
  | nil => simp
  | cons x xs ih =>
    simp only [List.mapM_cons, List.forall_mem_cons, ← ih, Option.bind_eq_bind,
      Option.bind_eq_some_iff, Option.pure_def, Option.some.injEq]
    constructor
    · intro h
      obtain ⟨_, y, hy, ys, hys, _⟩ := h
      exact ⟨⟨y, hy⟩, ys, hys⟩
    · intro h
      obtain ⟨⟨y, hy⟩, ys, hys⟩ := h
      exact ⟨_, y, hy, ys, hys, rfl⟩

theorem exists_mapM_bind {γ : Type} {f : α → Option β} {xs : List α} {g : List β → γ}
    (h : ∀ x ∈ xs, ∃ y, f x = some y) : ∃ z, ((xs.mapM f).bind fun ys => some (g ys)) = some z := by
  obtain ⟨ys, hys⟩ := exists_mapM.mpr h
  exact ⟨g ys, by rw [hys, Option.bind_some]⟩

/-! Computations that fail together and else give related results. -/

section Rel

variable {γ : Type} {r : β → γ → Prop}

theorem rel_cases {a : Option β} {b : Option γ} (h : Option.Rel r a b) :
    (a = none ∧ b = none) ∨ ∃ x y, a = some x ∧ b = some y ∧ r x y := by
  cases h with
  | none => exact .inl ⟨rfl, rfl⟩
  | some h => exact .inr ⟨_, _, rfl, rfl, h⟩

theorem rel_map {f : α → β} {g : α → γ} {o : Option α} (h : ∀ x, o = some x → r (f x) (g x)) :
    Option.Rel r (o.map f) (o.map g) := by
  cases o with
  | none => exact .none
  | some x => exact .some (h x rfl)

theorem rel_mapM {f : α → Option β} {g : α → Option γ} {xs : List α}
    (h : ∀ x ∈ xs, Option.Rel r (f x) (g x)) :
    Option.Rel (List.Forall₂ r) (xs.mapM f) (xs.mapM g) := by
  induction xs with
  | nil => exact .some .nil
  | cons x xs ih =>
    rw [List.mapM_cons, List.mapM_cons]
    rcases rel_cases (h x List.mem_cons_self) with ⟨hf, hg⟩ | ⟨_, _, hf, hg, hx⟩
    · rw [hf, hg]
      exact .none
    · rw [hf, hg]
      rcases rel_cases (ih fun y hy => h y (List.mem_cons_of_mem x hy)) with
        ⟨hfs, hgs⟩ | ⟨_, _, hfs, hgs, hxs⟩
      · rw [hfs, hgs]
        exact .none
      · rw [hfs, hgs]
        exact .some (.cons hx hxs)

end Rel

/-- A list put together from blocks of one length, read by block and place. -/
theorem getElem?_flatMap_blocks {f : α → List β} {n r : Nat} (hr : r < n) {xs : List α}
    (h : ∀ x ∈ xs, (f x).length = n) (i : Nat) :
    (xs.flatMap f)[n * i + r]? = xs[i]?.bind fun x => (f x)[r]? := by
  induction xs generalizing i with
  | nil => simp
  | cons x xs ih =>
    have hlen : (f x).length = n := h x List.mem_cons_self
    have hrest := ih fun y hy => h y (List.mem_cons_of_mem x hy)
    rw [List.flatMap_cons]
    cases i with
    | zero => rw [List.getElem?_append_left (by omega), Nat.mul_zero, Nat.zero_add]; rfl
    | succ i =>
      have hle : (f x).length ≤ n * (i + 1) + r := by
        rw [Nat.mul_succ]
        omega
      have hsub : n * (i + 1) + r - (f x).length = n * i + r := by
        rw [Nat.mul_succ]
        omega
      rw [List.getElem?_append_right hle, hsub, hrest, List.getElem?_cons_succ]

theorem exists_mem_zipIdx {xs : List α} {x : α} (h : x ∈ xs) : ∃ i, (x, i) ∈ xs.zipIdx := by
  obtain ⟨i, hi⟩ := List.mem_iff_getElem?.mp h
  exact ⟨i, List.mem_zipIdx_iff_getElem?.mpr hi⟩

theorem flatMap_ite_singleton (P : α → Prop) [DecidablePred P] (xs : List α) :
    (xs.flatMap fun x => if P x then [x] else []) = xs.filter P := by
  induction xs with
  | nil => rfl
  | cons x xs ih =>
    rw [List.flatMap_cons, ih]
    by_cases hx : P x
    · rw [if_pos hx, List.filter_cons_of_pos (by simpa using hx), List.singleton_append]
    · rw [if_neg hx, List.filter_cons_of_neg (by simpa using hx), List.nil_append]

/-- Where a test picks the values of one element only, it picks all of them. -/
theorem filter_flatMap_of_unique {g : α → List β} {P : β → Bool} {xs : List α} {x : α}
    (hnd : xs.Nodup) (hx : x ∈ xs) (hself : ∀ y ∈ g x, P y = true)
    (hother : ∀ x' ∈ xs, x' ≠ x → ∀ y ∈ g x', P y = false) : (xs.flatMap g).filter P = g x := by
  have hnone (ys : List α) (hys : ∀ x' ∈ ys, ∀ y ∈ g x', P y = false) :
      (ys.flatMap g).filter P = [] := by
    refine List.filter_eq_nil_iff.mpr fun y hy => ?_
    obtain ⟨x', hx', hy⟩ := List.mem_flatMap.mp hy
    simp [hys x' hx' y hy]
  induction xs with
  | nil => simp at hx
  | cons x' xs ih =>
    obtain ⟨hx', hnd⟩ := List.nodup_cons.mp hnd
    rw [List.flatMap_cons, List.filter_append]
    rcases List.mem_cons.mp hx with rfl | hx
    · have hrest : ∀ x' ∈ xs, ∀ y ∈ g x', P y = false := fun y hy =>
        hother y (by simp [hy]) fun heq => hx' (heq ▸ hy)
      rw [List.filter_eq_self.mpr hself, hnone xs hrest, List.append_nil]
    · have hne : x' ≠ x := fun heq => hx' (heq ▸ hx)
      have hhead : (g x').filter P = [] := by
        refine List.filter_eq_nil_iff.mpr fun y hy => ?_
        simp [hother x' (by simp) hne y hy]
      rw [hhead, List.nil_append]
      exact ih hnd hx fun y hy => hother y (by simp [hy])

/-- All choices of one element from each list, the last list varying fastest. -/
def product : List (List α) → List (List α)
  | [] => [[]]
  | xs :: xss => xs.flatMap fun x => (product xss).map (x :: ·)

theorem mem_product {xss : List (List α)} {c : List α} :
    c ∈ product xss ↔ List.Forall₂ (· ∈ ·) c xss := by
  induction xss generalizing c with
  | nil => simp [product]
  | cons xs xss ih =>
    simp only [product, List.mem_flatMap, List.mem_map, ih]
    constructor
    · intro h
      obtain ⟨x, hx, c, hc, rfl⟩ := h
      exact .cons hx hc
    · intro h
      cases h with
      | cons hx hc => exact ⟨_, hx, _, hc, rfl⟩

theorem nodup_product {xss : List (List α)} (h : ∀ xs ∈ xss, xs.Nodup) : (product xss).Nodup := by
  induction xss with
  | nil => simp [product]
  | cons xs xss ih =>
    obtain ⟨hxs, hxss⟩ := List.forall_mem_cons.mp h
    rw [product, List.nodup_flatMap]
    refine ⟨fun x _ => (ih hxss).map (List.cons_injective), hxs.imp fun hne => ?_⟩
    intro c hc hc'
    obtain ⟨_, _, rfl⟩ := List.mem_map.mp hc
    obtain ⟨_, _, heq⟩ := List.mem_map.mp hc'
    exact hne (List.cons.inj heq).1.symm

/-- Choices of `r` elements, in the order `itertools.combinations` yields them. -/
def combinations : List α → Nat → List (List α)
  | _, 0 => [[]]
  | [], _ + 1 => []
  | x :: xs, r + 1 => (combinations xs r).map (x :: ·) ++ combinations xs (r + 1)

theorem mem_combinations {xs c : List α} {r : Nat} :
    c ∈ combinations xs r ↔ c.Sublist xs ∧ c.length = r := by
  induction xs generalizing c r with
  | nil =>
    cases r with
    | zero => simp [combinations]
    | succ r =>
      simp only [combinations, List.not_mem_nil, List.sublist_nil, false_iff, not_and]
      intro hc
      simp [hc]
  | cons x xs ih =>
    cases r with
    | zero =>
      simp only [combinations, List.mem_singleton, List.length_eq_zero_iff]
      constructor
      · intro hc
        rw [hc]
        exact ⟨List.nil_sublist _, rfl⟩
      · exact And.right
    | succ r =>
      simp only [combinations, List.mem_append, List.mem_map, ih]
      constructor
      · intro h
        rcases h with ⟨c, ⟨hc, hlen⟩, rfl⟩ | ⟨hc, hlen⟩
        · exact ⟨hc.cons_cons x, by simp [hlen]⟩
        · exact ⟨hc.cons x, hlen⟩
      · intro h
        obtain ⟨hc, hlen⟩ := h
        cases hc with
        | cons _ hc => exact .inr ⟨hc, hlen⟩
        | cons_cons _ hc => exact .inl ⟨_, ⟨hc, by simpa using hlen⟩, rfl⟩

theorem nodup_combinations {xs : List α} (h : xs.Nodup) (r : Nat) : (combinations xs r).Nodup := by
  induction xs generalizing r with
  | nil => cases r <;> simp [combinations]
  | cons x xs ih =>
    obtain ⟨hx, hxs⟩ := List.nodup_cons.mp h
    cases r with
    | zero => simp [combinations]
    | succ r =>
      apply List.Nodup.append
      · exact (ih hxs r).map (List.cons_injective)
      · exact ih hxs (r + 1)
      · intro c hc hc'
        obtain ⟨c, _, rfl⟩ := List.mem_map.mp hc
        have hsub := (mem_combinations.mp hc').1.subset
        exact hx (hsub (by simp))

section Table

variable {κ : Type} [DecidableEq κ]

/-- Append to the entry of a key, or start a new entry. -/
def push (k : κ) (x : α) (init : List α) : List (κ × List α) → List (κ × List α)
  | [] => [(k, init)]
  | (k', xs) :: d => if k' = k then (k', xs ++ [x]) :: d else (k', xs) :: push k x init d

/-- Some entry of the key holds the element. -/
def Lists (d : List (κ × List α)) (k : κ) (x : α) : Prop := ∃ xs, (k, xs) ∈ d ∧ x ∈ xs

variable {d : List (κ × List α)} {k k' : κ} {x y : α} {init : List α}

omit [DecidableEq κ] in
theorem not_lists_nil : ¬Lists ([] : List (κ × List α)) k x := by simp [Lists]

omit [DecidableEq κ] in
theorem lists_cons {xs : List α} :
    Lists ((k', xs) :: d) k x ↔ (k = k' ∧ x ∈ xs) ∨ Lists d k x := by
  simp only [Lists, List.mem_cons, Prod.mk.injEq]
  constructor
  · intro h
    obtain ⟨ys, ⟨rfl, rfl⟩ | hmem, hx⟩ := h
    · exact .inl ⟨rfl, hx⟩
    · exact .inr ⟨ys, hmem, hx⟩
  · intro h
    rcases h with ⟨rfl, hx⟩ | ⟨ys, hmem, hx⟩
    · exact ⟨xs, .inl ⟨rfl, rfl⟩, hx⟩
    · exact ⟨ys, .inr hmem, hx⟩

omit [DecidableEq κ] in
theorem Lists.mem_keys (h : Lists d k x) : k ∈ d.map Prod.fst := by
  obtain ⟨xs, hmem, _⟩ := h
  exact List.mem_map.mpr ⟨(k, xs), hmem, rfl⟩

theorem keys_push : (push k x init d).map Prod.fst =
    if k ∈ d.map Prod.fst then d.map Prod.fst else d.map Prod.fst ++ [k] := by
  induction d with
  | nil => simp [push]
  | cons e d ih =>
    obtain ⟨k', xs⟩ := e
    unfold push
    by_cases hk : k' = k
    · simp [hk]
    · have hk' : k ≠ k' := Ne.symm hk
      rw [if_neg hk, List.map_cons, ih]
      by_cases hmem : k ∈ d.map Prod.fst
      · simp [hmem]
      · simp [hmem, hk']

theorem mem_keys_push : k' ∈ (push k x init d).map Prod.fst ↔ k' ∈ d.map Prod.fst ∨ k' = k := by
  rw [keys_push]
  split_ifs with hk
  · constructor
    · exact Or.inl
    · intro hk'
      rcases hk' with hk' | rfl
      · exact hk'
      · exact hk
  · simp

theorem lists_push : Lists (push k x init d) k' y ↔
    Lists d k' y ∨ (k' = k ∧ if k ∈ d.map Prod.fst then y = x else y ∈ init) := by
  induction d with
  | nil => simp [push, lists_cons, not_lists_nil]
  | cons e d ih =>
    obtain ⟨k₀, xs⟩ := e
    unfold push
    by_cases hk : k₀ = k
    · subst hk
      simp only [if_true, lists_cons, List.mem_append, List.map_cons, List.mem_cons, true_or,
        List.not_mem_nil, or_false, and_or_left, or_assoc]
      rw [or_comm (b := Lists d k' y)]
    · have hk' : k ≠ k₀ := Ne.symm hk
      simp only [if_neg hk, lists_cons, ih, List.map_cons, List.mem_cons, hk', false_or, or_assoc]

/-- The entry of a key starts with its first element. -/
theorem lists_push_self : Lists (push k x [x] d) k' y ↔ Lists d k' y ∨ (k' = k ∧ y = x) := by
  rw [lists_push]
  simp only [List.mem_singleton, ite_self]

theorem nodup_keys_push (h : (d.map Prod.fst).Nodup) : ((push k x init d).map Prod.fst).Nodup := by
  rw [keys_push]
  split_ifs with hk
  · exact h
  · exact h.append (by simp) (by simpa using hk)

theorem forall_push {P : κ → List α → Prop} (h : ∀ e ∈ d, P e.1 e.2) (hnew : P k init)
    (hadd : ∀ xs, (k, xs) ∈ d → P k xs → P k (xs ++ [x])) : ∀ e ∈ push k x init d, P e.1 e.2 := by
  induction d with
  | nil => simpa [push] using hnew
  | cons e d ih =>
    obtain ⟨k', xs⟩ := e
    have htail : ∀ e ∈ d, P e.1 e.2 := fun e he => h e (by simp [he])
    unfold push
    split_ifs with hk
    · intro e he
      rcases List.mem_cons.mp he with rfl | he
      · subst hk
        exact hadd xs (by simp) (h (k', xs) (by simp))
      · exact htail e he
    · intro e he
      rcases List.mem_cons.mp he with rfl | he
      · exact h (k', xs) (by simp)
      · exact ih htail (fun xs hxs => hadd xs (by simp [hxs])) e he

/-- One element for each key of the table. -/
def choices (d : List (κ × List α)) : List (List (κ × α)) :=
  product (d.map fun e => e.2.map fun x => (e.1, x))

omit [DecidableEq κ] in
theorem lists_of_mem_choices {c : List (κ × α)} (hc : c ∈ choices d) {e : κ × α} (he : e ∈ c) :
    Lists d e.1 e.2 := by
  have hforall := mem_product.mp hc
  induction d generalizing c with
  | nil =>
    cases hforall
    simp at he
  | cons entry d ih =>
    obtain ⟨k, xs⟩ := entry
    cases hforall with
    | cons hx hrest =>
      rcases List.mem_cons.mp he with rfl | he
      · obtain ⟨x, hmem, rfl⟩ := List.mem_map.mp hx
        exact lists_cons.mpr (.inl ⟨rfl, hmem⟩)
      · exact lists_cons.mpr (.inr (ih (mem_product.mpr hrest) he hrest))

omit [DecidableEq κ] in
theorem nodup_choices (h : ∀ e ∈ d, e.2.Nodup) : (choices d).Nodup := by
  refine nodup_product (List.forall_mem_map.mpr fun e he => ?_)
  exact (h e he).map fun x y heq => (Prod.mk.inj heq).2

omit [DecidableEq κ] in
/-- A choice for every entry is one of the combinations. -/
theorem map_mem_choices (pick : κ × List α → α) (h : ∀ e ∈ d, pick e ∈ e.2) :
    d.map (fun e => (e.1, pick e)) ∈ choices d := by
  refine mem_product.mpr ?_
  rw [List.forall₂_map_left_iff, List.forall₂_map_right_iff]
  exact List.forall₂_same.mpr fun e he => List.mem_map.mpr ⟨pick e, h e he, rfl⟩

omit [DecidableEq κ] in
theorem exists_mem_choices [DecidableEq α] (hne : ∀ e ∈ d, e.2 ≠ []) (h : Lists d k x) :
    ∃ c ∈ choices d, (k, x) ∈ c := by
  obtain ⟨xs, hmem, hx⟩ := h
  let pick (e : κ × List α) : α := if x ∈ e.2 then x else e.2.headD x
  have hpick : ∀ e ∈ d, pick e ∈ e.2 := by
    intro e he
    dsimp only [pick]
    split_ifs with hin
    · exact hin
    · obtain ⟨y, ys, heq⟩ := List.exists_cons_of_ne_nil (hne e he)
      simp [heq]
  refine ⟨_, map_mem_choices pick hpick, List.mem_map.mpr ⟨(k, xs), hmem, ?_⟩⟩
  simp [pick, hx]

end Table

variable [DecidableEq α]

/-- Append unless already listed. -/
def insertNew (l : List α) (a : α) : List α := if a ∈ l then l else l ++ [a]

theorem mem_insertNew {l : List α} {a x : α} : x ∈ insertNew l a ↔ x ∈ l ∨ x = a := by
  unfold insertNew
  split_ifs with h
  · constructor
    · exact Or.inl
    · intro h'
      rcases h' with h' | rfl
      · exact h'
      · exact h
  · simp

theorem nodup_insertNew {l : List α} (h : l.Nodup) (a : α) : (insertNew l a).Nodup := by
  unfold insertNew
  split_ifs with ha
  · exact h
  · exact h.append (by simp) (by simpa using ha)

theorem mem_foldl_insertNew {xs l : List α} {x : α} :
    x ∈ xs.foldl insertNew l ↔ x ∈ l ∨ x ∈ xs := by
  induction xs generalizing l with
  | nil => simp
  | cons y xs ih => rw [List.foldl_cons, ih, mem_insertNew, List.mem_cons, or_assoc]

theorem nodup_foldl_insertNew {xs l : List α} (h : l.Nodup) : (xs.foldl insertNew l).Nodup := by
  induction xs generalizing l with
  | nil => exact h
  | cons y xs ih => exact ih (nodup_insertNew h y)

/-- New elements stand behind those of the start. -/
theorem foldl_insertNew_eq_append (xs l : List α) :
    ∃ rest, xs.foldl insertNew l = l ++ rest ∧ ∀ a ∈ rest, a ∉ l := by
  induction xs generalizing l with
  | nil => exact ⟨[], by simp, by simp⟩
  | cons y xs ih =>
    obtain ⟨rest, hrest, hnew⟩ := ih (insertNew l y)
    rw [List.foldl_cons, hrest]
    by_cases hy : y ∈ l
    · have hsame : insertNew l y = l := if_pos hy
      exact ⟨rest, by rw [hsame], fun a ha => hsame ▸ hnew a ha⟩
    · refine ⟨y :: rest, by simp [insertNew, hy], ?_⟩
      intro a ha hal
      rcases List.mem_cons.mp ha with rfl | ha
      · exact hy hal
      · exact hnew a ha (mem_insertNew.mpr (.inl hal))

theorem foldl_insertNew_of_subset {xs l : List α} (h : xs ⊆ l) : xs.foldl insertNew l = l := by
  induction xs with
  | nil => rfl
  | cons y xs ih =>
    obtain ⟨hy, hxs⟩ := List.cons_subset.mp h
    rw [List.foldl_cons, insertNew, if_pos hy]
    exact ih hxs

theorem foldl_insertNew_of_nodup {xs l : List α} (h : (l ++ xs).Nodup) :
    xs.foldl insertNew l = l ++ xs := by
  induction xs generalizing l with
  | nil => simp
  | cons y xs ih =>
    have hy : y ∉ l := by
      intro hmem
      exact (List.disjoint_of_nodup_append h) hmem (by simp)
    rw [List.foldl_cons, insertNew, if_neg hy, ih (by simpa using h)]
    simp

theorem filter_mem_of_sublist {s l : List α} (h : s.Sublist l) (hl : l.Nodup) :
    l.filter (fun x => x ∈ s) = s := by
  induction h with
  | slnil => rfl
  | @cons s l a hs ih =>
    obtain ⟨ha, hl⟩ := List.nodup_cons.mp hl
    have hnot : a ∉ s := fun h => ha (hs.subset h)
    rw [List.filter_cons_of_neg (by simpa using hnot)]
    exact ih hl
  | @cons_cons s l a hs ih =>
    obtain ⟨ha, hl⟩ := List.nodup_cons.mp hl
    have hrest : l.filter (fun x => x ∈ a :: s) = l.filter (fun x => x ∈ s) := by
      apply List.filter_congr
      intro x hx
      have hne : x ≠ a := fun h => ha (h ▸ hx)
      simp [hne]
    rw [List.filter_cons_of_pos (by simp), hrest, ih hl]

/-- Sublists of a list without repetition are told apart by their elements. -/
theorem sublist_ext {s s' l : List α} (h : s.Sublist l) (h' : s'.Sublist l) (hl : l.Nodup)
    (hmem : ∀ x, x ∈ s ↔ x ∈ s') : s = s' := by
  rw [← filter_mem_of_sublist h hl, ← filter_mem_of_sublist h' hl]
  simp only [hmem]

end Loop
