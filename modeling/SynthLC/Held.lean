import Mathlib.Tactic.Common

/-! Registers that keep their value until something writes them. A register over time is given by
its writes: what it holds is the last one, or what it powered up with. -/
namespace Held

variable {α : Type}

/-- The last write before a tick. -/
def last (write : Nat → Option α) : Nat → Option α
  | 0 => none
  | t + 1 => (write t).or (last write t)

/-- What the register holds at a tick. -/
def held (write : Nat → Option α) (init : α) (t : Nat) : α := (last write t).getD init

variable {write : Nat → Option α} {init : α} {t : Nat}

@[simp] theorem held_zero : held write init 0 = init := rfl

theorem last_succ : last write (t + 1) = (write t).or (last write t) := rfl

theorem held_succ : held write init (t + 1) = (write t).getD (held write init t) := by
  rw [held, last_succ]
  cases write t <;> rfl

theorem last_eq_none (h : ∀ u < t, write u = none) : last write t = none := by
  induction t with
  | zero => rfl
  | succ t ih =>
    have hrest := ih fun u hu => h u (by omega)
    rw [last_succ, h t (by omega), hrest]
    rfl

/-- A write after which there is no other is the last one. -/
theorem last_eq_some {u : Nat} {v : α} (hut : u < t) (hu : write u = some v)
    (hlater : ∀ u', u < u' → u' < t → write u' = none) : last write t = some v := by
  induction t with
  | zero => omega
  | succ t ih =>
    rw [last_succ]
    by_cases hlast : u = t
    · rw [← hlast, hu]
      rfl
    · rw [hlater t (by omega) (by omega)]
      exact ih (by omega) fun u' h h' => hlater u' h (by omega)

/-- Once there are no more writes nothing changes. -/
theorem last_of_no_write {u : Nat} (hut : u ≤ t) (h : ∀ u' ≥ u, write u' = none) :
    last write t = last write u := by
  induction t with
  | zero => rw [Nat.le_zero.mp hut]
  | succ t ih =>
    by_cases hlast : u = t + 1
    · rw [hlast]
    · rw [last_succ, h t (by omega), ← ih (by omega)]
      rfl

theorem held_of_no_write {u : Nat} (hut : u ≤ t) (h : ∀ u' ≥ u, write u' = none) :
    held write init t = held write init u := by
  rw [held, last_of_no_write hut h, held]

theorem exists_of_last {v : α} (h : last write t = some v) :
    ∃ u < t, write u = some v ∧ ∀ u', u < u' → u' < t → write u' = none := by
  induction t with
  | zero => cases h
  | succ t ih =>
    rw [last_succ] at h
    cases hw : write t with
    | some d =>
      rw [hw] at h
      exact ⟨t, by omega, by rw [hw]; exact h, fun u' hu hu' => by omega⟩
    | none =>
      rw [hw] at h
      have ⟨u, hu, hv, hlater⟩ := ih h
      refine ⟨u, by omega, hv, ?_⟩
      intro u' huu' hu'
      by_cases hlast : u' = t
      · rw [hlast, hw]
      · exact hlater u' huu' (by omega)

/-- A register that takes each write when it comes holds the last one. -/
theorem eq_held {r : Nat → α} (h0 : r 0 = init) (hstep : ∀ t, r (t + 1) = (write t).getD (r t)) :
    r t = held write init t := by
  induction t with
  | zero => exact h0
  | succ t ih => rw [hstep, held_succ, ih]

/-- Two registers agree whatever they powered up with, exactly if both were written and hold the
same value. -/
theorem forall_getD_eq_iff {p q : Option Bool} :
    (∀ x y, p.getD x = q.getD y) ↔ ∃ d, p = some d ∧ q = some d := by
  constructor
  · intro h
    cases p with
    | none =>
      -- one of the two power-up values disagrees with the other register
      cases q with
      | none => exact absurd (h true false) (by decide)
      | some d => exact absurd (h (!d) d) (by cases d <;> decide)
    | some d =>
      cases q with
      | none => exact absurd (h d (!d)) (by cases d <;> decide)
      | some d' => exact ⟨d, rfl, by rw [show d = d' from h d d']⟩
  · intro ⟨d, hp, hq⟩ x y
    rw [hp, hq]
    rfl

/-- A flag that is set and never cleared. -/
theorem set_iff {r p : Nat → Bool} (h0 : r 0 = false)
    (hstep : ∀ t, r (t + 1) = if p t then true else r t) (t : Nat) :
    r t = true ↔ ∃ u < t, p u = true := by
  induction t with
  | zero => simp [h0]
  | succ t ih =>
    rw [hstep]
    constructor
    · intro h
      by_cases hp : p t = true
      · exact ⟨t, t.lt_succ_self, hp⟩
      · rw [if_neg hp] at h
        obtain ⟨u, hu, hpu⟩ := ih.mp h
        exact ⟨u, Nat.lt_succ_of_lt hu, hpu⟩
    · intro h
      obtain ⟨u, hu, hpu⟩ := h
      by_cases hp : p t = true
      · rw [if_pos hp]
      · rw [if_neg hp]
        apply ih.mpr
        refine ⟨u, ?_, hpu⟩
        by_contra hge
        obtain rfl : u = t := by omega
        exact hp hpu

end Held
