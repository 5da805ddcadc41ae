import Mathlib.Algebra.Order.Ring.Int
import Mathlib.Data.List.Nodup
import Mathlib.Order.Lattice

/-! Bisection of an interval of integers that keeps the points it looked at. -/
namespace Bisect

structure State where
  lo : Int
  hi : Int
  probes : List Int

def State.mid (s : State) : Int := (s.lo + s.hi) / 2

theorem State.mid_between {s : State} (h : s.lo ≤ s.hi) : s.lo ≤ s.mid ∧ s.mid ≤ s.hi := by
  unfold State.mid
  omega

variable (ok : Int → Bool)

/-- Look at the middle and go on above it or below it. -/
def step (s : State) : State :=
  if ok s.mid then { s with lo := s.mid + 1, probes := s.probes ++ [s.mid] }
  else { s with hi := s.mid - 1, probes := s.probes ++ [s.mid] }

/-- What every answer keeps: the points looked at lie outside the interval, on the side their
answer says, and the interval ends next to two of them. -/
structure Inv (a b : Int) (s : State) : Prop where
  lo_le : s.lo ≤ s.hi + 1
  nodup : s.probes.Nodup
  range : ∀ k ∈ s.probes, a ≤ k ∧ k ≤ b
  below : ∀ k ∈ s.probes, ok k = true → k < s.lo
  above : ∀ k ∈ s.probes, ok k = false → s.hi < k
  le_lo : a ≤ s.lo
  hi_le : s.hi ≤ b
  lo_probe : s.lo = a ∨ s.lo - 1 ∈ s.probes
  hi_probe : s.hi = b ∨ s.hi + 1 ∈ s.probes

variable {ok} {a b M : Int} {s : State}

theorem inv_start (h : a ≤ b) : Inv ok a b ⟨a, b, []⟩ where
  lo_le := by simp only; omega
  nodup := List.nodup_nil
  range := by simp
  below := by simp
  above := by simp
  le_lo := le_rfl
  hi_le := le_rfl
  lo_probe := .inl rfl
  hi_probe := .inl rfl

theorem Inv.outside (h : Inv ok a b s) {k : Int} (hk : k ∈ s.probes) : k < s.lo ∨ s.hi < k := by
  cases hok : ok k with
  | true => exact .inl (h.below k hk hok)
  | false => exact .inr (h.above k hk hok)

/-- The middle of an interval with elements is a new point ... -/
theorem Inv.mid_fresh (h : Inv ok a b s) (hne : s.lo ≤ s.hi) :
    s.mid ∉ s.probes ∧ a ≤ s.mid ∧ s.mid ≤ b := by
  have hlo := h.le_lo
  have hhi := h.hi_le
  have hmid := State.mid_between hne
  refine ⟨?_, by omega, by omega⟩
  intro hmem
  have hout := h.outside hmem
  omega

/-- ... and that of an empty one is not, unless it lies before the start. -/
theorem Inv.mid_used (h : Inv ok a b s) (hempty : s.hi < s.lo) :
    s.mid ∈ s.probes ∨ s.mid = a - 1 := by
  have hle := h.lo_le
  have hmid : s.mid = s.lo - 1 := by
    unfold State.mid
    omega
  rw [hmid]
  rcases h.lo_probe with hlo | hlo
  · exact .inr (by rw [hlo])
  · exact .inl hlo

theorem Inv.step (h : Inv ok a b s) (hne : s.lo ≤ s.hi) : Inv ok a b (step ok s) := by
  obtain ⟨hfresh, ha, hb⟩ := h.mid_fresh hne
  have hmid := State.mid_between hne
  have hlo := h.le_lo
  have hhi := h.hi_le
  have hnd : (s.probes ++ [s.mid]).Nodup := h.nodup.append (by simp) (by simpa using hfresh)
  have hrange : ∀ k ∈ s.probes ++ [s.mid], a ≤ k ∧ k ≤ b := by
    intro k hk
    rcases List.mem_append.mp hk with hk | hk
    · exact h.range k hk
    · rw [List.mem_singleton.mp hk]
      exact ⟨ha, hb⟩
  have hsplit {k : Int} (hk : k ∈ s.probes ++ [s.mid]) : k ∈ s.probes ∨ k = s.mid := by
    simpa using hk
  unfold Bisect.step
  split_ifs with hok
  · refine ⟨by simp only; omega, hnd, hrange, ?_, ?_, by simp only; omega, hhi, ?_, ?_⟩
    · intro k hk hkok
      rcases hsplit hk with hk | rfl
      · have hlt := h.below k hk hkok
        show k < s.mid + 1
        omega
      · show s.mid < s.mid + 1
        omega
    · intro k hk hkok
      rcases hsplit hk with hk | rfl
      · exact h.above k hk hkok
      · rw [hok] at hkok
        cases hkok
    · right
      simp
    · rcases h.hi_probe with hb' | hb'
      · exact .inl hb'
      · exact .inr (List.mem_append_left _ hb')
  · refine ⟨by simp only; omega, hnd, hrange, ?_, ?_, hlo, by simp only; omega, ?_, ?_⟩
    · intro k hk hkok
      rcases hsplit hk with hk | rfl
      · exact h.below k hk hkok
      · exact absurd hkok hok
    · intro k hk hkok
      rcases hsplit hk with hk | rfl
      · have hlt := h.above k hk hkok
        show s.mid - 1 < k
        omega
      · show s.mid - 1 < s.mid
        omega
    · rcases h.lo_probe with ha' | ha'
      · exact .inl ha'
      · exact .inr (List.mem_append_left _ ha')
    · right
      simp

/-- A step at least halves the interval. -/
theorem step_halves (ok : Int → Bool) (s : State) :
    2 * ((step ok s).hi + 1 - (step ok s).lo) ≤ s.hi + 1 - s.lo := by
  unfold step State.mid
  split_ifs <;> simp only <;> omega

/-- The points looked at in the next steps, until the interval is empty. -/
def asked (ok : Int → Bool) : Nat → State → List Int
  | 0, _ => []
  | n + 1, s => if s.lo ≤ s.hi then s.mid :: asked ok n (step ok s) else []

section Asked

variable {ok' : Int → Bool} {n : Nat} {pre rest : List Int} {d k : Int}

theorem asked_eq_cons (h : asked ok n s = k :: rest) :
    ∃ m, n = m + 1 ∧ s.lo ≤ s.mid ∧ s.mid ≤ s.hi ∧ k = s.mid ∧ rest = asked ok m (step ok s) := by
  cases n with
  | zero => cases h
  | succ n =>
    rw [asked] at h
    split_ifs at h with hne
    obtain ⟨rfl, rfl⟩ := List.cons.inj h
    have hmid := State.mid_between hne
    exact ⟨n, rfl, hmid.1, hmid.2, rfl, rfl⟩

theorem step_of_true (h : ok s.mid = true) :
    (step ok s).lo = s.mid + 1 ∧ (step ok s).hi = s.hi := by
  rw [step, if_pos h]
  exact ⟨rfl, rfl⟩

theorem step_of_false (h : ok s.mid = false) :
    (step ok s).lo = s.lo ∧ (step ok s).hi = s.mid - 1 := by
  rw [step, if_neg (by simp [h])]
  exact ⟨rfl, rfl⟩

theorem mem_asked_between (hk : k ∈ asked ok n s) : s.lo ≤ k ∧ k ≤ s.hi := by
  induction n generalizing s with
  | zero => cases hk
  | succ n ih =>
    rw [asked] at hk
    split_ifs at hk with hne
    · have hmid := State.mid_between hne
      rcases List.mem_cons.mp hk with rfl | hk
      · exact hmid
      · have hrest := ih hk
        cases hok : ok s.mid with
        | true =>
          obtain ⟨hlo, hhi⟩ := step_of_true hok
          omega
        | false =>
          obtain ⟨hlo, hhi⟩ := step_of_false hok
          omega
    · cases hk

/-- What is looked at after a point lies on the side that its answer says. -/
theorem asked_after (h : asked ok n s = pre ++ d :: rest) (hk : k ∈ rest) :
    if ok d then d < k else k < d := by
  induction pre generalizing n s with
  | nil =>
    obtain ⟨m, _, _, _, rfl, rfl⟩ := asked_eq_cons h
    have hbetween := mem_asked_between hk
    cases hok : ok s.mid with
    | true =>
      obtain ⟨hlo, _⟩ := step_of_true hok
      rw [if_pos rfl]
      omega
    | false =>
      obtain ⟨_, hhi⟩ := step_of_false hok
      rw [if_neg (by decide)]
      omega
  | cons p pre ih =>
    obtain ⟨m, _, _, _, _, hrest⟩ := asked_eq_cons h
    exact ih hrest.symm

theorem step_congr (h : ok s.mid = ok' s.mid) : step ok s = step ok' s := by
  unfold step
  rw [h]

/-- As long as the answers agree the same points are looked at. -/
theorem asked_of_agree (h : asked ok n s = pre ++ d :: rest) (hagree : ∀ k ∈ pre, ok k = ok' k) :
    ∃ rest', asked ok' n s = pre ++ d :: rest' := by
  induction pre generalizing n s with
  | nil =>
    obtain ⟨m, rfl, hlo, hhi, rfl, _⟩ := asked_eq_cons h
    exact ⟨asked ok' m (step ok' s), by rw [asked, if_pos (hlo.trans hhi)]; rfl⟩
  | cons p pre ih =>
    obtain ⟨m, rfl, hlo, hhi, rfl, hrest⟩ := asked_eq_cons h
    have hstep : step ok s = step ok' s := step_congr (hagree _ List.mem_cons_self)
    obtain ⟨rest', hrest'⟩ := ih hrest.symm fun k hk => hagree k (List.mem_cons_of_mem _ hk)
    refine ⟨rest', ?_⟩
    rw [asked, if_pos (hlo.trans hhi), ← hstep, hrest']
    rfl

theorem asked_congr (hagree : ∀ k ∈ asked ok n s, ok k = ok' k) :
    asked ok' n s = asked ok n s := by
  induction n generalizing s with
  | zero => rfl
  | succ n ih =>
    rw [asked, asked]
    split_ifs with hne
    · rw [asked, if_pos hne] at hagree
      rw [← step_congr (hagree _ List.mem_cons_self),
        ih fun k hk => hagree k (List.mem_cons_of_mem _ hk)]
    · rfl

/-- With answers that change once, the bisection looks at the last point before the change. -/
theorem mem_asked (hok : ∀ k, ok k = true ↔ k ≤ M) (hlo : s.lo ≤ M) (hhi : M ≤ s.hi)
    (hsize : s.hi + 1 - s.lo < 2 ^ n) : M ∈ asked ok n s := by
  induction n generalizing s with
  | zero =>
    rw [pow_zero] at hsize
    omega
  | succ n ih =>
    rw [asked, if_pos (by omega), List.mem_cons]
    have hhalf := step_halves ok s
    rw [pow_succ] at hsize
    by_cases hM : M = s.mid
    · exact .inl hM
    · right
      cases hmid : ok s.mid with
      | true =>
        obtain ⟨hlo', hhi'⟩ := step_of_true hmid
        have hle := (hok s.mid).mp hmid
        exact ih (by omega) (by omega) (by omega)
      | false =>
        obtain ⟨hlo', hhi'⟩ := step_of_false hmid
        have hlt : ¬s.mid ≤ M := fun hle => by
          rw [(hok s.mid).mpr hle] at hmid
          cases hmid
        exact ih (by omega) (by omega) (by omega)

end Asked

/-- With answers that change once, the bisection ends at the change, or at the end of the
interval if that comes first. -/
theorem Inv.hi_eq (h : Inv ok a b s) (hempty : s.hi < s.lo) (hab : a ≤ b) (hM : a ≤ M)
    (hok : ∀ k, ok k = true ↔ k ≤ M) : s.hi = min M b ∧ s.hi ∈ s.probes := by
  have hle := h.lo_le
  have hhi := h.hi_le
  have hbound : s.hi = b ∨ M < s.hi + 1 := by
    rcases h.hi_probe with hb | hb
    · exact .inl hb
    · right
      by_contra hn
      have hlt := h.below _ hb ((hok _).mpr (by omega))
      omega
  have hlo : s.lo ≠ a := by
    intro heq
    omega
  have hmem : s.hi ∈ s.probes := by
    have hprobe := h.lo_probe.resolve_left hlo
    rwa [show s.lo - 1 = s.hi by omega] at hprobe
  have hM' : s.hi ≤ M := by
    apply (hok _).mp
    by_contra hn
    have hlt := h.above _ hmem (Bool.eq_false_iff.mpr hn)
    omega
  exact ⟨by omega, hmem⟩

end Bisect
