import Mathlib.Data.Int.LeastGreatest
import Mathlib.Data.List.ProdSigma

/-! Systems of difference bounds over the integers: each asks one value to be at least a fixed
amount above another. A finite system has a solution exactly if no closed walk along its
bounds adds up to more than nothing. -/
namespace Difference

variable {V : Type}

/-- The value of `v` is at least `g` above that of `u` for every bound `R u v g`. -/
def Solves (R : V → V → Int → Prop) (val : V → Int) : Prop := ∀ u v g, R u v g → val u + g ≤ val v

/-- Bounds one after the other, with the sum of their amounts. -/
inductive Walk (R : V → V → Int → Prop) : V → V → Int → Prop
  | nil (v : V) : Walk R v v 0
  | snoc {u v w : V} {d g : Int} (h : Walk R u v d) (hstep : R v w g) : Walk R u w (d + g)

/-- No closed walk asks a value to be above itself. -/
def Gainless (R : V → V → Int → Prop) : Prop := ∀ v d, Walk R v v d → d ≤ 0

variable {R S : V → V → Int → Prop} {u v : V} {d : Int}

theorem Walk.mono (hRS : ∀ u v g, R u v g → S u v g) (h : Walk R u v d) : Walk S u v d := by
  induction h with
  | nil => exact .nil u
  | snoc _ hstep ih => exact ih.snoc (hRS _ _ _ hstep)

/-- A solution keeps the distance a walk asks for. -/
theorem Solves.walk_le {val : V → Int} (hval : Solves R val) (h : Walk R u v d) :
    val u + d ≤ val v := by
  induction h with
  | nil => omega
  | snoc _ hstep ih =>
    have hlast := hval _ _ _ hstep
    omega

theorem Solves.gainless {val : V → Int} (hval : Solves R val) : Gainless R := by
  intro v d h
  have hle := hval.walk_le h
  omega

/-- A solution of the bounds so far, raised where the new bound and walks from its end ask
for it: the largest value asked for exists because the old solution bounds these walks. -/
theorem Solves.add {val : V → Int} (hval : Solves R val) {a b : V} {g : Int}
    (hgain : Gainless fun u v k => R u v k ∨ (u, v, k) = (a, b, g)) :
    ∃ val', Solves (fun u v k => R u v k ∨ (u, v, k) = (a, b, g)) val' := by
  let asked (v : V) (m : Int) : Prop := m = val v ∨ ∃ d, Walk R b v d ∧ m = val a + g + d
  have hlargest (v : V) : ∃ m, asked v m ∧ ∀ z, asked v z → z ≤ m := by
    refine Int.exists_greatest_of_bdd ⟨max (val v) (val a + g + (val v - val b)), ?_⟩
      ⟨val v, .inl rfl⟩
    intro z hz
    rcases hz with rfl | ⟨d, hd, rfl⟩
    · exact le_max_left _ _
    · have hle := hval.walk_le hd
      exact le_max_of_le_right (by omega)
  choose val' hmem hmax using hlargest
  refine ⟨val', ?_⟩
  intro u v k h
  rcases h with h | h
  · rcases hmem u with hu | ⟨d, hd, hu⟩
    · have hold := hval u v k h
      have hnew := hmax v (val v) (.inl rfl)
      omega
    · have hnew := hmax v _ (.inr ⟨d + k, hd.snoc h, rfl⟩)
      omega
  · obtain ⟨rfl, rfl, rfl⟩ : u = a ∧ v = b ∧ k = g := by simpa using h
    have hnew := hmax v _ (.inr ⟨0, .nil v, rfl⟩)
    rcases hmem u with hu | ⟨d, hd, hu⟩
    · omega
    · -- the walk closes with the new bound
      have hclosed := hgain v _ ((hd.mono fun _ _ _ => Or.inl).snoc (.inr rfl))
      omega

theorem Gainless.exists_solves (bs : List (V × V × Int))
    (hgain : Gainless fun u v g => (u, v, g) ∈ bs) :
    ∃ val, Solves (fun u v g => (u, v, g) ∈ bs) val := by
  induction bs with
  | nil => exact ⟨fun _ => 0, fun _ _ _ h => absurd h (by simp)⟩
  | cons c bs ih =>
    obtain ⟨a, b, g⟩ := c
    have hrel : (fun u v k => (u, v, k) ∈ (a, b, g) :: bs) =
        fun u v k => (u, v, k) ∈ bs ∨ (u, v, k) = (a, b, g) := by
      funext u v k
      rw [List.mem_cons, or_comm]
    rw [hrel] at hgain ⊢
    obtain ⟨val, hval⟩ := ih fun v d h => hgain v d (h.mono fun _ _ _ => Or.inl)
    exact hval.add hgain

/-- Finitely many bounds have a solution exactly if no closed walk gains. -/
theorem exists_solves_iff {vs : List V} {gs : List Int}
    (hR : ∀ u v g, R u v g → u ∈ vs ∧ v ∈ vs ∧ g ∈ gs) : (∃ val, Solves R val) ↔ Gainless R := by
  classical
  let bs := (vs ×ˢ vs ×ˢ gs).filter fun b => decide (R b.1 b.2.1 b.2.2)
  have hrel : R = fun u v g => (u, v, g) ∈ bs := by
    funext u v g
    simp only [bs, List.mem_filter, List.mem_product, decide_eq_true_eq]
    exact propext (iff_and_self.mpr (hR u v g))
  constructor
  · intro h
    obtain ⟨val, hval⟩ := h
    exact hval.gainless
  · intro hgain
    rw [hrel] at hgain ⊢
    exact hgain.exists_solves bs

end Difference
