import Mathlib.Algebra.BigOperators.Group.List.Basic
import Mathlib.Data.List.Forall2

/-! Numerals whose base changes from place to place, lowest place first. -/
namespace MixedRadix

def digits : List Nat → Nat → List Nat
  | [], _ => []
  | b :: bs, n => n % b :: digits bs (n / b)

def value : List Nat → List Nat → Nat
  | b :: bs, d :: ds => d + b * value bs ds
  | _, _ => 0

/-- One digit for each place, below the place's base. -/
def Numeral (bs ds : List Nat) : Prop := List.Forall₂ (fun b d => d < b) bs ds

variable {bs ds : List Nat} {n m : Nat}

theorem numeral_digits (hb : ∀ b ∈ bs, 0 < b) (n : Nat) : Numeral bs (digits bs n) := by
  induction bs generalizing n with
  | nil => exact .nil
  | cons b bs ih =>
    have hpos := hb b List.mem_cons_self
    exact .cons (Nat.mod_lt n hpos) (ih (fun c hc => hb c (List.mem_cons_of_mem _ hc)) _)

theorem value_digits (h : n < bs.prod) : value bs (digits bs n) = n := by
  induction bs generalizing n with
  | nil =>
    rw [List.prod_nil] at h
    show 0 = n
    omega
  | cons b bs ih =>
    rw [List.prod_cons] at h
    have htail := ih (Nat.div_lt_of_lt_mul h)
    show n % b + b * value bs (digits bs (n / b)) = n
    rw [htail]
    exact Nat.mod_add_div n b

theorem value_lt (h : Numeral bs ds) : value bs ds < bs.prod := by
  induction h with
  | nil => exact Nat.one_pos
  | @cons b d bs ds hd _ ih =>
    show d + b * value bs ds < (b :: bs).prod
    rw [List.prod_cons]
    calc d + b * value bs ds < b + b * value bs ds := by omega
      _ = b * (value bs ds + 1) := by rw [Nat.mul_add, Nat.mul_one, Nat.add_comm]
      _ ≤ b * bs.prod := Nat.mul_le_mul_left b ih

theorem digits_value (h : Numeral bs ds) : digits bs (value bs ds) = ds := by
  induction h with
  | nil => rfl
  | @cons b d bs ds hd _ ih =>
    have hpos : 0 < b := by omega
    have hmod : (d + b * value bs ds) % b = d := by
      rw [Nat.add_mul_mod_self_left, Nat.mod_eq_of_lt hd]
    have hdiv : (d + b * value bs ds) / b = value bs ds := by
      rw [Nat.add_mul_div_left _ _ hpos, Nat.div_eq_of_lt hd, Nat.zero_add]
    show (d + b * value bs ds) % b :: digits bs ((d + b * value bs ds) / b) = d :: ds
    rw [hmod, hdiv, ih]

theorem digits_inj (hn : n < bs.prod) (hm : m < bs.prod) (h : digits bs n = digits bs m) :
    n = m := by
  rw [← value_digits hn, h, value_digits hm]

theorem value_eq_zero_iff (h : Numeral bs ds) : value bs ds = 0 ↔ ∀ d ∈ ds, d = 0 := by
  induction h with
  | nil => simp [value]
  | @cons b d bs ds hd _ ih =>
    have hb : b ≠ 0 := by omega
    show d + b * value bs ds = 0 ↔ _
    rw [Nat.add_eq_zero_iff, Nat.mul_eq_zero, ih, List.forall_mem_cons]
    simp only [hb, false_or]

end MixedRadix
