import Mathlib
import SynthLC.MixedRadix

/-! `xDUVPLs/gen.py`: the performing locations of one block of micro-FSMs, one wire for each
valuation of the FSMs other than reset.  The source decodes an index with true division and cuts
the fraction off only when it prints; the model keeps the fractions, as rationals. -/
namespace SynthLC.DuvPls

open MixedRadix

variable {σ : Type}

/-- A line of the block: the signal, its width and the constant it is fixed to, if any. -/
structure Ufsm (σ : Type) where
  sig : σ
  w : Nat
  f : Option Int

/-- What the FSM multiplies `total_cnt` by. -/
def Ufsm.factor (u : Ufsm σ) : Nat :=
  match u.f with
  | some _ => 1
  | none => 2 ^ u.w

def totalCnt (ufsms : List (Ufsm σ)) : Nat := ufsms.foldl (fun n u => n * u.factor) 1

/-- `x % m` of a nonnegative float that is exact. -/
def pyMod (x : ℚ) (m : Nat) : ℚ := x - m * ⌊x / m⌋

/-- One round of the loop over the reversed lists: `tmp_idx` and `vals`. -/
def valsStep (s : ℚ × List ℚ) (u : Ufsm σ) : ℚ × List ℚ :=
  match u.f with
  | none => (s.1 / (2 ^ u.w : Nat), pyMod s.1 (2 ^ u.w) :: s.2)
  | some f => (s.1, (f : ℚ) :: s.2)

def vals (ufsms : List (Ufsm σ)) (idx : Nat) : List ℚ :=
  (ufsms.reverse.foldl valsStep ((idx : ℚ), [])).2

/-- `%d` of a float cuts towards zero. -/
def percentD (x : ℚ) : Int := if 0 ≤ x then ⌊x⌋ else ⌈x⌉

/-- `wire name = (pcr == pc0) && (sig == w'dv) && ...`; `postproc` has no clause for `pcr`. -/
structure Wire (σ : Type) where
  name : String
  pcr : Option σ
  eqs : List (σ × Nat × Int)

def plName (nm : String) (idx : Nat) : String := nm ++ "_s" ++ idx.repr

def eqsOf (ufsms : List (Ufsm σ)) (idx : Nat) : List (σ × Nat × Int) :=
  List.zipWith (fun u v => (u.sig, u.w, percentD v)) ufsms (vals ufsms idx)

/-- `pl_def` and `pl_sig` in the order of `pl_seqs`.  `ufsmsCond` gives the signals of an item that
is a condition (it has `==` in it), and nothing for a plain signal. -/
def postprocGen (nm : String) (pcr : σ) (ufsms : List (Ufsm σ)) (ufsmsCond : σ → Option (List σ)) :
    List (Wire σ × List σ) :=
  (List.range' 1 (totalCnt ufsms - 1)).map fun idx =>
    (⟨plName nm idx, some pcr, eqsOf ufsms idx⟩,
      pcr :: ufsms.flatMap fun u => (ufsmsCond u.sig).getD [u.sig])

/-- The wires written to `perf_loc.sv`. -/
def postproc (nm : String) (ufsms : List (Ufsm σ)) : List (Wire σ) :=
  (List.range' 1 (totalCnt ufsms - 1)).map fun idx => ⟨plName nm idx, none, eqsOf ufsms idx⟩

def Wire.valuation (l : Wire σ) : List Int := l.eqs.map fun e => e.2.2

/-- The wire in a state of the signals.  The literal `w'dv` has `w` bits. -/
def Wire.Holds (st : σ → Int) (pc0 : Int) (l : Wire σ) : Prop :=
  (∀ p ∈ l.pcr, st p = pc0) ∧ ∀ e ∈ l.eqs, st e.1 = e.2.2 % 2 ^ e.2.1

/-- A value the FSM may be asked for: any of its width, or the constant it is fixed to. -/
def Fits (u : Ufsm σ) (v : Int) : Prop :=
  match u.f with
  | none => 0 ≤ v ∧ v < 2 ^ u.w
  | some f => v = f

/-- A free FSM in its reset state. -/
def AtReset (u : Ufsm σ) (v : Int) : Prop := u.f = none → v = 0

/-! ### The value printed for one FSM -/

theorem floor_pyMod (x : ℚ) (m : Nat) : ⌊pyMod x m⌋ = ⌊x⌋ % m := by
  have hint : ((m : ℚ) * ((⌊x / m⌋ : Int) : ℚ)) = ((m * ⌊x / m⌋ : Int) : ℚ) := by push_cast; rfl
  unfold pyMod
  rw [hint, Int.floor_sub_intCast, Int.floor_div_natCast, Int.emod_def]

theorem pyMod_nonneg {x : ℚ} {m : Nat} (hm : 0 < m) : 0 ≤ pyMod x m := by
  have hpos : (0 : ℚ) < m := Nat.cast_pos.mpr hm
  have hle : (⌊x / m⌋ : ℚ) ≤ x / m := Int.floor_le _
  have hmul : ((⌊x / m⌋ : Int) : ℚ) * m ≤ x := (le_div_iff₀ hpos).mp hle
  unfold pyMod
  linarith

/-- Cutting the fraction of a remainder off late or early is the same. -/
theorem percentD_pyMod {x : ℚ} {n m : Nat} (hm : 0 < m) (hx : ⌊x⌋ = n) :
    percentD (pyMod x m) = (n % m : Nat) := by
  unfold percentD
  rw [if_pos (pyMod_nonneg hm), floor_pyMod, hx]
  exact (Int.natCast_mod n m).symm

theorem floor_div_of_floor {x : ℚ} {n m : Nat} (hx : ⌊x⌋ = n) : ⌊x / m⌋ = (n / m : Nat) := by
  rw [Int.floor_div_natCast, hx]
  exact (Int.natCast_div n m).symm

theorem percentD_intCast (f : Int) : percentD (f : ℚ) = f := by
  unfold percentD
  split_ifs with h
  · exact Int.floor_intCast f
  · exact Int.ceil_intCast f

/-- What is printed for an FSM whose place has digit `d`. -/
def place (u : Ufsm σ) (d : Nat) : Int := u.f.getD d

def valuation (us : List (Ufsm σ)) (ds : List Nat) : List Int := List.zipWith place us ds

section

variable {u : Ufsm σ} {d e : Nat}

theorem factor_free (hf : u.f = none) : u.factor = 2 ^ u.w := by simp only [Ufsm.factor, hf]

theorem factor_fixed {f : Int} (hf : u.f = some f) : u.factor = 1 := by
  simp only [Ufsm.factor, hf]

theorem place_free (hf : u.f = none) : place u d = d := by simp only [place, hf, Option.getD_none]

theorem place_fixed {f : Int} (hf : u.f = some f) : place u d = f := by
  simp only [place, hf, Option.getD_some]

theorem factor_pos (u : Ufsm σ) : 0 < u.factor := by
  cases hf : u.f with
  | none =>
    rw [factor_free hf]
    exact Nat.two_pow_pos u.w
  | some f =>
    rw [factor_fixed hf]
    exact Nat.one_pos

theorem fits_place (h : d < u.factor) : Fits u (place u d) := by
  cases hf : u.f with
  | none =>
    rw [factor_free hf] at h
    rw [place_free hf]
    simp only [Fits, hf]
    exact ⟨Int.natCast_nonneg d, by exact_mod_cast h⟩
  | some f =>
    rw [place_fixed hf]
    simp only [Fits, hf]

theorem place_of_fits {v : Int} (h : Fits u v) : ∃ d, d < u.factor ∧ place u d = v := by
  cases hf : u.f with
  | none =>
    simp only [Fits, hf] at h
    have hv : (v.toNat : Int) = v := Int.toNat_of_nonneg h.1
    have hlt : (v.toNat : Int) < (2 ^ u.w : Nat) := by
      rw [hv]
      exact_mod_cast h.2
    refine ⟨v.toNat, ?_, ?_⟩
    · rw [factor_free hf]
      exact_mod_cast hlt
    · rw [place_free hf, hv]
  | some f =>
    simp only [Fits, hf] at h
    exact ⟨0, factor_pos u, by rw [place_fixed hf, h]⟩

theorem place_inj (hd : d < u.factor) (he : e < u.factor) (h : place u d = place u e) : d = e := by
  cases hf : u.f with
  | none =>
    rw [place_free hf, place_free hf] at h
    exact_mod_cast h
  | some f =>
    rw [factor_fixed hf] at hd he
    omega

theorem atReset_place (hd : d < u.factor) : AtReset u (place u d) ↔ d = 0 := by
  unfold AtReset
  cases hf : u.f with
  | none => simp [place_free hf]
  | some f =>
    rw [factor_fixed hf] at hd
    simp only [reduceCtorEq, false_imp_iff, true_iff]
    omega

end

/-- The whole loop: a fixed FSM is a place of base one. -/
theorem foldl_valsStep (us : List (Ufsm σ)) {x : ℚ} {n : Nat} (hx : ⌊x⌋ = n) (vs : List ℚ) :
    (us.foldl valsStep (x, vs)).2.map percentD =
      (valuation us (digits (us.map Ufsm.factor) n)).reverse ++ vs.map percentD := by
  induction us generalizing x n vs with
  | nil => rfl
  | cons u us ih =>
    rw [List.foldl_cons]
    cases hf : u.f with
    | none =>
      have hw : 0 < 2 ^ u.w := Nat.two_pow_pos u.w
      have hs : valsStep (x, vs) u = (x / (2 ^ u.w : Nat), pyMod x (2 ^ u.w) :: vs) := by
        simp only [valsStep, hf]
      rw [hs, ih (floor_div_of_floor hx), List.map_cons, percentD_pyMod hw hx]
      simp [valuation, digits, place_free hf, factor_free hf]
    | some f =>
      have hs : valsStep (x, vs) u = (x, (f : ℚ) :: vs) := by simp only [valsStep, hf]
      rw [hs, ih hx, List.map_cons, percentD_intCast]
      simp [valuation, digits, place_fixed hf, factor_fixed hf]

/-- The values the wire of index `idx` asks for. -/
def printed (us : List (Ufsm σ)) (idx : Nat) : List Int := (vals us idx).map percentD

theorem printed_reverse (us : List (Ufsm σ)) (idx : Nat) :
    (printed us idx).reverse = valuation us.reverse (digits (us.reverse.map Ufsm.factor) idx) := by
  have h := foldl_valsStep us.reverse (Int.floor_natCast (R := ℚ) idx) []
  rw [printed, vals, h, List.map_nil, List.append_nil, List.reverse_reverse]

theorem eqsOf_eq (us : List (Ufsm σ)) (idx : Nat) :
    eqsOf us idx = List.zipWith (fun u v => (u.sig, u.w, v)) us (printed us idx) := by
  rw [eqsOf, printed, List.zipWith_map_right]

/-! ### Digits and valuations -/

theorem foldl_factor (us : List (Ufsm σ)) (n : Nat) :
    us.foldl (fun n u => n * u.factor) n = n * (us.map Ufsm.factor).prod := by
  induction us generalizing n with
  | nil => simp
  | cons u us ih => rw [List.foldl_cons, ih, List.map_cons, List.prod_cons, Nat.mul_assoc]

theorem totalCnt_eq (us : List (Ufsm σ)) : totalCnt us = (us.reverse.map Ufsm.factor).prod := by
  rw [totalCnt, foldl_factor, Nat.one_mul, List.map_reverse, List.prod_reverse]

variable {us : List (Ufsm σ)} {ds es : List Nat} {vs : List Int}

theorem fits_valuation (h : Numeral (us.map Ufsm.factor) ds) :
    List.Forall₂ Fits us (valuation us ds) := by
  induction us generalizing ds with
  | nil => exact .nil
  | cons u us ih =>
    cases h with
    | cons hd htail => exact .cons (fits_place hd) (ih htail)

theorem valuation_of_fits (h : List.Forall₂ Fits us vs) :
    ∃ ds, Numeral (us.map Ufsm.factor) ds ∧ valuation us ds = vs := by
  induction h with
  | nil => exact ⟨[], .nil, rfl⟩
  | cons hv _ ih =>
    have ⟨d, hd, hp⟩ := place_of_fits hv
    have ⟨ds, hds, htail⟩ := ih
    refine ⟨d :: ds, .cons hd hds, ?_⟩
    rw [valuation, List.zipWith_cons_cons, hp]
    exact congrArg _ htail

theorem valuation_inj (hd : Numeral (us.map Ufsm.factor) ds) (he : Numeral (us.map Ufsm.factor) es)
    (h : valuation us ds = valuation us es) : ds = es := by
  induction us generalizing ds es with
  | nil =>
    cases hd
    cases he
    rfl
  | cons u us ih =>
    cases hd with
    | cons hd hds =>
      cases he with
      | cons he hes =>
        have ⟨hhead, htail⟩ := List.cons.inj h
        rw [place_inj hd he hhead, ih hds hes htail]

theorem atReset_valuation (h : Numeral (us.map Ufsm.factor) ds) :
    List.Forall₂ AtReset us (valuation us ds) ↔ ∀ d ∈ ds, d = 0 := by
  induction us generalizing ds with
  | nil =>
    cases h
    simp [valuation]
  | cons u us ih =>
    cases h with
    | cons hd hds =>
      rw [valuation, List.zipWith_cons_cons, List.forall₂_cons, atReset_place hd,
        List.forall_mem_cons]
      exact and_congr_right fun _ => ih hds

/-! ### The wires of a block -/

theorem numeral_idx (us : List (Ufsm σ)) (idx : Nat) :
    Numeral (us.map Ufsm.factor) (digits (us.map Ufsm.factor) idx) := by
  apply numeral_digits
  intro b hb
  have ⟨u, _, hu⟩ := List.mem_map.mp hb
  rw [← hu]
  exact factor_pos u

theorem fits_printed (us : List (Ufsm σ)) (idx : Nat) : List.Forall₂ Fits us (printed us idx) := by
  rw [← List.forall₂_reverse_iff, printed_reverse]
  exact fits_valuation (numeral_idx us.reverse idx)

theorem atReset_printed {idx : Nat} (h : idx < totalCnt us) :
    List.Forall₂ AtReset us (printed us idx) ↔ idx = 0 := by
  rw [totalCnt_eq] at h
  have hnum := numeral_idx us.reverse idx
  rw [← List.forall₂_reverse_iff, printed_reverse, atReset_valuation hnum, ← value_eq_zero_iff hnum,
    value_digits h]

theorem printed_inj {i j : Nat} (hi : i < totalCnt us) (hj : j < totalCnt us)
    (h : printed us i = printed us j) : i = j := by
  rw [totalCnt_eq] at hi hj
  have hrev := congrArg List.reverse h
  rw [printed_reverse, printed_reverse] at hrev
  exact digits_inj hi hj (valuation_inj (numeral_idx _ i) (numeral_idx _ j) hrev)

theorem printed_of_fits (h : List.Forall₂ Fits us vs) : ∃ idx, idx < totalCnt us ∧
    printed us idx = vs := by
  have ⟨ds, hnum, hds⟩ := valuation_of_fits (List.forall₂_reverse_iff.mpr h)
  refine ⟨value (us.reverse.map Ufsm.factor) ds, ?_, ?_⟩
  · rw [totalCnt_eq]
    exact value_lt hnum
  · apply List.reverse_injective
    rw [printed_reverse, digits_value hnum, hds]

theorem mem_indices {idx : Nat} :
    idx ∈ List.range' 1 (totalCnt us - 1) ↔ idx ≠ 0 ∧ idx < totalCnt us := by
  rw [List.mem_range'_1]
  omega

theorem map_valuation_eqsOf (us : List (Ufsm σ)) (idx : Nat) :
    (eqsOf us idx).map (fun e => e.2.2) = printed us idx := by
  have hlen : (printed us idx).length ≤ us.length := (fits_printed us idx).length_eq.ge
  rw [eqsOf_eq, List.map_zipWith]
  conv_rhs => rw [← List.map_snd_zip hlen, List.zip, List.map_zipWith]

/-- Two values of one FSM that one state of the signal answers to. -/
theorem fits_eq_of_mod {u : Ufsm σ} {v v' : Int} (hv : Fits u v) (hv' : Fits u v')
    (h : v % 2 ^ u.w = v' % 2 ^ u.w) : v = v' := by
  cases hf : u.f with
  | none =>
    simp only [Fits, hf] at hv hv'
    rw [Int.emod_eq_of_lt hv.1 hv.2, Int.emod_eq_of_lt hv'.1 hv'.2] at h
    exact h
  | some f =>
    simp only [Fits, hf] at hv hv'
    rw [hv, hv']

theorem valuation_of_holds {st : σ → Int} {vs' : List Int} (hv : List.Forall₂ Fits us vs)
    (hv' : List.Forall₂ Fits us vs')
    (h : ∀ e ∈ List.zipWith (fun u v => (u.sig, u.w, v)) us vs, st e.1 = e.2.2 % 2 ^ e.2.1)
    (h' : ∀ e ∈ List.zipWith (fun u v => (u.sig, u.w, v)) us vs', st e.1 = e.2.2 % 2 ^ e.2.1) :
    vs = vs' := by
  induction hv generalizing vs' with
  | nil =>
    cases hv'
    rfl
  | cons hfit _ ih =>
    cases hv' with
    | cons hfit' htail' =>
      rw [List.zipWith_cons_cons, List.forall_mem_cons] at h h'
      rw [fits_eq_of_mod hfit hfit' (h.1.symm.trans h'.1), ih htail' h.2 h'.2]

theorem plName_inj {nm : String} {i j : Nat} (h : plName nm i = plName nm j) : i = j := by
  have hrepr : i.repr = j.repr := String.append_right_inj _ |>.mp h
  exact Nat.repr_injective hrepr

section

variable (nm : String) (pcr : σ) (us : List (Ufsm σ)) (ufsmsCond : σ → Option (List σ))

/-- The definitions `postproc_gen` returns. -/
def wires : List (Wire σ) := (postprocGen nm pcr us ufsmsCond).map Prod.fst

theorem wires_eq : wires nm pcr us ufsmsCond =
    (List.range' 1 (totalCnt us - 1)).map fun idx => ⟨plName nm idx, some pcr, eqsOf us idx⟩ := by
  simp only [wires, postprocGen, List.map_map]
  rfl

theorem wires_valuation : (wires nm pcr us ufsmsCond).map Wire.valuation =
    (List.range' 1 (totalCnt us - 1)).map (printed us) := by
  rw [wires_eq, List.map_map]
  exact List.map_congr_left fun idx _ => map_valuation_eqsOf us idx

theorem wires_name : (wires nm pcr us ufsmsCond).map Wire.name =
    (List.range' 1 (totalCnt us - 1)).map (plName nm) := by
  rw [wires_eq, List.map_map]
  rfl

theorem nodup_valuation : ((wires nm pcr us ufsmsCond).map Wire.valuation).Nodup := by
  rw [wires_valuation]
  apply List.Nodup.map_on _ List.nodup_range'
  intro i hi j hj h
  exact printed_inj (mem_indices.mp hi).2 (mem_indices.mp hj).2 h

theorem mem_valuation (vs : List Int) : vs ∈ (wires nm pcr us ufsmsCond).map Wire.valuation ↔
    List.Forall₂ Fits us vs ∧ ¬ List.Forall₂ AtReset us vs := by
  rw [wires_valuation, List.mem_map]
  constructor
  · intro ⟨idx, hmem, hidx⟩
    have hrange := mem_indices.mp hmem
    rw [← hidx, atReset_printed hrange.2]
    exact ⟨fits_printed us idx, hrange.1⟩
  · intro ⟨hfits, hreset⟩
    have ⟨idx, hlt, hidx⟩ := printed_of_fits hfits
    rw [← hidx, atReset_printed hlt] at hreset
    exact ⟨idx, mem_indices.mpr ⟨hreset, hlt⟩, hidx⟩

variable {nm pcr us ufsmsCond}

theorem eq_of_holds {st : σ → Int} {pc0 : Int} {l l' : Wire σ}
    (hl : l ∈ wires nm pcr us ufsmsCond) (hl' : l' ∈ wires nm pcr us ufsmsCond)
    (hold : l.Holds st pc0) (hold' : l'.Holds st pc0) : l = l' := by
  rw [wires_eq] at hl hl'
  have ⟨i, hi, hli⟩ := List.mem_map.mp hl
  have ⟨j, hj, hlj⟩ := List.mem_map.mp hl'
  have heqs := hold.2
  have heqs' := hold'.2
  rw [← hli, eqsOf_eq] at heqs
  rw [← hlj, eqsOf_eq] at heqs'
  have hval := valuation_of_holds (fits_printed us i) (fits_printed us j) heqs heqs'
  have hij := printed_inj (mem_indices.mp hi).2 (mem_indices.mp hj).2 hval
  rw [← hli, ← hlj, hij]

theorem valuation_eq_of_name {l l' : Wire σ} (hl : l ∈ postproc nm us)
    (hl' : l' ∈ wires nm pcr us ufsmsCond) (hname : l.name = l'.name) :
    l.valuation = l'.valuation := by
  rw [wires_eq] at hl'
  have ⟨i, _, hli⟩ := List.mem_map.mp hl
  have ⟨j, _, hlj⟩ := List.mem_map.mp hl'
  rw [← hli, ← hlj] at hname
  have hij : i = j := plName_inj hname
  rw [← hli, ← hlj, hij]
  rfl

end

/-- The wires of a block ask for every valuation of its free FSMs but reset, each once, with the
fixed FSMs at their constants; no state makes two of them true, and both writers give one name one
valuation. -/
theorem locations_enumerated (nm : String) (pcr : σ) (us : List (Ufsm σ))
    (ufsmsCond : σ → Option (List σ)) :
    (((wires nm pcr us ufsmsCond).map Wire.valuation).Nodup ∧
      ∀ vs, vs ∈ (wires nm pcr us ufsmsCond).map Wire.valuation ↔
        List.Forall₂ Fits us vs ∧ ¬ List.Forall₂ AtReset us vs) ∧
    (∀ st pc0, ∀ l ∈ wires nm pcr us ufsmsCond, ∀ l' ∈ wires nm pcr us ufsmsCond,
      l.Holds st pc0 → l'.Holds st pc0 → l = l') ∧
    (postproc nm us).map Wire.name = (wires nm pcr us ufsmsCond).map Wire.name ∧
    ((wires nm pcr us ufsmsCond).map Wire.name).Nodup ∧
    ∀ l ∈ postproc nm us, ∀ l' ∈ wires nm pcr us ufsmsCond, l.name = l'.name →
      l.valuation = l'.valuation := by
  refine ⟨⟨nodup_valuation nm pcr us ufsmsCond, mem_valuation nm pcr us ufsmsCond⟩, ?_, ?_, ?_, ?_⟩
  · intro st pc0 l hl l' hl' hold hold'
    exact eq_of_holds hl hl' hold hold'
  · rw [wires_name, postproc, List.map_map]
    rfl
  · rw [wires_name]
    exact List.Nodup.map_on (fun i _ j _ h => plName_inj h) List.nodup_range'
  · intro l hl l' hl' hname
    exact valuation_eq_of_name hl hl' hname

end SynthLC.DuvPls
