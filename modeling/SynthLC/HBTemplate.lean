import SynthLC.Sva

/-! The property templates of `src/HB_template.py` as syntax trees. A template takes
the location names it is formatted with; `set_r` is the wire the generated file
declares beside it. -/
namespace SynthLC

open Sva

variable {PL : Type}

/-- Signals a generated file refers to: the wire of a performing location, its
`_hpn` register, and the header's `first`. -/
inductive Sig (PL : Type) where
  | loc (p : PL)
  | hpn (p : PL)
  | first
  deriving DecidableEq

/-- One clock edge of `hpn_reg_t2` (and of each half of `hpn_reg_t`). -/
def hpnNext (rst_ni s1 hpn : Bool) : Bool :=
  if !rst_ni then false else if s1 then true else hpn

/-- The register after reset; the header assumes `rst_ni == 1` (`IN_OP_MODE`), so every
later edge takes the running branch. -/
def hpn (tr : Wave PL) (p : PL) : Nat → Bool
  | 0 => hpnNext false false false
  | t + 1 => hpnNext true (tr t p) (hpn tr p t)

/-- All signals of a generated file, from the location wires alone. -/
def observe (tr : Wave PL) : Wave (Sig PL)
  | t, .loc p => tr t p
  | t, .hpn p => hpn tr p t
  | t, .first => t == 0

@[simp] theorem observe_loc (tr : Wave PL) (t : Nat) (p : PL) :
    observe tr t (.loc p) = tr t p := rfl

@[simp] theorem observe_hpn (tr : Wave PL) (t : Nat) (p : PL) :
    observe tr t (.hpn p) = hpn tr p t := rfl

@[simp] theorem observe_first (tr : Wave PL) (t : Nat) :
    observe tr t .first = (t == 0) := rfl

/-- The register is a late sticky bit: it tells whether the location was active at
a strictly earlier tick. -/
theorem hpn_eq_true_iff (tr : Wave PL) (p : PL) (t : Nat) :
    hpn tr p t = true ↔ ∃ k < t, tr k p = true := by
  induction t with
  | zero => simp [hpn, hpnNext]
  | succ t ih =>
    cases hp : tr t p with
    | true => simpa [hpn, hpnNext, hp] using ⟨t, by omega, hp⟩
    | false =>
      simp only [hpn, hpnNext, hp, Bool.not_true, Bool.false_eq_true, if_false, ih]
      constructor
      · rintro ⟨k, hk, hkp⟩
        exact ⟨k, by omega, hkp⟩
      · rintro ⟨k, hk, hkp⟩
        have hne : k ≠ t := by intro he; subst k; simp [hp] at hkp
        exact ⟨k, by omega, hkp⟩

section Templates

/-- `{e0}` -/
abbrev loc (p : PL) : BExp (Sig PL) := .sig (.loc p)

/-- `{e0}_hpn` -/
abbrev hpnReg (p : PL) : BExp (Sig PL) := .sig (.hpn p)

variable (e0 e1 : PL) (setR : BExp (Sig PL))

/-- `$past({e0}) & !{e0}`, the falling edge every leaving template starts from. -/
def fell : BExp (Sig PL) := .and (.past 1 (loc e0)) (.not (loc e0))

def aEnterHbFinal : Property (Sig PL) :=
  .imp (.bool (.and (.not (hpnReg e0)) (loc e0)))
    (.or (.seq (.bool (.not (hpnReg e1)))) (.seq (.cat (.bool (loc e1)) 1 (.bool (loc e1)))))

def aFinalHbFinal : Property (Sig PL) :=
  .imp (.bool (fell e0)) (.seq (.bool (.or (.not (hpnReg e1)) (loc e1))))

def aFinalHbEnter : Property (Sig PL) :=
  .imp (.bool (fell e0)) (.seq (.bool (.not (hpnReg e1))))

def aEnterConcurFinal : Property (Sig PL) :=
  .imp (.bool (.and (loc e0) (.not (hpnReg e0))))
    (.seq (.cat (.bool (loc e1)) 1 (.bool (.not (loc e1)))))

def aFinalConcurFinal : Property (Sig PL) :=
  .imp (.bool (fell e0)) (.seq (.bool (fell e1)))

def aFinalConcurEnter : Property (Sig PL) :=
  .imp (.bool (fell e0)) (.seq (.bool (.past 1 (.and (.not (hpnReg e1)) (loc e1)))))

def aEnterHbEnter : Property (Sig PL) :=
  .imp (.bool (.and (loc e0) (.not (hpnReg e0)))) (.seq (.bool (.not (.or (loc e1) (hpnReg e1)))))

/-- The template emits two assumptions, one for each direction. -/
def aEnterConcurEnter : List (Property (Sig PL)) :=
  [.imp (.bool (.and (loc e0) (.not (hpnReg e0))))
      (.seq (.bool (.and (loc e1) (.not (hpnReg e1))))),
    .imp (.bool (.and (loc e1) (.not (hpnReg e1))))
      (.seq (.bool (.and (loc e0) (.not (hpnReg e0)))))]

def cFinalHbEnter : Seq (Sig PL) :=
  .catFrom (.cat (.bool (loc e0)) 1
    (.bool (.and (.not (loc e0)) (.not (.or (hpnReg e1) (loc e1)))))) 0 (.bool setR)

def cFinalConcurEnter : Seq (Sig PL) :=
  .catFrom (.cat (.bool (.and (.and (loc e0) (loc e1)) (.not (hpnReg e1)))) 1
    (.bool (.not (loc e0)))) 0 (.bool setR)

def cEnterHbFinal : Seq (Sig PL) :=
  .catFrom (.catFrom (.cat (.bool (.not (loc e0))) 1
    (.bool (.and (loc e0) (.or (.not (hpnReg e1)) (loc e1))))) 1 (.bool (loc e1))) 0 (.bool setR)

def cEnterConcurFinal : Seq (Sig PL) :=
  .catFrom (.cat (.bool (.and (.and (loc e0) (.not (hpnReg e0))) (loc e1))) 1
    (.bool (.not (loc e1)))) 0 (.bool setR)

def cFinalHbFinal : Seq (Sig PL) :=
  .catFrom (.cat (.bool (loc e0)) 1
    (.bool (.and (.not (loc e0)) (.or (.not (hpnReg e1)) (loc e1))))) 0 (.bool setR)

def cFinalConcurFinal : Seq (Sig PL) :=
  .catFrom (.cat (.bool (.and (loc e0) (loc e1))) 1
    (.bool (.not (.or (loc e0) (loc e1))))) 0 (.bool setR)

def cHbProp : Seq (Sig PL) :=
  .catFrom (.bool (.and (.and (loc e0) (.not (hpnReg e0)))
    (.not (.or (hpnReg e1) (loc e1))))) 0 (.bool setR)

def cConcurProp : Seq (Sig PL) :=
  .catFrom (.bool (.and (.and (.and (loc e0) (.not (hpnReg e0))) (loc e1))
    (.not (hpnReg e1)))) 0 (.bool setR)

/-- `pair_dep_t2` -/
def pairDepT2 (s1 s2 : PL) : Seq (Sig PL) := .bool (.and (.not (hpnReg s1)) (hpnReg s2))

/-- `c_two_pl_t` -/
def cTwoPlT (s1 s2 : PL) : Seq (Sig PL) := .bool (.and (hpnReg s1) (hpnReg s2))

/-- `no_s1_t` -/
def noS1T (s1 : PL) : Property (Sig PL) := .seq (.bool (.not (loc s1)))

/-- `ENTER_A_HP_ENTER_B_t` without `WHB`: `HB_{cnt}` -/
def hbT (s1 s2 : PL) : Property (Sig PL) :=
  .imp (.bool (.and (loc s1) (.not (hpnReg s1)))) (.seq (.bool (.not (.or (hpnReg s2) (loc s2)))))

/-- `ENTER_A_HP_ENTER_B_t` under `WHB`: `WHB_{cnt}` -/
def whbT (s1 s2 : PL) : Property (Sig PL) :=
  .imp (.bool (.and (loc s1) (.not (hpnReg s1)))) (.seq (.bool (.not (hpnReg s2))))

/-- `ENTER_A_HP_ENTER_B_t` under `WHB`: `WHB_CONCUR_{cnt}` -/
def whbConcurT (s1 s2 : PL) : Property (Sig PL) :=
  .imp (.bool (.and (loc s1) (.not (hpnReg s1))))
    (.seq (.bool (.and (loc s2) (.not (hpnReg s2)))))

/-- `$past({s1}, 2) && $past({s1}) && {not_s1}`: left after a stay of two cycles or more. The
pair list that `not_s1` consults is empty in `xHBPerfG_leaving`, so it is `!{s1}`. -/
def leftAfterTwo (s1 : PL) : BExp (Sig PL) :=
  .and (.and (.past 2 (loc s1)) (.past 1 (loc s1))) (.not (loc s1))

/-- `assume_s2_over_2cyc` -/
def assumeS2Over2cyc (s2 : PL) : Property (Sig PL) :=
  .imp (.bool (.sig .first))
    (.eventually (.seq (.starThen (.not (loc s2)) (.cat (.bool (loc s2)) 1 (.bool (loc s2))))))

/-- `HB_LEAVING_{s1}_{s2}` -/
def hbLeavingS1HbS2 (s1 s2 : PL) : Property (Sig PL) :=
  .imp (.bool (leftAfterTwo s1)) (.seq (.bool (.past 1 (.not (.or (hpnReg s2) (loc s2))))))

/-- `HB_{s1}_LEAVING_{s2}` -/
def hbS1HbLeavingS2 (s1 s2 : PL) : Property (Sig PL) :=
  .impNext (.bool (.and (.and (.past 1 (.not (hpnReg s1))) (loc s1)) (.or (hpnReg s2) (loc s2))))
    (.seq (.bool (loc s2)))

/-- `HB_LEAVING_{s1}_LEAVING_{s2}` -/
def hbLeavingS1HbLeavingS2 (s1 s2 : PL) : Property (Sig PL) :=
  .imp (.bool (leftAfterTwo s1))
    (.seq (.bool (.or (.and (hpnReg s2) (loc s2)) (.not (hpnReg s2)))))

/-- `WHB_LEAVING_{s1}_hb_{s2}` -/
def whbLeavingS1HbS2 (s1 s2 : PL) : Property (Sig PL) :=
  .imp (.bool (leftAfterTwo s1)) (.seq (.bool (.past 1 (.not (hpnReg s2)))))

/-- `WHB_{s1}_LEAVING_{s2}` -/
def whbS1HbLeavingS2 (s1 s2 : PL) : Property (Sig PL) :=
  .imp (.bool (.and (.and (.past 1 (.not (hpnReg s1))) (loc s1)) (hpnReg s2)))
    (.seq (.bool (loc s2)))

/-- `WHB_LEAVING_{s1}_LEAVING_{s2}` -/
def whbLeavingS1HbLeavingS2 (s1 s2 : PL) : Property (Sig PL) :=
  .imp (.bool (leftAfterTwo s1))
    (.seq (.bool (.past 1 (.or (.and (hpnReg s2) (loc s2)) (.not (hpnReg s2))))))

/-- `WHB_CONCUR_LEAVING_{s1}_hb_{s2}` -/
def whbConcurLeavingS1HbS2 (s1 s2 : PL) : Property (Sig PL) :=
  .imp (.bool (leftAfterTwo s1)) (.seq (.bool (.past 1 (.and (.not (hpnReg s2)) (loc s2)))))

/-- `WHB_CONCUR_{s1}_LEAVING_{s2}` -/
def whbConcurS1HbLeavingS2 (s1 s2 : PL) : Property (Sig PL) :=
  .impNext (.bool (.and (.and (.and (.past 1 (.not (hpnReg s1))) (loc s1)) (hpnReg s2)) (loc s2)))
    (.seq (.bool (.not (loc s2))))

/-- `WHB_CONCUR_LEAVING_{s1}_LEAVING_{s2}` -/
def whbConcurLeavingS1HbLeavingS2 (s1 s2 : PL) : Property (Sig PL) :=
  .imp (.bool (leftAfterTwo s1)) (.seq (.bool (leftAfterTwo s2)))

end Templates

end SynthLC
