import SynthLC.Visit

/-! The order covers against the order assumptions: a cover finds an order in some run,
the assumption of the same name later fixes it, and both are compared with the ticks at
which the locations are entered and left. -/
namespace SynthLC

open Sva

variable {PL : Type} {tr : Wave PL} {e0 e1 a b : PL} {setR : BExp (Sig PL)}

def ExactlyOne (p q r : Prop) : Prop :=
  (p ∧ ¬q ∧ ¬r) ∨ (¬p ∧ q ∧ ¬r) ∨ (¬p ∧ ¬q ∧ r)

/-- Three covers and three assumptions for `<`, `>` and `=` that all tell how `m` compares
with `n`. -/
structure OrdersAgree (m n : Nat) (coverLt coverGt coverEq assumeLt assumeGt assumeEq : Prop) :
    Prop where
  exactlyOne : ExactlyOne coverLt coverGt coverEq
  coverLt_iff : coverLt ↔ m < n
  coverGt_iff : coverGt ↔ n < m
  coverEq_iff : coverEq ↔ m = n
  assumeLt_iff : assumeLt ↔ m < n
  assumeGt_iff : assumeGt ↔ n < m
  assumeEq_iff : assumeEq ↔ m = n

/-- Covers that follow the three outcomes of a comparison exclude each other. -/
theorem OrdersAgree.of_iff {m n : Nat} {cl cg ce al ag ae : Prop} (hcl : cl ↔ m < n)
    (hcg : cg ↔ n < m) (hce : ce ↔ m = n) (hal : al ↔ m < n) (hag : ag ↔ n < m)
    (hae : ae ↔ m = n) : OrdersAgree m n cl cg ce al ag ae := by
  refine ⟨?_, hcl, hcg, hce, hal, hag, hae⟩
  unfold ExactlyOne
  rw [hcl, hcg, hce]
  omega

/-- `set_r` holds at some tick not before `n`. -/
def HoldsFrom (tr : Wave PL) (setR : BExp (Sig PL)) (n : Nat) : Prop :=
  ∃ t, n ≤ t ∧ setR.eval (observe tr) t = true

theorem HoldsFrom.mono {m n : Nat} (h : HoldsFrom tr setR n) (hle : m ≤ n) :
    HoldsFrom tr setR m := by
  obtain ⟨t, ht, hset⟩ := h
  exact ⟨t, by omega, hset⟩

section EnterEnter

variable {n0 n1 : Nat} (h0 : FirstEntry tr e0 n0) (h1 : FirstEntry tr e1 n1)
include h0 h1

theorem cHbProp_covered (hs : HoldsFrom tr setR n0) :
    (cHbProp e0 e1 setR).Covered (observe tr) ↔ n0 < n1 := by
  obtain ⟨k, hk, hset⟩ := hs
  rw [cHbProp, covered_catFrom_bool]
  simp only [match_bool, eval_and, eval_not, eval_or, eval_sig, observe_loc, observe_hpn,
    not_or, h0.fresh_iff, h1.notYet_iff]
  constructor
  · rintro ⟨_, _, _, ⟨_, rfl, hlt⟩, _⟩
    exact hlt
  · intro hlt
    exact ⟨n0, n0, k, ⟨rfl, rfl, hlt⟩, by omega, hset⟩

theorem cConcurProp_covered (hs : HoldsFrom tr setR n0) :
    (cConcurProp e0 e1 setR).Covered (observe tr) ↔ n0 = n1 := by
  obtain ⟨k, hk, hset⟩ := hs
  rw [cConcurProp, covered_catFrom_bool]
  simp only [match_bool, eval_and, eval_not, eval_sig, observe_loc, observe_hpn,
    h0.fresh_iff, and_assoc, h1.fresh_iff]
  constructor
  · rintro ⟨_, _, _, _, hi0, hi1, _⟩
    exact hi0.symm.trans hi1
  · intro he
    exact ⟨n0, n0, k, rfl, rfl, he, by omega, hset⟩

theorem aEnterHbEnter_holds : (aEnterHbEnter e0 e1).Holds (observe tr) ↔ n0 < n1 := by
  simp only [Property.Holds, aEnterHbEnter, at_imp_bool, at_bool, eval_and, eval_not, eval_or,
    eval_sig, observe_loc, observe_hpn, h0.fresh_iff, or_comm (a := tr _ e1 = true), not_or,
    h1.notYet_iff, forall_eq]

theorem aEnterConcurEnter_holds : AllHold (observe tr) (aEnterConcurEnter e0 e1) ↔ n0 = n1 := by
  simp only [aEnterConcurEnter, allHold_cons, allHold_nil, and_true, Property.Holds,
    at_imp_bool, at_bool, eval_and, eval_not, eval_sig, observe_loc, observe_hpn,
    h0.fresh_iff, h1.fresh_iff, forall_eq]
  exact ⟨fun h => h.1, fun h => ⟨h, h.symm⟩⟩

end EnterEnter

/-- Entering orders: however often the locations are visited again, covers and assumptions
tell the order of the first entries. -/
theorem enter_orders_agree (tr : Wave PL) (e0 e1 : PL) (n0 n1 : Nat) (setR : BExp (Sig PL))
    (h0 : FirstEntry tr e0 n0) (h1 : FirstEntry tr e1 n1)
    (hs : HoldsFrom tr setR (max n0 n1)) :
    OrdersAgree n0 n1
      ((cHbProp e0 e1 setR).Covered (observe tr))
      ((cHbProp e1 e0 setR).Covered (observe tr))
      ((cConcurProp e0 e1 setR).Covered (observe tr))
      ((aEnterHbEnter e0 e1).Holds (observe tr))
      ((aEnterHbEnter e1 e0).Holds (observe tr))
      (AllHold (observe tr) (aEnterConcurEnter e0 e1)) :=
  .of_iff (cHbProp_covered h0 h1 (hs.mono (by omega)))
    (cHbProp_covered h1 h0 (hs.mono (by omega)))
    (cConcurProp_covered h0 h1 (hs.mono (by omega)))
    (aEnterHbEnter_holds h0 h1) (aEnterHbEnter_holds h1 h0) (aEnterConcurEnter_holds h0 h1)

/-- A run that keeps coming back: the first location at odd ticks, the second at every
third tick. -/
def alternating : Wave Bool := fun t p => if p then t % 2 == 1 else t % 3 == 2

theorem enter_orders_agree_alternating :
    OrdersAgree 1 2
      ((cHbProp true false (.all [hpnReg true, hpnReg false])).Covered (observe alternating))
      ((cHbProp false true (.all [hpnReg true, hpnReg false])).Covered (observe alternating))
      ((cConcurProp true false (.all [hpnReg true, hpnReg false])).Covered (observe alternating))
      ((aEnterHbEnter true false).Holds (observe alternating))
      ((aEnterHbEnter false true).Holds (observe alternating))
      (AllHold (observe alternating) (aEnterConcurEnter true false)) :=
  enter_orders_agree alternating true false 1 2 (.all [hpnReg true, hpnReg false])
    ⟨rfl, by decide⟩ ⟨rfl, by decide⟩ ⟨3, by decide, by decide⟩

section FinalFinal

variable {n0 f0 n1 f1 : Nat} (h0 : Visit tr e0 n0 f0) (h1 : Visit tr e1 n1 f1)
include h0 h1

theorem cFinalHbFinal_covered (hs : HoldsFrom tr setR (f0 + 1)) :
    (cFinalHbFinal e0 e1 setR).Covered (observe tr) ↔ f0 < f1 := by
  obtain ⟨k, hk, hset⟩ := hs
  have hle0 := h0.le
  have hle1 := h1.le
  rw [cFinalHbFinal, covered_catFrom_bool]
  simp only [match_cat, match_bool, eval_and, eval_not, eval_or, eval_sig, observe_loc,
    observe_hpn, h0.active, h1.active, h1.hpn_iff]
  constructor
  · rintro ⟨i, _, _, ⟨_, ⟨rfl, hact⟩, _, hleft, hor⟩, _⟩
    omega
  · intro hlt
    exact ⟨f0, f0 + 1, k, ⟨f0, ⟨rfl, hle0, le_rfl⟩, rfl, by omega, by omega⟩, hk, hset⟩

theorem cFinalConcurFinal_covered (hs : HoldsFrom tr setR (f0 + 1)) :
    (cFinalConcurFinal e0 e1 setR).Covered (observe tr) ↔ f0 = f1 := by
  obtain ⟨k, hk, hset⟩ := hs
  have hle0 := h0.le
  have hle1 := h1.le
  rw [cFinalConcurFinal, covered_catFrom_bool]
  simp only [match_cat, match_bool, eval_and, eval_not, eval_or, eval_sig, observe_loc,
    h0.active, h1.active]
  constructor
  · rintro ⟨i, _, _, ⟨_, ⟨rfl, hact⟩, _, hleft⟩, _⟩
    omega
  · rintro rfl
    exact ⟨f0, f0 + 1, k, ⟨f0, ⟨rfl, ⟨hle0, le_rfl⟩, hle1, le_rfl⟩, rfl, by omega⟩, hk, hset⟩

theorem aFinalHbFinal_holds : (aFinalHbFinal e0 e1).Holds (observe tr) ↔ f0 < f1 := by
  have hle1 := h1.le
  simp only [Property.Holds, aFinalHbFinal, at_imp_bool, at_bool, h0.eval_fell, eval_or,
    eval_not, eval_sig, observe_loc, observe_hpn, h1.hpn_iff, h1.active, forall_eq]
  omega

theorem aFinalConcurFinal_holds : (aFinalConcurFinal e0 e1).Holds (observe tr) ↔ f0 = f1 := by
  simp only [Property.Holds, aFinalConcurFinal, at_imp_bool, at_bool, h0.eval_fell,
    h1.eval_fell, forall_eq, Nat.add_right_cancel_iff]

end FinalFinal

/-- Leaving orders of two single visits. -/
theorem final_orders_agree (tr : Wave PL) (e0 e1 : PL) (n0 f0 n1 f1 : Nat)
    (setR : BExp (Sig PL)) (h0 : Visit tr e0 n0 f0) (h1 : Visit tr e1 n1 f1)
    (hs : HoldsFrom tr setR (max f0 f1 + 1)) :
    OrdersAgree f0 f1
      ((cFinalHbFinal e0 e1 setR).Covered (observe tr))
      ((cFinalHbFinal e1 e0 setR).Covered (observe tr))
      ((cFinalConcurFinal e0 e1 setR).Covered (observe tr))
      ((aFinalHbFinal e0 e1).Holds (observe tr))
      ((aFinalHbFinal e1 e0).Holds (observe tr))
      ((aFinalConcurFinal e0 e1).Holds (observe tr)) :=
  .of_iff (cFinalHbFinal_covered h0 h1 (hs.mono (by omega)))
    (cFinalHbFinal_covered h1 h0 (hs.mono (by omega)))
    (cFinalConcurFinal_covered h0 h1 (hs.mono (by omega)))
    (aFinalHbFinal_holds h0 h1) (aFinalHbFinal_holds h1 h0) (aFinalConcurFinal_holds h0 h1)

/-- Nested visits, the first location left last. -/
def nested : Bool → Option (Nat × Nat)
  | true => some (1, 4)
  | false => some (2, 3)

theorem final_orders_agree_nested :
    OrdersAgree 4 3
      ((cFinalHbFinal true false (.all [hpnReg true, hpnReg false])).Covered
        (observe (ofSpans nested)))
      ((cFinalHbFinal false true (.all [hpnReg true, hpnReg false])).Covered
        (observe (ofSpans nested)))
      ((cFinalConcurFinal true false (.all [hpnReg true, hpnReg false])).Covered
        (observe (ofSpans nested)))
      ((aFinalHbFinal true false).Holds (observe (ofSpans nested)))
      ((aFinalHbFinal false true).Holds (observe (ofSpans nested)))
      ((aFinalConcurFinal true false).Holds (observe (ofSpans nested))) :=
  final_orders_agree (ofSpans nested) true false 1 4 2 3 (.all [hpnReg true, hpnReg false])
    (ofSpans_visit rfl (by decide)) (ofSpans_visit rfl (by decide)) ⟨5, by decide, by decide⟩

section FinalEnter

variable {ea fa eb fb : Nat} (ha : Visit tr a ea fa) (hb : Visit tr b eb fb)
include ha hb

/-- The cover asks for a tick with neither location active, so a visit of `b` that starts
in the tick after `a` is left does not match. -/
theorem cFinalHbEnter_covered (hs : HoldsFrom tr setR (fa + 1)) :
    (cFinalHbEnter a b setR).Covered (observe tr) ↔ fa + 1 < eb := by
  obtain ⟨k, hk, hset⟩ := hs
  have hlea := ha.le
  have hnot := hb.firstEntry.notYet_iff
  rw [cFinalHbEnter, covered_catFrom_bool]
  simp only [match_cat, match_bool, eval_and, eval_not, eval_or, eval_sig, observe_loc,
    observe_hpn, not_or, hnot, ha.active]
  constructor
  · rintro ⟨i, _, _, ⟨_, ⟨rfl, hact⟩, _, hleft, hlt⟩, _⟩
    omega
  · intro hlt
    exact ⟨fa, fa + 1, k, ⟨fa, ⟨rfl, hlea, le_rfl⟩, rfl, by omega, hlt⟩, hk, hset⟩

theorem cFinalConcurEnter_covered (hs : HoldsFrom tr setR (fa + 1)) :
    (cFinalConcurEnter a b setR).Covered (observe tr) ↔ fa = eb := by
  obtain ⟨k, hk, hset⟩ := hs
  have hlea := ha.le
  have hfresh := hb.firstEntry.fresh_iff
  rw [cFinalConcurEnter, covered_catFrom_bool]
  simp only [match_cat, match_bool, eval_and, eval_not, eval_sig, observe_loc, observe_hpn,
    and_assoc, hfresh, ha.active]
  constructor
  · rintro ⟨i, _, _, ⟨_, rfl, hle, hle', hi, _, hleft⟩, _⟩
    omega
  · rintro rfl
    exact ⟨fa, fa + 1, k, ⟨fa, rfl, hlea, le_rfl, rfl, rfl, by omega⟩, hk, hset⟩

theorem cEnterHbFinal_covered (hb0 : 0 < eb) (hs : HoldsFrom tr setR fa) :
    (cEnterHbFinal b a setR).Covered (observe tr) ↔ eb < fa := by
  obtain ⟨k, hk, hset⟩ := hs
  have hlea := ha.le
  have hleb := hb.le
  rw [cEnterHbFinal, covered_catFrom_bool]
  simp only [match_catFrom, match_cat, match_bool, eval_and, eval_not, eval_or, eval_sig,
    observe_loc, observe_hpn, ha.active, hb.active, ha.hpn_iff]
  constructor
  · rintro ⟨i, _, _, ⟨_, m, ⟨_, ⟨rfl, hout⟩, rfl, hin, hor⟩, hle, _, hact⟩, _⟩
    omega
  · intro hlt
    exact ⟨eb - 1, fa, k, ⟨eb, fa, ⟨eb - 1, ⟨rfl, by omega⟩, by omega, by omega, by omega⟩,
      by omega, rfl, by omega⟩, by omega, hset⟩

theorem cEnterConcurFinal_covered (hs : HoldsFrom tr setR (fa + 1)) :
    (cEnterConcurFinal b a setR).Covered (observe tr) ↔ eb = fa := by
  obtain ⟨k, hk, hset⟩ := hs
  have hlea := ha.le
  have hfresh := hb.firstEntry.fresh_iff
  rw [cEnterConcurFinal, covered_catFrom_bool]
  simp only [match_cat, match_bool, eval_and, eval_not, eval_sig, observe_loc, observe_hpn,
    hfresh, ha.active]
  constructor
  · rintro ⟨i, _, _, ⟨_, ⟨rfl, hi, hle, hle'⟩, _, hleft⟩, _⟩
    omega
  · rintro rfl
    exact ⟨eb, eb + 1, k, ⟨eb, ⟨rfl, rfl, hlea, le_rfl⟩, rfl, by omega⟩, hk, hset⟩

theorem aFinalHbEnter_holds : (aFinalHbEnter a b).Holds (observe tr) ↔ fa < eb := by
  simp only [Property.Holds, aFinalHbEnter, at_imp_bool, at_bool, ha.eval_fell, eval_not,
    eval_sig, observe_hpn, hb.hpn_iff, forall_eq]
  omega

theorem aFinalConcurEnter_holds : (aFinalConcurEnter a b).Holds (observe tr) ↔ fa = eb := by
  have hfresh := hb.firstEntry.fresh_iff
  simp only [Property.Holds, aFinalConcurEnter, at_imp_bool, at_bool, ha.eval_fell, eval_past,
    eval_and, eval_not, eval_sig, observe_loc, observe_hpn, and_comm (a := ¬_), hfresh,
    forall_eq]
  omega

/-- When `a` has not been active before, the assumption asks for nothing; it then also
holds when both locations are entered together and `a` is left in the same tick. -/
theorem aEnterHbFinal_holds :
    (aEnterHbFinal b a).Holds (observe tr) ↔ eb < fa ∨ (ea = eb ∧ fa = eb) := by
  have hlea := ha.le
  have hfresh := hb.firstEntry.fresh_iff
  simp only [Property.Holds, aEnterHbFinal, at_imp_bool, at_or, at_bool, at_cat_bool, eval_and,
    eval_not, eval_sig, observe_loc, observe_hpn, and_comm (a := ¬_), hfresh, forall_eq,
    ha.hpn_iff, ha.active]
  omega

end FinalEnter

/-- Leaving `a` against entering `b`: covers and assumptions tell the order except when `b`
is entered in the tick right after `a` is left (no cover matches) and when `a` is visited
for one tick in which `b` is entered (two assumptions hold). -/
theorem final_enter_orders_agree_iff (tr : Wave PL) (a b : PL) (ea fa eb fb : Nat)
    (setR : BExp (Sig PL)) (ha : Visit tr a ea fa) (hb : Visit tr b eb fb)
    (_ha0 : 0 < ea) (hb0 : 0 < eb) (hs : HoldsFrom tr setR (max fa fb + 1)) :
    OrdersAgree fa eb
      ((cFinalHbEnter a b setR).Covered (observe tr))
      ((cEnterHbFinal b a setR).Covered (observe tr))
      ((cFinalConcurEnter a b setR).Covered (observe tr))
      ((aFinalHbEnter a b).Holds (observe tr))
      ((aEnterHbFinal b a).Holds (observe tr))
      ((aFinalConcurEnter a b).Holds (observe tr)) ↔
    eb ≠ fa + 1 ∧ ¬(ea = eb ∧ fa = eb) := by
  have hleft : HoldsFrom tr setR (fa + 1) := hs.mono (by omega)
  have hcl := cFinalHbEnter_covered ha hb hleft
  have hcg := cEnterHbFinal_covered ha hb hb0 (hleft.mono (by omega))
  have hce := cFinalConcurEnter_covered ha hb hleft
  have hag := aEnterHbFinal_holds ha hb
  constructor
  · intro h
    have hlt := hcl.symm.trans h.coverLt_iff
    have hgt := hag.symm.trans h.assumeGt_iff
    omega
  · rintro ⟨hadj, hsame⟩
    exact .of_iff (hcl.trans (by omega)) hcg hce (aFinalHbEnter_holds ha hb)
      (hag.trans (by omega)) (aFinalConcurEnter_holds ha hb)

theorem final_enter_orders_agree_nested :
    OrdersAgree 4 2
      ((cFinalHbEnter true false (.all [hpnReg true, hpnReg false])).Covered
        (observe (ofSpans nested)))
      ((cEnterHbFinal false true (.all [hpnReg true, hpnReg false])).Covered
        (observe (ofSpans nested)))
      ((cFinalConcurEnter true false (.all [hpnReg true, hpnReg false])).Covered
        (observe (ofSpans nested)))
      ((aFinalHbEnter true false).Holds (observe (ofSpans nested)))
      ((aEnterHbFinal false true).Holds (observe (ofSpans nested)))
      ((aFinalConcurEnter true false).Holds (observe (ofSpans nested))) :=
  (final_enter_orders_agree_iff (ofSpans nested) true false 1 4 2 3
    (.all [hpnReg true, hpnReg false]) (ofSpans_visit rfl (by decide))
    (ofSpans_visit rfl (by decide)) (by decide) (by decide)
    ⟨5, by decide, by decide⟩).mpr (by decide)

/-- Adjacent visits: the second location is entered right after the first is left. -/
def adjacent : Bool → Option (Nat × Nat)
  | true => some (1, 2)
  | false => some (3, 4)

/-- The leaving tick is before the entering tick and the assumption for that order holds,
yet no cover of the three matches, so the order is never found. -/
theorem adjacent_order_not_covered :
    Visit (ofSpans adjacent) true 1 2 ∧ Visit (ofSpans adjacent) false 3 4 ∧
    HoldsFrom (ofSpans adjacent) (.all [hpnReg true, hpnReg false]) (max 2 4 + 1) ∧
    (aFinalHbEnter true false).Holds (observe (ofSpans adjacent)) ∧
    ¬(cFinalHbEnter true false (.all [hpnReg true, hpnReg false])).Covered
      (observe (ofSpans adjacent)) ∧
    ¬(cFinalConcurEnter true false (.all [hpnReg true, hpnReg false])).Covered
      (observe (ofSpans adjacent)) ∧
    ¬(cEnterHbFinal false true (.all [hpnReg true, hpnReg false])).Covered
      (observe (ofSpans adjacent)) := by
  have ha : Visit (ofSpans adjacent) true 1 2 := ofSpans_visit rfl (by decide)
  have hb : Visit (ofSpans adjacent) false 3 4 := ofSpans_visit rfl (by decide)
  have hs : HoldsFrom (ofSpans adjacent) (.all [hpnReg true, hpnReg false]) (max 2 4 + 1) :=
    ⟨5, by decide, by decide⟩
  refine ⟨ha, hb, hs, (aFinalHbEnter_holds ha hb).mpr (by decide), ?_, ?_, ?_⟩
  · rw [cFinalHbEnter_covered ha hb (hs.mono (by decide))]
    decide
  · rw [cFinalConcurEnter_covered ha hb (hs.mono (by decide))]
    decide
  · rw [cEnterHbFinal_covered ha hb (by decide) (hs.mono (by decide))]
    decide

end SynthLC
