import GccCore.Gcc.DataRef.Steps

/-!
# `gcc/tree-data-ref.c`: a constant against an affine subscript

The constants are those of the signed type of both subscripts, so that the difference of the initial value and the constant wraps.
The number of the iteration that meets the constant is the difference, without its sign, by the step.

* **Positive steps** (`positive_right_iff`): the sign of the difference is removed, and zero is taken for a negative difference.
* **Negative steps** (`cstAffine_of_neg`): a quotient of a positive difference is negative, and a zero difference is taken for one
  that the iterations leave.
* **All steps** (`cstAffine_right_iff`): the answer is right exactly for these differences and counts.
-/

namespace GccCore.Gcc.DataRef

/-! ## The code -/

section Code

variable {p : ℕ}

/-- Of a constant; zero is not positive. Source: `tree-scalar-evolution.c` `chrec_is_positive`. -/
def chrecIsPositive (chrec : BitVec p) : Bool := (0#p).slt chrec

/-- Source: `tree-data-ref.c` `tree_fold_divides_p`. -/
def treeFoldDividesP (a b : BitVec p) : Bool := b.srem a = 0#p

/-- The overlap at the iteration `tmp`, unless it is outside of the loop bounds; a negative estimate is none.
Source: `tree-data-ref.c` `analyze_siv_subscript_cst_affine` ("weak-zero siv test") -/
def weakZero (numiter tmp : ℤ) : Overlaps :=
  if 0 ≤ numiter ∧ numiter < tmp then .noDependence else ⟨.fns [affineFnCst 0], .fns [affineFnCst tmp], some 1⟩

/-- `CHREC_A` and `CHREC_B = {init, +, step}` in the signed type of both, with the estimate for the loop.
Source: `tree-data-ref.c` `analyze_siv_subscript_cst_affine` -/
def analyzeSivSubscriptCstAffine (numiter : ℤ) (chrecA init step : BitVec p) : Overlaps :=
  let difference := init - chrecA
  if chrecIsPositive difference = false then
    if chrecIsPositive step then
      if treeFoldDividesP step difference then weakZero numiter (difference.abs.sdiv step).toInt else .noDependence
    else .noDependence
  else
    if chrecIsPositive step = false then
      if treeFoldDividesP step difference then weakZero numiter (difference.sdiv step).toInt else .noDependence
    else .noDependence

end Code

/-! ## What is right -/

section Right

/-- The iterations that a bound allows, which counts the executions of the body, or of the latch if it is inclusive.
Source: `tree-data-ref.c` `estimated_loop_iterations` (comment) -/
def Within (inclusive : Bool) (numiter k : ℤ) : Prop := 0 ≤ k ∧ k < numiter + inclusive.toNat

/-- The iteration `k` of `{init, +, step}` meets the constant. Source: `tree-data-ref.c` `analyze_siv_subscript_cst_affine`. -/
def MeetsCst (inclusive : Bool) (numiter chrecA init step k : ℤ) : Prop := Within inclusive numiter k ∧ init + step * k = chrecA

/-- No dependence is reported exactly if no iteration meets the constant, and otherwise the one that does.
Source: `tree-data-ref.c` `analyze_siv_subscript_cst_affine` (comment) -/
def Overlaps.RightFor (o : Overlaps) (inclusive : Bool) (numiter chrecA init step : ℤ) : Prop :=
  (o = .noDependence ↔ ∀ k, ¬ MeetsCst inclusive numiter chrecA init step k) ∧
    ∀ k, MeetsCst inclusive numiter chrecA init step k → o = ⟨.fns [affineFnCst 0], .fns [affineFnCst k], some 1⟩

variable {inclusive : Bool} {numiter chrecA init step k : ℤ}

theorem reported_ne_noDependence (a b : ℤ) : (⟨.fns [affineFnCst a], .fns [affineFnCst b], some 1⟩ : Overlaps) ≠ .noDependence := by
  intro h
  have hlast : some (1 : ℤ) = some 0 := congrArg Overlaps.lastConflicts h
  exact absurd hlast (by decide)

theorem reported_inj {a b : ℤ} (h : (⟨.fns [affineFnCst 0], .fns [affineFnCst a], some 1⟩ : Overlaps) =
    ⟨.fns [affineFnCst 0], .fns [affineFnCst b], some 1⟩) : a = b := by
  have hB := congrArg Overlaps.overlapsB h
  simpa [affineFnCst] using hB

theorem rightFor_noDependence : Overlaps.noDependence.RightFor inclusive numiter chrecA init step ↔
    ∀ k, ¬ MeetsCst inclusive numiter chrecA init step k := by
  refine ⟨fun h => h.1.mp rfl, fun h => ⟨iff_of_true rfl h, fun k hk => absurd hk (h k)⟩⟩

theorem rightFor_reported (hstep : step ≠ 0) :
    (⟨.fns [affineFnCst 0], .fns [affineFnCst k], some 1⟩ : Overlaps).RightFor inclusive numiter chrecA init step ↔
      MeetsCst inclusive numiter chrecA init step k := by
  constructor
  · intro h
    obtain ⟨k', hk'⟩ : ∃ k', MeetsCst inclusive numiter chrecA init step k' := by
      by_contra hnone
      exact reported_ne_noDependence 0 k (h.1.mpr (not_exists.mp hnone))
    rwa [reported_inj (h.2 k' hk')]
  · intro h
    refine ⟨iff_of_false (reported_ne_noDependence 0 k) fun hnone => hnone k h, fun k' hk' => ?_⟩
    have hmul : step * k' = step * k := Int.add_left_cancel (hk'.2.trans h.2.symm)
    rw [mul_left_cancel₀ hstep hmul]

/-- **An iteration to report** that is not negative is reported right if it meets the constant in a loop without bounds and its number
is not that of the executions. Source: `tree-data-ref.c` ("weak-zero siv test"). Kind: L -/
theorem rightFor_weakZero (hstep : step ≠ 0) (hnum : 0 ≤ numiter) (hk : 0 ≤ k) (hmeet : init + step * k = chrecA) :
    (weakZero numiter k).RightFor inclusive numiter chrecA init step ↔ (inclusive = false → k ≠ numiter) := by
  have hiff (k' : ℤ) : MeetsCst inclusive numiter chrecA init step k' ↔ k' = k ∧ k < numiter + inclusive.toNat := by
    constructor
    · intro h
      obtain rfl : k' = k := mul_left_cancel₀ hstep (Int.add_left_cancel (h.2.trans hmeet.symm))
      exact ⟨rfl, h.1.2⟩
    · rintro ⟨rfl, h⟩
      exact ⟨⟨hk, h⟩, hmeet⟩
  rw [weakZero]
  by_cases hout : numiter < k
  · rw [if_pos ⟨hnum, hout⟩, rightFor_noDependence]
    refine iff_of_true (fun k' h => ?_) fun _ => hout.ne'
    have hlt := ((hiff k').mp h).2
    cases inclusive <;> simp only [Bool.toNat_false, Bool.toNat_true, Nat.cast_zero, Nat.cast_one] at hlt <;> omega
  · rw [if_neg fun h => hout h.2, rightFor_reported hstep, hiff]
    cases inclusive
    · simp only [true_and, Bool.toNat_false, Nat.cast_zero, forall_const]
      omega
    · simp only [true_and, Bool.toNat_true, Nat.cast_one, Bool.true_eq_false, false_imp_iff, iff_true]
      omega

/-- A negative iteration is always reported. Source: `tree-data-ref.c` ("weak-zero siv test"). Kind: L -/
theorem not_rightFor_weakZero (hstep : step ≠ 0) (hnum : 0 ≤ numiter) (hk : k < 0) :
    ¬ (weakZero numiter k).RightFor inclusive numiter chrecA init step := by
  rw [weakZero, if_neg (by omega), rightFor_reported hstep]
  exact fun h => absurd h.1.1 (not_le.mpr hk)

end Right

/-! ## What is answered -/

section Answer

variable {p : ℕ} {chrecA init step : BitVec p} {numiter : ℤ}

theorem chrecIsPositive_iff {chrec : BitVec p} : chrecIsPositive chrec = true ↔ 0 < chrec.toInt := by
  rw [chrecIsPositive, BitVec.slt_iff_toInt_lt, BitVec.toInt_zero]

theorem treeFoldDividesP_iff {a b : BitVec p} : treeFoldDividesP a b = true ↔ a.toInt ∣ b.toInt := by
  rw [treeFoldDividesP, decide_eq_true_iff, ← BitVec.toInt_inj, BitVec.toInt_srem, BitVec.toInt_zero, Int.dvd_iff_tmod_eq_zero]

/-- The bounds of a type with a nonzero constant. -/
theorem two_pow_eq_of_ne_zero (hstep : step ≠ 0#p) : (2 : ℤ) ^ p = 2 * 2 ^ (p - 1) := by
  have hp : p ≠ 0 := by
    rintro rfl
    exact hstep (Subsingleton.elim _ _)
  obtain ⟨q, rfl⟩ := Nat.exists_eq_add_one_of_ne_zero hp
  rw [Nat.add_sub_cancel, Int.pow_succ']

/-- **The difference** is exact, or off by the size of the type. Source: `tree-data-ref.c` (`difference`). Kind: L -/
theorem difference_cases (hstep : step ≠ 0#p) :
    (init - chrecA).toInt = init.toInt - chrecA.toInt ∨
      (2 ^ (p - 1) ≤ init.toInt - chrecA.toInt ∧ (init - chrecA).toInt < 0) ∨
      (init.toInt - chrecA.toInt < -2 ^ (p - 1) ∧ 0 < (init - chrecA).toInt) := by
  have hpow := two_pow_eq_of_ne_zero hstep
  have hinit := BitVec.le_toInt init
  have hinit' := @BitVec.toInt_lt p init
  have hA := BitVec.le_toInt chrecA
  have hA' := @BitVec.toInt_lt p chrecA
  obtain ⟨c, hc⟩ : ∃ c : ℤ, (init - chrecA).toInt = init.toInt - chrecA.toInt + 2 ^ p * c := by
    rw [BitVec.toInt_sub]
    have hdiv := Int.bmod_add_bdiv (init.toInt - chrecA.toInt) (2 ^ p)
    refine ⟨-Int.bdiv (init.toInt - chrecA.toInt) (2 ^ p), ?_⟩
    push_cast at hdiv ⊢
    rw [mul_neg]
    omega
  have hw := BitVec.le_toInt (init - chrecA)
  have hw' := @BitVec.toInt_lt p (init - chrecA)
  rw [hpow] at hc
  generalize (2 : ℤ) ^ (p - 1) = m at *
  have hpos : 0 < m := by omega
  have hlt : -2 < c := by
    by_contra hle
    have := mul_le_mul_of_nonneg_left (not_lt.mp hle) (by omega : 0 ≤ 2 * m)
    omega
  have hgt : c < 2 := by
    by_contra hle
    have := mul_le_mul_of_nonneg_left (not_lt.mp hle) (by omega : 0 ≤ 2 * m)
    omega
  obtain rfl | rfl | rfl : c = -1 ∨ c = 0 ∨ c = 1 := by omega
  · exact Or.inr (Or.inl (by omega))
  · exact Or.inl (by omega)
  · exact Or.inr (Or.inr (by omega))

/-- The signs differ, or the step does not divide. Source: `tree-data-ref.c` ("there are no overlaps"). Kind: L -/
theorem cstAffine_eq_noDependence (h : (0 < (init - chrecA).toInt ↔ 0 < step.toInt) ∨ ¬ step.toInt ∣ (init - chrecA).toInt) :
    analyzeSivSubscriptCstAffine numiter chrecA init step = .noDependence := by
  rw [← chrecIsPositive_iff, ← chrecIsPositive_iff, ← treeFoldDividesP_iff] at h
  simp only [analyzeSivSubscriptCstAffine]
  generalize treeFoldDividesP step (init - chrecA) = divides at h ⊢
  generalize chrecIsPositive (init - chrecA) = value0 at h ⊢
  generalize chrecIsPositive step = value1 at h ⊢
  revert h
  cases divides <;> cases value0 <;> cases value1 <;> simp

variable (hdvd : step.toInt ∣ (init - chrecA).toInt)

include hdvd

theorem cstAffine_eq_of_pos (hpos : 0 < step.toInt) (hle : (init - chrecA).toInt ≤ 0) :
    analyzeSivSubscriptCstAffine numiter chrecA init step = weakZero numiter ((init - chrecA).abs.sdiv step).toInt := by
  have h0 : chrecIsPositive (init - chrecA) = false := Bool.eq_false_iff.mpr fun h => absurd (chrecIsPositive_iff.mp h) (not_lt.mpr hle)
  simp only [analyzeSivSubscriptCstAffine, h0, chrecIsPositive_iff.mpr hpos, treeFoldDividesP_iff.mpr hdvd, if_true]

theorem cstAffine_eq_of_neg (hneg : step.toInt < 0) (hlt : 0 < (init - chrecA).toInt) :
    analyzeSivSubscriptCstAffine numiter chrecA init step = weakZero numiter ((init - chrecA).sdiv step).toInt := by
  have h2 : chrecIsPositive step = false := Bool.eq_false_iff.mpr fun h => absurd (chrecIsPositive_iff.mp h) (not_lt.mpr hneg.le)
  simp only [analyzeSivSubscriptCstAffine, chrecIsPositive_iff.mpr hlt, h2, treeFoldDividesP_iff.mpr hdvd, if_true,
    Bool.true_eq_false, if_false]

/-- **Positive steps** find the iteration, except for the difference that has no negative.
Source: `tree-data-ref.c` (`value1`)
Kind: L -/
theorem cstAffine_of_pos (hpos : 0 < step.toInt) (hle : (init - chrecA).toInt ≤ 0) :
    ∃ k, analyzeSivSubscriptCstAffine numiter chrecA init step = weakZero numiter k ∧
      ((init - chrecA).toInt = -2 ^ (p - 1) → k < 0) ∧
      ((init - chrecA).toInt ≠ -2 ^ (p - 1) → 0 ≤ k ∧ (init - chrecA).toInt + step.toInt * k = 0) := by
  have hp : 0 < p := by
    rcases Nat.eq_zero_or_pos p with rfl | hp
    · exact absurd hpos (by rw [BitVec.toInt_of_zero_length rfl]; exact Int.lt_irrefl 0)
    · exact hp
  have hmin : (BitVec.intMin p).toInt = -2 ^ (p - 1) := by
    rw [BitVec.toInt_intMin_of_pos hp]
  have hdiv : ((init - chrecA).abs.sdiv step).toInt = (init - chrecA).abs.toInt.tdiv step.toInt := by
    refine BitVec.toInt_sdiv_of_ne_or_ne _ _ (Or.inr fun h => absurd hpos ?_)
    rw [h, BitVec.neg_one_eq_allOnes, BitVec.toInt_allOnes, if_pos hp]
    decide
  obtain ⟨c, hc⟩ := hdvd
  refine ⟨_, cstAffine_eq_of_pos ⟨c, hc⟩ hpos hle, fun h => ?_, fun h => ?_⟩
  · rw [hdiv, BitVec.toInt_abs_eq_natAbs, if_pos (BitVec.eq_of_toInt_eq (h.trans hmin.symm)), hmin, ← h, hc, Int.mul_tdiv_cancel_left _ hpos.ne']
    have hneg : step.toInt * c < 0 := by
      rw [← hc, h]
      exact neg_neg_of_pos (Int.pow_pos (by decide))
    exact neg_of_mul_neg_right hneg hpos.le
  · have hne : init - chrecA ≠ BitVec.intMin p := fun heq => h (by rw [heq, hmin])
    rw [hdiv, BitVec.toInt_abs_eq_natAbs_of_ne_intMin hne, Int.ofNat_natAbs_of_nonpos hle, hc, ← mul_neg, Int.mul_tdiv_cancel_left _ hpos.ne']
    refine ⟨?_, by rw [mul_neg, add_neg_cancel]⟩
    rw [hc] at hle
    exact neg_nonneg.mpr (nonpos_of_mul_nonpos_right hle hpos)

/-- **Negative steps** find a negative iteration. Source: `tree-data-ref.c` (`value2`). Kind: L -/
theorem cstAffine_of_neg (hneg : step.toInt < 0) (hlt : 0 < (init - chrecA).toInt) :
    ∃ k < 0, analyzeSivSubscriptCstAffine numiter chrecA init step = weakZero numiter k := by
  refine ⟨_, ?_, cstAffine_eq_of_neg hdvd hneg hlt⟩
  have hdiv : ((init - chrecA).sdiv step).toInt = (init - chrecA).toInt.tdiv step.toInt := by
    refine BitVec.toInt_sdiv_of_ne_or_ne _ _ (Or.inl fun h => absurd hlt ?_)
    rw [h]
    exact not_lt.mpr (BitVec.toInt_intMin_le 0 |>.trans_eq BitVec.toInt_zero)
  obtain ⟨c, hc⟩ := hdvd
  rw [hdiv, hc, Int.mul_tdiv_cancel_left _ hneg.ne]
  rw [hc] at hlt
  exact neg_of_mul_pos_right hlt hneg.le

end Answer

/-! ## Where it is right -/

section Exact

variable {p : ℕ} {chrecA init step : BitVec p} {numiter : ℤ} {inclusive : Bool}

/-- The differences and counts for which the answer is right. The offset is the difference that does not wrap.
Source: `tree-data-ref.c` `analyze_siv_subscript_cst_affine` -/
def CstAffineHolds (inclusive : Bool) (numiter : ℤ) (chrecA init step : BitVec p) : Prop :=
  let offset := init.toInt - chrecA.toInt
  let difference := (init - chrecA).toInt
  if difference = offset then
    step.toInt ∣ offset →
      (0 < step.toInt → offset ≠ -2 ^ (p - 1) ∧ (inclusive = false → -offset ≠ step.toInt * numiter)) ∧
      (step.toInt < 0 → offset < 0 ∨ (offset = 0 ∧ inclusive = false ∧ numiter = 0))
  else
    ((0 < offset ↔ 0 < step.toInt) → step.toInt ∣ difference →
      0 < step.toInt ∧ difference ≠ -2 ^ (p - 1) ∧ step.toInt * numiter < -difference) ∧
    (¬ (0 < offset ↔ 0 < step.toInt) → ∀ k, Within inclusive numiter k → step.toInt * k ≠ -offset)

variable (hstep : step.toInt ≠ 0) (hnum : 0 ≤ numiter)

/-- Where nothing is reported. Source: `tree-data-ref.c` ("there are no overlaps"). Kind: L -/
theorem noDependence_right_iff (h : (0 < (init - chrecA).toInt ↔ 0 < step.toInt) ∨ ¬ step.toInt ∣ (init - chrecA).toInt) :
    (analyzeSivSubscriptCstAffine numiter chrecA init step).RightFor inclusive numiter chrecA.toInt init.toInt step.toInt ↔
      ∀ k, Within inclusive numiter k → step.toInt * k ≠ -(init.toInt - chrecA.toInt) := by
  rw [cstAffine_eq_noDependence h, rightFor_noDependence]
  refine forall_congr' fun k => ?_
  rw [MeetsCst, not_and]
  refine imp_congr_right fun _ => not_congr ?_
  omega

include hstep hnum in
/-- **A reported iteration** is right if the difference is exact, and never otherwise.
Source: `tree-data-ref.c` `analyze_siv_subscript_cst_affine` (`value1`)
Kind: L -/
theorem positive_right_iff (hdvd : step.toInt ∣ (init - chrecA).toInt) (hpos : 0 < step.toInt) (hle : (init - chrecA).toInt ≤ 0) :
    (analyzeSivSubscriptCstAffine numiter chrecA init step).RightFor inclusive numiter chrecA.toInt init.toInt step.toInt ↔
      (init - chrecA).toInt ≠ -2 ^ (p - 1) ∧
        if (init - chrecA).toInt = init.toInt - chrecA.toInt then inclusive = false → -(init - chrecA).toInt ≠ step.toInt * numiter
        else step.toInt * numiter < -(init - chrecA).toInt := by
  obtain ⟨k, hk, hmin, hne⟩ := @cstAffine_of_pos p chrecA init step numiter hdvd hpos hle
  rw [hk]
  by_cases h : (init - chrecA).toInt = -2 ^ (p - 1)
  · exact iff_of_false (not_rightFor_weakZero hstep hnum (hmin h)) fun h' => h'.1 h
  · obtain ⟨hk0, hmul⟩ := hne h
    rw [and_iff_right h]
    have hk' : -(init - chrecA).toInt = step.toInt * k := by omega
    by_cases hexact : (init - chrecA).toInt = init.toInt - chrecA.toInt
    · rw [if_pos hexact, rightFor_weakZero hstep hnum hk0 (by omega), hk']
      exact imp_congr_right fun _ => not_congr (mul_right_inj' hstep).symm
    · -- the exact difference is positive, so that the iterations leave the constant
      have hd : 0 < init.toInt - chrecA.toInt := by
        obtain h' | ⟨h', -⟩ | ⟨-, h'⟩ := @difference_cases p chrecA init step fun h => hstep (by rw [h, BitVec.toInt_zero])
        · exact absurd h' hexact
        · exact lt_of_lt_of_le (Int.pow_pos (by decide)) h'
        · omega
      have hnone (k' : ℤ) : ¬ MeetsCst inclusive numiter chrecA.toInt init.toInt step.toInt k' := by
        rintro ⟨⟨hk', -⟩, heq⟩
        have := mul_nonneg hpos.le hk'
        omega
      rw [if_neg hexact, hk', mul_lt_mul_iff_right₀ hpos, weakZero]
      by_cases hout : numiter < k
      · rw [if_pos ⟨hnum, hout⟩, rightFor_noDependence]
        exact iff_of_true hnone hout
      · rw [if_neg fun h => hout h.2, rightFor_reported hstep]
        exact iff_of_false (hnone k) hout

omit hnum in
/-- Steps away from the constant. -/
theorem mul_ne_neg_of_same_sign {s d k : ℤ} (hs : s ≠ 0) (hd : d ≠ 0) (hsame : 0 < d ↔ 0 < s) (hk : 0 ≤ k) : s * k ≠ -d := by
  intro h
  rcases lt_or_gt_of_ne hs with hneg | hpos
  · have := mul_nonpos_of_nonpos_of_nonneg hneg.le hk
    omega
  · have := mul_nonneg hpos.le hk
    omega

/-- An exact difference for which nothing is reported. Source: `tree-data-ref.c` ("there are no overlaps"). Kind: L -/
theorem exact_quiet_iff {s d m : ℤ} (hs : s ≠ 0) (hnum : 0 ≤ numiter) (hm : 0 < m) (h : (0 < d ↔ 0 < s) ∨ ¬ s ∣ d) :
    (∀ k, Within inclusive numiter k → s * k ≠ -d) ↔
      (s ∣ d → (0 < s → d ≠ -m ∧ (inclusive = false → -d ≠ s * numiter)) ∧
        (s < 0 → d < 0 ∨ (d = 0 ∧ inclusive = false ∧ numiter = 0))) := by
  by_cases hdvd : s ∣ d
  · have hsame : 0 < d ↔ 0 < s := h.resolve_right (not_not_intro hdvd)
    by_cases hd : d = 0
    · -- the first iteration meets the constant
      subst hd
      have hzero (k : ℤ) : s * k ≠ -0 ↔ k ≠ 0 := by rw [neg_zero, ne_eq, mul_eq_zero, or_iff_right hs]
      simp only [hzero, hdvd, forall_const, true_and, Int.lt_irrefl, false_or]
      constructor
      · intro hnone
        have hfirst : ¬ Within inclusive numiter 0 := fun h => hnone 0 h rfl
        rw [Within, not_and, not_lt] at hfirst
        have hle := hfirst le_rfl
        refine ⟨fun hpos => by omega, fun _ => ?_⟩
        cases inclusive
        · exact ⟨rfl, by simp only [Bool.toNat_false, Nat.cast_zero, add_zero] at hle; omega⟩
        · simp only [Bool.toNat_true, Nat.cast_one] at hle
          omega
      · rintro ⟨-, hneg⟩ k ⟨hk, hlt⟩
        obtain ⟨rfl, rfl⟩ := hneg (by omega)
        simp only [Bool.toNat_false, Nat.cast_zero, add_zero] at hlt
        omega
    · refine iff_of_true (fun k hk => mul_ne_neg_of_same_sign hs hd hsame hk.1) fun _ => ⟨fun hpos => ⟨by omega, fun _ heq => ?_⟩, fun hneg => by omega⟩
      exact mul_ne_neg_of_same_sign hs hd hsame hnum heq.symm
  · refine iff_of_true (fun k _ heq => hdvd ?_) fun hdvd' => absurd hdvd' hdvd
    exact (Int.dvd_neg).mp ⟨k, heq.symm⟩

/-- **A constant against an affine subscript**: the answer is right exactly for these differences and counts.
Source: `tree-data-ref.c` `analyze_siv_subscript_cst_affine`
Kind: P -/
theorem cstAffine_right_iff (inclusive : Bool) (chrecA init step : BitVec p) (hstep : step.toInt ≠ 0) (hnum : 0 ≤ numiter) :
    (analyzeSivSubscriptCstAffine numiter chrecA init step).RightFor inclusive numiter chrecA.toInt init.toInt step.toInt ↔
      CstAffineHolds inclusive numiter chrecA init step := by
  have hcases := @difference_cases p chrecA init step fun h => hstep (by rw [h, BitVec.toInt_zero])
  have hbound := BitVec.le_toInt (init - chrecA)
  have hpow : (0 : ℤ) < 2 ^ (p - 1) := Int.pow_pos (by decide)
  obtain ⟨d, hd⟩ : ∃ d, d = init.toInt - chrecA.toInt := ⟨_, rfl⟩
  by_cases hquiet : (0 < (init - chrecA).toInt ↔ 0 < step.toInt) ∨ ¬ step.toInt ∣ (init - chrecA).toInt
  · rw [noDependence_right_iff hquiet, CstAffineHolds, ← hd]
    split_ifs with hexact
    · rw [hexact] at hquiet
      exact exact_quiet_iff hstep hnum hpow hquiet
    · constructor
      · exact fun h => ⟨fun hsame hdvd => by omega, fun _ => h⟩
      · rintro h k hk
        by_cases hsame : 0 < d ↔ 0 < step.toInt
        · exact mul_ne_neg_of_same_sign hstep (by omega) hsame hk.1
        · exact h.2 hsame k hk
  · obtain ⟨hsign, hdvd⟩ := not_or.mp hquiet
    rw [not_not] at hdvd
    rcases lt_or_gt_of_ne hstep with hneg | hpos
    · obtain ⟨k, hk, hanswer⟩ := @cstAffine_of_neg p chrecA init step numiter hdvd hneg (by omega)
      rw [hanswer, CstAffineHolds, ← hd]
      refine iff_of_false (not_rightFor_weakZero hstep hnum hk) fun h => ?_
      split_ifs at h with hexact
      · have := (h (hexact ▸ hdvd)).2 hneg
        omega
      · have := (h.1 (by omega) hdvd).1
        omega
    · rw [positive_right_iff hstep hnum hdvd hpos (by omega), CstAffineHolds, ← hd]
      split_ifs with hexact
      · rw [hexact]
        refine ⟨fun h _ => ⟨fun _ => h, fun hneg => ?_⟩, fun h => (h (hexact ▸ hdvd)).1 hpos⟩
        omega
      · refine ⟨fun h => ⟨fun _ _ => ⟨hpos, h⟩, fun hne => ?_⟩, fun h => (h.1 ?_ hdvd).2⟩
        all_goals omega

/-- The first example of the source. Source: `tree-data-ref.c` (`chrec_a = 12`, `chrec_b = {10, +, 1}`). Kind: C -/
theorem cstAffine_right_iff_example :
    (analyzeSivSubscriptCstAffine 100 12#32 10#32 1#32).RightFor false 100 (12#32).toInt (10#32).toInt (1#32).toInt ↔
      CstAffineHolds false 100 12#32 10#32 1#32 :=
  cstAffine_right_iff false 12#32 10#32 1#32 (by decide) (by decide)

/-- **Negative steps**: the iteration 0 of `{10, +, -1}` meets 10, which is not reported, and the iteration 7 meets 3, for which -7 is
reported. Source: `tree-data-ref.c` `analyze_siv_subscript_cst_affine` (`chrec_a = 3`, `chrec_b = {10, +, -1}`). Kind: C -/
theorem cstAffine_counterexample :
    (¬ ∀ (inclusive : Bool) (numiter : ℤ) (chrecA init step : BitVec 32), step.toInt ≠ 0 → 0 ≤ numiter →
      (analyzeSivSubscriptCstAffine numiter chrecA init step).RightFor inclusive numiter chrecA.toInt init.toInt step.toInt) ∧
    analyzeSivSubscriptCstAffine 100 10#32 10#32 (-1#32) = .noDependence ∧
    analyzeSivSubscriptCstAffine 100 3#32 10#32 (-1#32) = ⟨.fns [affineFnCst 0], .fns [affineFnCst (-7)], some 1⟩ := by
  refine ⟨fun h => ?_, by decide, by decide⟩
  have hten := (h false 100 10#32 10#32 (-1#32) (by decide) (by decide)).2 0 ⟨⟨le_rfl, by decide⟩, by decide⟩
  exact absurd hten (by decide)

end Exact

end GccCore.Gcc.DataRef
