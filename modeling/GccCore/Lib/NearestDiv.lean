import Mathlib.Algebra.Order.Group.Unbundled.Int
import Mathlib.Data.Int.Order.Lemmas
import Mathlib.Tactic.Linarith
import Mathlib.Tactic.LinearCombination
import Mathlib.Tactic.Ring

/-!
# Division to the nearest integer

Halves are rounded away from zero.

* **The nearest integer** (`IsNearest`) to a ratio, without a division.
* **Signs** (`isNearest_iff_natAbs`): the nearest integer to a ratio is that of the magnitudes, with the sign of the ratio.
* **The truncated quotient and what to add to it** (`isNearest_iff`).
-/

namespace GccCore.Lib.NearestDiv

/-- `q` is the nearest integer to `N / D`, and if there are two, the one away from zero. -/
def IsNearest (N D q : ℤ) : Prop :=
  2 * |N - q * D| ≤ |D| ∧ (2 * |N - q * D| = |D| → |N| ≤ |q * D|)

/-- The sign of a ratio, where zero counts as positive. -/
def ratioSign (N D : ℤ) : ℤ := if (N < 0 ↔ D < 0) then 1 else -1

theorem ratioSign_mul_self (N D : ℤ) : ratioSign N D * ratioSign N D = 1 := by
  unfold ratioSign
  split_ifs <;> norm_num

theorem abs_ratioSign (N D : ℤ) : |ratioSign N D| = 1 := by
  unfold ratioSign
  split_ifs <;> norm_num

/-- The sign of a ratio by a product. -/
theorem ratioSign_eq {N D : ℤ} (hN : N ≠ 0) (hD : D ≠ 0) : ratioSign N D = if N * D < 0 then -1 else 1 := by
  unfold ratioSign
  rcases lt_or_gt_of_ne hN with hN | hN <;> rcases lt_or_gt_of_ne hD with hD | hD
  · rw [if_pos (iff_of_true hN hD), if_neg (mul_pos_of_neg_of_neg hN hD).not_gt]
  · rw [if_neg fun hc => (hc.mp hN).not_gt hD, if_pos (mul_neg_of_neg_of_pos hN hD)]
  · rw [if_neg fun hc => (hc.mpr hD).not_gt hN, if_pos (mul_neg_of_pos_of_neg hN hD)]
  · rw [if_pos (iff_of_false hN.not_gt hD.not_gt), if_neg (mul_pos hN hD).not_gt]

/-- Magnitudes of a dividend and of a divisor with a sign. -/
theorem ratioSign_mul_abs (N D : ℤ) : N * |D| = ratioSign N D * (|N| * D) := by
  unfold ratioSign
  split_ifs with hsame
  · by_cases hN : N < 0
    · rw [abs_of_neg hN, abs_of_neg (hsame.mp hN)]
      ring
    · rw [abs_of_nonneg (not_lt.mp hN), abs_of_nonneg (not_lt.mp fun hD => hN (hsame.mpr hD))]
      ring
  · by_cases hN : N < 0
    · have hD : 0 ≤ D := not_lt.mp fun hD => hsame ⟨fun _ => hD, fun _ => hN⟩
      rw [abs_of_neg hN, abs_of_nonneg hD]
      ring
    · have hD : D < 0 := by
        by_contra hD
        exact hsame ⟨fun hc => absurd hc hN, fun hc => absurd hc hD⟩
      rw [abs_of_nonneg (not_lt.mp hN), abs_of_neg hD]
      ring

/-- The truncated quotient of the magnitudes. -/
theorem abs_div_abs (N D : ℤ) : |N| / |D| = ratioSign N D * N.tdiv D := by
  have htdiv : |N| / |D| = |N|.tdiv |D| := (Int.tdiv_eq_ediv_of_nonneg (abs_nonneg N)).symm
  rw [htdiv]
  unfold ratioSign
  rcases lt_or_ge N 0 with hN | hN <;> rcases lt_or_ge D 0 with hD | hD
  · rw [abs_of_neg hN, abs_of_neg hD, if_pos (iff_of_true hN hD), Int.neg_tdiv, Int.tdiv_neg, neg_neg, one_mul]
  · rw [abs_of_neg hN, abs_of_nonneg hD, if_neg fun hc => absurd (hc.mp hN) (not_lt.mpr hD), Int.neg_tdiv, neg_one_mul]
  · rw [abs_of_nonneg hN, abs_of_neg hD, if_neg fun hc => absurd (hc.mpr hD) (not_lt.mpr hN), Int.tdiv_neg, neg_one_mul]
  · rw [abs_of_nonneg hN, abs_of_nonneg hD, if_pos (iff_of_false (not_lt.mpr hN) (not_lt.mpr hD)), one_mul]

/-- **Signs**: only the magnitudes matter, up to the sign of the quotient. -/
theorem isNearest_iff_natAbs {N D : ℤ} (hD : D ≠ 0) (q : ℤ) :
    IsNearest N D q ↔ IsNearest |N| |D| (ratioSign N D * q) := by
  have hsign := ratioSign_mul_abs N D
  have hself := ratioSign_mul_self N D
  have hone := abs_ratioSign N D
  have hpos : 0 < |D| := abs_pos.mpr hD
  have hprod : |ratioSign N D * q * (|D|)| = |q * D| := by
    rw [abs_mul, abs_mul, hone, one_mul, abs_abs, abs_mul]
  have hdiff : |(|N| - ratioSign N D * q * |D|)| = |N - q * D| := by
    have hD' : D * D = |D| * |D| := (abs_mul_abs_self D).symm
    have heq : |D| * (|N| - ratioSign N D * q * |D|) = ratioSign N D * D * (N - q * D) := by
      have h1 : |N| * |D| * |D| = ratioSign N D * N * D * |D| := by
        calc |N| * |D| * |D| = |N| * (D * D) := by rw [hD', mul_assoc]
          _ = ratioSign N D * ratioSign N D * (|N| * D) * D := by rw [hself]; ring
          _ = ratioSign N D * (N * |D|) * D := by rw [hsign]; ring
          _ = ratioSign N D * N * D * |D| := by ring
      have h2 : |N| * |D| = ratioSign N D * N * D := mul_right_cancel₀ hpos.ne' h1
      linear_combination h2 + ratioSign N D * q * hD'
    have habs := congrArg abs heq
    rw [abs_mul, abs_mul, abs_mul, abs_abs, hone, one_mul] at habs
    exact mul_left_cancel₀ hpos.ne' habs
  unfold IsNearest
  rw [hprod, hdiff, abs_abs, abs_abs]

/-- **Magnitudes**: the nearest integer by a division. -/
theorem isNearest_iff_of_nonneg {n d : ℤ} (hn : 0 ≤ n) (hd : 0 < d) (q : ℤ) :
    IsNearest n d q ↔ q = n / d + if d ≤ 2 * (n % d) then 1 else 0 := by
  have hdiv := Int.mul_ediv_add_emod n d
  have hr := Int.emod_nonneg n hd.ne'
  have hlt := Int.emod_lt_of_pos n hd
  have hk : 0 ≤ n / d := Int.ediv_nonneg hn hd.le
  generalize n / d = k at *
  generalize n % d = r at *
  unfold IsNearest
  rw [abs_of_pos hd, abs_of_nonneg hn]
  constructor
  · rintro ⟨hclose, htie⟩
    obtain ⟨hlo, hhi⟩ := abs_le.mp (show |2 * (n - q * d)| ≤ d by rwa [abs_mul, abs_two])
    -- the quotient or its successor
    have h0 : -1 < q - k := by nlinarith
    have h1 : q - k < 2 := by nlinarith
    obtain hq | hq : q = k ∨ q = k + 1 := by omega
    · subst hq
      rw [if_neg, add_zero]
      intro hhalf
      have hrest : n - q * d = r := by linarith [mul_comm d q]
      rw [hrest, abs_of_nonneg hr] at hclose htie
      have hle := htie (le_antisymm hclose hhalf)
      rw [abs_of_nonneg (mul_nonneg hk hd.le)] at hle
      linarith [mul_comm d q]
    · rw [if_pos, hq]
      subst hq
      linarith [add_mul k 1 d, mul_comm d k]
  · rintro rfl
    split_ifs with hhalf
    · have hrest : n - (k + 1) * d = -(d - r) := by linarith [add_mul k 1 d, mul_comm d k]
      rw [hrest, abs_neg, abs_of_pos (by omega)]
      refine ⟨by omega, fun _ => ?_⟩
      rw [abs_of_nonneg (mul_nonneg (by omega) hd.le)]
      linarith [add_mul k 1 d, mul_comm d k]
    · have hrest : n - (k + 0) * d = r := by linarith [mul_comm d k, add_zero k]
      rw [hrest, abs_of_nonneg hr]
      exact ⟨by omega, fun hc => by omega⟩

/-- **The truncated quotient** is the nearest one, or is off by one in the direction of the ratio's sign. -/
theorem isNearest_iff {N D : ℤ} (hD : D ≠ 0) (q : ℤ) :
    IsNearest N D q ↔ q = N.tdiv D + if |D| ≤ 2 * |N.tmod D| then ratioSign N D else 0 := by
  have hself := ratioSign_mul_self N D
  have hmod : |N| % |D| = |N.tmod D| := by
    rw [Int.abs_eq_natAbs, Int.abs_eq_natAbs, Int.abs_eq_natAbs, Int.natAbs_tmod]
    rfl
  rw [isNearest_iff_natAbs hD, isNearest_iff_of_nonneg (abs_nonneg N) (abs_pos.mpr hD), hmod, abs_div_abs]
  constructor
  · intro hq
    calc q = ratioSign N D * (ratioSign N D * q) := by rw [← mul_assoc, hself, one_mul]
      _ = _ := by
        rw [hq, mul_add, ← mul_assoc, hself, one_mul]
        split_ifs <;> ring
  · rintro rfl
    rw [mul_add]
    split_ifs
    · rw [hself]
    · rw [mul_zero]

/-- Where the truncated quotient has a sign. -/
theorem tdiv_neg_iff {N D : ℤ} (hD : D ≠ 0) : N.tdiv D < 0 ↔ ratioSign N D = -1 ∧ |D| ≤ |N| := by
  have habs := abs_div_abs N D
  have hdiv : 0 < |N| / |D| ↔ |D| ≤ |N| := by
    rw [← Int.add_one_le_iff, zero_add, Int.le_ediv_iff_mul_le (abs_pos.mpr hD), one_mul]
  have hnonneg : 0 ≤ |N| / |D| := Int.ediv_nonneg (abs_nonneg N) (abs_nonneg D)
  rw [← hdiv]
  rcases eq_or_ne (ratioSign N D) 1 with hsign | hsign
  · rw [hsign] at habs ⊢
    omega
  · have hsign' : ratioSign N D = -1 := by
      unfold ratioSign at hsign ⊢
      split_ifs at hsign ⊢
      · exact absurd rfl hsign
      · rfl
    rw [hsign'] at habs ⊢
    omega

/-- A ratio below one leaves the dividend. -/
theorem tmod_of_abs_lt {N D : ℤ} (hlt : |N| < |D|) : N.tmod D = N := by
  have habs := abs_div_abs N D
  rw [Int.ediv_eq_zero_of_lt (abs_nonneg N) hlt] at habs
  have hsign : ratioSign N D ≠ 0 := by
    unfold ratioSign
    split_ifs <;> decide
  have hzero : N.tdiv D = 0 := (mul_eq_zero.mp habs.symm).resolve_left hsign
  rw [Int.tmod_def, hzero, mul_zero, sub_zero]

end GccCore.Lib.NearestDiv
