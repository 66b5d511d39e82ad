import GccCore.Gcc.FoldConst.Division

/-!
# `gcc/fold-const.c`: the roundings of `div_and_round_double`

The integers that the two-word operands stand for, signed or unsigned by `uns`, and the quotient
that each code prescribes for them.

* **The truncated quotient** (`truncQuo_modEq`): sign and magnitude put together again.
* **The roundings** (`divAndRoundDouble_spec`): quotient and remainder of the truncating, flooring
  and ceiling codes, and the overflow flag.
-/

namespace GccCore.Gcc.FoldConst

variable {h : ℕ}

/-- The quotient a code prescribes for `N / D`: rounded to zero, down, up, or to the nearest integer
with halves away from zero.
Source: `fold-const.c` `div_and_round_double`, the comments of the `switch` -/
def DivCode.quotient : DivCode → ℤ → ℤ → ℤ
  | .TRUNC_DIV_EXPR, N, D | .TRUNC_MOD_EXPR, N, D | .EXACT_DIV_EXPR, N, D => N.tdiv D
  | .FLOOR_DIV_EXPR, N, D | .FLOOR_MOD_EXPR, N, D => N.fdiv D
  | .CEIL_DIV_EXPR, N, D | .CEIL_MOD_EXPR, N, D => -(-N).fdiv D
  | .ROUND_DIV_EXPR, N, D | .ROUND_MOD_EXPR, N, D =>
    (N * D).sign * ((2 * N.natAbs + D.natAbs) / (2 * D.natAbs) : ℕ)

/-! ## The truncated quotient -/

/-- Truncated division by sign and magnitude. -/
theorem tdiv_eq_sign_magnitude (N D : ℤ) :
    N.tdiv D = if decide (N < 0) != decide (D < 0) then -((N.natAbs / D.natAbs : ℕ) : ℤ)
      else ((N.natAbs / D.natAbs : ℕ) : ℤ) := by
  have hpos : ∀ a b : ℕ, (a : ℤ).tdiv b = ((a / b : ℕ) : ℤ) := fun a b => rfl
  generalize hn : N.natAbs = n
  generalize hd : D.natAbs = d
  rcases lt_or_ge N 0 with hN | hN <;> rcases lt_or_ge D 0 with hD | hD
  · obtain rfl : N = -(n : ℤ) := by omega
    obtain rfl : D = -(d : ℤ) := by omega
    simp only [hN, hD, Int.neg_tdiv, Int.tdiv_neg, neg_neg, hpos]
    rfl
  · obtain rfl : N = -(n : ℤ) := by omega
    obtain rfl : D = (d : ℤ) := by omega
    simp only [hN, not_lt.mpr hD, Int.neg_tdiv, hpos]
    rfl
  · obtain rfl : N = (n : ℤ) := by omega
    obtain rfl : D = -(d : ℤ) := by omega
    simp only [hD, not_lt.mpr hN, Int.tdiv_neg, hpos]
    rfl
  · obtain rfl : N = (n : ℤ) := by omega
    obtain rfl : D = (d : ℤ) := by omega
    simp only [not_lt.mpr hN, not_lt.mpr hD, hpos]
    rfl

/-- Rounding down takes one off a truncated quotient that is negative and not exact. -/
theorem fdiv_eq_adjust (N D : ℤ) (hD : D ≠ 0) :
    N.fdiv D = N.tdiv D -
      if (decide (N < 0) != decide (D < 0)) = true ∧ ¬ D ∣ N then 1 else 0 := by
  rw [Int.fdiv_eq_tdiv]
  rcases lt_or_gt_of_ne hD with hneg | hpos
  · have hs : D.sign = -1 := Int.sign_eq_neg_one_of_neg hneg
    by_cases hdvd : D ∣ N
    · simp [hdvd]
    · rcases lt_or_ge N 0 with hN | hN
      · simp [hdvd, hN, hN.not_ge, hneg, hneg.not_ge, hs]
      · simp [hdvd, hN, hN.not_gt, hneg, hneg.not_ge]
  · have hs : D.sign = 1 := Int.sign_eq_one_of_pos hpos
    by_cases hdvd : D ∣ N
    · simp [hdvd]
    · rcases lt_or_ge N 0 with hN | hN
      · simp [hdvd, hN, hN.not_ge, hpos.le, hpos.not_gt, hs]
      · simp [hdvd, hN, hN.not_gt, hpos.le, hpos.not_gt]

/-- Rounding up adds one to a truncated quotient that is positive and not exact. -/
theorem ceil_eq_adjust (N D : ℤ) (hD : D ≠ 0) :
    -(-N).fdiv D = N.tdiv D +
      if (decide (N < 0) != decide (D < 0)) = false ∧ ¬ D ∣ N then 1 else 0 := by
  rw [fdiv_eq_adjust (-N) D hD, Int.neg_tdiv]
  by_cases hdvd : D ∣ N
  · simp [hdvd]
  · have hN0 : N ≠ 0 := fun h0 => hdvd (h0 ▸ dvd_zero D)
    rcases lt_or_gt_of_ne hN0 with hN | hN <;> rcases lt_or_gt_of_ne hD with hD' | hD' <;>
      simp [hdvd, hN, hN.not_gt, hD', hD'.not_gt] <;> omega

/-- Every rounding leaves a remainder smaller than the divisor. -/
theorem DivCode.natAbs_rem_lt {code : DivCode} (hcode : code ≠ .ROUND_DIV_EXPR ∧
    code ≠ .ROUND_MOD_EXPR) (N D : ℤ) (hD : D ≠ 0) :
    (N - code.quotient N D * D).natAbs < D.natAbs := by
  have hfmod : ∀ N : ℤ, (N.fmod D).natAbs < D.natAbs := by
    intro N
    rcases lt_or_gt_of_ne hD with hneg | hpos
    · have h1 := Int.fmod_nonneg_of_pos (-N) (neg_pos.mpr hneg)
      have h2 := Int.fmod_lt_of_pos (-N) (neg_pos.mpr hneg)
      rw [Int.neg_fmod_neg] at h1 h2
      omega
    · have h1 := Int.fmod_nonneg_of_pos N hpos
      have h2 := Int.fmod_lt_of_pos N hpos
      omega
  have htmod : N - N.tdiv D * D = N.tmod D := by rw [Int.tmod_def, mul_comm]
  have hfloor : N - N.fdiv D * D = N.fmod D := by rw [Int.fmod_def, mul_comm]
  have hceil : N - -(-N).fdiv D * D = -(-N).fmod D := by rw [Int.fmod_def]; ring
  have htrunc : (N.tmod D).natAbs < D.natAbs := by
    rw [Int.natAbs_tmod]
    exact Nat.mod_lt _ (Int.natAbs_pos.mpr hD)
  cases code with
  | TRUNC_DIV_EXPR | TRUNC_MOD_EXPR | EXACT_DIV_EXPR =>
    rw [DivCode.quotient, htmod]
    exact htrunc
  | FLOOR_DIV_EXPR | FLOOR_MOD_EXPR =>
    rw [DivCode.quotient, hfloor]
    exact hfmod N
  | CEIL_DIV_EXPR | CEIL_MOD_EXPR =>
    rw [DivCode.quotient, hceil, Int.natAbs_neg]
    exact hfmod (-N)
  | ROUND_DIV_EXPR => exact absurd rfl hcode.1
  | ROUND_MOD_EXPR => exact absurd rfl hcode.2

/-! ## The pieces of the code -/

/-- The test that makes an operand negative is a test of the integer.
Source: `fold-const.c` `div_and_round_double` (`if (!uns)`, `hnum < 0`)
Kind: L -/
theorem isNeg_eq (uns : Bool) (x : DoubleWord h) :
    (!uns && x.high.msb) = decide (x.value uns < 0) := by
  cases uns with
  | true => simp [DoubleWord.value]
  | false =>
    have := x.msb_iff_toInt_neg
    simp only [DoubleWord.value, Bool.not_false, Bool.true_and, Bool.false_eq_true, if_false]
    by_cases hneg : x.toInt < 0
    · rw [this.mpr hneg, decide_eq_true hneg]
    · rw [decide_eq_false hneg, Bool.eq_false_iff]
      exact fun hc => hneg (this.mp hc)

/-- The quotient's sign. Source: `fold-const.c` `div_and_round_double` (`quo_neg`). Kind: L -/
theorem quoNeg_eq (uns : Bool) (num den : DoubleWord h) :
    quoNeg uns num den =
      (decide (num.value uns < 0) != decide (den.value uns < 0)) := by
  rw [quoNeg, isNeg_eq, isNeg_eq]

section Pieces

variable (hh : 0 < h)

include hh

/-- The remainder the code stores, modulo the width.
Source: `fold-const.c` `div_and_round_double` ("rem = num - (quo * den)")
Kind: L -/
theorem remOf_modEq (uns : Bool) (num quo den : DoubleWord h) {q : ℤ}
    (hq : (quo.toNat : ℤ) ≡ q [ZMOD 2 ^ (4 * h)]) :
    ((remOf num quo den).toNat : ℤ) ≡ num.value uns - q * den.value uns [ZMOD 2 ^ (4 * h)] := by
  have hmul : ((mulDouble quo den).1.toNat : ℤ) ≡ q * den.value uns [ZMOD 2 ^ (4 * h)] :=
    (mulDoubleWithSign_modEq hh quo den false).trans (hq.mul (den.value_modEq uns))
  have hneg : ((negDouble (mulDouble quo den).1).1.toNat : ℤ) ≡ -(q * den.value uns)
      [ZMOD 2 ^ (4 * h)] := (negDouble_modEq _).trans hmul.neg
  have hadd := (addDoubleWithSign_modEq hh num (negDouble (mulDouble quo den).1).1 false).trans
    ((num.value_modEq uns).add hneg)
  rwa [← sub_eq_add_neg] at hadd

/-- **The quotient before rounding** is the truncated one.
Source: `fold-const.c` `div_and_round_double` (`finish_up`)
Kind: L -/
theorem truncQuo_modEq (uns : Bool) (num den : DoubleWord h) (hden : den.value uns ≠ 0) :
    ((truncQuo uns num den).toNat : ℤ) ≡ (num.value uns).tdiv (den.value uns)
      [ZMOD 2 ^ (4 * h)] := by
  have hquo : (absQuo (absOperand uns num) (absOperand uns den)).toNat =
      (num.value uns).natAbs / (den.value uns).natAbs := by
    have hn : (absOperand uns num).toNat = _ := absDouble_toNat hh num uns
    have hd : (absOperand uns den).toNat = _ := absDouble_toNat hh den uns
    rw [absQuo_toNat hh _ _ (by rw [hd]; exact Int.natAbs_ne_zero.mpr hden), hn, hd]
  rw [tdiv_eq_sign_magnitude, ← quoNeg_eq, ← hquo, truncQuo]
  split_ifs
  · exact negDouble_modEq _
  · rfl

omit hh in
/-- The trial remainder is zero exactly when the division is.
Source: `fold-const.c` `div_and_round_double` (`*lrem != 0 || *hrem != 0`)
Kind: L -/
theorem rem_ne_zero_iff (rem : DoubleWord h) {N D : ℤ} (hD : D ≠ 0)
    (hDlt : D.natAbs ≤ 2 ^ (4 * h))
    (hrem : (rem.toNat : ℤ) ≡ N - N.tdiv D * D [ZMOD 2 ^ (4 * h)]) :
    (rem.low ≠ 0 ∨ rem.high ≠ 0) ↔ ¬ D ∣ N := by
  have hzero : (rem.low = 0 ∧ rem.high = 0) ↔ rem.toNat = 0 := by
    constructor
    · rintro ⟨h1, h2⟩
      simp [DoubleWord.toNat, h1, h2]
    · intro h0
      have : rem = ⟨0, 0⟩ := DoubleWord.ext_toNat (by rw [h0]; simp [DoubleWord.toNat])
      simp [this]
  have htmod : N - N.tdiv D * D = N.tmod D := by rw [Int.tmod_def, mul_comm]
  rw [htmod] at hrem
  have hlt : (N.tmod D).natAbs < 2 ^ (4 * h) := by
    rw [Int.natAbs_tmod]
    exact lt_of_lt_of_le (Nat.mod_lt _ (Int.natAbs_pos.mpr hD)) hDlt
  rw [← not_and_or, hzero, not_iff_not, Int.dvd_iff_tmod_eq_zero]
  constructor
  · intro h0
    rw [h0] at hrem
    have hdvd : (2 : ℤ) ^ (4 * h) ∣ N.tmod D := Int.modEq_zero_iff_dvd.mp hrem.symm
    refine Int.natAbs_eq_zero.mp (Nat.eq_zero_of_dvd_of_lt ?_ hlt)
    have := Int.natAbs_dvd_natAbs.mpr hdvd
    rwa [Int.natAbs_pow] at this
  · intro h0
    rw [h0] at hrem
    have hdvd : (2 : ℤ) ^ (4 * h) ∣ rem.toNat := Int.modEq_zero_iff_dvd.mp hrem
    exact Nat.eq_zero_of_dvd_of_lt (by exact_mod_cast hdvd) rem.toNat_lt

/-- The flag of `neg_double` marks the minimum.
Source: `fold-const.c` `neg_double`
Kind: L -/
theorem negDouble_overflow_iff (x : DoubleWord h) (hmsb : x.high.msb = true) :
    (negDouble x).2 = true ↔ x.toInt = -2 ^ (4 * h - 1) := by
  have hlow := x.low.isLt
  have hhigh := x.high.isLt
  have hW : 2 ^ (2 * h) = 2 * 2 ^ (2 * h - 1) := by
    rw [← pow_succ', show 2 * h - 1 + 1 = 2 * h by omega]
  have hM : (2 : ℤ) ^ (4 * h) = 2 * 2 ^ (4 * h - 1) := by exact_mod_cast two_pow_width hh
  have hH : (2 : ℤ) ^ (4 * h - 1) = 2 ^ (2 * h - 1) * 2 ^ (2 * h) := by
    rw [← pow_add]
    congr 1
    omega
  have hT : 2 ^ (2 * h - 1) ≤ x.high.toNat := by
    rwa [BitVec.msb_eq_decide, decide_eq_true_iff] at hmsb
  have htoInt : x.toInt = -2 ^ (4 * h - 1) ↔
      x.low.toNat + x.high.toNat * 2 ^ (2 * h) = 2 ^ (2 * h - 1) * 2 ^ (2 * h) := by
    rw [DoubleWord.toInt, if_pos hmsb, hM, hH, DoubleWord.toNat]
    zify
    constructor <;> intro heq <;> linarith
  rw [htoInt]
  unfold negDouble
  by_cases hl : x.low = 0
  · have hl0 : x.low.toNat = 0 := by rw [hl]; exact BitVec.toNat_zero
    rw [if_pos hl, BitVec.msb_and, hmsb, Bool.and_true, BitVec.msb_eq_decide, decide_eq_true_iff,
      BitVec.toNat_neg, Nat.mod_eq_of_lt (by omega), hl0, zero_add]
    constructor
    · intro hle
      rw [show x.high.toNat = 2 ^ (2 * h - 1) by omega]
    · intro heq
      have := Nat.eq_of_mul_eq_mul_right (by positivity) heq
      omega
  · have hl0 : 0 < x.low.toNat := Nat.pos_of_ne_zero fun h0 => hl (BitVec.eq_of_toNat_eq (by
      rw [h0]
      exact BitVec.toNat_zero.symm))
    rw [if_neg hl]
    simp only [Bool.false_eq_true, false_iff]
    intro heq
    have := congrArg (· % 2 ^ (2 * h)) heq
    simp only [Nat.add_mul_mod_self_right, Nat.mul_mod_left, Nat.mod_eq_of_lt hlow] at this
    omega

/-- All ones in both pieces is minus one.
Source: `fold-const.c` `div_and_round_double` (`((HOST_WIDE_INT) lden & hden) == -1`)
Kind: L -/
theorem and_eq_neg_one_iff (x : DoubleWord h) :
    x.low &&& x.high = -1 ↔ x.toInt = -1 := by
  have hlow := x.low.isLt
  have hhigh := x.high.isLt
  have hW : 0 < 2 ^ (2 * h) := by positivity
  have hM : 2 ^ (4 * h) = 2 ^ (2 * h) * 2 ^ (2 * h) := by rw [← pow_add]; congr 1; omega
  have hones : ∀ y : Word h, y = BitVec.allOnes (2 * h) ↔ y.toNat = 2 ^ (2 * h) - 1 := by
    intro y
    rw [← BitVec.toNat_inj, BitVec.toNat_allOnes]
  have hneg : (-1 : Word h) = BitVec.allOnes (2 * h) := BitVec.neg_one_eq_allOnes
  rw [hneg, BitVec.and_eq_allOnes_iff, hones, hones]
  constructor
  · rintro ⟨h1, h2⟩
    refine DoubleWord.toInt_eq_of_modEq hh x (Int.modEq_iff_dvd.mpr ⟨-1, ?_⟩) ?_ ?_
    · have : x.toNat + 1 = 2 ^ (4 * h) := by
        rw [DoubleWord.toNat, h1, h2, hM, Nat.sub_mul, one_mul]
        have := Nat.le_mul_self (2 ^ (2 * h))
        omega
      have hcast : (x.toNat : ℤ) + 1 = 2 ^ (4 * h) := by exact_mod_cast this
      omega
    · have : (1 : ℤ) ≤ 2 ^ (4 * h - 1) := one_le_pow₀ (by norm_num)
      omega
    · have : (0 : ℤ) < 2 ^ (4 * h - 1) := by positivity
      omega
  · intro heq
    have hmod := x.value_modEq false
    rw [DoubleWord.value, if_neg (by decide), heq] at hmod
    obtain ⟨k, hk⟩ := Int.modEq_iff_dvd.mp hmod
    have hlt := x.toNat_lt
    have hsum : x.toNat + 1 = 2 ^ (4 * h) := by
      have hmsb := x.msb_iff_toInt_neg.mpr (by rw [heq]; decide)
      rw [DoubleWord.toInt, if_pos hmsb] at heq
      have : (x.toNat : ℤ) + 1 = 2 ^ (4 * h) := by omega
      exact_mod_cast this
    rw [DoubleWord.toNat, hM] at hsum
    have hh1 : x.high.toNat = 2 ^ (2 * h) - 1 := by
      by_contra hne
      have : (x.high.toNat + 2) * 2 ^ (2 * h) ≤ 2 ^ (2 * h) * 2 ^ (2 * h) :=
        Nat.mul_le_mul_right _ (by omega)
      rw [add_mul] at this
      omega
    refine ⟨?_, hh1⟩
    have hmul : (2 ^ (2 * h) - 1 + 1) * 2 ^ (2 * h) = 2 ^ (2 * h) * 2 ^ (2 * h) := by
      rw [Nat.sub_add_cancel hW]
    rw [hh1] at hsum
    rw [add_mul] at hmul
    omega

/-- The addend of a step down. Source: `fold-const.c` `div_and_round_double` ("quo = quo - 1"). Kind: L -/
theorem minusOne_modEq : (((⟨-1, -1⟩ : DoubleWord h).toNat : ℕ) : ℤ) ≡ -1 [ZMOD 2 ^ (4 * h)] := by
  have hval := (and_eq_neg_one_iff hh ⟨-1, -1⟩).mp (BitVec.and_self)
  have hmod := (⟨-1, -1⟩ : DoubleWord h).value_modEq false
  rwa [DoubleWord.value, if_neg (by decide), hval] at hmod

/-- The addend of a step up. Source: `fold-const.c` `div_and_round_double` ("quo = quo + 1"). Kind: L -/
theorem plusOne_modEq : (((⟨1, 0⟩ : DoubleWord h).toNat : ℕ) : ℤ) ≡ 1 [ZMOD 2 ^ (4 * h)] := by
  have h1 := one_toNat hh
  have h0 : (0 : Word h).toNat = 0 := BitVec.toNat_zero
  rw [DoubleWord.toNat, h1, h0, zero_mul, add_zero, Nat.cast_one]

omit hh in
/-- A divisor that is not zero has a piece that is not. Source: `fold-const.c` `div_and_round_double`
(`if (hden == 0 && lden == 0)`). Kind: L -/
theorem pieces_ne_zero {uns : Bool} {den : DoubleWord h} (hden : den.value uns ≠ 0) :
    ¬ (den.high = 0 ∧ den.low = 0) := by
  rintro ⟨h1, h2⟩
  apply hden
  cases uns <;> simp [DoubleWord.value, DoubleWord.toInt, DoubleWord.toNat, h1, h2]

/-- A step from the truncated quotient. Source: `fold-const.c` `div_and_round_double` (`add_double (*lquo, *hquo, ...)`).
Kind: L -/
theorem truncQuo_add_modEq (uns : Bool) (num den : DoubleWord h) (hden : den.value uns ≠ 0) {y : DoubleWord h} {z : ℤ}
    (hz : (y.toNat : ℤ) ≡ z [ZMOD 2 ^ (4 * h)]) :
    ((addDouble (truncQuo uns num den) y).1.toNat : ℤ) ≡ (num.value uns).tdiv (den.value uns) + z
      [ZMOD 2 ^ (4 * h)] :=
  (addDoubleWithSign_modEq hh _ y false).trans ((truncQuo_modEq hh uns num den hden).add hz)

end Pieces

/-! ## The roundings -/

section Roundings

variable (hh : 0 < h) (uns : Bool) (num den : DoubleWord h)

include hh

/-- A divisor's magnitude fits the width, with a bit to spare if it is signed. -/
theorem DoubleWord.natAbs_value_le (x : DoubleWord h) :
    (x.value uns).natAbs ≤ if uns then 2 ^ (4 * h) else 2 ^ (4 * h - 1) := by
  cases uns with
  | true =>
    have := x.toNat_lt
    simp only [DoubleWord.value, if_true, Int.natAbs_natCast]
    omega
  | false =>
    obtain ⟨h1, h2⟩ := x.toInt_bounds hh
    have hcast : ((2 ^ (4 * h - 1) : ℕ) : ℤ) = 2 ^ (4 * h - 1) := by push_cast; rfl
    simp only [DoubleWord.value, Bool.false_eq_true, if_false]
    omega

/-- What a quotient stored modulo the width makes of the result.
Source: `fold-const.c` `div_and_round_double`
Kind: L -/
theorem result_of_modEq {code : DivCode}
    (hcode : code ≠ .ROUND_DIV_EXPR ∧ code ≠ .ROUND_MOD_EXPR) (hden : den.value uns ≠ 0)
    {quo : DoubleWord h}
    (hquo : (quo.toNat : ℤ) ≡ code.quotient (num.value uns) (den.value uns)
      [ZMOD 2 ^ (4 * h)]) :
    (quo.toNat : ℤ) = code.quotient (num.value uns) (den.value uns) % 2 ^ (4 * h) ∧
      ((remOf num quo den).toNat : ℤ) = (num.value uns - code.quotient (num.value uns)
        (den.value uns) * den.value uns) % 2 ^ (4 * h) ∧
      ((uns = true → code ≠ .CEIL_DIV_EXPR ∧ code ≠ .CEIL_MOD_EXPR) →
        (remOf num quo den).value uns = num.value uns -
          code.quotient (num.value uns) (den.value uns) * den.value uns) := by
  have hself : ∀ x : DoubleWord h, (x.toNat : ℤ) % 2 ^ (4 * h) = x.toNat := by
    intro x
    have := x.toNat_lt
    exact Int.emod_eq_of_lt (by omega) (by exact_mod_cast this)
  have hrem := remOf_modEq hh uns num quo den hquo
  have hlt := DivCode.natAbs_rem_lt hcode (num.value uns) (den.value uns) hden
  have hrem' : ((remOf num quo den).toNat : ℤ) = (num.value uns - code.quotient (num.value uns)
      (den.value uns) * den.value uns) % 2 ^ (4 * h) := by rw [← hself]; exact hrem
  refine ⟨?_, hrem', fun hceil => ?_⟩
  · rw [← hself quo]
    exact hquo
  · have hdle := den.natAbs_value_le hh uns
    cases uns with
    | false =>
      have hcast : ((2 ^ (4 * h - 1) : ℕ) : ℤ) = 2 ^ (4 * h - 1) := by push_cast; rfl
      simp only [Bool.false_eq_true, if_false] at hdle
      rw [DoubleWord.value, if_neg (by decide)]
      exact DoubleWord.toInt_eq_of_modEq hh _ hrem (by omega) (by omega)
    | true =>
      have hN : 0 ≤ num.value true := Int.natCast_nonneg _
      have hD : 0 ≤ den.value true := Int.natCast_nonneg _
      -- unsigned, the codes that round down or to zero leave a nonnegative remainder
      have hnonneg : 0 ≤ num.value true -
          code.quotient (num.value true) (den.value true) * den.value true := by
        obtain ⟨hc1, hc2⟩ := hceil rfl
        have htrunc : num.value true - (num.value true).tdiv (den.value true) * den.value true =
            (num.value true).tmod (den.value true) := by rw [Int.tmod_def, mul_comm]
        have hfloor : (num.value true).fdiv (den.value true) =
            (num.value true).tdiv (den.value true) := Int.fdiv_eq_tdiv_of_nonneg hN hD
        have htmod := Int.tmod_nonneg (den.value true) hN
        cases code with
        | TRUNC_DIV_EXPR | TRUNC_MOD_EXPR | EXACT_DIV_EXPR =>
          rw [DivCode.quotient, htrunc]
          exact htmod
        | FLOOR_DIV_EXPR | FLOOR_MOD_EXPR =>
          rw [DivCode.quotient, hfloor, htrunc]
          exact htmod
        | CEIL_DIV_EXPR => exact absurd rfl hc1
        | CEIL_MOD_EXPR => exact absurd rfl hc2
        | ROUND_DIV_EXPR => exact absurd rfl hcode.1
        | ROUND_MOD_EXPR => exact absurd rfl hcode.2
      have hcast : ((2 ^ (4 * h) : ℕ) : ℤ) = 2 ^ (4 * h) := by push_cast; rfl
      simp only [if_true] at hdle
      calc (remOf num quo den).value true = ((remOf num quo den).toNat : ℤ) := rfl
        _ = _ := hrem'
        _ = _ := Int.emod_eq_of_lt hnonneg (by omega)

/-- The flag, for a nonzero divisor.
Source: `fold-const.c` ("(minimum integer) / (-1) is the only overflow case")
Kind: L -/
theorem overflow_iff :
    ((!uns && num.high.msb) && (negDouble num).2 && decide (den.low &&& den.high = -1)) = true ↔
      uns = false ∧ num.value uns = -2 ^ (4 * h - 1) ∧ den.value uns = -1 := by
  have hpow : (0 : ℤ) < 2 ^ (4 * h - 1) := by positivity
  cases uns with
  | true => simp
  | false =>
    simp only [Bool.not_false, Bool.true_and, Bool.and_eq_true, decide_eq_true_iff,
      and_eq_neg_one_iff hh, DoubleWord.value, Bool.false_eq_true, if_false, true_and]
    constructor
    · rintro ⟨⟨hmsb, hflag⟩, hd⟩
      exact ⟨(negDouble_overflow_iff hh num hmsb).mp hflag, hd⟩
    · rintro ⟨hn, hd⟩
      have hmsb := num.msb_iff_toInt_neg.mpr (by rw [hn]; omega)
      exact ⟨⟨hmsb, (negDouble_overflow_iff hh num hmsb).mpr hn⟩, hd⟩

/-- **Two-word division**: for a nonzero divisor and the truncating, flooring and ceiling codes, the
quotient stored is the one the code prescribes and the remainder what it leaves, both modulo the
width; the remainder is that very number wherever the signedness can represent it; and the flag is
set for minimum divided by minus one only.
Source: `fold-const.c` `div_and_round_double`
Kind: P -/
theorem divAndRoundDouble_spec (code : DivCode)
    (hcode : code ≠ .ROUND_DIV_EXPR ∧ code ≠ .ROUND_MOD_EXPR) (hden : den.value uns ≠ 0) :
    let N := num.value uns
    let D := den.value uns
    let q := code.quotient N D
    let (quo, rem, overflow) := divAndRoundDouble code uns num den
    (quo.toNat : ℤ) = q % 2 ^ (4 * h) ∧ (rem.toNat : ℤ) = (N - q * D) % 2 ^ (4 * h) ∧
      ((uns = true → code ≠ .CEIL_DIV_EXPR ∧ code ≠ .CEIL_MOD_EXPR) →
        rem.value uns = N - q * D) ∧
      (overflow = true ↔ uns = false ∧ N = -2 ^ (4 * h - 1) ∧ D = -1) := by
  intro N D q
  have hzero := pieces_ne_zero hden
  have htrunc := truncQuo_modEq hh uns num den hden
  have hrem := remOf_modEq hh uns num _ den htrunc
  have hDle : D.natAbs ≤ 2 ^ (4 * h) := by
    have h1 := den.natAbs_value_le hh uns
    have h2 : 2 ^ (4 * h - 1) ≤ 2 ^ (4 * h) := Nat.pow_le_pow_right (by norm_num) (by omega)
    cases uns <;> simp at h1 <;> omega
  have hexact := rem_ne_zero_iff _ hden hDle hrem
  have hsign := quoNeg_eq uns num den
  have hflag := overflow_iff hh uns num den
  -- it is enough that the quotient stored is the one prescribed
  suffices hquo : ∃ quo : DoubleWord h, (quo.toNat : ℤ) ≡ q [ZMOD 2 ^ (4 * h)] ∧
      divAndRoundDouble code uns num den = (quo, remOf num quo den, (!uns && num.high.msb) &&
        (negDouble num).2 && decide (den.low &&& den.high = -1)) by
    obtain ⟨quo, hmod, heq⟩ := hquo
    rw [heq]
    obtain ⟨h1, h2, h3⟩ := result_of_modEq hh uns num den hcode hden hmod
    exact ⟨h1, h2, h3, hflag⟩
  cases code with
  | TRUNC_DIV_EXPR | TRUNC_MOD_EXPR | EXACT_DIV_EXPR =>
    refine ⟨truncQuo uns num den, htrunc, ?_⟩
    simp only [divAndRoundDouble, if_neg hzero, decide_eq_false hzero, Bool.false_or]
  | FLOOR_DIV_EXPR | FLOOR_MOD_EXPR =>
    have hq : q = N.tdiv D - if quoNeg uns num den = true ∧ ¬ D ∣ N then 1 else 0 := by
      rw [hsign]
      exact fdiv_eq_adjust N D hden
    by_cases hadj : quoNeg uns num den = true ∧ ¬ D ∣ N
    · refine ⟨(addDouble (truncQuo uns num den) ⟨-1, -1⟩).1, ?_, ?_⟩
      · rw [hq, if_pos hadj]
        exact truncQuo_add_modEq hh uns num den hden (minusOne_modEq hh)
      · rw [← hexact] at hadj
        simp only [divAndRoundDouble, if_neg hzero, decide_eq_false hzero, Bool.false_or,
          if_pos hadj]
    · refine ⟨truncQuo uns num den, ?_, ?_⟩
      · rw [hq, if_neg hadj, sub_zero]
        exact htrunc
      · rw [← hexact] at hadj
        simp only [divAndRoundDouble, if_neg hzero, decide_eq_false hzero, Bool.false_or,
          if_neg hadj]
  | CEIL_DIV_EXPR | CEIL_MOD_EXPR =>
    have hq : q = N.tdiv D + if quoNeg uns num den = false ∧ ¬ D ∣ N then 1 else 0 := by
      rw [hsign]
      exact ceil_eq_adjust N D hden
    by_cases hadj : quoNeg uns num den = false ∧ ¬ D ∣ N
    · refine ⟨(addDouble (truncQuo uns num den) ⟨1, 0⟩).1, ?_, ?_⟩
      · rw [hq, if_pos hadj]
        exact truncQuo_add_modEq hh uns num den hden (plusOne_modEq hh)
      · rw [← hexact] at hadj
        simp only [divAndRoundDouble, if_neg hzero, decide_eq_false hzero, Bool.false_or,
          if_pos hadj]
    · refine ⟨truncQuo uns num den, ?_, ?_⟩
      · rw [hq, if_neg hadj, add_zero]
        exact htrunc
      · rw [← hexact] at hadj
        simp only [divAndRoundDouble, if_neg hzero, decide_eq_false hzero, Bool.false_or,
          if_neg hadj]
  | ROUND_DIV_EXPR => exact absurd rfl hcode.1
  | ROUND_MOD_EXPR => exact absurd rfl hcode.2

omit hh in
/-- Minus seven by two over 64-bit pieces, rounded down. -/
theorem divAndRoundDouble_minus_seven :
    let num : DoubleWord 32 := ⟨-7, -1⟩
    let den : DoubleWord 32 := ⟨2, 0⟩
    num.value false = -7 ∧ den.value false = 2 ∧
      ((divAndRoundDouble .FLOOR_DIV_EXPR false num den).1.toNat : ℤ) = -4 % 2 ^ 128 := by
  have hn : (⟨-7, -1⟩ : DoubleWord 32).value false = -7 := by decide +kernel
  have hd : (⟨2, 0⟩ : DoubleWord 32).value false = 2 := by decide +kernel
  have hspec := divAndRoundDouble_spec (h := 32) (by decide) false ⟨-7, -1⟩ ⟨2, 0⟩
    .FLOOR_DIV_EXPR (by decide) (by rw [hd]; decide)
  rw [hn, hd] at hspec
  exact ⟨hn, hd, hspec.1⟩

end Roundings

end GccCore.Gcc.FoldConst
