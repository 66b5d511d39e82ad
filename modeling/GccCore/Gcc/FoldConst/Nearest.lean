import GccCore.Gcc.FoldConst.Overflow
import GccCore.Lib.NearestDiv

/-!
# `gcc/fold-const.c`: division to the nearest integer

`ROUND_DIV_EXPR` and `ROUND_MOD_EXPR` add to the truncated quotient if twice the remainder is no smaller than the divisor,
in magnitude.

* **What is added** (`roundDouble_eq`): a test on signed readings of the remainder and the divisor, and a direction that is
  the sign of the truncated quotient.
* **When that is right** (`roundDouble_exact_iff`): signed, unless a negative ratio between `-1` and `-1/2` is truncated to
  zero; unsigned, for divisors below the sign bit, and above it for the remainders whose magnitude as a signed number
  compares as the remainder does.
-/

namespace GccCore.Gcc.FoldConst

open GccCore.Lib.MachineInt GccCore.Lib.NearestDiv

variable {h : ℕ}

/-- The two codes that round to the nearest integer. Source: `fold-const.c` `div_and_round_double`. -/
def DivCode.IsRound (code : DivCode) : Prop := code = .ROUND_DIV_EXPR ∨ code = .ROUND_MOD_EXPR

/-- The call stores the quotient `q` and the remainder that goes with it.
Source: `fold-const.c` `div_and_round_double` ("round to closest integer", "Compute true remainder") -/
def RoundsTo (code : DivCode) (uns : Bool) (num den : DoubleWord h) (q : ℤ) : Prop :=
  (divAndRoundDouble code uns num den).1.value uns = q ∧
    ((divAndRoundDouble code uns num den).2.1.toNat : ℤ) = (num.value uns - q * den.value uns) % 2 ^ (4 * h) ∧
    (uns = false → (divAndRoundDouble code uns num den).2.1.value false = num.value uns - q * den.value uns)

/-- The operands for which the adjustment is right. Signed: not a ratio between `-1` and `-1/2`. Unsigned: the divisor is
below the sign bit, or the remainder is far from the half. -/
def RoundCondition (h : ℕ) (uns : Bool) (N D : ℤ) : Prop :=
  if uns then
    D < 2 ^ (4 * h - 1) ∨ 2 * (N % D) < 2 ^ (4 * h) - D ∨
      (D ≤ 2 * (N % D) ∧ 2 * (N % D) ≠ 2 ^ (4 * h) ∧ 2 * (N % D) ≤ 2 ^ (4 * h) + D)
  else ¬ (N * D < 0 ∧ |N| < |D| ∧ |D| ≤ 2 * |N|)

/-! ## The test -/

section Test

variable (hh : 0 < h)

/-- The pieces are compared from the top. Source: `fold-const.c` `div_and_round_double` (`habs_den < htwice || ...`).
Kind: L -/
theorem le_iff_pieces (a b : DoubleWord h) :
    (a.high < b.high ∨ (a.high = b.high ∧ a.low ≤ b.low)) ↔ a.toNat ≤ b.toNat := by
  have ha := a.low.isLt
  have hb := b.low.isLt
  rw [BitVec.lt_def, BitVec.le_def, ← BitVec.toNat_inj, DoubleWord.toNat, DoubleWord.toNat]
  generalize 2 ^ (2 * h) = M at *
  rcases lt_trichotomy a.high.toNat b.high.toNat with hlt | heq | hgt
  · have hmul : (a.high.toNat + 1) * M ≤ b.high.toNat * M := Nat.mul_le_mul_right M hlt
    rw [add_mul] at hmul
    omega
  · rw [heq]
    omega
  · have hmul : (b.high.toNat + 1) * M ≤ a.high.toNat * M := Nat.mul_le_mul_right M hgt
    rw [add_mul] at hmul
    omega

include hh

/-- Twice a two-word integer. Source: `fold-const.c` `div_and_round_double` (`mul_double (2, 0, ...)`). Kind: L -/
theorem twice_toNat (x : DoubleWord h) : (mulDouble ⟨2, 0⟩ x).1.toNat = 2 * x.toNat % 2 ^ (4 * h) := by
  have htwo : (⟨2, 0⟩ : DoubleWord h).toNat = 2 := by
    have hlt : 2 < 2 ^ (2 * h) := by
      calc 2 < 2 ^ 2 := by norm_num
        _ ≤ 2 ^ (2 * h) := Nat.pow_le_pow_right (by norm_num) (by omega)
    have hlow : (2 : Word h).toNat = 2 := Nat.mod_eq_of_lt hlt
    have hhigh : (0 : Word h).toNat = 0 := BitVec.toNat_zero
    rw [DoubleWord.toNat, hlow, hhigh, zero_mul, add_zero]
  have hmul := mulDoubleWithSign_toNat hh ⟨2, 0⟩ x false
  rwa [htwo] at hmul

/-- The magnitude of a signed reading. Source: `fold-const.c` `div_and_round_double` ("Get absolute values"). Kind: L -/
theorem absSigned_toNat (x : DoubleWord h) : (if x.high.msb then (negDouble x).1 else x).toNat = x.toInt.natAbs := by
  have habs := absDouble_toNat hh x false
  rwa [Bool.not_false, Bool.true_and] at habs

/-- `2 * abs (rem) >= abs (den)`, as the code tests it: both are read as signed numbers.
Source: `fold-const.c` `div_and_round_double` ("If (2 * abs (lrem) >= abs (lden)), adjust the quotient") -/
def RoundTest (uns : Bool) (num den : DoubleWord h) : Prop :=
  (absOperand uns den).toInt.natAbs ≤
    2 * (remOf num (truncQuo uns num den) den).toInt.natAbs % 2 ^ (4 * h)

/-- **What the rounding codes do**: they add to the truncated quotient, by the test, one in the direction of its sign.
Source: `fold-const.c` `div_and_round_double` (`case ROUND_DIV_EXPR:`)
Kind: L -/
theorem roundDouble_eq {code : DivCode} (hcode : code.IsRound) (uns : Bool) (num den : DoubleWord h)
    (hden : den.value uns ≠ 0) {δ : ℤ}
    (hadjust : RoundTest uns num den → δ = if (truncQuo uns num den).toInt < 0 then -1 else 1)
    (hkeep : ¬ RoundTest uns num den → δ = 0) :
    ((divAndRoundDouble code uns num den).1.toNat : ℤ) ≡ (num.value uns).tdiv (den.value uns) + δ
        [ZMOD 2 ^ (4 * h)] ∧
      (divAndRoundDouble code uns num den).2.1 = remOf num (divAndRoundDouble code uns num den).1 den := by
  have hzero := pieces_ne_zero hden
  have htest : RoundTest uns num den ↔ (absOperand uns den).toInt.natAbs ≤
      2 * (remOf num (truncQuo uns num den) den).toInt.natAbs % 2 ^ (4 * h) := Iff.rfl
  rw [← absSigned_toNat hh, ← absSigned_toNat hh, ← twice_toNat hh, ← le_iff_pieces] at htest
  have hmsb := (truncQuo uns num den).msb_iff_toInt_neg
  by_cases hcond : RoundTest uns num den
  · have hstep : ((addDouble (truncQuo uns num den) (if (truncQuo uns num den).high.msb then ⟨-1, -1⟩
        else ⟨1, 0⟩)).1.toNat : ℤ) ≡ (num.value uns).tdiv (den.value uns) + δ [ZMOD 2 ^ (4 * h)] := by
      rw [hadjust hcond]
      apply truncQuo_add_modEq hh uns num den hden
      split_ifs with h1 h2 h2
      · exact minusOne_modEq hh
      · exact absurd (hmsb.mp h1) h2
      · exact absurd (hmsb.mpr h2) h1
      · exact plusOne_modEq hh
    rcases hcode with rfl | rfl
    all_goals
      simp only [divAndRoundDouble, if_neg hzero]
      rw [if_pos (htest.mp hcond)]
      by_cases hneg : (truncQuo uns num den).high.msb = true
      · rw [if_pos hneg] at hstep ⊢
        exact ⟨hstep, rfl⟩
      · rw [if_neg hneg] at hstep ⊢
        exact ⟨hstep, rfl⟩
  · rw [hkeep hcond, add_zero]
    rcases hcode with rfl | rfl
    all_goals
      simp only [divAndRoundDouble, if_neg hzero]
      rw [if_neg fun hc => hcond (htest.mpr hc)]
      exact ⟨truncQuo_modEq hh uns num den hden, rfl⟩

/-- The magnitude of a signed reading, by the unsigned one. -/
theorem DoubleWord.natAbs_toInt (x : DoubleWord h) :
    x.toInt.natAbs = if x.toNat < 2 ^ (4 * h - 1) then x.toNat else 2 ^ (4 * h) - x.toNat := by
  have hlt := x.toNat_lt
  have hmsb := x.msb_iff hh
  have hcast : ((2 ^ (4 * h) : ℕ) : ℤ) = 2 ^ (4 * h) := by push_cast; rfl
  unfold DoubleWord.toInt
  split_ifs with h1 h2 h2
  · exact absurd (hmsb.mp h1) (not_le.mpr h2)
  · omega
  · exact Int.natAbs_natCast _
  · exact absurd (hmsb.mpr (not_lt.mp h2)) h1

end Test

/-! ## The quotient -/

section Quotient

variable (hh : 0 < h)

include hh

omit hh in
/-- A nearest quotient differs from the truncated one by one at most. -/
theorem abs_sub_tdiv_le {N D q : ℤ} (hD : D ≠ 0) (hq : IsNearest N D q) : |q - N.tdiv D| ≤ 1 := by
  rw [(isNearest_iff hD q).mp hq, add_sub_cancel_left]
  split_ifs
  · exact (abs_ratioSign N D).le
  · norm_num

/-- **The call is right** exactly if what it adds to the truncated quotient leads to the nearest one.
Source: `fold-const.c` `div_and_round_double`
Kind: L -/
theorem roundsTo_iff {code : DivCode} {uns : Bool} {num den : DoubleWord h} {q δ : ℤ}
    (hden : den.value uns ≠ 0) (hq : IsNearest (num.value uns) (den.value uns) q) (hin : inType (4 * h) uns q)
    (hquo : ((divAndRoundDouble code uns num den).1.toNat : ℤ) ≡ (num.value uns).tdiv (den.value uns) + δ
      [ZMOD 2 ^ (4 * h)])
    (hrem : (divAndRoundDouble code uns num den).2.1 = remOf num (divAndRoundDouble code uns num den).1 den)
    (hδ : |δ| ≤ 1) :
    RoundsTo code uns num den q ↔ (num.value uns).tdiv (den.value uns) + δ = q := by
  unfold RoundsTo
  rw [hrem]
  generalize (divAndRoundDouble code uns num den).1 = quo at *
  have hwidth : (16 : ℤ) ≤ 2 ^ (4 * h) := by
    calc (16 : ℤ) = 2 ^ 4 := by norm_num
      _ ≤ 2 ^ (4 * h) := pow_le_pow_right₀ (by norm_num) (by omega)
  constructor
  · rintro ⟨hval, -⟩
    have hmod := ((quo.value_modEq uns).symm.trans hquo)
    rw [hval] at hmod
    obtain ⟨k, hk⟩ := Int.modEq_iff_dvd.mp hmod
    obtain ⟨h1, h2⟩ := abs_le.mp (abs_sub_tdiv_le hden hq)
    obtain ⟨h3, h4⟩ := abs_le.mp hδ
    have hk0 : k = 0 := by
      have hlo : -1 < k := by nlinarith
      have hhi : k < 1 := by nlinarith
      omega
    rw [hk0, mul_zero] at hk
    omega
  · intro heq
    rw [heq] at hquo
    have hself : ∀ x : DoubleWord h, (x.toNat : ℤ) % 2 ^ (4 * h) = x.toNat := by
      intro x
      exact Int.emod_eq_of_lt (Int.natCast_nonneg _) (by exact_mod_cast x.toNat_lt)
    have hmod := remOf_modEq hh uns num quo den hquo
    refine ⟨DoubleWord.value_eq_of_modEq hh hquo hin, ?_, ?_⟩
    · rw [← hself]
      exact hmod
    · rintro rfl
      -- the remainder is no larger than half the divisor
      have hhalf := hq.1
      have hdle := den.natAbs_value_le hh false
      have hcast : ((2 ^ (4 * h - 1) : ℕ) : ℤ) = 2 ^ (4 * h - 1) := by push_cast; rfl
      have hpos : (0 : ℤ) < 2 ^ (4 * h - 1) := by positivity
      rw [if_neg Bool.false_ne_true] at hdle
      rw [Int.abs_eq_natAbs, Int.abs_eq_natAbs] at hhalf
      apply DoubleWord.value_eq_of_modEq hh hmod
      unfold inType
      rw [if_neg Bool.false_ne_true]
      constructor <;> omega

/-- The remainder of the truncated quotient, signed. Source: `fold-const.c` `div_and_round_double` ("Compute trial
remainder"). Kind: L -/
theorem remOf_truncQuo_signed (num den : DoubleWord h) (hden : den.value false ≠ 0) :
    (remOf num (truncQuo false num den) den).toInt = (num.value false).tmod (den.value false) := by
  have hmod := remOf_modEq hh false num _ den (truncQuo_modEq hh false num den hden)
  have htmod : num.value false - (num.value false).tdiv (den.value false) * den.value false =
      (num.value false).tmod (den.value false) := by rw [Int.tmod_def, mul_comm]
  rw [htmod] at hmod
  have hlt : ((num.value false).tmod (den.value false)).natAbs < (den.value false).natAbs := by
    rw [Int.natAbs_tmod]
    exact Nat.mod_lt _ (Int.natAbs_pos.mpr hden)
  have hdle := den.natAbs_value_le hh false
  have hcast : ((2 ^ (4 * h - 1) : ℕ) : ℤ) = 2 ^ (4 * h - 1) := by push_cast; rfl
  rw [if_neg Bool.false_ne_true] at hdle
  exact DoubleWord.toInt_eq_of_modEq hh _ hmod (by omega) (by omega)

/-- **The signed test** is exact. Source: `fold-const.c` `div_and_round_double` ("If (2 * abs (lrem) >= abs (lden))").
Kind: L -/
theorem roundTest_signed (num den : DoubleWord h) (hden : den.value false ≠ 0) :
    RoundTest false num den ↔ |den.value false| ≤ 2 * |(num.value false).tmod (den.value false)| := by
  have hdle := den.natAbs_value_le hh false
  rw [if_neg Bool.false_ne_true] at hdle
  have hwidth := two_pow_width hh
  have habs : (absOperand false den).toNat = (den.value false).natAbs := absDouble_toNat hh den false
  have hden' : (absOperand false den).toInt.natAbs = (den.value false).natAbs := by
    rw [DoubleWord.natAbs_toInt hh, habs]
    split_ifs <;> omega
  have hlt : ((num.value false).tmod (den.value false)).natAbs < (den.value false).natAbs := by
    rw [Int.natAbs_tmod]
    exact Nat.mod_lt _ (Int.natAbs_pos.mpr hden)
  unfold RoundTest
  rw [hden', remOf_truncQuo_signed hh num den hden, Nat.mod_eq_of_lt (by omega), Int.abs_eq_natAbs, Int.abs_eq_natAbs]
  omega

/-- **The unsigned test** compares the magnitudes of signed readings. Source: `fold-const.c` `div_and_round_double`
(`if (*hrem < 0)`, `if (hden < 0)`). Kind: L -/
theorem roundTest_unsigned (num den : DoubleWord h) (hden : den.value true ≠ 0) :
    RoundTest true num den ↔
      (if den.toNat < 2 ^ (4 * h - 1) then den.toNat else 2 ^ (4 * h) - den.toNat) ≤
        2 * (if num.toNat % den.toNat < 2 ^ (4 * h - 1) then num.toNat % den.toNat
          else 2 ^ (4 * h) - num.toNat % den.toNat) % 2 ^ (4 * h) := by
  have hmod := remOf_modEq hh true num _ den (truncQuo_modEq hh true num den hden)
  have hpos : 0 < den.toNat := Nat.pos_of_ne_zero fun hc => hden (by rw [DoubleWord.value, if_pos rfl, hc]; rfl)
  have htmod : num.value true - (num.value true).tdiv (den.value true) * den.value true =
      ((num.toNat % den.toNat : ℕ) : ℤ) := by
    rw [mul_comm, ← Int.tmod_def]
    rfl
  rw [htmod] at hmod
  have hrem : (remOf num (truncQuo true num den) den).toNat = num.toNat % den.toNat := by
    have hlt : num.toNat % den.toNat < 2 ^ (4 * h) := (Nat.mod_lt _ hpos).trans den.toNat_lt
    have hnat := (Int.natCast_modEq_iff (n := 2 ^ (4 * h))).mp (by exact_mod_cast hmod)
    rwa [Nat.ModEq, Nat.mod_eq_of_lt (DoubleWord.toNat_lt _), Nat.mod_eq_of_lt hlt] at hnat
  have habs : absOperand true den = den := rfl
  unfold RoundTest
  rw [habs, DoubleWord.natAbs_toInt hh, DoubleWord.natAbs_toInt hh, hrem]

/-- The truncated quotient by a divisor of magnitude two or more has room for the sign.
Source: `fold-const.c` `div_and_round_double` (`if (*hquo < 0)`)
Kind: L -/
theorem truncQuo_toInt (uns : Bool) (num den : DoubleWord h) (hden : 2 ≤ |den.value uns|) :
    (truncQuo uns num den).toInt = (num.value uns).tdiv (den.value uns) := by
  rw [Int.abs_eq_natAbs] at hden
  have hne : den.value uns ≠ 0 := fun hc => by rw [hc] at hden; exact absurd hden (by decide)
  have hnlt : (num.value uns).natAbs < 2 ^ (4 * h) := by
    have hlt := num.toNat_lt
    have hle := num.natAbs_value_le hh false
    rw [if_neg Bool.false_ne_true] at hle
    cases uns with
    | true => exact hlt
    | false => exact hle.trans_lt (Nat.pow_lt_pow_right (by decide) (by omega))
  have hwidth := two_pow_width hh
  have hpos : 0 < 2 ^ (4 * h - 1) := Nat.two_pow_pos _
  have hcast : ((2 ^ (4 * h - 1) : ℕ) : ℤ) = 2 ^ (4 * h - 1) := by push_cast; rfl
  have habs : ((num.value uns).tdiv (den.value uns)).natAbs = (num.value uns).natAbs / (den.value uns).natAbs :=
    Int.natAbs_tdiv _ _
  have hhalf : (num.value uns).natAbs / (den.value uns).natAbs ≤ (num.value uns).natAbs / 2 :=
    Nat.div_le_div_left (by omega) (by decide)
  have hlt : (num.value uns).natAbs / 2 < 2 ^ (4 * h - 1) := by omega
  exact DoubleWord.toInt_eq_of_modEq hh _ (truncQuo_modEq hh uns num den hne) (by omega) (by omega)

/-- **Signed**: the sign of a quotient that is truncated to zero is lost.
Source: `fold-const.c` `div_and_round_double` (`if (*hquo < 0)`)
Kind: L -/
theorem roundDouble_signed_iff {code : DivCode} (hcode : code.IsRound) {num den : DoubleWord h} {q : ℤ}
    (hden : den.value false ≠ 0) (hq : IsNearest (num.value false) (den.value false) q)
    (hin : inType (4 * h) false q) :
    RoundsTo code false num den q ↔ RoundCondition h false (num.value false) (den.value false) := by
  have htest := roundTest_signed hh num den hden
  have hquo := (isNearest_iff hden q).mp hq
  have hneg := tdiv_neg_iff (N := num.value false) hden
  have hle : |(num.value false).tmod (den.value false)| < |den.value false| := by
    rw [Int.abs_eq_natAbs, Int.abs_eq_natAbs, Int.natAbs_tmod]
    exact_mod_cast Nat.mod_lt _ (Int.natAbs_pos.mpr hden)
  unfold RoundCondition
  rw [if_neg Bool.false_ne_true]
  by_cases hcond : RoundTest false num den
  · have hhalf := htest.mp hcond
    have hint := truncQuo_toInt hh false num den (by omega)
    obtain ⟨hmod, hrem⟩ := roundDouble_eq hh hcode false num den hden (fun _ => rfl) (fun hc => absurd hcond hc)
    rw [if_pos hhalf] at hquo
    rw [hint] at hmod
    rw [roundsTo_iff hh hden hq hin hmod hrem (by split_ifs <;> norm_num), hquo, add_right_inj]
    -- it adds the sign of the ratio, but for a truncated quotient of zero
    have hne : num.value false ≠ 0 := by
      intro hc
      rw [hc, Int.zero_tmod, abs_zero, mul_zero] at hhalf
      exact hden (abs_nonpos_iff.mp hhalf)
    have hsmall : |num.value false| < |den.value false| → |den.value false| ≤ 2 * |num.value false| := by
      intro hlt
      rwa [tmod_of_abs_lt hlt] at hhalf
    rw [ratioSign_eq hne hden] at hneg ⊢
    split_ifs at hneg ⊢ with h1 h2 h2
    · exact iff_of_true rfl fun ⟨_, hlt, _⟩ => absurd (hneg.mp h1).2 (not_le.mpr hlt)
    · exact absurd (hneg.mp h1).1 (by decide)
    · refine iff_of_false (by decide) fun hc => ?_
      have hlt := not_le.mp fun hle => h1 (hneg.mpr ⟨rfl, hle⟩)
      exact hc ⟨h2, hlt, hsmall hlt⟩
    · exact iff_of_true rfl fun hc => h2 hc.1
  · obtain ⟨hmod, hrem⟩ := roundDouble_eq hh hcode false num den hden
      (fun hc => absurd hc hcond) (fun _ => rfl)
    rw [if_neg fun hc => hcond (htest.mpr hc)] at hquo
    rw [roundsTo_iff hh hden hq hin hmod hrem (by norm_num), hquo]
    refine iff_of_true rfl fun ⟨_, hlt, hhalf⟩ => hcond (htest.mpr ?_)
    rwa [tmod_of_abs_lt hlt]

/-- **Unsigned**: the test is right for the divisors and the remainders that are left alone by the reading as signed
numbers, and for some more.
Source: `fold-const.c` `div_and_round_double` (`if (*hrem < 0)`, `if (hden < 0)`)
Kind: L -/
theorem roundTest_unsigned_iff (num den : DoubleWord h) (hden : den.value true ≠ 0) :
    (RoundTest true num den ↔ |den.value true| ≤ 2 * |(num.value true).tmod (den.value true)|) ↔
      RoundCondition h true (num.value true) (den.value true) := by
  have hpos : 0 < den.toNat := Nat.pos_of_ne_zero fun hc => hden (by rw [DoubleWord.value, if_pos rfl, hc]; rfl)
  have hlt := den.toNat_lt
  have hrlt := Nat.mod_lt num.toNat hpos
  have hwidth := two_pow_width hh
  have hcast : ((2 ^ (4 * h - 1) : ℕ) : ℤ) = 2 ^ (4 * h - 1) := by push_cast; rfl
  have hcast' : ((2 ^ (4 * h) : ℕ) : ℤ) = 2 ^ (4 * h) := by push_cast; rfl
  have hmod : num.value true % den.value true = ((num.toNat % den.toNat : ℕ) : ℤ) := rfl
  have htmod : |(num.value true).tmod (den.value true)| = ((num.toNat % den.toNat : ℕ) : ℤ) :=
    abs_of_nonneg (Int.natCast_nonneg _)
  have hval : den.value true = (den.toNat : ℤ) := rfl
  unfold RoundCondition
  rw [roundTest_unsigned hh num den hden, htmod, if_pos rfl, hmod, hval, Nat.abs_cast, ← hcast, ← hcast']
  generalize num.toNat % den.toNat = r at *
  generalize den.toNat = d at *
  generalize 2 ^ (4 * h - 1) = H at *
  rw [hwidth] at hlt ⊢
  by_cases hd : d < H
  · rw [if_pos hd, if_pos (hrlt.trans hd), Nat.mod_eq_of_lt (by omega)]
    omega
  · rw [if_neg hd]
    rcases lt_trichotomy r H with hr | hr | hr
    · rw [if_pos hr, Nat.mod_eq_of_lt (by omega)]
      omega
    · have hself : 2 * (2 * H - H) % (2 * H) = 0 := by
        rw [show 2 * (2 * H - H) = 2 * H by omega, Nat.mod_self]
      rw [hr, if_neg (lt_irrefl H), hself]
      omega
    · rw [if_neg hr.not_gt, Nat.mod_eq_of_lt (by omega)]
      omega

/-- **Unsigned**: the call is right exactly if the test is. Source: `fold-const.c` `div_and_round_double`. Kind: L -/
theorem roundDouble_unsigned_iff {code : DivCode} (hcode : code.IsRound) {num den : DoubleWord h} {q : ℤ}
    (hden : den.value true ≠ 0) (hq : IsNearest (num.value true) (den.value true) q)
    (hin : inType (4 * h) true q) :
    RoundsTo code true num den q ↔ RoundCondition h true (num.value true) (den.value true) := by
  have hquo := (isNearest_iff hden q).mp hq
  have hsign : ratioSign (num.value true) (den.value true) = 1 :=
    if_pos (iff_of_false (Int.natCast_nonneg _).not_gt (Int.natCast_nonneg _).not_gt)
  rw [← roundTest_unsigned_iff hh num den hden]
  by_cases hcond : RoundTest true num den
  · have hle : 2 ≤ |den.value true| := by
      -- a division by one leaves no remainder
      by_contra hlt
      have hval : den.value true = (den.toNat : ℤ) := rfl
      have hone : den.toNat = 1 := by
        rw [hval] at hlt hden
        rw [Nat.abs_cast] at hlt
        omega
      have hpow : 2 ≤ 2 ^ (4 * h - 1) := Nat.le_self_pow (by omega) 2
      rw [roundTest_unsigned hh num den hden, hone, Nat.mod_one, if_pos (by omega), if_pos (by omega), mul_zero,
        Nat.zero_mod] at hcond
      exact absurd hcond (by decide)
    have hint := truncQuo_toInt hh true num den hle
    obtain ⟨hmod, hrem⟩ := roundDouble_eq hh hcode true num den hden (fun _ => rfl) (fun hc => absurd hcond hc)
    have hnonneg : 0 ≤ (num.value true).tdiv (den.value true) := Int.natCast_nonneg _
    rw [hint, if_neg hnonneg.not_gt] at hmod
    rw [roundsTo_iff hh hden hq hin hmod hrem (by norm_num), hquo, add_right_inj, hsign, iff_true_left hcond]
    split_ifs with hhalf
    · exact iff_of_true rfl hhalf
    · exact iff_of_false (by decide) hhalf
  · obtain ⟨hmod, hrem⟩ := roundDouble_eq hh hcode true num den hden
      (fun hc => absurd hc hcond) (fun _ => rfl)
    rw [roundsTo_iff hh hden hq hin hmod hrem (by norm_num), hquo, add_right_inj, hsign, iff_false_left hcond]
    split_ifs with hhalf
    · exact iff_of_false (by decide) (not_not.mpr hhalf)
    · exact iff_of_true rfl hhalf

/-- **Rounding division**: the quotient is the nearest integer, with the remainder that goes with it, exactly for these
operands.
Source: `fold-const.c` `div_and_round_double` ("round to closest integer")
Kind: P -/
theorem roundDouble_exact_iff {code : DivCode} (hcode : code.IsRound) (uns : Bool) (num den : DoubleWord h) {q : ℤ}
    (hden : den.value uns ≠ 0) (hq : IsNearest (num.value uns) (den.value uns) q) (hin : inType (4 * h) uns q) :
    RoundsTo code uns num den q ↔ RoundCondition h uns (num.value uns) (den.value uns) := by
  cases uns with
  | false => exact roundDouble_signed_iff hh hcode hden hq hin
  | true => exact roundDouble_unsigned_iff hh hcode hden hq hin

end Quotient

/-- Source: none: the theorem at `7 / 2`. Kind: C -/
theorem roundDouble_exact_seven :
    RoundsTo (h := 32) .ROUND_DIV_EXPR false ⟨7, 0⟩ ⟨2, 0⟩ 4 :=
  (roundDouble_exact_iff (by decide) (Or.inl rfl) false ⟨7, 0⟩ ⟨2, 0⟩ (by decide) (by unfold IsNearest; decide)
    (by unfold inType; decide)).mpr (by unfold RoundCondition; decide)

/-- The ratio `-2 / 3` is truncated to zero, and rounded to `1` and not to `-1`.
Source: `fold-const.c` `div_and_round_double` (`if (*hquo < 0)`)
Kind: C -/
theorem roundDouble_drops_sign :
    IsNearest ((⟨-2, -1⟩ : DoubleWord 32).value false) ((⟨3, 0⟩ : DoubleWord 32).value false) (-1) ∧
      (divAndRoundDouble .ROUND_DIV_EXPR false (⟨-2, -1⟩ : DoubleWord 32) ⟨3, 0⟩).1 = ⟨1, 0⟩ ∧
      ¬ RoundsTo .ROUND_DIV_EXPR false (⟨-2, -1⟩ : DoubleWord 32) ⟨3, 0⟩ (-1) := by
  unfold IsNearest RoundsTo
  decide +kernel

end GccCore.Gcc.FoldConst
