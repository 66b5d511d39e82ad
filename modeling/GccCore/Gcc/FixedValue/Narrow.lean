import GccCore.Gcc.FixedValue.Saturate
import GccCore.Gcc.FoldConst.Rounding

/-!
# `gcc/fixed-value.c`: modes of one word

The product, the scaled dividend and the shifted value fit in two words, so that each operation is exact before the
saturation. A shift to the right is done in two words for every mode.

* **Products** (`narrow_multiply`), **quotients** (`narrow_divide`), **shifts to the left** (`narrow_shift_left`).
* **Shifts to the right** (`shift_right_computes`).
-/

set_option linter.unusedSectionVars false

namespace GccCore.Gcc.FixedValue

open GccCore.Gcc.FoldConst GccCore.Lib.MachineInt

variable {h : ℕ} (hh : 0 < h) (truncated : Bool) {m : FixedMode h}

/-! ## Sizes -/

section Sizes

variable {x y : ℤ}

/-- A value is at most two to the power of its bits. -/
theorem FixedMode.abs_le_of_has (hx : m.Has x) : |x| ≤ 2 ^ m.ifBits := by
  obtain ⟨hlow, hhigh⟩ := hx
  have hpos : (0 : ℤ) < 2 ^ m.ifBits := by positivity
  unfold FixedMode.minValue at hlow
  unfold FixedMode.maxValue at hhigh
  apply abs_le.mpr
  split at hlow
  · constructor <;> omega
  · constructor <;> omega

theorem FixedMode.nonneg_of_has (hm : m.unsigned = true) (hx : m.Has x) : 0 ≤ x := by
  have hlow := hx.1
  unfold FixedMode.minValue at hlow
  rw [hm, if_pos rfl] at hlow
  exact hlow

/-- A signed result of `n` bits, or an unsigned one, fits. -/
theorem inType_of_abs {p n : ℕ} {uns : Bool} {z : ℤ} (hn : n + (if uns then 0 else 2) ≤ p) (hz : |z| ≤ 2 ^ n)
    (hnonneg : uns = true → 0 ≤ z ∧ z < 2 ^ n) : inType p uns z := by
  unfold inType
  cases uns with
  | true =>
    rw [if_pos rfl] at hn ⊢
    obtain ⟨hlow, hhigh⟩ := hnonneg rfl
    have hpow : (2 : ℤ) ^ n ≤ 2 ^ p := pow_le_pow_right₀ (by norm_num) (by omega)
    exact ⟨hlow, by omega⟩
  | false =>
    rw [if_neg Bool.false_ne_true] at hn ⊢
    have hpow : (2 : ℤ) ^ n < 2 ^ (p - 1) := pow_lt_pow_right₀ (by norm_num) (by omega)
    obtain ⟨hlow, hhigh⟩ := abs_le.mp hz
    exact ⟨by omega, by omega⟩

/-- Twice the bits of a mode, with the signs, are within twice its precision. -/
theorem FixedMode.two_ifBits_le {p : ℕ} (hp : m.precision ≤ p) : 2 * m.ifBits + (if m.unsigned then 0 else 2) ≤ 2 * p := by
  have hle := m.width_le_precision
  unfold FixedMode.width at hle
  split at hle
  · rw [if_pos ‹_›]
    omega
  · rw [if_neg ‹_›]
    omega

theorem FixedMode.fbit_le : m.fbit ≤ m.ifBits := by
  unfold FixedMode.ifBits
  omega

theorem FixedMode.fbit_add_sign_le : m.fbit + (if m.unsigned then 0 else 1) ≤ m.precision := by
  have hle := m.width_le_precision
  have hfbit := m.fbit_le
  unfold FixedMode.width at hle
  omega

/-- A quotient by a power of two is between the same bounds. -/
theorem ediv_two_pow_mem {low high z : ℤ} (hlow : low ≤ 0) (hhigh : 0 ≤ high) (hz : low ≤ z ∧ z ≤ high) (c : ℕ) :
    low ≤ z / 2 ^ c ∧ z / 2 ^ c ≤ high := by
  have hpow : (0 : ℤ) < 2 ^ c := by positivity
  have hone : (1 : ℤ) ≤ 2 ^ c := by omega
  obtain ⟨hzlow, hzhigh⟩ := hz
  constructor
  · apply (Int.le_ediv_iff_mul_le hpow).mpr
    nlinarith
  · apply Int.lt_add_one_iff.mp
    apply (Int.ediv_lt_iff_lt_mul hpow).mpr
    nlinarith

theorem inType_ediv {p : ℕ} {uns : Bool} {z : ℤ} (hz : inType p uns z) (c : ℕ) : inType p uns (z / 2 ^ c) := by
  have hpow : (0 : ℤ) < 2 ^ (p - 1) := by positivity
  have hpow' : (0 : ℤ) < 2 ^ p := by positivity
  unfold inType at hz ⊢
  split at hz
  · rw [if_pos ‹_›]
    have hmem := ediv_two_pow_mem (le_refl 0) (by omega : (0 : ℤ) ≤ 2 ^ p - 1) ⟨hz.1, by omega⟩ c
    exact ⟨hmem.1, by omega⟩
  · rw [if_neg ‹_›]
    have hmem := ediv_two_pow_mem (by omega : -2 ^ (p - 1) ≤ (0 : ℤ)) (by omega : (0 : ℤ) ≤ 2 ^ (p - 1) - 1)
      ⟨hz.1, by omega⟩ c
    exact ⟨hmem.1, by omega⟩

/-- A product is in twice the precision. Source: `fixed-value.c` `do_fixed_multiply`. Kind: L -/
theorem FixedMode.inType_mul {p : ℕ} (hp : m.precision ≤ p) (hx : m.Has x) (hy : m.Has y) :
    inType (2 * p) m.unsigned (x * y) := by
  have hxabs := m.abs_le_of_has hx
  have hyabs := m.abs_le_of_has hy
  apply inType_of_abs (m.two_ifBits_le hp)
  · rw [abs_mul, two_mul, pow_add]
    exact mul_le_mul hxabs hyabs (abs_nonneg y) (by positivity)
  · intro hm
    have hx0 := m.nonneg_of_has hm hx
    have hy0 := m.nonneg_of_has hm hy
    have hxhigh := hx.2
    have hyhigh := hy.2
    unfold FixedMode.maxValue at hxhigh hyhigh
    rw [two_mul, pow_add]
    exact ⟨mul_nonneg hx0 hy0, mul_lt_mul'' (by omega) (by omega) hx0 hy0⟩

/-- What is at most a shifted value is in twice the precision. Source: `fixed-value.c` `do_fixed_shift`. Kind: L -/
theorem FixedMode.inType_of_abs_le {p c : ℕ} (hp : m.precision ≤ p) (hc : c + (if m.unsigned then 0 else 1) ≤ p)
    (hx : m.Has x) {z : ℤ} (hz : |z| ≤ |x * 2 ^ c|) (hnonneg : m.unsigned = true → 0 ≤ z) : inType (2 * p) m.unsigned z := by
  have hxabs := m.abs_le_of_has hx
  have hle := m.width_le_precision
  unfold FixedMode.width at hle
  rw [abs_mul, abs_of_pos (by positivity : (0 : ℤ) < 2 ^ c)] at hz
  apply inType_of_abs (n := m.ifBits + c)
  · split at hle
    · rw [if_pos ‹_›] at hc ⊢
      omega
    · rw [if_neg ‹_›] at hc ⊢
      omega
  · rw [pow_add]
    exact le_trans hz (mul_le_mul_of_nonneg_right hxabs (by positivity))
  · intro hm
    have hz0 := hnonneg hm
    have hxhigh := hx.2
    unfold FixedMode.maxValue at hxhigh
    rw [abs_of_nonneg hz0, abs_of_nonneg (m.nonneg_of_has hm hx)] at hz
    refine ⟨hz0, lt_of_le_of_lt hz ?_⟩
    rw [pow_add]
    exact mul_lt_mul_of_pos_right (by omega) (by positivity)

/-- A shifted value is in twice the precision. Source: `fixed-value.c` `do_fixed_shift`. Kind: L -/
theorem FixedMode.inType_scaled {p c : ℕ} (hp : m.precision ≤ p) (hc : c + (if m.unsigned then 0 else 1) ≤ p)
    (hx : m.Has x) : inType (2 * p) m.unsigned (x * 2 ^ c) := by
  apply m.inType_of_abs_le hp hc hx (le_refl _)
  intro hm
  have hx0 := m.nonneg_of_has hm hx
  positivity

/-- A quotient is in twice the precision. Source: `fixed-value.c` `do_fixed_divide`. Kind: L -/
theorem FixedMode.inType_quotient {p : ℕ} (hp : m.precision ≤ p) (hx : m.Has x) (hy : m.Has y) :
    inType (2 * p) m.unsigned ((x * 2 ^ m.fbit).tdiv y) := by
  apply m.inType_of_abs_le hp (m.fbit_add_sign_le.trans hp) hx
  · rw [Int.abs_eq_natAbs, Int.abs_eq_natAbs, Int.natAbs_tdiv]
    exact_mod_cast Nat.div_le_self _ _
  · intro hm
    have hx0 := m.nonneg_of_has hm hx
    exact Int.tdiv_nonneg (by positivity) (m.nonneg_of_has hm hy)

end Sizes

/-! ## Operations in two words -/

section Narrow

variable {a b : DoubleWord h} {x y : ℤ}

include hh

/-- A result in two words, saturated and extended. Source: `fixed-value.c` `fixed_saturate1`. Kind: L -/
theorem computes_saturate1 {f : DoubleWord h} {z : ℤ} (hf : valueIn m.unsigned f.bits = z) (sat : Bool) :
    Computes m sat z (doubleIntExt (fixedSaturate1 truncated m f f sat).1 m.width m.unsigned,
      (fixedSaturate1 truncated m f f sat).2) := by
  apply Saturates.computes hh
  have hrep := rep_valueIn hh m.unsigned f
  rw [hf] at hrep
  exact fixedSaturate1_spec hh truncated hf (hrep.setWidth m.width_le_four) sat

/-- **Products of narrow modes.** Source: `fixed-value.c` `do_fixed_multiply`. Kind: L -/
theorem narrow_multiply (hp : m.precision ≤ 2 * h) (ha : Rep a x) (hb : Rep b y) (hx : m.Has x) (hy : m.Has y) (sat : Bool) :
    Computes m sat (x * y / 2 ^ m.fbit) (doFixedMultiply truncated m a b sat) := by
  have hfbit := m.fbit_pos
  have hle := m.width_le_precision
  have hfbitLe : m.fbit ≤ m.ifBits := m.fbit_le
  have hwidth : m.ifBits ≤ m.width := by
    unfold FixedMode.width
    omega
  have hin := m.inType_mul hp hx hy
  rw [show 2 * (2 * h) = 4 * h by omega] at hin
  have hprod := (ha.mul hh hb).valueIn_eq hh hin
  have hshift := valueIn_shift_right hh truncated (doubleIntMul a b) hfbit (by omega) m.unsigned
  rw [hprod] at hshift
  unfold doFixedMultiply
  rw [if_pos hp]
  exact computes_saturate1 hh truncated hshift sat

/-- **Shifts to the left of narrow modes.** Source: `fixed-value.c` `do_fixed_shift`. Kind: L -/
theorem narrow_shift_left (hp : m.precision ≤ 2 * h) (ha : Rep a x) (hx : m.Has x) {c : ℕ} (hc : c < m.precision)
    (sat : Bool) :
    let f := shift truncated a c (!m.unsigned)
    Computes m sat (x * 2 ^ c) (doubleIntExt (fixedSaturate1 truncated m f f sat).1 m.width m.unsigned,
      (fixedSaturate1 truncated m f f sat).2) := by
  have hin := m.inType_scaled (c := c) hp (by split <;> omega) hx
  rw [show 2 * (2 * h) = 4 * h by omega] at hin
  have hshift := (ha.shift_left hh truncated (by omega : c < 4 * h) (!m.unsigned)).valueIn_eq hh hin
  exact computes_saturate1 hh truncated hshift sat

/-- The value in two words, as the division reads it. -/
theorem value_eq_valueIn (uns : Bool) (d : DoubleWord h) : d.value uns = valueIn uns d.bits := by
  have hrep : Rep d (d.value uns) := Rep.of_modEq hh (d.value_modEq uns)
  refine (hrep.valueIn_eq hh ?_).symm
  unfold inType DoubleWord.value
  cases uns with
  | true =>
    rw [if_pos rfl, if_pos rfl]
    exact ⟨Int.natCast_nonneg _, by exact_mod_cast d.toNat_lt⟩
  | false =>
    rw [if_neg Bool.false_ne_true, if_neg Bool.false_ne_true]
    exact d.toInt_bounds hh

/-- A nonzero divisor is divided by as it stands. Source: `fold-const.c` `div_and_round_double`. Kind: L -/
theorem divAndRoundDouble_trunc (uns : Bool) {num den : DoubleWord h} (hden : valueIn uns den.bits ≠ 0) :
    (divAndRoundDouble .TRUNC_DIV_EXPR uns num den).1 = truncQuo uns num den ∧
      (divAndRoundDouble .TRUNC_DIV_EXPR uns num den).2.1 = remOf num (truncQuo uns num den) den := by
  have hne : ¬ (den.high = 0 ∧ den.low = 0) := by
    rintro ⟨hhigh, hlow⟩
    apply hden
    have hzero : den = zero := by
      rcases den with ⟨low, high⟩
      dsimp only at hhigh hlow
      rw [hhigh, hlow]
      rfl
    rw [hzero]
    refine rep_zero.valueIn_eq hh ?_
    unfold inType
    cases uns <;> simp
  unfold divAndRoundDouble
  dsimp only
  rw [if_neg hne]
  exact ⟨rfl, rfl⟩

/-- **Quotients of narrow modes.** Source: `fixed-value.c` `do_fixed_divide`. Kind: L -/
theorem narrow_divide (hp : m.precision ≤ 2 * h) (ha : Rep a x) (hb : Rep b y) (hx : m.Has x) (hy : m.Has y) (hy0 : y ≠ 0)
    (sat : Bool) : Computes m sat ((x * 2 ^ m.fbit).tdiv y) (doFixedDivide truncated m a b sat) := by
  have hfbit := m.fbit_add_sign_le
  have hin := m.inType_scaled (c := m.fbit) hp (hfbit.trans hp) hx
  rw [show 2 * (2 * h) = 4 * h by omega] at hin
  have hshift := (ha.shift_left hh truncated (by omega : m.fbit < 4 * h) (!m.unsigned)).valueIn_eq hh hin
  have hby := FixedMode.valueIn_of_rep hh hy hb
  have hden : b.value m.unsigned ≠ 0 := by
    rw [value_eq_valueIn hh, hby]
    exact hy0
  have hquo := Rep.of_modEq hh (truncQuo_modEq hh m.unsigned (shift truncated a m.fbit (!m.unsigned)) b hden)
  rw [value_eq_valueIn hh, value_eq_valueIn hh, hshift, hby] at hquo
  have hvalue : valueIn m.unsigned (truncQuo m.unsigned (shift truncated a m.fbit (!m.unsigned)) b).bits =
      (x * 2 ^ m.fbit).tdiv y := by
    have hin := m.inType_quotient hp hx hy
    rw [show 2 * (2 * h) = 4 * h by omega] at hin
    exact hquo.valueIn_eq hh hin
  unfold doFixedDivide
  rw [if_pos hp]
  dsimp only
  rw [(divAndRoundDouble_trunc hh m.unsigned (by rw [hby]; exact hy0)).1]
  exact computes_saturate1 hh truncated hvalue sat

/-- **Shifts to the right.** Source: `fixed-value.c` `do_fixed_shift`. Kind: L -/
theorem shift_right_computes (ha : Rep a x) (hx : m.Has x) {c : ℕ} (hpos : 0 < c) (hc : c < m.precision) (sat : Bool) :
    Computes m sat (x / 2 ^ c) (doubleIntExt (shift truncated a (-c) (!m.unsigned)) m.width m.unsigned, false) := by
  have hle := m.precision_le
  have hin : m.Has (x / 2 ^ c) := ediv_two_pow_mem m.has_zero.1 m.has_zero.2 hx c
  have hshift := valueIn_shift_right hh truncated a hpos (by omega : c < 4 * h) m.unsigned
  rw [FixedMode.valueIn_of_rep hh hx ha] at hshift
  have hrep := rep_valueIn hh m.unsigned (shift truncated a (-c) (!m.unsigned))
  rw [hshift] at hrep
  exact (saturates_in hin (hrep.setWidth m.width_le_four) sat).computes hh

end Narrow

end GccCore.Gcc.FixedValue
