import GccCore.Gcc.FixedValue.Contract

/-!
# `gcc/fixed-value.c`: conversions

A value of another mode, or an integer of two words, is scaled to the mode. A wider fraction needs four words, a narrower one
is a shift to the right. Between signed and unsigned numbers the sign is tested before the saturation.

* **The code** (`fixedConvert`, `fixedConvertFromInt`), whose last decision is one function (`convertHalves`, `convertValue`).
* **Main result**: `fixedConvert_computes`. Both functions compute the scaled number, rounded down.
-/

set_option linter.unusedSectionVars false

namespace GccCore.Gcc.FixedValue

open GccCore.Gcc.FoldConst GccCore.Lib.MachineInt

variable {h : ℕ}

/-! ## The code -/

/-- Modes are compared. Source: `fixed-value.c` `fixed_convert` (`mode == a->mode`). -/
instance : DecidableEq (FixedMode h) := fun m n =>
  decidable_of_iff (m.unsigned = n.unsigned ∧ m.ibit = n.ibit ∧ m.fbit = n.fbit ∧ m.precision = n.precision) (by
    cases m
    cases n
    simp)

variable (truncated : Bool)

/-- The decision on a result in four words; `negative` is the sign of what is converted, if it has one.
Source: `fixed-value.c` `fixed_convert`, `fixed_convert_from_int` ("Take care of the cases") -/
def convertHalves (mode : FixedMode h) (unsigned negative : Bool) (tempHigh tempLow : DoubleWord h) (sat : Bool) :
    DoubleWord h × Bool :=
  if unsigned = mode.unsigned then fixedSaturate2 truncated mode tempHigh tempLow tempLow sat
  else if unsigned = false then
    if negative then (if sat then (zero, false) else (tempLow, true))
    else fixedSaturate2 truncated mode tempHigh tempLow tempLow sat
  else if tempHigh.high.msb then (if sat then (doubleIntExt allOnes mode.ifBits true, false) else (tempLow, true))
  else fixedSaturate2 truncated mode tempHigh tempLow tempLow sat

/-- The decision on a result in two words. Source: `fixed-value.c` `fixed_convert` ("Take care of the cases"). -/
def convertValue (mode : FixedMode h) (unsigned negative : Bool) (temp : DoubleWord h) (sat : Bool) : DoubleWord h × Bool :=
  if unsigned = mode.unsigned then fixedSaturate1 truncated mode temp temp sat
  else if unsigned = false then
    if negative then (if sat then (zero, false) else (temp, true)) else fixedSaturate1 truncated mode temp temp sat
  else if temp.high.msb then (if sat then (doubleIntExt allOnes mode.ifBits true, false) else (temp, true))
  else fixedSaturate1 truncated mode temp temp sat

/-- Source: `fixed-value.c` `fixed_convert`. -/
def fixedConvert (mode m : FixedMode h) (a : DoubleWord h) (sat : Bool) : DoubleWord h × Bool :=
  if mode = m then (a, false)
  else
    let (f, overflow) :=
      if m.fbit < mode.fbit then
        let amount : ℤ := mode.fbit - m.fbit
        let tempLow := shift truncated a amount (!m.unsigned)
        let tempHigh := shift truncated a (amount - 2 * (2 * h)) false
        let tempHigh := if !m.unsigned && a.high.msb then doubleIntExt tempHigh amount.toNat false else tempHigh
        convertHalves truncated mode m.unsigned a.high.msb tempHigh tempLow sat
      else
        let temp := shift truncated a (mode.fbit - m.fbit) (!m.unsigned)
        convertValue truncated mode m.unsigned a.high.msb temp sat
    (doubleIntExt f mode.width mode.unsigned, overflow)

/-- Source: `fixed-value.c` `fixed_convert_from_int`. -/
def fixedConvertFromInt (mode : FixedMode h) (a : DoubleWord h) (unsigned sat : Bool) : DoubleWord h × Bool :=
  let (tempHigh, tempLow) :=
    if mode.fbit = 2 * (2 * h) then (a, zero)
    else (shift truncated a (mode.fbit - 2 * (2 * h)) false, shift truncated a mode.fbit false)
  let tempHigh := if !unsigned && a.high.msb then doubleIntExt tempHigh mode.fbit false else tempHigh
  let (f, overflow) := convertHalves truncated mode unsigned a.high.msb tempHigh tempLow sat
  (doubleIntExt f mode.width mode.unsigned, overflow)

/-! ## The last decision -/

section Decision

variable (hh : 0 < h) {mode : FixedMode h}

include hh

/-- The sign of a value. Source: `fixed-value.c` (`a->data.high < 0`). Kind: L -/
theorem valueIn_neg_iff (a : DoubleWord h) : valueIn false a.bits < 0 ↔ a.high.msb = true := by
  have hlt : (a.toNat : ℤ) < 2 ^ (4 * h) := by exact_mod_cast a.toNat_lt
  rw [← value_eq_valueIn hh]
  unfold DoubleWord.value DoubleWord.toInt
  rw [if_neg Bool.false_ne_true]
  split_ifs with hmsb
  · exact iff_of_true (by omega) hmsb
  · exact iff_of_false (by omega) hmsb

/-- The sign bit of an unsigned value. Source: `fixed-value.c` (`temp.high < 0`). Kind: L -/
theorem msb_iff_half_le (a : DoubleWord h) : a.high.msb = true ↔ 2 ^ (4 * h - 1) ≤ valueIn true a.bits := by
  have hpow : (2 : ℤ) ^ (4 * h) = 2 * 2 ^ (4 * h - 1) := by rw [← pow_succ', show 4 * h - 1 + 1 = 4 * h by omega]
  have hin := inType_valueIn false a.bits
  have hsign := valueIn_neg_iff hh a
  have hsigned := value_eq_valueIn hh false a
  have hunsigned := value_eq_valueIn hh true a
  unfold DoubleWord.value at hsigned hunsigned
  rw [if_pos rfl] at hunsigned
  rw [if_neg Bool.false_ne_true] at hsigned
  unfold DoubleWord.toInt at hsigned
  unfold inType at hin
  rw [if_neg Bool.false_ne_true] at hin
  rw [← hunsigned]
  split_ifs at hsigned with hmsb
  · exact iff_of_true hmsb (by omega)
  · exact iff_of_false hmsb (by omega)

/-- A negative value of an unsigned mode. Source: `fixed-value.c` `fixed_convert` ("Set to zero"). Kind: L -/
theorem computes_negative {f : DoubleWord h} {z : ℤ} (hmode : mode.unsigned = true) (hz : z < 0)
    (hf : f.bits.setWidth mode.width = BitVec.ofInt mode.width z) (sat : Bool) :
    let result := if sat then ((zero : DoubleWord h), false) else (f, true)
    Computes mode sat z (doubleIntExt result.1 mode.width mode.unsigned, result.2) := by
  have hmin : mode.minValue = 0 := by
    unfold FixedMode.minValue
    rw [hmode, if_pos rfl]
  have hclamp : mode.clamp z = 0 := by
    rw [mode.clamp_of_under (by omega), hmin]
  apply Saturates.computes hh
  apply saturates_out _ hf
  · rw [hclamp]
    exact rep_zero.setWidth mode.width_le_four
  · intro hhas
    have hlow := hhas.1
    omega

/-- A value above every value of a signed mode. Source: `fixed-value.c` `fixed_convert` ("Set to maximum"). Kind: L -/
theorem computes_above {f : DoubleWord h} {z : ℤ} (hz : mode.maxValue < z)
    (hf : f.bits.setWidth mode.width = BitVec.ofInt mode.width z) (sat : Bool) :
    let result := if sat then (doubleIntExt allOnes mode.ifBits true, false) else (f, true)
    Computes mode sat z (doubleIntExt result.1 mode.width mode.unsigned, result.2) := by
  apply Saturates.computes hh
  apply saturates_out _ hf
  · rw [mode.clamp_of_over hz]
    exact (rep_max hh mode).setWidth mode.width_le_four
  · intro hhas
    have hhigh := hhas.2
    omega

/-- **The decision on four words** computes the number that they stand for.
Source: `fixed-value.c` `fixed_convert`, `fixed_convert_from_int`
Kind: C -/
theorem convertHalves_computes {unsigned negative : Bool} {r s : DoubleWord h} {z : ℤ} (hz : Halves r s z)
    (hin : inType (2 * (4 * h)) unsigned z) (hneg : unsigned = false → (negative = true ↔ z < 0)) (sat : Bool) :
    let result := convertHalves truncated mode unsigned negative r s sat
    Computes mode sat z (doubleIntExt result.1 mode.width mode.unsigned, result.2) := by
  have hlow := (hz.rep_low hh).setWidth mode.width_le_four
  have hpow : (2 : ℤ) ^ (2 * (4 * h)) = 2 * 2 ^ (2 * (4 * h) - 1) := by
    rw [← pow_succ', show 2 * (4 * h) - 1 + 1 = 2 * (4 * h) by omega]
  intro result
  unfold result convertHalves
  by_cases hsame : unsigned = mode.unsigned
  · rw [if_pos hsame]
    rw [hsame] at hin
    exact computes_saturate2 hh truncated hz hin sat
  · rw [if_neg hsame]
    cases unsigned with
    | false =>
      have hmode : mode.unsigned = true := by simpa using hsame
      rw [if_pos rfl]
      by_cases hnegative : negative = true
      · rw [if_pos hnegative]
        exact computes_negative hh hmode ((hneg rfl).mp hnegative) hlow sat
      · rw [if_neg hnegative]
        apply computes_saturate2 hh truncated hz _ sat
        have hnonneg : 0 ≤ z := by
          rw [hneg rfl] at hnegative
          omega
        unfold inType at hin ⊢
        rw [if_neg Bool.false_ne_true] at hin
        rw [if_pos hmode]
        omega
    | true =>
      have hmode : mode.unsigned = false := by simpa using hsame
      have hsum := hz.value_eq hh hin
      have hmsb := msb_iff_half_le hh r
      have hslt : (s.toNat : ℤ) < 2 ^ (4 * h) := by exact_mod_cast s.toNat_lt
      have hs0 : (0 : ℤ) ≤ s.toNat := Int.natCast_nonneg _
      have hhalf : (2 : ℤ) ^ (2 * (4 * h) - 1) = 2 ^ (4 * h - 1) * 2 ^ (4 * h) := by
        rw [← pow_add, show 4 * h - 1 + 4 * h = 2 * (4 * h) - 1 by omega]
      have hpos : (0 : ℤ) < 2 ^ (4 * h) := by positivity
      rw [if_neg Bool.true_eq_false.mp]
      by_cases hhigh : r.high.msb = true
      · rw [if_pos hhigh]
        apply computes_above hh _ hlow sat
        have hwidth := mode.width_le_four
        have hmax : (2 : ℤ) ^ mode.ifBits ≤ 2 ^ (2 * (4 * h) - 1) := by
          apply pow_le_pow_right₀ (by decide)
          unfold FixedMode.width at hwidth
          omega
        have hge := hmsb.mp hhigh
        unfold FixedMode.maxValue
        nlinarith
      · rw [if_neg hhigh]
        apply computes_saturate2 hh truncated hz _ sat
        have hlt : valueIn true r.bits < 2 ^ (4 * h - 1) := by
          rw [hmsb] at hhigh
          omega
        unfold inType at hin ⊢
        rw [if_pos rfl] at hin
        rw [hmode, if_neg Bool.false_ne_true, hhalf]
        constructor
        · nlinarith
        · nlinarith

/-- **The decision on two words** computes the number that they stand for. Source: `fixed-value.c` `fixed_convert`. Kind: C -/
theorem convertValue_computes {unsigned negative : Bool} {temp : DoubleWord h} {z : ℤ}
    (hz : valueIn unsigned temp.bits = z) (hneg : unsigned = false → (negative = true ↔ z < 0)) (sat : Bool) :
    let result := convertValue truncated mode unsigned negative temp sat
    Computes mode sat z (doubleIntExt result.1 mode.width mode.unsigned, result.2) := by
  have hrep : Rep temp z := by
    rw [← hz]
    exact rep_valueIn hh unsigned temp
  have hlow := hrep.setWidth mode.width_le_four
  intro result
  unfold result convertValue
  by_cases hsame : unsigned = mode.unsigned
  · rw [if_pos hsame]
    rw [hsame] at hz
    exact computes_saturate1 hh truncated hz sat
  · rw [if_neg hsame]
    have hin := inType_valueIn unsigned temp.bits
    have hpow : (2 : ℤ) ^ (4 * h) = 2 * 2 ^ (4 * h - 1) := by rw [← pow_succ', show 4 * h - 1 + 1 = 4 * h by omega]
    rw [hz] at hin
    cases unsigned with
    | false =>
      have hmode : mode.unsigned = true := by simpa using hsame
      rw [if_pos rfl]
      by_cases hnegative : negative = true
      · rw [if_pos hnegative]
        exact computes_negative hh hmode ((hneg rfl).mp hnegative) hlow sat
      · rw [if_neg hnegative]
        apply computes_saturate1 hh truncated _ sat
        have hnonneg : 0 ≤ z := by
          rw [hneg rfl] at hnegative
          omega
        rw [hmode]
        refine hrep.valueIn_eq hh ?_
        unfold inType at hin ⊢
        rw [if_neg Bool.false_ne_true] at hin
        rw [if_pos rfl]
        omega
    | true =>
      have hmode : mode.unsigned = false := by simpa using hsame
      have hmsb := msb_iff_half_le hh temp
      rw [hz] at hmsb
      rw [if_neg Bool.true_eq_false.mp]
      by_cases hhigh : temp.high.msb = true
      · rw [if_pos hhigh]
        apply computes_above hh _ hlow sat
        have hwidth := mode.width_le_four
        have hmax : (2 : ℤ) ^ mode.ifBits ≤ 2 ^ (4 * h - 1) := by
          apply pow_le_pow_right₀ (by decide)
          unfold FixedMode.width at hwidth
          rw [hmode, if_neg Bool.false_ne_true] at hwidth
          omega
        have hge := hmsb.mp hhigh
        unfold FixedMode.maxValue
        omega
      · rw [if_neg hhigh]
        apply computes_saturate1 hh truncated _ sat
        rw [hmode]
        refine hrep.valueIn_eq hh ?_
        rw [hmsb] at hhigh
        unfold inType at hin ⊢
        rw [if_pos rfl] at hin
        rw [if_neg Bool.false_ne_true]
        omega

end Decision

/-! ## Conversions -/

section Conversion

variable (hh : 0 < h)

include hh

/-- A value of two words, scaled by at most two words, fits in four. -/
theorem inType_scale {uns : Bool} {x : ℤ} {c : ℕ} (hx : inType (4 * h) uns x) (hc : c ≤ 4 * h) :
    inType (2 * (4 * h)) uns (x * 2 ^ c) := by
  have hpow : (2 : ℤ) ^ c ≤ 2 ^ (4 * h) := pow_le_pow_right₀ (by decide) hc
  have hpos : (0 : ℤ) < 2 ^ c := by positivity
  have hhalf : (2 : ℤ) ^ (2 * (4 * h) - 1) = 2 ^ (4 * h - 1) * 2 ^ (4 * h) := by
    rw [← pow_add, show 4 * h - 1 + 4 * h = 2 * (4 * h) - 1 by omega]
  have hfull : (2 : ℤ) ^ (2 * (4 * h)) = 2 ^ (4 * h) * 2 ^ (4 * h) := by rw [two_mul, pow_add]
  have hhalfPos : (0 : ℤ) < 2 ^ (4 * h - 1) := by positivity
  unfold inType at hx ⊢
  cases uns with
  | true =>
    rw [if_pos rfl] at hx ⊢
    rw [hfull]
    constructor
    · nlinarith
    · nlinarith
  | false =>
    rw [if_neg Bool.false_ne_true] at hx ⊢
    rw [hhalf]
    constructor
    · nlinarith
    · nlinarith

/-- **Scaling in four words**: the sign is extended from the bit `c` of the upper half.
Source: `fixed-value.c` `fixed_convert` ("Left shift a to temp_high, temp_low")
Kind: L -/
theorem halves_scale (uns : Bool) (a : DoubleWord h) {c : ℕ} (hpos : 0 < c) (hc : c < 4 * h) (arith : Bool) :
    Halves (if !uns && a.high.msb then doubleIntExt (shift truncated a (c - 2 * (2 * h)) false) c false
        else shift truncated a (c - 2 * (2 * h)) false)
      (shift truncated a c arith) (valueIn uns a.bits * 2 ^ c) := by
  have hhalves := halves_shift_left hh truncated uns a hpos hc arith
  rw [show (2 * (2 * h) : ℤ) = 4 * h by ring]
  cases uns with
  | true =>
    rw [if_neg (by simp)] at hhalves ⊢
    exact hhalves
  | false => exact hhalves

/-- Scaling by two whole words. Source: `fixed-value.c` `fixed_convert_from_int` (`temp_high = a`). Kind: L -/
theorem halves_whole (uns : Bool) (a : DoubleWord h) {c : ℕ} (hc : c = 4 * h) :
    Halves (if !uns && a.high.msb then doubleIntExt a c false else a) zero (valueIn uns a.bits * 2 ^ c) := by
  subst hc
  refine ⟨valueIn uns a.bits, ?_, ?_⟩
  · split_ifs with hsign
    · have huns : uns = false := by
        cases uns with
        | true => simp at hsign
        | false => rfl
      subst huns
      have hext := valueIn_ext hh a (by omega : 0 < 4 * h) le_rfl false
      rw [BitVec.setWidth_eq] at hext
      have hrep := rep_valueIn hh false (doubleIntExt a (4 * h) false)
      rw [hext] at hrep
      exact hrep
    · exact rep_valueIn hh uns a
  · have hzero : (zero : DoubleWord h).toNat = 0 := by
      unfold DoubleWord.toNat zero
      simp
    rw [hzero, Nat.cast_zero, add_zero]

/-- Scaling keeps the sign. -/
theorem scale_neg_iff {uns : Bool} (a : DoubleWord h) (c : ℕ) (huns : uns = false) :
    a.high.msb = true ↔ valueIn uns a.bits * 2 ^ c < 0 := by
  have hpos : (0 : ℤ) < 2 ^ c := by positivity
  rw [huns, ← valueIn_neg_iff hh, mul_neg_iff]
  constructor
  · intro hneg
    exact .inr ⟨hneg, hpos⟩
  · rintro (⟨-, hpow⟩ | ⟨hneg, -⟩)
    · omega
    · exact hneg

/-- Rounding down keeps the sign. -/
theorem ediv_neg_iff {uns : Bool} (a : DoubleWord h) (c : ℕ) (huns : uns = false) :
    a.high.msb = true ↔ valueIn uns a.bits / 2 ^ c < 0 := by
  have hpos : (0 : ℤ) < 2 ^ c := by positivity
  rw [huns, ← valueIn_neg_iff hh]
  rw [← not_le, ← not_le, Int.ediv_nonneg_iff_of_pos hpos]

/-- The number, scaled to another mode and rounded down: a product or a quotient. -/
theorem floor_number_mul (mode m : FixedMode h) (x : ℤ) :
    ⌊m.number x * 2 ^ mode.fbit⌋ =
      if m.fbit < mode.fbit then x * 2 ^ (mode.fbit - m.fbit) else x / 2 ^ (m.fbit - mode.fbit) := by
  unfold FixedMode.number
  split_ifs with hlt
  · have hpow : (2 : ℚ) ^ mode.fbit = 2 ^ (mode.fbit - m.fbit) * 2 ^ m.fbit := by
      rw [← pow_add, Nat.sub_add_cancel hlt.le]
    rw [hpow, ← mul_assoc, mul_right_comm, div_mul_cancel₀ _ (by positivity : (2 : ℚ) ^ m.fbit ≠ 0)]
    exact_mod_cast Int.floor_intCast (x * 2 ^ (mode.fbit - m.fbit))
  · have hpow : (2 : ℚ) ^ m.fbit = 2 ^ (m.fbit - mode.fbit) * 2 ^ mode.fbit := by
      rw [← pow_add, Nat.sub_add_cancel (not_lt.mp hlt)]
    rw [hpow, div_mul_eq_mul_div, mul_div_mul_right _ _ (by positivity : (2 : ℚ) ^ mode.fbit ≠ 0), floor_div_two_pow]

/-- **A narrower fraction** is a shift to the right in two words, which rounds down.
Source: `fixed-value.c` `fixed_convert` ("Right shift a to temp based on a->mode")
Kind: L -/
theorem valueIn_narrow (uns : Bool) (a : DoubleWord h) {c : ℕ} (hc : c < 4 * h) :
    valueIn uns (shift truncated a (-c) (!uns)).bits = valueIn uns a.bits / 2 ^ c := by
  rcases Nat.eq_zero_or_pos c with rfl | hpos
  · have hleft := bits_shift_left hh truncated a (c := 0) (by omega) (!uns)
    rw [Nat.cast_zero] at hleft
    rw [Nat.cast_zero, neg_zero, hleft, BitVec.shiftLeft_zero, pow_zero, Int.ediv_one]
  · exact valueIn_shift_right hh truncated a hpos hc uns

/-- **Conversion between modes.** Source: `fixed-value.c` `fixed_convert`. Kind: C -/
theorem fixedConvert_spec (mode m : FixedMode h) {a : DoubleWord h} (ha : m.Has (valueIn m.unsigned a.bits)) (sat : Bool) :
    Computes mode sat ⌊m.number (valueIn m.unsigned a.bits) * 2 ^ mode.fbit⌋ (fixedConvert truncated mode m a sat) := by
  have hfbit := m.fbit_pos
  have hfbit' := mode.fbit_pos
  have hle := m.fbit_add_sign_le.trans m.precision_le
  have hle' := mode.fbit_add_sign_le.trans mode.precision_le
  unfold fixedConvert
  by_cases hmode : mode = m
  · subst hmode
    rw [if_pos rfl, mode.number_mul, Int.floor_intCast]
    exact computes_in ha rfl
  · rw [if_neg hmode, floor_number_mul hh]
    by_cases hlt : m.fbit < mode.fbit
    · rw [if_pos hlt, if_pos hlt]
      have hhalves := halves_scale truncated hh m.unsigned a (c := mode.fbit - m.fbit) (by omega) (by omega) (!m.unsigned)
      have hin := inType_scale hh (inType_valueIn m.unsigned a.bits) (c := mode.fbit - m.fbit) (by omega)
      rw [Nat.cast_sub hlt.le] at hhalves
      have hresult := @convertHalves_computes h truncated hh mode _ _ _ _ _ hhalves hin (scale_neg_iff hh a _) sat
      rw [show mode.fbit - m.fbit = ((mode.fbit : ℤ) - m.fbit).toNat by omega] at hresult ⊢
      exact hresult
    · rw [if_neg hlt, if_neg hlt]
      have hvalue := valueIn_narrow truncated hh m.unsigned a (c := m.fbit - mode.fbit) (by omega)
      rw [Nat.cast_sub (not_lt.mp hlt), neg_sub] at hvalue
      exact convertValue_computes truncated hh hvalue (ediv_neg_iff hh a _) sat

/-- **Conversion of an integer.** Source: `fixed-value.c` `fixed_convert_from_int`. Kind: C -/
theorem fixedConvertFromInt_spec (mode : FixedMode h) (a : DoubleWord h) (unsigned sat : Bool) :
    Computes mode sat (valueIn unsigned a.bits * 2 ^ mode.fbit) (fixedConvertFromInt truncated mode a unsigned sat) := by
  have hfbit := mode.fbit_pos
  have hle := mode.fbit_add_sign_le.trans mode.precision_le
  have hin := inType_scale hh (inType_valueIn unsigned a.bits) (c := mode.fbit) (by omega)
  have hneg : unsigned = false → (a.high.msb = true ↔ valueIn unsigned a.bits * 2 ^ mode.fbit < 0) := scale_neg_iff hh a _
  unfold fixedConvertFromInt
  by_cases hwhole : mode.fbit = 2 * (2 * h)
  · have hhalves := halves_whole hh unsigned a (c := mode.fbit) (by omega)
    rw [if_pos hwhole]
    exact convertHalves_computes truncated hh hhalves hin hneg sat
  · have hhalves := halves_scale truncated hh unsigned a hfbit (by omega) false
    rw [if_neg hwhole]
    exact convertHalves_computes truncated hh hhalves hin hneg sat

/-- **Conversions are exact up to the last bit.** A value of another mode is scaled and rounded down, an integer is scaled;
then the result is clamped if `sat` is set, or else wrapped with a flag.
Source: `fixed-value.c` `fixed_convert`, `fixed_convert_from_int`
Kind: P -/
theorem fixedConvert_computes (mode : FixedMode h) (a : DoubleWord h) (sat : Bool) :
    (∀ m : FixedMode h, m.Has (valueIn m.unsigned a.bits) →
      Computes mode sat ⌊m.number (valueIn m.unsigned a.bits) * 2 ^ mode.fbit⌋ (fixedConvert truncated mode m a sat)) ∧
    ∀ unsigned : Bool,
      Computes mode sat (valueIn unsigned a.bits * 2 ^ mode.fbit) (fixedConvertFromInt truncated mode a unsigned sat) := by
  refine ⟨?_, ?_⟩
  · intro m ha
    exact fixedConvert_spec truncated hh mode m ha sat
  · intro unsigned
    exact fixedConvertFromInt_spec truncated hh mode a unsigned sat

omit hh in
/-- Minus one half in a signed mode of three bits behind the point, converted to an unsigned mode of seven with saturation, and the
integer minus four. -/
theorem fixedConvert_computes_negative :
    let m : FixedMode 16 := ⟨false, 4, 3, 8, by decide, by decide, by decide⟩
    let mode : FixedMode 16 := ⟨true, 1, 7, 8, by decide, by decide, by decide⟩
    m.Has (valueIn m.unsigned (⟨-4, -1⟩ : DoubleWord 16).bits) ∧
      Computes mode true ⌊m.number (valueIn m.unsigned (⟨-4, -1⟩ : DoubleWord 16).bits) * 2 ^ mode.fbit⌋
        (fixedConvert false mode m ⟨-4, -1⟩ true) ∧
      Computes mode true (valueIn false (⟨-4, -1⟩ : DoubleWord 16).bits * 2 ^ mode.fbit)
        (fixedConvertFromInt false mode ⟨-4, -1⟩ false true) := by
  intro m mode
  have ha : m.Has (valueIn m.unsigned (⟨-4, -1⟩ : DoubleWord 16).bits) := by decide +kernel
  have hboth := fixedConvert_computes false (by decide) mode ⟨-4, -1⟩ true
  exact ⟨ha, hboth.1 m ha, hboth.2 false⟩

end Conversion

end GccCore.Gcc.FixedValue
