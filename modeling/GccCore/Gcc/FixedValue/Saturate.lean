import GccCore.Gcc.FixedValue.Basic

/-!
# `gcc/fixed-value.c`: saturation and overflow

* **Integers modulo the width** (`Rep`): which integers a pattern of two words may stand for.
* **Saturation** (`fixedSaturate1_spec`, `fixedSaturate2_spec`) of a result that is known exactly, in two or four words.
* **The result** (`Computes`): clamped, or wrapped with a flag (`Saturates.computes`).
-/

set_option linter.unusedSectionVars false

namespace GccCore.Gcc.FixedValue

open GccCore.Gcc.FoldConst GccCore.Lib.MachineInt

variable {h : ℕ}

/-! ## Integers modulo the width -/

/-- The pattern is that of the integer. -/
def Rep (x : DoubleWord h) (z : ℤ) : Prop := x.bits = BitVec.ofInt (4 * h) z

section Rep

variable {x y : DoubleWord h} {z w : ℤ} {uns : Bool}

/-- Every pattern is that of its value. -/
theorem rep_valueIn (hh : 0 < h) (uns : Bool) (x : DoubleWord h) : Rep x (valueIn uns x.bits) := by
  unfold Rep
  refine eq_of_valueIn hh (?_ : valueIn uns _ = valueIn uns _)
  rw [valueIn_ofInt (by omega) (inType_valueIn uns x.bits)]

theorem rep_toNat (x : DoubleWord h) : Rep x x.toNat := by
  unfold Rep DoubleWord.bits
  rw [BitVec.ofInt_natCast]

/-- The value is determined by its range. -/
theorem Rep.valueIn_eq (hh : 0 < h) (hx : Rep x z) (hz : inType (4 * h) uns z) : valueIn uns x.bits = z := by
  unfold Rep at hx
  rw [hx, valueIn_ofInt (by omega) hz]

theorem Rep.toNat_eq (hh : 0 < h) (hx : Rep x z) (hlow : 0 ≤ z) (hhigh : z < 2 ^ (4 * h)) : (x.toNat : ℤ) = z := by
  have hvalue : valueIn true x.bits = z := hx.valueIn_eq hh (by unfold inType; rw [if_pos rfl]; exact ⟨hlow, hhigh⟩)
  unfold valueIn at hvalue
  rw [if_pos rfl, x.toNat_bits] at hvalue
  exact hvalue

theorem Rep.add (hh : 0 < h) (hx : Rep x z) (hy : Rep y w) : Rep (doubleIntAdd x y) (z + w) := by
  unfold Rep at *
  rw [bits_add hh, hx, hy, BitVec.ofInt_add]

theorem Rep.neg (hh : 0 < h) (hx : Rep x z) : Rep (doubleIntNeg x) (-z) := by
  unfold Rep at *
  rw [bits_neg hh, hx, BitVec.ofInt_neg]

theorem Rep.mul (hh : 0 < h) (hx : Rep x z) (hy : Rep y w) : Rep (doubleIntMul x y) (z * w) := by
  unfold Rep at *
  rw [bits_mul hh, hx, hy, BitVec.ofInt_mul]

/-- The integers of a pattern are congruent. -/
theorem Rep.modEq (hx : Rep x z) : (x.toNat : ℤ) ≡ z [ZMOD 2 ^ (4 * h)] := by
  unfold Rep at hx
  rw [← x.toNat_bits, hx]
  exact toNat_ofInt_modEq z

theorem Rep.of_modEq (hh : 0 < h) (hmod : (x.toNat : ℤ) ≡ z [ZMOD 2 ^ (4 * h)]) : Rep x z := by
  unfold Rep
  refine eq_of_valueIn hh (?_ : valueIn true _ = valueIn true _)
  rw [valueIn_true_ofInt]
  unfold valueIn
  rw [if_pos rfl, x.toNat_bits]
  have hlt : (x.toNat : ℤ) < 2 ^ (4 * h) := by exact_mod_cast x.toNat_lt
  exact (Int.emod_eq_of_lt (Int.natCast_nonneg x.toNat) hlt).symm.trans hmod

/-- The lowest bits of a pattern. -/
theorem Rep.setWidth {p : ℕ} (hle : p ≤ 4 * h) (hx : Rep x z) : x.bits.setWidth p = BitVec.ofInt p z := by
  apply BitVec.eq_of_toNat_eq
  have hmod := hx.modEq.of_dvd (pow_dvd_pow (2 : ℤ) hle)
  rw [BitVec.toNat_setWidth, x.toNat_bits]
  have hleft : ((x.toNat % 2 ^ p : ℕ) : ℤ) = z % 2 ^ p := by
    push_cast
    exact hmod
  have hright : ((BitVec.ofInt p z).toNat : ℤ) = z % 2 ^ p := valueIn_true_ofInt z
  exact_mod_cast hleft.trans hright.symm

/-- A shift to the left multiplies. Source: `fold-const.c` `lshift_double`. Kind: L -/
theorem Rep.shift_left (hh : 0 < h) (truncated : Bool) (hx : Rep x z) {c : ℕ} (hc : c < 4 * h) (arith : Bool) :
    Rep (shift truncated x c arith) (z * 2 ^ c) := by
  unfold shift
  apply Rep.of_modEq hh
  rw [← DoubleWord.toNat_bits, show 2 * (2 * h) = 4 * h by omega,
    bits_lshiftDouble hh truncated x (by omega) (by omega) arith, if_neg (by omega), Int.toNat_natCast,
    BitVec.toNat_shiftLeft, Nat.shiftLeft_eq, x.toNat_bits]
  push_cast
  exact (Int.mod_modEq _ _).trans (hx.modEq.mul_right _)

/-- A shift to the right divides and rounds down. Source: `fold-const.c` `rshift_double`. Kind: L -/
theorem valueIn_shift_right (hh : 0 < h) (truncated : Bool) (x : DoubleWord h) {c : ℕ} (hpos : 0 < c) (hc : c < 4 * h)
    (uns : Bool) : valueIn uns (shift truncated x (-c) (!uns)).bits = valueIn uns x.bits / 2 ^ c := by
  unfold shift
  rw [show 2 * (2 * h) = 4 * h by omega, bits_lshiftDouble hh truncated x (by omega) (by omega) (!uns), if_pos (by omega),
    neg_neg, Int.toNat_natCast]
  unfold valueIn
  cases uns with
  | true =>
    rw [if_pos rfl, if_pos rfl, Bool.not_true, if_neg Bool.false_ne_true, BitVec.toNat_ushiftRight,
      Nat.shiftRight_eq_div_pow]
    push_cast
    rfl
  | false =>
    rw [if_neg Bool.false_ne_true, if_neg Bool.false_ne_true, Bool.not_false, if_pos rfl, BitVec.toInt_sshiftRight,
      Int.shiftRight_eq_div_pow]
    push_cast
    rfl

theorem rep_allOnes : Rep (allOnes : DoubleWord h) (-1) := by
  unfold Rep
  apply BitVec.eq_of_getLsbD_eq
  intro k hk
  have hright : BitVec.ofInt (4 * h) (-1) = BitVec.allOnes (4 * h) := by
    rw [BitVec.ofInt_neg]
    exact BitVec.neg_one_eq_allOnes
  rw [hright, BitVec.getLsbD_allOnes, DoubleWord.getLsbD_bits, decide_eq_true hk]
  unfold allOnes
  dsimp only
  split_ifs with hk'
  · rw [getLsbD_neg_one, decide_eq_true hk']
  · rw [getLsbD_neg_one, decide_eq_true (by omega)]

theorem rep_one (hh : 0 < h) : Rep (one : DoubleWord h) 1 := by
  have hrep := rep_toNat (one : DoubleWord h)
  have hnat : (one : DoubleWord h).toNat = 1 := by
    unfold one DoubleWord.toNat
    rw [one_toNat hh]
    simp
  rw [hnat] at hrep
  exact hrep

theorem rep_zero : Rep (zero : DoubleWord h) 0 := by
  have hrep := rep_toNat (zero : DoubleWord h)
  have hnat : (zero : DoubleWord h).toNat = 0 := by
    unfold zero DoubleWord.toNat
    simp
  rw [hnat] at hrep
  exact hrep

end Rep

/-! ## The range of a mode -/

section Range

variable (m : FixedMode h)

theorem FixedMode.ifBits_pos : 0 < m.ifBits := by
  have := m.fbit_pos
  unfold FixedMode.ifBits
  omega

theorem FixedMode.width_pos : 0 < m.width := by
  have := m.ifBits_pos
  unfold FixedMode.width
  omega

theorem FixedMode.width_le_precision : m.width ≤ m.precision := m.width_le

theorem FixedMode.width_le_four : m.width ≤ 4 * h := le_trans m.width_le m.precision_le

/-- The values of a mode are those of its bits. -/
theorem FixedMode.has_iff {z : ℤ} : m.Has z ↔ inType m.width m.unsigned z := by
  unfold FixedMode.Has FixedMode.minValue FixedMode.maxValue inType FixedMode.width
  cases m.unsigned with
  | true =>
    simp only [if_true, Nat.zero_add]
    omega
  | false =>
    simp only [Bool.false_eq_true, if_false, Nat.add_sub_cancel_left]
    omega

/-- The value that the bits of a mode stand for. Source: `fixed-value.c` (`double_int_ext`). -/
def FixedMode.wrap (z : ℤ) : ℤ := valueIn m.unsigned (BitVec.ofInt m.width z)

theorem FixedMode.wrap_of_has {z : ℤ} (hz : m.Has z) : m.wrap z = z := valueIn_ofInt m.width_pos (m.has_iff.mp hz)

theorem FixedMode.has_wrap (z : ℤ) : m.Has (m.wrap z) := m.has_iff.mpr (inType_valueIn _ _)

theorem FixedMode.wrap_modEq (z : ℤ) : m.wrap z ≡ z [ZMOD 2 ^ m.width] :=
  (valueIn_modEq _ _).trans (toNat_ofInt_modEq z)

/-- The nearest value of the mode. Source: `fixed-value.c` ("saturate"). -/
def FixedMode.clamp (z : ℤ) : ℤ := if m.maxValue < z then m.maxValue else if z < m.minValue then m.minValue else z

theorem FixedMode.min_le_max : m.minValue ≤ m.maxValue := by
  have hpos : (0 : ℤ) < 2 ^ m.ifBits := by positivity
  unfold FixedMode.minValue FixedMode.maxValue
  split <;> omega

theorem FixedMode.has_clamp (z : ℤ) : m.Has (m.clamp z) := by
  have := m.min_le_max
  unfold FixedMode.clamp FixedMode.Has
  split_ifs <;> omega

theorem FixedMode.clamp_of_has {z : ℤ} (hz : m.Has z) : m.clamp z = z := by
  have hlow := hz.1
  have hhigh := hz.2
  unfold FixedMode.clamp
  rw [if_neg (by omega), if_neg (by omega)]

theorem FixedMode.clamp_of_over {z : ℤ} (hz : m.maxValue < z) : m.clamp z = m.maxValue := if_pos hz

theorem FixedMode.clamp_of_under {z : ℤ} (hz : z < m.minValue) : m.clamp z = m.minValue := by
  have := m.min_le_max
  unfold FixedMode.clamp
  rw [if_neg (by omega), if_pos hz]

theorem FixedMode.has_zero : m.Has 0 := by
  have hpos : (0 : ℤ) < 2 ^ m.ifBits := by positivity
  unfold FixedMode.Has FixedMode.minValue FixedMode.maxValue
  split <;> omega

theorem FixedMode.not_lt_min {m : FixedMode h} (hm : m.unsigned = true) {z : ℤ} (hz : 0 ≤ z) : ¬ z < m.minValue := by
  unfold FixedMode.minValue
  rw [hm, if_pos rfl]
  omega

/-- **What an operation computes** of an exact result: clamped, or wrapped with a flag that is set if it was out of range.
Source: `fixed-value.c` `fixed_arithmetic` -/
structure Computes (sat : Bool) (exact : ℤ) (result : DoubleWord h × Bool) : Prop where
  value_eq : valueIn m.unsigned result.1.bits = if sat then m.clamp exact else m.wrap exact
  overflow_iff : result.2 = true ↔ sat = false ∧ ¬ m.Has exact

variable {m}

/-- A result that is in range. -/
theorem computes_in {sat : Bool} {z : ℤ} {f : DoubleWord h} (hz : m.Has z) (hf : valueIn m.unsigned f.bits = z) :
    Computes m sat z (f, false) := by
  refine ⟨?_, by simp [hz]⟩
  rw [hf, m.clamp_of_has hz, m.wrap_of_has hz, ite_self]

/-- A result that is out of range. -/
theorem computes_out {sat : Bool} {z : ℤ} {f g : DoubleWord h} (hz : ¬ m.Has z) (hf : valueIn m.unsigned f.bits = m.wrap z)
    (hg : valueIn m.unsigned g.bits = m.clamp z) : Computes m sat z (if sat then (g, false) else (f, true)) := by
  cases sat with
  | true => exact ⟨hg, by simp⟩
  | false => exact ⟨hf, by simp [hz]⟩

/-- The value after the last extension. Source: `fixed-value.c` (`double_int_ext`). Kind: L -/
theorem valueIn_final (hh : 0 < h) {f : DoubleWord h} {z : ℤ} (hf : f.bits.setWidth m.width = BitVec.ofInt m.width z) :
    valueIn m.unsigned (doubleIntExt f m.width m.unsigned).bits = m.wrap z := by
  rw [valueIn_ext hh f m.width_pos m.width_le_four, hf]
  rfl

/-- The greatest value, as bits. Source: `fixed-value.c` (`max`). Kind: L -/
theorem rep_max (hh : 0 < h) (m : FixedMode h) : Rep (doubleIntExt allOnes m.ifBits true : DoubleWord h) m.maxValue := by
  have hle : m.ifBits ≤ 4 * h := by
    have := m.width_le_four
    unfold FixedMode.width at this
    omega
  have hvalue := valueIn_ext hh (allOnes : DoubleWord h) m.ifBits_pos hle true
  rw [rep_allOnes.setWidth hle, valueIn_true_ofInt] at hvalue
  have hpos : (0 : ℤ) < 2 ^ m.ifBits := by positivity
  have hmod : (-1 : ℤ) % 2 ^ m.ifBits = 2 ^ m.ifBits - 1 := by
    rw [← Int.add_emod_right, Int.emod_eq_of_lt (by omega) (by omega)]
    ring
  rw [hmod] at hvalue
  have hrep := rep_valueIn hh true (doubleIntExt (allOnes : DoubleWord h) m.ifBits true)
  rw [hvalue] at hrep
  exact hrep

/-- The least value of a signed mode, as bits. Source: `fixed-value.c` (`min`). Kind: L -/
theorem rep_min (hh : 0 < h) (truncated : Bool) (m : FixedMode h) (hm : m.unsigned = false) :
    Rep (doubleIntExt (shift truncated one m.ifBits true : DoubleWord h) (1 + m.ifBits) false) m.minValue := by
  have hwidth : m.width = 1 + m.ifBits := by
    unfold FixedMode.width
    rw [hm]
    rfl
  have hle := m.width_le_four
  have hshift := (rep_one hh).shift_left hh truncated (by omega : m.ifBits < 4 * h) true
  have hvalue := valueIn_ext hh (shift truncated one m.ifBits true : DoubleWord h) (by omega : 0 < 1 + m.ifBits)
    (by omega) false
  have hmin : m.wrap (1 * 2 ^ m.ifBits) = m.minValue := by
    apply eq_of_inType (m.has_iff.mp (m.has_wrap _)) (m.has_iff.mp _) _ m.width_pos
    · exact ⟨le_refl _, m.min_le_max⟩
    · apply (m.wrap_modEq _).trans
      unfold FixedMode.minValue
      rw [hm, if_neg Bool.false_ne_true, hwidth]
      apply Int.modEq_iff_dvd.mpr
      refine ⟨-1, ?_⟩
      rw [pow_add]
      ring
  rw [hshift.setWidth (by omega), ← hwidth] at hvalue
  have hrep := rep_valueIn hh false (doubleIntExt (shift truncated one m.ifBits true : DoubleWord h) m.width false)
  unfold FixedMode.wrap at hmin
  rw [hm] at hmin
  rw [hvalue, hmin, hwidth] at hrep
  exact hrep

end Range

/-! ## Saturation -/

section Saturation

variable {m : FixedMode h} {sat : Bool} {z : ℤ}

/-- What saturation leaves of an exact result, before the last extension.
Source: `fixed-value.c` `fixed_saturate1`, `fixed_saturate2` -/
structure Saturates (m : FixedMode h) (sat : Bool) (exact : ℤ) (result : DoubleWord h × Bool) : Prop where
  bits_eq : result.1.bits.setWidth m.width = BitVec.ofInt m.width (if sat then m.clamp exact else exact)
  overflow_iff : result.2 = true ↔ sat = false ∧ ¬ m.Has exact

/-- The last extension makes the value of the mode. Source: `fixed-value.c` (`double_int_ext`). Kind: L -/
theorem Saturates.computes (hh : 0 < h) {result : DoubleWord h × Bool} (hr : Saturates m sat z result) :
    Computes m sat z (doubleIntExt result.1 m.width m.unsigned, result.2) := by
  refine ⟨?_, hr.overflow_iff⟩
  rw [valueIn_final hh hr.bits_eq]
  cases sat with
  | true => exact m.wrap_of_has (m.has_clamp z)
  | false => rfl

/-- A result that is in range. Source: `fixed-value.c` `fixed_saturate1`, `fixed_saturate2`. Kind: L -/
theorem saturates_in {f : DoubleWord h} (hz : m.Has z) (hf : f.bits.setWidth m.width = BitVec.ofInt m.width z) (sat : Bool) :
    Saturates m sat z (f, false) := by
  refine ⟨?_, by simp [hz]⟩
  rw [hf, m.clamp_of_has hz, ite_self]

/-- A result that is out of range. Source: `fixed-value.c` `fixed_saturate1`, `fixed_saturate2`. Kind: L -/
theorem saturates_out {f g : DoubleWord h} (hz : ¬ m.Has z) (hf : f.bits.setWidth m.width = BitVec.ofInt m.width z)
    (hg : g.bits.setWidth m.width = BitVec.ofInt m.width (m.clamp z)) (sat : Bool) :
    Saturates m sat z (if sat then (g, false) else (f, true)) := by
  cases sat with
  | true =>
    refine ⟨?_, by simp⟩
    rw [if_pos rfl, if_pos rfl]
    exact hg
  | false => exact ⟨hf, by simp [hz]⟩

/-- The decision that both functions make. Source: `fixed-value.c` `fixed_saturate1`, `fixed_saturate2`. Kind: L -/
theorem saturates_ite {f max min : DoubleWord h} (hf : f.bits.setWidth m.width = BitVec.ofInt m.width z)
    (hmax : Rep max m.maxValue) (hmin : z < m.minValue → Rep min m.minValue) (sat : Bool) :
    Saturates m sat z
      (if m.maxValue < z then (if sat then (max, false) else (f, true))
        else if z < m.minValue then (if sat then (min, false) else (f, true))
        else (f, false)) := by
  have hle := m.width_le_four
  by_cases hover : m.maxValue < z
  · rw [if_pos hover]
    apply saturates_out (fun hz => absurd hz.2 (by omega)) hf
    rw [hmax.setWidth hle, m.clamp_of_over hover]
  · rw [if_neg hover]
    by_cases hunder : z < m.minValue
    · rw [if_pos hunder]
      apply saturates_out (fun hz => absurd hz.1 (by omega)) hf
      rw [(hmin hunder).setWidth hle, m.clamp_of_under hunder]
    · rw [if_neg hunder]
      exact saturates_in ⟨by omega, by omega⟩ hf sat

theorem FixedMode.valueIn_of_rep (hh : 0 < h) {x : DoubleWord h} (hz : m.Has z) (hx : Rep x z) :
    valueIn m.unsigned x.bits = z :=
  hx.valueIn_eq hh (inType_mono m.width_le_four (m.has_iff.mp hz))

/-- **Saturation of a result in two words.** Source: `fixed-value.c` `fixed_saturate1`. Kind: C -/
theorem fixedSaturate1_spec (hh : 0 < h) (truncated : Bool) {a f : DoubleWord h} (ha : valueIn m.unsigned a.bits = z)
    (hf : f.bits.setWidth m.width = BitVec.ofInt m.width z) (sat : Bool) :
    Saturates m sat z (fixedSaturate1 truncated m a f sat) := by
  have hmax := rep_max hh m
  have hmaxValue := FixedMode.valueIn_of_rep hh (z := m.maxValue) ⟨m.min_le_max, le_refl _⟩ hmax
  unfold fixedSaturate1
  simp only [doubleIntCmp_eq_one_iff hh, doubleIntCmp_eq_neg_one_iff hh]
  cases hm : m.unsigned with
  | true =>
    have hzero := FixedMode.not_lt_min hm (z := z) (by rw [← ha, hm]; exact Int.natCast_nonneg _)
    have hsat := saturates_ite hf hmax (fun hlt => (absurd hlt hzero : Rep f m.minValue)) sat
    rw [if_neg hzero] at hsat
    rw [hm] at ha hmaxValue
    rw [if_pos rfl, ha, hmaxValue]
    exact hsat
  | false =>
    have hmin := rep_min hh truncated m hm
    have hminValue := FixedMode.valueIn_of_rep hh (z := m.minValue) ⟨le_refl _, m.min_le_max⟩ hmin
    rw [hm] at ha hmaxValue hminValue
    rw [if_neg Bool.false_ne_true, ha, hmaxValue, hminValue]
    exact saturates_ite hf hmax (fun _ => hmin) sat

/-- The comparison of two halves with another pair. Source: `fixed-value.c` `fixed_saturate2`. Kind: L -/
theorem halves_lt_iff {W r s r' s' : ℤ} (hs : 0 ≤ s) (hs' : 0 ≤ s') (hsW : s < W) (hsW' : s' < W) :
    r * W + s < r' * W + s' ↔ r < r' ∨ (r = r' ∧ s < s') := by
  constructor
  · intro hlt
    rcases lt_trichotomy r r' with hr | rfl | hr
    · exact .inl hr
    · exact .inr ⟨rfl, by omega⟩
    · nlinarith
  · rintro (hr | ⟨rfl, hr⟩)
    · nlinarith
    · omega

/-- **Saturation of a result in four words.** Source: `fixed-value.c` `fixed_saturate2`. Kind: C -/
theorem fixedSaturate2_spec (hh : 0 < h) (truncated : Bool) {r s f : DoubleWord h}
    (hz : valueIn m.unsigned r.bits * 2 ^ (4 * h) + s.toNat = z)
    (hf : f.bits.setWidth m.width = BitVec.ofInt m.width z) (sat : Bool) :
    Saturates m sat z (fixedSaturate2 truncated m r s f sat) := by
  have hmax := rep_max hh m
  have hpos : (0 : ℤ) < 2 ^ m.ifBits := by positivity
  have hle : m.ifBits ≤ 4 * h := by
    have := m.width_le_four
    unfold FixedMode.width at this
    omega
  have hpow : (2 : ℤ) ^ m.ifBits ≤ 2 ^ (4 * h) := pow_le_pow_right₀ (by norm_num) hle
  have hslt : (s.toNat : ℤ) < 2 ^ (4 * h) := by exact_mod_cast s.toNat_lt
  have hunsigned : ∀ x : DoubleWord h, valueIn true x.bits = x.toNat := by
    intro x
    unfold valueIn
    rw [if_pos rfl, x.toNat_bits]
  have hmaxNat : ((doubleIntExt allOnes m.ifBits true : DoubleWord h).toNat : ℤ) = m.maxValue := by
    apply hmax.toNat_eq hh
    · unfold FixedMode.maxValue
      omega
    · unfold FixedMode.maxValue
      omega
  have heq : ∀ (x : DoubleWord h) (w : ℤ), valueIn m.unsigned x.bits = w → (r = x ↔ valueIn m.unsigned r.bits = w) := by
    intro x w hw
    constructor
    · rintro rfl
      exact hw
    · intro hr
      exact DoubleWord.bits_inj (eq_of_valueIn hh (hr.trans hw.symm))
  have hzeroValue : valueIn m.unsigned (zero : DoubleWord h).bits = 0 :=
    FixedMode.valueIn_of_rep hh m.has_zero rep_zero
  have hover : (0 < valueIn m.unsigned r.bits ∨ (valueIn m.unsigned r.bits = 0 ∧ m.maxValue < s.toNat)) ↔ m.maxValue < z := by
    have hlt : 0 * 2 ^ (4 * h) + m.maxValue < valueIn m.unsigned r.bits * 2 ^ (4 * h) + (s.toNat : ℤ) ↔ _ :=
      halves_lt_iff (by unfold FixedMode.maxValue; omega) (by omega) (by unfold FixedMode.maxValue; omega) hslt
    rw [hz, zero_mul, zero_add] at hlt
    rw [hlt, eq_comm]
  unfold fixedSaturate2
  simp only [doubleIntCmp_eq_one_iff hh, doubleIntCmp_eq_neg_one_iff hh, heq _ _ hzeroValue, hunsigned, hmaxNat]
  cases hm : m.unsigned with
  | true =>
    have hnonneg : 0 ≤ z := by
      rw [← hz, hm, hunsigned]
      positivity
    have hzero := FixedMode.not_lt_min hm hnonneg
    have hsat := saturates_ite hf hmax (fun hlt => (absurd hlt hzero : Rep f m.minValue)) sat
    rw [if_neg hzero] at hsat
    rw [hm] at hover hzeroValue
    rw [← hunsigned zero, hzeroValue, ← hunsigned r, if_pos rfl]
    simp only [hover]
    exact hsat
  | false =>
    have hmin := rep_min hh truncated m hm
    have hminValue : m.minValue = -2 ^ m.ifBits := by
      unfold FixedMode.minValue
      rw [hm, if_neg Bool.false_ne_true]
    have hmaxValue : m.maxValue = 2 ^ m.ifBits - 1 := rfl
    have hminNat : ((doubleIntExt (shift truncated one m.ifBits true) (1 + m.ifBits) false : DoubleWord h).toNat : ℤ) =
        m.minValue + 2 ^ (4 * h) := by
      apply Rep.toNat_eq hh
      · apply Rep.of_modEq hh
        exact hmin.modEq.trans (Int.modEq_iff_dvd.mpr ⟨1, by ring⟩)
      · omega
      · omega
    have hones : valueIn m.unsigned (allOnes : DoubleWord h).bits = -1 := by
      apply FixedMode.valueIn_of_rep hh _ rep_allOnes
      constructor <;> omega
    have hunder : (valueIn m.unsigned r.bits < -1 ∨
        (valueIn m.unsigned r.bits = -1 ∧ (s.toNat : ℤ) < m.minValue + 2 ^ (4 * h))) ↔ z < m.minValue := by
      have hlt : valueIn m.unsigned r.bits * 2 ^ (4 * h) + (s.toNat : ℤ) <
          -1 * 2 ^ (4 * h) + (m.minValue + 2 ^ (4 * h)) ↔ _ := halves_lt_iff (by omega) (by omega) hslt (by omega)
      rw [hz] at hlt
      rw [← hlt]
      constructor <;> intro hbelow <;> linarith
    simp only [heq _ _ hones]
    rw [hm] at hover hzeroValue hones hunder
    rw [hm, if_neg Bool.false_ne_true, hzeroValue, hones, hminNat]
    simp only [hover, hunder]
    exact saturates_ite hf hmax (fun _ => hmin) sat

end Saturation

end GccCore.Gcc.FixedValue
