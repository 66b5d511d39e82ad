import GccCore.Gcc.FixedValue.Saturate

/-!
# `gcc/fixed-value.c`: sums, differences and negation

* **The sign bit** of a value (`getFixedSignBit_eq`) is that of what is left of it in the mode.
* **Sums and differences** (`doFixedAdd_computes`): two operands of one sign with a sum of another one, or a carry.
* **Negation** (`doFixedNeg_computes`): only the least value of a signed mode has no negative.
-/

set_option linter.unusedSectionVars false

namespace GccCore.Gcc.FixedValue

open GccCore.Gcc.FoldConst GccCore.Lib.MachineInt

variable {h : ℕ} (hh : 0 < h) (truncated : Bool) (m : FixedMode h)

/-! ## Wrapping -/

section Wrap

variable {m} {z w : ℤ}

/-- The value of the mode in a class is what wraps from it. Kind: L -/
theorem FixedMode.wrap_eq_of_modEq (hw : m.Has w) (hmod : w ≡ z [ZMOD 2 ^ m.width]) : m.wrap z = w := by
  apply eq_of_inType (m.has_iff.mp (m.has_wrap z)) (m.has_iff.mp hw) _ m.width_pos
  exact (m.wrap_modEq z).trans hmod.symm

/-- The bits of a value of the class. Kind: L -/
theorem Rep.setWidth_of_modEq {x : DoubleWord h} (hx : Rep x w) (hmod : w ≡ z [ZMOD 2 ^ m.width]) :
    x.bits.setWidth m.width = BitVec.ofInt m.width z := by
  rw [hx.setWidth m.width_le_four]
  exact ofInt_eq_of_modEq hmod

variable (hm : m.unsigned = false)

include hm

/-- Source: `fixed-value.c` (`SIGNED_FIXED_POINT_MODE_P`). Kind: L -/
theorem FixedMode.width_signed : m.width = m.ifBits + 1 := by
  unfold FixedMode.width
  rw [hm, if_neg Bool.false_ne_true]
  omega

/-- Source: `fixed-value.c` (`SIGNED_FIXED_POINT_MODE_P`). Kind: L -/
theorem FixedMode.min_signed : m.minValue = -2 ^ m.ifBits := by
  unfold FixedMode.minValue
  rw [hm, if_neg Bool.false_ne_true]

/-- A sum that is too large comes out too small, and vice versa. Source: `fixed-value.c` `do_fixed_add`. Kind: L -/
theorem FixedMode.wrap_neg_iff (hlow : 2 * m.minValue ≤ z) (hhigh : z ≤ 2 * m.maxValue + 1) :
    m.wrap z < 0 ↔ (m.minValue ≤ z ∧ z < 0) ∨ m.maxValue < z := by
  have hmin := m.min_signed hm
  have hmax : m.maxValue = 2 ^ m.ifBits - 1 := rfl
  have hpow : (2 : ℤ) ^ m.width = 2 * 2 ^ m.ifBits := by rw [m.width_signed hm, pow_succ, mul_comm]
  by_cases hover : m.maxValue < z
  · have hwrap : m.wrap z = z - 2 ^ m.width := by
      apply m.wrap_eq_of_modEq
      · constructor <;> omega
      · exact Int.modEq_iff_dvd.mpr ⟨1, by ring⟩
    rw [hwrap]
    omega
  · by_cases hunder : z < m.minValue
    · have hwrap : m.wrap z = z + 2 ^ m.width := by
        apply m.wrap_eq_of_modEq
        · constructor <;> omega
        · exact Int.modEq_iff_dvd.mpr ⟨-1, by ring⟩
      rw [hwrap]
      omega
    · rw [m.wrap_of_has ⟨by omega, by omega⟩]
      omega

end Wrap

/-! ## The sign bit -/

section Sign

include hh

/-- The bit is cut out of one of the two halves. Source: `fixed-value.c` `get_fixed_sign_bit`. Kind: L -/
theorem getFixedSignBit_eq_getLsbD (x : DoubleWord h) (n : ℕ) :
    getFixedSignBit x n = if x.bits.getLsbD n then 1 else 0 := by
  have hbit : ∀ (w : Word h) (k : ℕ), w >>> k &&& 1 = if w.getLsbD k then 1 else 0 := by
    intro w k
    split_ifs with hk
    · exact (and_one_eq_one_iff hh w k).mpr hk
    · apply BitVec.eq_of_toNat_eq
      have hlt : (w >>> k &&& 1 : Word h).toNat < 2 := by
        rw [BitVec.toNat_and, one_toNat hh]
        exact lt_of_le_of_lt Nat.and_le_right (by omega)
      have hne : (w >>> k &&& 1 : Word h).toNat ≠ 1 := by
        intro hone
        apply hk
        apply (and_one_eq_one_iff hh w k).mp
        apply BitVec.eq_of_toNat_eq
        rw [hone, one_toNat hh]
      have hzero : (0 : Word h).toNat = 0 := BitVec.toNat_zero
      omega
  unfold getFixedSignBit
  rw [hbit, hbit, x.getLsbD_bits]
  split_ifs <;> rfl

variable {m} (hm : m.unsigned = false)

include hm

/-- The bit is the sign of what is left of the value. Source: `fixed-value.c` `get_fixed_sign_bit`. Kind: L -/
theorem getFixedSignBit_eq {x : DoubleWord h} {z : ℤ} (hx : Rep x z) :
    getFixedSignBit x m.ifBits = if m.wrap z < 0 then 1 else 0 := by
  have hwidth := m.width_signed hm
  have hmsb : x.bits.getLsbD m.ifBits = (BitVec.ofInt m.width z).msb := by
    rw [← hx.setWidth m.width_le_four, BitVec.msb_eq_getLsbD_last, BitVec.getLsbD_setWidth, hwidth, Nat.add_sub_cancel,
      decide_eq_true (Nat.lt_succ_self _), Bool.true_and]
  rw [getFixedSignBit_eq_getLsbD hh, hmsb, BitVec.msb_eq_toInt]
  unfold FixedMode.wrap valueIn
  rw [hm, if_neg Bool.false_ne_true]
  simp only [decide_eq_true_eq]

/-- Equal sign bits are equal signs. Source: `fixed-value.c` `get_fixed_sign_bit`. Kind: L -/
theorem getFixedSignBit_eq_iff {x y : DoubleWord h} {z w : ℤ} (hx : Rep x z) (hy : Rep y w) :
    getFixedSignBit x m.ifBits = getFixedSignBit y m.ifBits ↔ (m.wrap z < 0 ↔ m.wrap w < 0) := by
  have hne : (1 : Word h) ≠ 0 := by
    intro heq
    have hnat := congrArg BitVec.toNat heq
    rw [one_toNat hh] at hnat
    exact absurd hnat (by simp)
  rw [getFixedSignBit_eq hh hm hx, getFixedSignBit_eq hh hm hy]
  split_ifs with hneg hneg' hneg'
  · exact iff_of_true rfl (iff_of_true hneg hneg')
  · exact iff_of_false hne (fun hiff => hneg' (hiff.mp hneg))
  · exact iff_of_false (Ne.symm hne) (fun hiff => hneg (hiff.mpr hneg'))
  · exact iff_of_true rfl (iff_of_false hneg hneg')

/-- Source: `fixed-value.c` `get_fixed_sign_bit`. Kind: L -/
theorem getFixedSignBit_eq_zero_iff {x : DoubleWord h} {z : ℤ} (hx : Rep x z) :
    getFixedSignBit x m.ifBits = 0 ↔ 0 ≤ m.wrap z := by
  have hzero : m.wrap 0 = 0 := m.wrap_of_has m.has_zero
  have hrep := getFixedSignBit_eq hh hm (rep_zero (h := h))
  rw [hzero, if_neg (lt_irrefl 0)] at hrep
  rw [← hrep, getFixedSignBit_eq_iff hh hm hx rep_zero, hzero]
  omega

end Sign

/-! ## Sums and differences -/

section Sum

variable {m} {a b : DoubleWord h} {x y : ℤ}

include hh

/-- The sum as it stands before saturation. Source: `fixed-value.c` `do_fixed_add`. Kind: L -/
theorem rep_sum (ha : Rep a x) (hb : Rep b y) (subtract : Bool) :
    Rep (doubleIntAdd a (if subtract then doubleIntNeg b else b)) (if subtract then x - y else x + y) := by
  cases subtract with
  | true => exact ha.add hh (hb.neg hh)
  | false => exact ha.add hh hb

/-- A signed sum or difference. Source: `fixed-value.c` `do_fixed_add` ("Signed type"). Kind: L -/
theorem saturates_signed_sum (hm : m.unsigned = false) (ha : Rep a x) (hb : Rep b y) (hx : m.Has x) (hy : m.Has y)
    {f : DoubleWord h} {subtract : Bool} (hf : Rep f (if subtract then x - y else x + y)) (sat : Bool) :
    Saturates m sat (if subtract then x - y else x + y)
      (if (subtract = false ∧ getFixedSignBit a m.ifBits = getFixedSignBit b m.ifBits ∧
            getFixedSignBit a m.ifBits ≠ getFixedSignBit f m.ifBits) ∨
          (subtract = true ∧ getFixedSignBit a m.ifBits ≠ getFixedSignBit b m.ifBits ∧
            getFixedSignBit a m.ifBits ≠ getFixedSignBit f m.ifBits) then
        (if sat then
          (if getFixedSignBit a m.ifBits = 0 then doubleIntAdd (shift truncated one m.ifBits true) (doubleIntNeg one)
            else shift truncated one m.ifBits true, false)
        else (f, true))
      else (f, false)) := by
  have hmin := m.min_signed hm
  have hmax : m.maxValue = 2 ^ m.ifBits - 1 := rfl
  have hwidth := m.width_signed hm
  have hfour := m.width_le_four
  obtain ⟨hxlow, hxhigh⟩ := hx
  obtain ⟨hylow, hyhigh⟩ := hy
  have hxwrap := m.wrap_of_has (z := x) ⟨hxlow, hxhigh⟩
  have hywrap := m.wrap_of_has (z := y) ⟨hylow, hyhigh⟩
  have hshift := (rep_one hh).shift_left hh truncated (by omega : m.ifBits < 4 * h) true
  rw [one_mul] at hshift
  simp only [ne_eq, getFixedSignBit_eq_iff hh hm ha hb, getFixedSignBit_eq_iff hh hm ha hf,
    getFixedSignBit_eq_zero_iff hh hm ha, hxwrap, hywrap]
  have hcase : (subtract = true ∧ (if subtract then x - y else x + y) = x - y) ∨
      (subtract = false ∧ (if subtract then x - y else x + y) = x + y) := by
    cases subtract with
    | true => exact .inl ⟨rfl, rfl⟩
    | false => exact .inr ⟨rfl, rfl⟩
  generalize (if subtract then x - y else x + y) = z at hf hcase ⊢
  have hwrap := m.wrap_neg_iff (z := z) hm (by omega) (by omega)
  have hover : (subtract = false ∧ (x < 0 ↔ y < 0) ∧ ¬ (x < 0 ↔ m.wrap z < 0) ∨
      subtract = true ∧ ¬ (x < 0 ↔ y < 0) ∧ ¬ (x < 0 ↔ m.wrap z < 0)) ↔
      (0 ≤ x ∧ m.maxValue < z) ∨ (x < 0 ∧ z < m.minValue) := by
    rw [hwrap]
    rcases hcase with ⟨rfl, hz⟩ | ⟨rfl, hz⟩
    · simp only [Bool.true_eq_false, false_and, true_and, false_or]
      omega
    · simp only [Bool.false_eq_true, false_and, true_and, or_false]
      omega
  simp only [hover]
  by_cases hlarge : 0 ≤ x ∧ m.maxValue < z
  · rw [if_pos (.inl hlarge), if_pos hlarge.1]
    apply saturates_out (fun hin => absurd hin.2 (by omega)) (hf.setWidth hfour)
    rw [m.clamp_of_over hlarge.2, hmax]
    exact (hshift.add hh ((rep_one hh).neg hh)).setWidth hfour
  · by_cases hsmall : x < 0 ∧ z < m.minValue
    · rw [if_pos (.inr hsmall), if_neg (by omega : ¬ 0 ≤ x)]
      apply saturates_out (fun hin => absurd hin.1 (by omega)) (hf.setWidth hfour)
      rw [m.clamp_of_under hsmall.2, hmin]
      apply hshift.setWidth_of_modEq
      rw [hwidth]
      exact Int.modEq_iff_dvd.mpr ⟨-1, by ring⟩
    · rw [if_neg (fun hcond => hcond.elim hlarge hsmall)]
      have hin : m.Has z := by
        constructor <;> omega
      exact saturates_in hin (hf.setWidth hfour) sat

/-- An unsigned difference. Source: `fixed-value.c` `do_fixed_add` ("Unsigned subtraction"). Kind: L -/
theorem saturates_unsigned_difference (hm : m.unsigned = true) (ha : Rep a x) (hb : Rep b y) (hx : m.Has x) (hy : m.Has y)
    {f : DoubleWord h} (hf : Rep f (x - y)) (sat : Bool) :
    Saturates m sat (x - y)
      (if doubleIntCmp a b true = -1 then (if sat then (zero, false) else (f, true)) else (f, false)) := by
  have hmin : m.minValue = 0 := by
    unfold FixedMode.minValue
    rw [hm, if_pos rfl]
  have hax := FixedMode.valueIn_of_rep hh hx ha
  have hby := FixedMode.valueIn_of_rep hh hy hb
  rw [hm] at hax hby
  obtain ⟨hxlow, hxhigh⟩ := hx
  obtain ⟨hylow, hyhigh⟩ := hy
  simp only [doubleIntCmp_eq_neg_one_iff hh, hax, hby]
  by_cases hlt : x < y
  · rw [if_pos hlt]
    apply saturates_out (fun hin => absurd hin.1 (by omega)) (hf.setWidth m.width_le_four)
    rw [m.clamp_of_under (by omega), hmin]
    exact rep_zero.setWidth m.width_le_four
  · rw [if_neg hlt]
    have hin : m.Has (x - y) := by
      constructor <;> omega
    exact saturates_in hin (hf.setWidth m.width_le_four) sat

/-- An unsigned sum. Source: `fixed-value.c` `do_fixed_add` ("Unsigned addition"). Kind: L -/
theorem saturates_unsigned_sum (hm : m.unsigned = true) (ha : Rep a x) (hb : Rep b y) (hx : m.Has x) (hy : m.Has y)
    {f : DoubleWord h} (hf : Rep f (x + y)) (sat : Bool) :
    Saturates m sat (x + y)
      (if doubleIntCmp (doubleIntExt f m.ifBits true) a true = -1 ∨ doubleIntCmp (doubleIntExt f m.ifBits true) b true = -1
        then (if sat then (allOnes, false) else (doubleIntExt f m.ifBits true, true))
        else (doubleIntExt f m.ifBits true, false)) := by
  have hwidth : m.width = m.ifBits := by
    unfold FixedMode.width
    rw [hm, if_pos rfl, zero_add]
  have hmin : m.minValue = 0 := by
    unfold FixedMode.minValue
    rw [hm, if_pos rfl]
  have hmax : m.maxValue = 2 ^ m.width - 1 := by
    rw [hwidth]
    rfl
  have hax := FixedMode.valueIn_of_rep hh hx ha
  have hby := FixedMode.valueIn_of_rep hh hy hb
  have hext := valueIn_final hh (hf.setWidth m.width_le_four)
  have hbits : (doubleIntExt f m.ifBits true).bits.setWidth m.width = BitVec.ofInt m.width (x + y) := by
    have hrep := rep_valueIn hh m.unsigned (doubleIntExt f m.width m.unsigned)
    rw [hext] at hrep
    rw [← hwidth, ← hm]
    exact hrep.setWidth_of_modEq (m.wrap_modEq _)
  rw [hm, hwidth] at hext
  rw [hm] at hax hby
  obtain ⟨hxlow, hxhigh⟩ := hx
  obtain ⟨hylow, hyhigh⟩ := hy
  simp only [doubleIntCmp_eq_neg_one_iff hh, hax, hby, hext]
  by_cases hover : m.maxValue < x + y
  · have hwrap : m.wrap (x + y) = x + y - 2 ^ m.width := by
      apply m.wrap_eq_of_modEq
      · constructor <;> omega
      · exact Int.modEq_iff_dvd.mpr ⟨1, by ring⟩
    rw [if_pos (.inl (by omega))]
    apply saturates_out (fun hin => absurd hin.2 (by omega)) hbits
    rw [m.clamp_of_over hover, hmax]
    exact rep_allOnes.setWidth_of_modEq (Int.modEq_iff_dvd.mpr ⟨1, by ring⟩)
  · have hin : m.Has (x + y) := by
      constructor <;> omega
    rw [m.wrap_of_has hin, if_neg (by omega)]
    exact saturates_in hin hbits sat

/-- **Sums and differences.** Source: `fixed-value.c` `do_fixed_add`. Kind: C -/
theorem doFixedAdd_computes (ha : Rep a x) (hb : Rep b y) (hx : m.Has x) (hy : m.Has y) (subtract sat : Bool) :
    Computes m sat (if subtract then x - y else x + y) (doFixedAdd truncated m a b subtract sat) := by
  have hf := rep_sum hh ha hb subtract
  unfold doFixedAdd
  dsimp only
  apply Saturates.computes hh
  by_cases hm : m.unsigned = true
  · rw [if_pos hm]
    cases subtract with
    | true => exact saturates_unsigned_difference hh hm ha hb hx hy hf sat
    | false => exact saturates_unsigned_sum hh hm ha hb hx hy hf sat
  · rw [if_neg hm]
    exact saturates_signed_sum hh truncated (Bool.not_eq_true _ ▸ hm) ha hb hx hy hf sat

end Sum

/-! ## Negation -/

section Negation

variable {m} {a : DoubleWord h} {x : ℤ}

include hh

omit hh in
theorem eq_iff_pieces (y w : DoubleWord h) : y = w ↔ y.high = w.high ∧ y.low = w.low := by
  constructor
  · rintro rfl
    exact ⟨rfl, rfl⟩
  · rcases y with ⟨ylow, yhigh⟩
    rcases w with ⟨wlow, whigh⟩
    rintro ⟨hhigh, hlow⟩
    congr

/-- **Negation.** Source: `fixed-value.c` `do_fixed_neg`. Kind: C -/
theorem doFixedNeg_computes (ha : Rep a x) (hx : m.Has x) (sat : Bool) : Computes m sat (-x) (doFixedNeg m a sat) := by
  have hneg := ha.neg hh
  have hvalue := valueIn_final hh (hneg.setWidth m.width_le_four)
  have hax := FixedMode.valueIn_of_rep hh hx ha
  have hzeroValue : valueIn m.unsigned (zero : DoubleWord h).bits = 0 := FixedMode.valueIn_of_rep hh m.has_zero rep_zero
  have heq : ∀ y : DoubleWord h, doubleIntExt (doubleIntNeg a) m.width m.unsigned = y ↔ m.wrap (-x) = valueIn m.unsigned y.bits := by
    intro y
    rw [← hvalue]
    constructor
    · rintro rfl
      rfl
    · intro hy
      exact DoubleWord.bits_inj (eq_of_valueIn hh hy)
  have hzero := heq zero
  have hself := heq a
  rw [hzeroValue, eq_iff_pieces] at hzero
  rw [hax, eq_iff_pieces] at hself
  have hmod := m.wrap_modEq (-x)
  obtain ⟨hxlow, hxhigh⟩ := hx
  unfold doFixedNeg
  dsimp only
  cases hm : m.unsigned with
  | true =>
    have hmin : m.minValue = 0 := by
      unfold FixedMode.minValue
      rw [hm, if_pos rfl]
    rw [hm] at hzero hvalue hzeroValue
    rw [if_pos rfl]
    by_cases hx0 : x = 0
    · have hwrap : m.wrap (-x) = 0 := by
        rw [hx0, neg_zero]
        exact m.wrap_of_has m.has_zero
      obtain ⟨hhigh, hlow⟩ := hzero.mpr hwrap
      rw [if_neg (by rw [hlow, hhigh]; simp [zero])]
      apply computes_in
      · rw [hx0, neg_zero]
        exact m.has_zero
      · rw [hm, hvalue, hwrap, hx0, neg_zero]
    · have hout : ¬ m.Has (-x) := fun hin => absurd hin.1 (by omega)
      have hne : m.wrap (-x) ≠ 0 := by
        intro hwrap
        rw [hwrap] at hmod
        have hx0' : (0 : ℤ) = x := by
          apply eq_of_inType (m.has_iff.mp m.has_zero) (m.has_iff.mp ⟨hxlow, hxhigh⟩) _ m.width_pos
          have hneg0 := hmod.neg
          rw [neg_zero, neg_neg] at hneg0
          exact hneg0
        exact hx0 hx0'.symm
      have hpieces : (doubleIntExt (doubleIntNeg a) m.width true).low ≠ 0 ∨
          (doubleIntExt (doubleIntNeg a) m.width true).high ≠ 0 := by
        by_contra hall
        push Not at hall
        exact hne (hzero.mp ⟨hall.2, hall.1⟩)
      rw [if_pos hpieces]
      apply computes_out hout
      · rw [hm]
        exact hvalue
      · rw [hm, hzeroValue, m.clamp_of_under (by omega), hmin]
  | false =>
    have hmin := m.min_signed hm
    have hmax : m.maxValue = 2 ^ m.ifBits - 1 := rfl
    rw [hm] at hzero hvalue hself
    rw [if_neg Bool.false_ne_true]
    have hiff : (¬ ((doubleIntExt (doubleIntNeg a) m.width false).high = 0 ∧
        (doubleIntExt (doubleIntNeg a) m.width false).low = 0) ∧
        (doubleIntExt (doubleIntNeg a) m.width false).high = a.high ∧
        (doubleIntExt (doubleIntNeg a) m.width false).low = a.low) ↔ x = m.minValue := by
      rw [hself, show (doubleIntExt (doubleIntNeg a) m.width false).high = 0 ∧
        (doubleIntExt (doubleIntNeg a) m.width false).low = 0 ↔ m.wrap (-x) = 0 from hzero]
      constructor
      · rintro ⟨hne, hwrap⟩
        by_contra hx0
        rw [m.wrap_of_has (by constructor <;> omega)] at hne hwrap
        omega
      · rintro rfl
        have hwrap : m.wrap (-m.minValue) = m.minValue := by
          apply m.wrap_eq_of_modEq ⟨le_refl _, m.min_le_max⟩
          rw [hmin, m.width_signed hm]
          exact Int.modEq_iff_dvd.mpr ⟨1, by ring⟩
        rw [hwrap]
        exact ⟨by omega, rfl⟩
    by_cases hx0 : x = m.minValue
    · rw [if_pos (hiff.mpr hx0)]
      apply computes_out (fun hin => absurd hin.2 (by omega))
      · rw [hm]
        exact hvalue
      · rw [m.clamp_of_over (by omega)]
        exact FixedMode.valueIn_of_rep hh ⟨m.min_le_max, le_refl _⟩ (rep_max hh m)
    · have hin : m.Has (-x) := by
        constructor <;> omega
      rw [if_neg (fun hcond => hx0 (hiff.mp hcond))]
      apply computes_in hin
      rw [hm, hvalue, m.wrap_of_has hin]

end Negation

end GccCore.Gcc.FixedValue
