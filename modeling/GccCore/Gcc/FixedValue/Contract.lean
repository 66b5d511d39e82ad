import GccCore.Gcc.FixedValue.Additive
import GccCore.Gcc.FixedValue.Wide
import Mathlib.Data.Rat.Floor

/-!
# `gcc/fixed-value.c`: the contract of `fixed_arithmetic`

**Main result**: `fixedArithmetic_computes`. In every mode the result is the exact rational one, scaled, rounded down or
toward zero, and then clamped to the range of the mode or wrapped into it with a flag.

* **The exact result** (`FixedCode.exact`, `FixedCode.rounded`) in rational numbers.
* **Shifts** (`doFixedShift_computes`) in both widths.
-/

set_option linter.unusedSectionVars false

namespace GccCore.Gcc.FixedValue

open GccCore.Gcc.FoldConst GccCore.Lib.MachineInt

variable {h : ℕ}

/-! ## The exact result -/

/-- The number that an integer stands for. Source: `fixed-value.h` `struct fixed_value` ("scaled"). -/
def FixedMode.number (m : FixedMode h) (z : ℤ) : ℚ := z / 2 ^ m.fbit

/-- The exact result on two numbers, or on a number and a count. Source: `fixed-value.c` `fixed_arithmetic`. -/
def FixedCode.exact (code : FixedCode) (v w : ℚ) (count : ℕ) : ℚ :=
  match code with
  | .NEGATE_EXPR => -v
  | .PLUS_EXPR => v + w
  | .MINUS_EXPR => v - w
  | .MULT_EXPR => v * w
  | .TRUNC_DIV_EXPR => v / w
  | .LSHIFT_EXPR => v * 2 ^ count
  | .RSHIFT_EXPR => v / 2 ^ count

/-- A quotient is rounded toward zero, everything else down. Source: `fixed-value.c` `fixed_arithmetic`. -/
def FixedCode.rounded (code : FixedCode) (q : ℚ) : ℤ :=
  match code with
  | .TRUNC_DIV_EXPR => if q < 0 then ⌈q⌉ else ⌊q⌋
  | _ => ⌊q⌋

/-- The second operand that each operation takes: a value of the mode, or the count of a shift.
Source: `fixed-value.c` `fixed_arithmetic` (`op0->mode == op1->mode`) -/
def FixedCode.Takes (code : FixedCode) (m : FixedMode h) (op1 : DoubleWord h) : Prop :=
  match code with
  | .NEGATE_EXPR => True
  | .PLUS_EXPR | .MINUS_EXPR | .MULT_EXPR => m.Has (valueIn m.unsigned op1.bits)
  | .TRUNC_DIV_EXPR => m.Has (valueIn m.unsigned op1.bits) ∧ valueIn m.unsigned op1.bits ≠ 0
  | .LSHIFT_EXPR | .RSHIFT_EXPR => op1.low.toNat < m.precision

/-- The scaled result that an operation rounds to. Source: `fixed-value.c` `fixed_arithmetic`. -/
def FixedCode.scaled (code : FixedCode) (m : FixedMode h) (op0 op1 : DoubleWord h) : ℤ :=
  code.rounded (code.exact (m.number (valueIn m.unsigned op0.bits)) (m.number (valueIn m.unsigned op1.bits)) op1.low.toNat *
    2 ^ m.fbit)

section Exact

variable (m : FixedMode h) (x y : ℤ) (count : ℕ)

theorem FixedMode.number_mul (z : ℤ) : m.number z * 2 ^ m.fbit = z := by
  unfold FixedMode.number
  exact div_mul_cancel₀ _ (by positivity)

/-- A quotient by a power of two, rounded down. -/
theorem floor_div_two_pow (z : ℤ) (n : ℕ) : ⌊(z : ℚ) / 2 ^ n⌋ = z / 2 ^ n := by
  have hcast := Rat.floor_intCast_div_natCast z (2 ^ n)
  push_cast at hcast
  exact hcast

/-- A quotient, rounded toward zero. -/
theorem trunc_div_eq (z w : ℤ) :
    (if (z : ℚ) / w < 0 then ⌈(z : ℚ) / w⌉ else ⌊(z : ℚ) / w⌋) = z.tdiv w := by
  have hpos : ∀ a b : ℕ, (if (a : ℚ) / b < 0 then ⌈(a : ℚ) / b⌉ else ⌊(a : ℚ) / b⌋) = ((a / b : ℕ) : ℤ) := by
    intro a b
    rw [if_neg (not_lt.mpr (by positivity)), Rat.floor_natCast_div_natCast, Int.natCast_div]
  have hneg : ∀ a b : ℕ, (if -((a : ℚ) / b) < 0 then ⌈-((a : ℚ) / b)⌉ else ⌊-((a : ℚ) / b)⌋) = -((a / b : ℕ) : ℤ) := by
    intro a b
    have hnonneg : (0 : ℚ) ≤ (a : ℚ) / b := by positivity
    split_ifs with hlt
    · rw [Int.ceil_neg, Rat.floor_natCast_div_natCast, Int.natCast_div]
    · have hzero : (a : ℚ) / b = 0 := by linarith
      have hfloor := Rat.floor_natCast_div_natCast a b
      rw [hzero, Int.floor_zero] at hfloor
      rw [hzero, neg_zero, Int.floor_zero, Int.natCast_div, ← hfloor, neg_zero]
  obtain ⟨a, rfl | rfl⟩ := Int.eq_nat_or_neg z
  · obtain ⟨b, rfl | rfl⟩ := Int.eq_nat_or_neg w
    · exact hpos a b
    · rw [Int.tdiv_neg, Int.cast_neg, div_neg]
      exact hneg a b
  · obtain ⟨b, rfl | rfl⟩ := Int.eq_nat_or_neg w
    · rw [Int.neg_tdiv, Int.cast_neg, neg_div]
      exact hneg a b
    · rw [Int.neg_tdiv_neg, Int.cast_neg, Int.cast_neg, neg_div_neg_eq]
      exact hpos a b

/-- **The exact result, in integers.** Source: `fixed-value.c` `fixed_arithmetic`. Kind: L -/
theorem rounded_exact (code : FixedCode) :
    code.rounded (code.exact (m.number x) (m.number y) count * 2 ^ m.fbit) =
      match code with
      | .NEGATE_EXPR => -x
      | .PLUS_EXPR => x + y
      | .MINUS_EXPR => x - y
      | .MULT_EXPR => x * y / 2 ^ m.fbit
      | .TRUNC_DIV_EXPR => (x * 2 ^ m.fbit).tdiv y
      | .LSHIFT_EXPR => x * 2 ^ count
      | .RSHIFT_EXPR => x / 2 ^ count := by
  have hx := m.number_mul x
  have hy := m.number_mul y
  have hpow : (2 : ℚ) ^ m.fbit ≠ 0 := by positivity
  -- what is to be rounded is an integer, or a quotient of two
  have hint : ∀ (q : ℚ) (z : ℤ), q = z → ⌊q⌋ = z := by
    rintro q z rfl
    exact Int.floor_intCast z
  unfold FixedCode.rounded FixedCode.exact
  cases code with
  | NEGATE_EXPR =>
    apply hint
    push_cast
    rw [← hx]
    ring
  | PLUS_EXPR | MINUS_EXPR =>
    apply hint
    push_cast
    rw [← hx, ← hy]
    ring
  | MULT_EXPR =>
    have hquot : m.number x * m.number y * 2 ^ m.fbit = ((x * y : ℤ) : ℚ) / 2 ^ m.fbit := by
      unfold FixedMode.number
      push_cast
      field_simp
    dsimp only
    rw [hquot, floor_div_two_pow]
  | TRUNC_DIV_EXPR =>
    have hquot : m.number x / m.number y * 2 ^ m.fbit = ((x * 2 ^ m.fbit : ℤ) : ℚ) / y := by
      unfold FixedMode.number
      push_cast
      rw [div_div_div_cancel_right₀ hpow]
      ring
    dsimp only
    rw [hquot, trunc_div_eq]
  | LSHIFT_EXPR =>
    apply hint
    push_cast
    rw [← hx]
    ring
  | RSHIFT_EXPR =>
    have hquot : m.number x / 2 ^ count * 2 ^ m.fbit = (x : ℚ) / 2 ^ count := by
      rw [← hx]
      ring
    dsimp only
    rw [hquot, floor_div_two_pow]

end Exact

/-! ## Shifts -/

section Shift

variable (hh : 2 ≤ h) (truncated : Bool) {m : FixedMode h} {a b : DoubleWord h} {x : ℤ}

include hh

/-- The counts of shifts are within a word. -/
theorem count_lt : 4 * h ≤ 2 ^ (2 * h - 1) := by
  obtain ⟨k, rfl⟩ := Nat.exists_eq_add_of_le hh
  induction k with
  | zero => decide
  | succ k ih =>
    have hpow : 2 ^ (2 * (2 + (k + 1)) - 1) = 4 * 2 ^ (2 * (2 + k) - 1) := by
      rw [show 2 * (2 + (k + 1)) - 1 = 2 * (2 + k) - 1 + 2 by omega, pow_add]
      ring
    have := ih (by omega)
    omega

/-- **Shifts.** Source: `fixed-value.c` `do_fixed_shift`. Kind: C -/
theorem doFixedShift_computes (ha : Rep a x) (hx : m.Has x) (hb : b.low.toNat < m.precision) (left sat : Bool) :
    Computes m sat (if left then x * 2 ^ b.low.toNat else x / 2 ^ b.low.toNat) (doFixedShift truncated m a b left sat) := by
  have hprec := m.precision_le
  have hcounts := count_lt hh
  have hwidth : 2 ^ (2 * h) = 2 * 2 ^ (2 * h - 1) := by rw [← pow_succ', show 2 * h - 1 + 1 = 2 * h by omega]
  have hax := FixedMode.valueIn_of_rep (by omega) hx ha
  have hcount : b.low.toInt = b.low.toNat := by
    rw [BitVec.toInt_eq_toNat_of_lt (by omega)]
  by_cases hzero : b.low = 0
  · have hnat : b.low.toNat = 0 := by
      rw [hzero]
      exact BitVec.toNat_zero
    unfold doFixedShift
    rw [if_pos hzero, hnat, pow_zero, mul_one, Int.ediv_one, ite_self]
    exact computes_in hx hax
  · have hpos : 0 < b.low.toNat := by
      apply Nat.pos_of_ne_zero
      intro hnat
      exact hzero (BitVec.eq_of_toNat_eq (hnat.trans BitVec.toNat_zero.symm))
    unfold doFixedShift
    rw [if_neg hzero]
    cases left with
    | false =>
      have hnegCount : (-b.low).toInt = -(b.low.toNat : ℤ) := by
        rw [BitVec.toInt_neg_of_ne_intMin, hcount]
        intro hmin
        rw [hmin, BitVec.toNat_intMin] at hb
        have hhalf : 2 ^ (2 * h - 1) % 2 ^ (2 * h) = 2 ^ (2 * h - 1) := Nat.mod_eq_of_lt (by omega)
        omega
      have hright : m.precision ≤ 2 * h ∨ false = false := .inr rfl
      rw [if_pos hright]
      change Computes m sat (x / 2 ^ b.low.toNat)
        (doubleIntExt (shift truncated a (-b.low).toInt (!m.unsigned)) m.width m.unsigned, false)
      rw [hnegCount]
      exact shift_right_computes (by omega) truncated ha hx hpos hb sat
    | true =>
      by_cases hp : m.precision ≤ 2 * h
      · have hnarrow : m.precision ≤ 2 * h ∨ true = false := .inl hp
        rw [if_pos hnarrow, hcount]
        exact narrow_shift_left (by omega) truncated hp ha hx hb sat
      · have hcountHigh : (b.low - BitVec.ofNat (2 * h) (2 * (2 * h))).toInt = (b.low.toNat : ℤ) - 4 * h := by
          have hsub : b.low - BitVec.ofNat (2 * h) (2 * (2 * h)) = BitVec.ofInt (2 * h) ((b.low.toNat : ℤ) - 4 * h) := by
            rw [ofInt_sub, BitVec.ofInt_natCast, BitVec.ofNat_toNat, BitVec.setWidth_eq,
              show (4 * h : ℤ) = ((2 * (2 * h) : ℕ) : ℤ) by push_cast; ring, BitVec.ofInt_natCast]
          rw [hsub]
          refine valueIn_ofInt (by omega) (?_ : inType (2 * h) false _)
          have hhalf : (4 * h : ℤ) ≤ 2 ^ (2 * h - 1) := by exact_mod_cast hcounts
          unfold inType
          rw [if_neg Bool.false_ne_true]
          constructor <;> omega
        have hwide : ¬ (m.precision ≤ 2 * h ∨ true = false) := by simp [hp]
        have hfull : ¬ b.low.toNat = 2 * (2 * h) := by omega
        rw [if_neg hwide, if_neg hfull, hcount, hcountHigh]
        exact wide_shift_left (by omega) truncated ha hx hpos hb sat

end Shift

/-! ## All operations -/

section Arithmetic

variable (hh : 2 ≤ h) (truncated : Bool) (m : FixedMode h) (code : FixedCode) (op0 op1 : DoubleWord h) (sat : Bool)

include hh

/-- **Fixed-point arithmetic.** On operands of the mode, and a divisor that is not zero, and a count below the precision, the
result is the exact one: scaled, rounded, and then clamped if `sat` is set, or else wrapped with a flag.
Source: `fixed-value.c` `fixed_arithmetic`
Kind: P -/
theorem fixedArithmetic_computes (hop0 : m.Has (valueIn m.unsigned op0.bits)) (hop1 : code.Takes m op1) :
    Computes m sat (code.scaled m op0 op1) (fixedArithmetic truncated m code op0 op1 sat) := by
  have hpos : 0 < h := by omega
  have ha := rep_valueIn hpos m.unsigned op0
  have hb := rep_valueIn hpos m.unsigned op1
  unfold FixedCode.scaled fixedArithmetic
  rw [rounded_exact]
  generalize valueIn m.unsigned op0.bits = x at hop0 ha ⊢
  cases code with
  | NEGATE_EXPR => exact doFixedNeg_computes hpos ha hop0 sat
  | PLUS_EXPR => exact doFixedAdd_computes hpos truncated ha hb hop0 hop1 false sat
  | MINUS_EXPR => exact doFixedAdd_computes hpos truncated ha hb hop0 hop1 true sat
  | MULT_EXPR =>
    by_cases hp : m.precision ≤ 2 * h
    · exact narrow_multiply hpos truncated hp ha hb hop0 hop1 sat
    · exact wide_multiply hpos truncated hp ha hb hop0 hop1 sat
  | TRUNC_DIV_EXPR =>
    by_cases hp : m.precision ≤ 2 * h
    · exact narrow_divide hpos truncated hp ha hb hop0 hop1.1 hop1.2 sat
    · exact wide_divide hpos truncated hp ha hb hop0 hop1.1 hop1.2 sat
  | LSHIFT_EXPR => exact doFixedShift_computes hh truncated ha hop0 hop1 true sat
  | RSHIFT_EXPR => exact doFixedShift_computes hh truncated ha hop0 hop1 false sat

omit hh in
/-- Saturated minus one by one half, in a mode of a sign and three bits behind the point: minus one. -/
theorem fixedArithmetic_divide_saturated :
    let m : FixedMode 16 := ⟨false, 0, 3, 8, by decide, by decide, by decide⟩
    m.Has (valueIn m.unsigned (⟨-8, -1⟩ : DoubleWord 16).bits) ∧ FixedCode.TRUNC_DIV_EXPR.Takes m ⟨4, 0⟩ ∧
      Computes m true (FixedCode.TRUNC_DIV_EXPR.scaled m ⟨-8, -1⟩ ⟨4, 0⟩)
        (fixedArithmetic false m .TRUNC_DIV_EXPR ⟨-8, -1⟩ ⟨4, 0⟩ true) := by
  intro m
  have hop0 : m.Has (valueIn m.unsigned (⟨-8, -1⟩ : DoubleWord 16).bits) := by decide +kernel
  have hop1 : FixedCode.TRUNC_DIV_EXPR.Takes m ⟨4, 0⟩ := by
    constructor
    · decide +kernel
    · decide +kernel
  exact ⟨hop0, hop1, fixedArithmetic_computes (by decide) false m .TRUNC_DIV_EXPR ⟨-8, -1⟩ ⟨4, 0⟩ true hop0 hop1⟩

end Arithmetic

end GccCore.Gcc.FixedValue
