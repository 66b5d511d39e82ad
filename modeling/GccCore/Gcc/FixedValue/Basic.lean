import GccCore.Gcc.DoubleInt

/-!
# `gcc/fixed-value.c`: fixed-point arithmetic

A fixed-point value is an integer of two words, scaled by a power of two that its mode gives. Operations are computed in two
words if the mode fits in one, and in four words otherwise; then the result is saturated, or cut down to the mode.

* **Modes** (`FixedMode`) and their ranges (`FixedMode.minValue`, `FixedMode.maxValue`).
* **Saturation** (`fixedSaturate1`, `fixedSaturate2`).
* **Operations** (`doFixedAdd`, `doFixedMultiply`, `doFixedDivide`, `doFixedShift`, `doFixedNeg`).
-/

namespace GccCore.Gcc.FixedValue

open GccCore.Gcc.FoldConst GccCore.Lib.MachineInt

variable {h : ℕ}

/-! ## Modes -/

/-- A mode of a fixed-point type: every such mode has a fraction, and it fits in two words of the host.
Source: `machmode.h` `GET_MODE_IBIT`, `GET_MODE_FBIT`, `GET_MODE_PRECISION`, `UNSIGNED_FIXED_POINT_MODE_P` -/
structure FixedMode (h : ℕ) where
  unsigned : Bool
  ibit : ℕ
  fbit : ℕ
  precision : ℕ
  fbit_pos : 0 < fbit
  width_le : (if unsigned then 0 else 1) + (ibit + fbit) ≤ precision
  precision_le : precision ≤ 4 * h

/-- Source: `fixed-value.c` (`i_f_bits`). -/
def FixedMode.ifBits (m : FixedMode h) : ℕ := m.ibit + m.fbit

/-- The bits of a value, with the sign bit. Source: `fixed-value.c` (`(!unsigned_p) + i_f_bits`). -/
def FixedMode.width (m : FixedMode h) : ℕ := (if m.unsigned then 0 else 1) + m.ifBits

/-- The least value. Source: `fixed-value.c` `fixed_saturate1` (`min`). -/
def FixedMode.minValue (m : FixedMode h) : ℤ := if m.unsigned then 0 else -2 ^ m.ifBits

/-- The greatest value. Source: `fixed-value.c` `fixed_saturate1` (`max`). -/
def FixedMode.maxValue (m : FixedMode h) : ℤ := 2 ^ m.ifBits - 1

/-- The values of a mode. Source: `fixed-value.c` `fixed_saturate1`. -/
def FixedMode.Has (m : FixedMode h) (z : ℤ) : Prop := m.minValue ≤ z ∧ z ≤ m.maxValue

instance (m : FixedMode h) (z : ℤ) : Decidable (m.Has z) := inferInstanceAs (Decidable (_ ∧ _))

/-! ## Saturation -/

/-- All bits are set. Source: `fixed-value.c` (`max.low = -1; max.high = -1`). -/
def allOnes : DoubleWord h := ⟨-1, -1⟩

/-- Source: `fixed-value.c` (`min.high = 0; min.low = 1`). -/
def one : DoubleWord h := ⟨1, 0⟩

/-- Source: `fixed-value.c`. -/
def zero : DoubleWord h := ⟨0, 0⟩

variable (truncated : Bool)

/-- A shift in two words. Source: `fixed-value.c` (`lshift_double (..., 2 * HOST_BITS_PER_WIDE_INT, ...)`). -/
def shift (x : DoubleWord h) (count : ℤ) (arith : Bool) : DoubleWord h := lshiftDouble truncated x count (2 * (2 * h)) arith

/-- The new value of `*f`, and if there was an overflow. Source: `fixed-value.c` `fixed_saturate1`. -/
def fixedSaturate1 (m : FixedMode h) (a f : DoubleWord h) (sat : Bool) : DoubleWord h × Bool :=
  let max := doubleIntExt allOnes m.ifBits true
  if m.unsigned then
    if doubleIntCmp a max true = 1 then (if sat then (max, false) else (f, true)) else (f, false)
  else
    let min := doubleIntExt (shift truncated one m.ifBits true) (1 + m.ifBits) false
    if doubleIntCmp a max false = 1 then (if sat then (max, false) else (f, true))
    else if doubleIntCmp a min false = -1 then (if sat then (min, false) else (f, true))
    else (f, false)

/-- The new value of `*f`, and if there was an overflow. Source: `fixed-value.c` `fixed_saturate2`. -/
def fixedSaturate2 (m : FixedMode h) (aHigh aLow f : DoubleWord h) (sat : Bool) : DoubleWord h × Bool :=
  let maxR := zero
  let maxS := doubleIntExt allOnes m.ifBits true
  if m.unsigned then
    if doubleIntCmp aHigh maxR true = 1 ∨ (aHigh = maxR ∧ doubleIntCmp aLow maxS true = 1) then
      (if sat then (maxS, false) else (f, true))
    else (f, false)
  else
    let minR := allOnes
    let minS := doubleIntExt (shift truncated one m.ifBits true) (1 + m.ifBits) false
    if doubleIntCmp aHigh maxR false = 1 ∨ (aHigh = maxR ∧ doubleIntCmp aLow maxS true = 1) then
      (if sat then (maxS, false) else (f, true))
    else if doubleIntCmp aHigh minR false = -1 ∨ (aHigh = minR ∧ doubleIntCmp aLow minS true = -1) then
      (if sat then (minS, false) else (f, true))
    else (f, false)

/-! ## Addition -/

/-- Source: `fixed-value.c` `get_fixed_sign_bit`. -/
def getFixedSignBit (a : DoubleWord h) (ifBits : ℕ) : Word h :=
  if ifBits < 2 * h then a.low >>> ifBits &&& 1 else a.high >>> (ifBits - 2 * h) &&& 1

/-- Source: `fixed-value.c` `do_fixed_add`. -/
def doFixedAdd (m : FixedMode h) (a b : DoubleWord h) (subtract sat : Bool) : DoubleWord h × Bool :=
  let temp := if subtract then doubleIntNeg b else b
  let f := doubleIntAdd a temp
  let sign := fun x : DoubleWord h => getFixedSignBit x m.ifBits
  let (f, overflow) :=
    if m.unsigned then
      if subtract then
        if doubleIntCmp a b true = -1 then (if sat then (zero, false) else (f, true)) else (f, false)
      else
        let f := doubleIntExt f m.ifBits true
        if doubleIntCmp f a true = -1 ∨ doubleIntCmp f b true = -1 then (if sat then (allOnes, false) else (f, true))
        else (f, false)
    else
      if (subtract = false ∧ sign a = sign b ∧ sign a ≠ sign f) ∨
          (subtract = true ∧ sign a ≠ sign b ∧ sign a ≠ sign f) then
        if sat then
          let f := shift truncated one m.ifBits true
          (if sign a = 0 then doubleIntAdd f (doubleIntNeg one) else f, false)
        else (f, true)
      else (f, false)
  (doubleIntExt f m.width m.unsigned, overflow)

/-! ## Multiplication -/

/-- A sum and whether it wrapped. Source: `fixed-value.c` `do_fixed_multiply` (`carry++`). -/
def addCarry (x y : DoubleWord h) : DoubleWord h × Bool :=
  let s := doubleIntAdd x y
  (s, decide (doubleIntCmp s x true = -1 ∨ doubleIntCmp s y true = -1))

/-- The four words of the unsigned product, as two halves. Source: `fixed-value.c` `do_fixed_multiply`. -/
def wideProduct (a b : DoubleWord h) : DoubleWord h × DoubleWord h :=
  let aHigh : DoubleWord h := ⟨a.high, 0⟩
  let aLow : DoubleWord h := ⟨a.low, 0⟩
  let bHigh : DoubleWord h := ⟨b.high, 0⟩
  let bLow : DoubleWord h := ⟨b.low, 0⟩
  let lowLow := doubleIntMul aLow bLow
  let lowHigh := doubleIntMul aLow bHigh
  let highLow := doubleIntMul aHigh bLow
  let highHigh := doubleIntMul aHigh bHigh
  let (s, carry₁) := addCarry lowLow ⟨0, highLow.low⟩
  let (s, carry₂) := addCarry s ⟨0, lowHigh.low⟩
  let r := doubleIntAdd highHigh ⟨highLow.high, 0⟩
  let r := doubleIntAdd r ⟨lowHigh.high, 0⟩
  let r := doubleIntAdd r ⟨(if carry₁ then 1 else 0) + (if carry₂ then 1 else 0), 0⟩
  (r, s)

/-- The upper half, with signs. Source: `fixed-value.c` `do_fixed_multiply` ("We need to add neg(b) to r, if a < 0"). -/
def signedHigh (unsigned : Bool) (a b r : DoubleWord h) : DoubleWord h :=
  let r := if !unsigned && a.high.msb then doubleIntAdd r (doubleIntNeg b) else r
  if !unsigned && b.high.msb then doubleIntAdd r (doubleIntNeg a) else r

/-- Two halves, shifted to the right by `fbit`: the new upper half and the new lower half.
Source: `fixed-value.c` `do_fixed_multiply` ("Shift right the result by FBIT") -/
def shiftHalves (m : FixedMode h) (r s : DoubleWord h) : DoubleWord h × DoubleWord h :=
  if m.fbit = 2 * (2 * h) then (if m.unsigned then zero else allOnes, r)
  else
    let s := shift truncated s (-m.fbit) false
    let f := shift truncated r (2 * (2 * h) - m.fbit) false
    let f : DoubleWord h := ⟨f.low ||| s.low, f.high ||| s.high⟩
    (shift truncated r (-m.fbit) (!m.unsigned), f)

/-- Source: `fixed-value.c` `do_fixed_multiply`. -/
def doFixedMultiply (m : FixedMode h) (a b : DoubleWord h) (sat : Bool) : DoubleWord h × Bool :=
  let (f, overflow) :=
    if m.precision ≤ 2 * h then
      let f := shift truncated (doubleIntMul a b) (-m.fbit) (!m.unsigned)
      fixedSaturate1 truncated m f f sat
    else
      let (r, s) := wideProduct a b
      let (r, s) := shiftHalves truncated m (signedHigh m.unsigned a b r) s
      fixedSaturate2 truncated m r s s sat
  (doubleIntExt f m.width m.unsigned, overflow)

/-! ## Division -/

/-- One bit of the quotient: the rest of the lower half, the quotient so far and the remainder.
Source: `fixed-value.c` `do_fixed_divide` (the body of `for`) -/
def divideBit (posB : DoubleWord h) : DoubleWord h × DoubleWord h × DoubleWord h → DoubleWord h × DoubleWord h × DoubleWord h
  | (s, quoS, mod) =>
    let leftmostMod := mod.high.msb
    let mod := shift truncated mod 1 false
    let mod : DoubleWord h := if s.high.msb then ⟨mod.low + 1, mod.high⟩ else mod
    let quoS := shift truncated quoS 1 false
    let temp := doubleIntAdd mod (doubleIntNeg posB)
    let (quoS, mod) :=
      if leftmostMod = true ∨ doubleIntCmp mod posB true ≠ -1 then ((⟨quoS.low + 1, quoS.high⟩ : DoubleWord h), temp)
      else (quoS, mod)
    (shift truncated s 1 false, quoS, mod)

/-- Source: `fixed-value.c` `do_fixed_divide` (`for (i = 0; i < 2 * HOST_BITS_PER_WIDE_INT; i++)`). -/
def divideBits (posB : DoubleWord h) :
    ℕ → DoubleWord h × DoubleWord h × DoubleWord h → DoubleWord h × DoubleWord h × DoubleWord h
  | 0, state => state
  | i + 1, state => divideBit truncated posB (divideBits posB i state)

/-- The value without its sign, and if it had one. Source: `fixed-value.c` `do_fixed_divide` (`pos_a`, `num_of_neg++`). -/
def positive (unsigned : Bool) (a : DoubleWord h) : DoubleWord h × Bool :=
  if !unsigned && a.high.msb then (doubleIntNeg a, true) else (a, false)

/-- Two halves with the sign changed. Source: `fixed-value.c` `do_fixed_divide` (`num_of_neg == 1`). -/
def negHalves (r s : DoubleWord h) : DoubleWord h × DoubleWord h :=
  let s := doubleIntNeg s
  if s.high = 0 ∧ s.low = 0 then (doubleIntNeg r, s) else (⟨~~~r.low, ~~~r.high⟩, s)

/-- Source: `fixed-value.c` `do_fixed_divide`. -/
def doFixedDivide (m : FixedMode h) (a b : DoubleWord h) (sat : Bool) : DoubleWord h × Bool :=
  let (f, overflow) :=
    if m.precision ≤ 2 * h then
      let f := shift truncated a m.fbit (!m.unsigned)
      let f := (divAndRoundDouble .TRUNC_DIV_EXPR m.unsigned f b).1
      fixedSaturate1 truncated m f f sat
    else
      let (posA, negA) := positive m.unsigned a
      let (posB, negB) := positive m.unsigned b
      let (r, s) :=
        if m.fbit = 2 * (2 * h) then (posA, zero)
        else (shift truncated posA (-(2 * (2 * h) - m.fbit)) false, shift truncated posA m.fbit false)
      let (quoR, mod, _) := divAndRoundDouble .TRUNC_DIV_EXPR true r posB
      let (_, quoS, _) := divideBits truncated posB (2 * (2 * h)) (s, zero, mod)
      let (quoR, quoS) := if negA != negB then negHalves quoR quoS else (quoR, quoS)
      fixedSaturate2 truncated m quoR quoS quoS sat
  (doubleIntExt f m.width m.unsigned, overflow)

/-! ## Shifts and negation -/

/-- The count is the lower word of the second operand. Source: `fixed-value.c` `do_fixed_shift`. -/
def doFixedShift (m : FixedMode h) (a b : DoubleWord h) (left sat : Bool) : DoubleWord h × Bool :=
  if b.low = 0 then (a, false)
  else
    let (f, overflow) :=
      if m.precision ≤ 2 * h ∨ left = false then
        let f := shift truncated a (if left then b.low.toInt else (-b.low).toInt) (!m.unsigned)
        if left then fixedSaturate1 truncated m f f sat else (f, false)
      else
        let (tempHigh, tempLow) :=
          if b.low.toNat = 2 * (2 * h) then (a, zero)
          else
            (shift truncated a (b.low - BitVec.ofNat (2 * h) (2 * (2 * h))).toInt false,
              shift truncated a b.low.toInt (!m.unsigned))
        let tempHigh := if !m.unsigned && a.high.msb then doubleIntExt tempHigh b.low.toNat m.unsigned else tempHigh
        fixedSaturate2 truncated m tempHigh tempLow tempLow sat
    (doubleIntExt f m.width m.unsigned, overflow)

/-- Source: `fixed-value.c` `do_fixed_neg`. -/
def doFixedNeg (m : FixedMode h) (a : DoubleWord h) (sat : Bool) : DoubleWord h × Bool :=
  let f := doubleIntExt (doubleIntNeg a) m.width m.unsigned
  if m.unsigned then
    if f.low ≠ 0 ∨ f.high ≠ 0 then (if sat then (zero, false) else (f, true)) else (f, false)
  else
    if ¬ (f.high = 0 ∧ f.low = 0) ∧ f.high = a.high ∧ f.low = a.low then
      if sat then (doubleIntExt allOnes m.ifBits true, false) else (f, true)
    else (f, false)

/-! ## All operations -/

/-- Source: `fixed-value.c` `fixed_arithmetic`. -/
inductive FixedCode
  | NEGATE_EXPR
  | PLUS_EXPR
  | MINUS_EXPR
  | MULT_EXPR
  | TRUNC_DIV_EXPR
  | LSHIFT_EXPR
  | RSHIFT_EXPR
  deriving DecidableEq

/-- The result and if there was an overflow; both operands have the mode `m`, but for a shift.
Source: `fixed-value.c` `fixed_arithmetic` -/
def fixedArithmetic (m : FixedMode h) (code : FixedCode) (op0 op1 : DoubleWord h) (sat : Bool) : DoubleWord h × Bool :=
  match code with
  | .NEGATE_EXPR => doFixedNeg m op0 sat
  | .PLUS_EXPR => doFixedAdd truncated m op0 op1 false sat
  | .MINUS_EXPR => doFixedAdd truncated m op0 op1 true sat
  | .MULT_EXPR => doFixedMultiply truncated m op0 op1 sat
  | .TRUNC_DIV_EXPR => doFixedDivide truncated m op0 op1 sat
  | .LSHIFT_EXPR => doFixedShift truncated m op0 op1 true sat
  | .RSHIFT_EXPR => doFixedShift truncated m op0 op1 false sat

end GccCore.Gcc.FixedValue
