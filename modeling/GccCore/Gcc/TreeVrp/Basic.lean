import GccCore.Gcc.FoldConst.Rounding
import Mathlib.Data.Int.Bitwise
import Mathlib.Data.Int.Range

/-!
# `gcc/tree-vrp.c`: constants of integer types

Value-range propagation computes with constants of integer types. A constant that overflowed is marked;
a marked constant at an end of its type stands for an infinity if overflow is undefined.

* **Types** (`IntType`): signed, unsigned, and the unsigned types for sizes, whose constants are stored with
  their sign extended. A sub-type has a least and a greatest value of its own.
* **Constants** (`Cst`), their comparison (`compareValues`) and arithmetic (`intConstBinop`,
  `vrpIntConstBinop`).
-/

namespace GccCore.Gcc.TreeVrp

open GccCore.Gcc.FoldConst

/-! ## Types -/

/-- An integer type of at most two host words. A size type is unsigned and at most as wide as a word. A sub-type, which has a
base type, has its own least and greatest value as `subrange`; they are values of the base type.
Source: `tree.h` `TYPE_PRECISION`, `TYPE_UNSIGNED`, `TYPE_IS_SIZETYPE`, `TYPE_MIN_VALUE`, `TYPE_MAX_VALUE` -/
structure IntType where
  prec : ℕ
  unsigned : Bool
  sizetype : Bool
  subrange : Option (ℤ × ℤ)
  prec_pos : 0 < prec
  prec_le : prec ≤ 128
  unsigned_of_sizetype : sizetype = true → unsigned = true ∧ prec ≤ 64
  subrange_has : ∀ r, subrange = some r → ∀ z, z = r.1 ∨ z = r.2 →
    (if unsigned then 0 else -2 ^ (prec - 1)) ≤ z ∧ z ≤ if unsigned then 2 ^ prec - 1 else 2 ^ (prec - 1) - 1
  deriving DecidableEq

/-- A type of one bit more than `n`, which is no size type and no sub-type. Source: `tree.c` `build_nonstandard_integer_type`. -/
def IntType.ofWidth (n : BitVec 7) (unsigned : Bool) : IntType :=
  { prec := n.toNat + 1, unsigned := unsigned, sizetype := false, prec_pos := Nat.succ_pos _, prec_le := n.isLt
    unsigned_of_sizetype := fun h => absurd h Bool.false_ne_true, subrange := none, subrange_has := nofun }

/-- The options that say what signed overflow does.
Source: `flags.h` (`flag_wrapv`, `flag_trapv`, `flag_strict_overflow`) -/
structure Flags where
  wrapv : Bool
  trapv : Bool
  strictOverflow : Bool
  deriving DecidableEq

/-- Source: `tree.h` `integer_type_node`. -/
def intType : IntType := .ofWidth 31 false

/-- The options of a build that optimises. Source: `opts.c` `decode_options` (`flag_strict_overflow`). -/
def strictFlags : Flags := ⟨false, false, true⟩

/-- The least value of a type, or of the base type of a sub-type. Source: `tree-vrp.c` `vrp_val_min`. -/
def IntType.minValue (t : IntType) : ℤ := if t.unsigned then 0 else -2 ^ (t.prec - 1)

/-- The greatest value of a type, or of the base type of a sub-type. Source: `tree-vrp.c` `vrp_val_max`. -/
def IntType.maxValue (t : IntType) : ℤ := if t.unsigned then 2 ^ t.prec - 1 else 2 ^ (t.prec - 1) - 1

/-- Source: `tree.h` `TYPE_MIN_VALUE`. -/
def IntType.typeMin (t : IntType) : ℤ := (t.subrange.map Prod.fst).getD t.minValue

/-- Source: `tree.h` `TYPE_MAX_VALUE`. -/
def IntType.typeMax (t : IntType) : ℤ := (t.subrange.map Prod.snd).getD t.maxValue

/-- The values of a type, or of the base type of a sub-type. Source: `tree-vrp.c` `vrp_val_min`, `vrp_val_max`. -/
def IntType.Has (t : IntType) (z : ℤ) : Prop := t.minValue ≤ z ∧ z ≤ t.maxValue

instance (t : IntType) (z : ℤ) : Decidable (t.Has z) := inferInstanceAs (Decidable (_ ∧ _))

/-- An integer cut down to the bits of a type. Source: `fold-const.c` `fit_double_type`. -/
def IntType.wrap (t : IntType) (z : ℤ) : ℤ :=
  if t.unsigned then z % 2 ^ t.prec else Int.bmod z (2 ^ t.prec)

/-- Source: `flags.h` `TYPE_OVERFLOW_WRAPS`. -/
def IntType.overflowWraps (t : IntType) (fl : Flags) : Bool := t.unsigned || fl.wrapv

/-- Source: `flags.h` `TYPE_OVERFLOW_UNDEFINED`. -/
def IntType.overflowUndefined (t : IntType) (fl : Flags) : Bool :=
  !t.unsigned && !fl.wrapv && !fl.trapv && fl.strictOverflow

/-- The integer that the two words of a constant hold: those of a size type are sign extended.
Source: `fold-const.c` `force_fit_type_double` (`sign_extended_type`) -/
def IntType.stored (t : IntType) (z : ℤ) : ℤ := if t.sizetype then Int.bmod z (2 ^ t.prec) else z

/-- Source: `fold-const.c` `force_fit_type_double` (`sign_extended_type`). -/
def IntType.signExtended (t : IntType) : Bool := !t.unsigned || t.sizetype

/-- The integers that sign extension from the precision of a type leaves alone.
Source: `fold-const.c` `fit_double_type` -/
def IntType.SignFits (t : IntType) (z : ℤ) : Prop := -2 ^ (t.prec - 1) ≤ z ∧ z < 2 ^ (t.prec - 1)

instance (t : IntType) (z : ℤ) : Decidable (t.SignFits z) := inferInstanceAs (Decidable (_ ∧ _))

/-! ## Constants -/

/-- A constant: its value and the mark of an overflow.
Source: `tree.h` `INTEGER_CST`, `TREE_OVERFLOW` -/
structure Cst where
  val : ℤ
  overflow : Bool
  deriving DecidableEq

/-- An unmarked constant. Source: `tree.c` `build_int_cst`. -/
def Cst.ofVal (z : ℤ) : Cst := ⟨z, false⟩

/-- The codes of the binary operations on integers that ranges are computed for.
Source: `tree-vrp.c` `extract_range_from_binary_expr` -/
inductive TreeCode
  | PLUS_EXPR
  | MINUS_EXPR
  | MULT_EXPR
  | TRUNC_DIV_EXPR
  | FLOOR_DIV_EXPR
  | CEIL_DIV_EXPR
  | EXACT_DIV_EXPR
  | ROUND_DIV_EXPR
  | RSHIFT_EXPR
  | MIN_EXPR
  | MAX_EXPR
  | BIT_AND_EXPR
  | BIT_IOR_EXPR
  | TRUTH_AND_EXPR
  | TRUTH_OR_EXPR
  deriving DecidableEq

/-- The rounding of a division. Source: `fold-const.c` `int_const_binop`. -/
def TreeCode.divCode : TreeCode → Option DivCode
  | .TRUNC_DIV_EXPR => some .TRUNC_DIV_EXPR
  | .FLOOR_DIV_EXPR => some .FLOOR_DIV_EXPR
  | .CEIL_DIV_EXPR => some .CEIL_DIV_EXPR
  | .EXACT_DIV_EXPR => some .EXACT_DIV_EXPR
  | .ROUND_DIV_EXPR => some .ROUND_DIV_EXPR
  | _ => none

/-- A right shift of an integer; a negative count shifts to the left.
Source: `fold-const.c` `lshift_double` -/
def shiftRight (x y : ℤ) : ℤ := if 0 ≤ y then x / 2 ^ y.toNat else x * 2 ^ (-y).toNat

/-- The value of an operation on two integers, before it is cut down to a type.
Source: `tree.def` -/
def TreeCode.eval : TreeCode → ℤ → ℤ → ℤ
  | .PLUS_EXPR, x, y => x + y
  | .MINUS_EXPR, x, y => x - y
  | .MULT_EXPR, x, y => x * y
  | .TRUNC_DIV_EXPR, x, y => DivCode.TRUNC_DIV_EXPR.quotient x y
  | .FLOOR_DIV_EXPR, x, y => DivCode.FLOOR_DIV_EXPR.quotient x y
  | .CEIL_DIV_EXPR, x, y => DivCode.CEIL_DIV_EXPR.quotient x y
  | .EXACT_DIV_EXPR, x, y => DivCode.EXACT_DIV_EXPR.quotient x y
  | .ROUND_DIV_EXPR, x, y => DivCode.ROUND_DIV_EXPR.quotient x y
  | .RSHIFT_EXPR, x, y => shiftRight x y
  | .MIN_EXPR, x, y => min x y
  | .MAX_EXPR, x, y => max x y
  | .BIT_AND_EXPR, x, y => Int.land x y
  | .BIT_IOR_EXPR, x, y => Int.lor x y
  | .TRUTH_AND_EXPR, x, y => if x ≠ 0 ∧ y ≠ 0 then 1 else 0
  | .TRUTH_OR_EXPR, x, y => if x ≠ 0 ∨ y ≠ 0 then 1 else 0

/-- A double-word result is cut down to a type and marked.
Source: `fold-const.c` `force_fit_type_double` (with `overflowable` 1) -/
def forceFit (t : IntType) (z : ℤ) (overflowed : Bool) : Cst :=
  ⟨t.wrap z, (t.signExtended && !decide (t.SignFits z)) || overflowed⟩

/-- The quotient of two constants of a size type: the division is one of unsigned double words, so a
sign-extended operand counts with all its bits.
Source: `fold-const.c` `int_const_binop` (`div_and_round_double`) -/
def sizetypeQuotient (t : IntType) (code : DivCode) (x y : ℤ) : ℤ :=
  Int.bmod (code.quotient (t.stored x % 2 ^ 128) (t.stored y % 2 ^ 128)) (2 ^ 128)

/-- Arithmetic on constants; `none` where the code returns a null tree. Operands of a size type are their
stored numbers. A double word never runs out for the sum, difference or product of narrower numbers than it,
and marks its own overflow otherwise.
Source: `fold-const.c` `int_const_binop` (with `notrunc` 0) -/
def intConstBinop (t : IntType) (code : TreeCode) (arg1 arg2 : Cst) : Option Cst :=
  let overflowed := arg1.overflow || arg2.overflow
  match code with
  | .PLUS_EXPR | .MINUS_EXPR | .MULT_EXPR =>
    some (forceFit t (code.eval (t.stored arg1.val) (t.stored arg2.val)) overflowed)
  | .TRUNC_DIV_EXPR | .FLOOR_DIV_EXPR | .CEIL_DIV_EXPR | .EXACT_DIV_EXPR | .ROUND_DIV_EXPR =>
    if arg2.val = 0 then none
    else
      match code.divCode with
      | some div =>
        if t.sizetype then some (forceFit t (sizetypeQuotient t div arg1.val arg2.val) overflowed)
        else some (forceFit t (div.quotient arg1.val arg2.val) overflowed)
      | none => none
  | .RSHIFT_EXPR | .MIN_EXPR | .MAX_EXPR | .BIT_AND_EXPR | .BIT_IOR_EXPR =>
    some ⟨t.wrap (code.eval arg1.val arg2.val), overflowed⟩
  | .TRUTH_AND_EXPR | .TRUTH_OR_EXPR => none

/-! ## Infinities -/

/-- A sub-type needs no infinities ("Integer sub-types never overflow as they are never operands of arithmetic operators").
Source: `tree-vrp.c` `needs_overflow_infinity` -/
def needsOverflowInfinity (fl : Flags) (t : IntType) : Bool := !t.overflowWraps fl && t.subrange.isNone

/-- Source: `tree-vrp.c` `is_negative_overflow_infinity`. -/
def isNegativeOverflowInfinity (fl : Flags) (t : IntType) (v : Cst) : Bool :=
  needsOverflowInfinity fl t && v.overflow && decide (v.val = t.minValue)

/-- Source: `tree-vrp.c` `is_positive_overflow_infinity`. -/
def isPositiveOverflowInfinity (fl : Flags) (t : IntType) (v : Cst) : Bool :=
  needsOverflowInfinity fl t && v.overflow && decide (v.val = t.maxValue)

/-- Source: `tree-vrp.c` `is_overflow_infinity`. -/
def isOverflowInfinity (fl : Flags) (t : IntType) (v : Cst) : Bool :=
  needsOverflowInfinity fl t && v.overflow &&
    (decide (v.val = t.minValue) || decide (v.val = t.maxValue))

/-- Source: `tree-vrp.c` `negative_overflow_infinity`. -/
def negativeOverflowInfinity (t : IntType) : Cst := ⟨t.minValue, true⟩

/-- Source: `tree-vrp.c` `positive_overflow_infinity`. -/
def positiveOverflowInfinity (t : IntType) : Cst := ⟨t.maxValue, true⟩

/-- The comparison of two constants: -1, 0, 1, or -2 if they cannot be compared. Equal constants are one node.
Source: `tree-vrp.c` `compare_values`, `compare_values_warnv` -/
def compareValues (fl : Flags) (t : IntType) (val1 val2 : Cst) : ℤ :=
  if val1 = val2 then 0
  else if val1.overflow || val2.overflow then
    if isNegativeOverflowInfinity fl t val1 then
      if isNegativeOverflowInfinity fl t val2 then 0 else -1
    else if isNegativeOverflowInfinity fl t val2 then 1
    else if isPositiveOverflowInfinity fl t val1 then
      if isPositiveOverflowInfinity fl t val2 then 0 else 1
    else if isPositiveOverflowInfinity fl t val2 then -1
    else -2
  else if val1.val < val2.val then -1
  else if val2.val < val1.val then 1
  else 0

/-- Whether the arithmetic of a type that wraps was exact, by the tests of the source.
Source: `tree-vrp.c` `vrp_int_const_binop` (`if (TYPE_OVERFLOW_WRAPS (TREE_TYPE (val1)))`) -/
def wrappingOverflow (fl : Flags) (t : IntType) (code : TreeCode) (val1 val2 res : Cst) : Bool :=
  let checkz := compareValues fl t res val1
  if (code = .PLUS_EXPR ∧ ¬ (checkz = 1 ∨ checkz = 0)) ∨
      (code = .MINUS_EXPR ∧ ¬ (checkz = 0 ∨ checkz = -1)) then true
  else if code = .MULT_EXPR ∧ val1.val ≠ 0 then
    match intConstBinop t .TRUNC_DIV_EXPR res val1 with
    | some tmp => decide (compareValues fl t tmp val2 ≠ 0)
    | none => true
  else false

/-- Whether an overflow goes to the positive infinity.
Source: `tree-vrp.c` `vrp_int_const_binop` (the last `if`) -/
def overflowsUp (fl : Flags) (t2 : IntType) (code : TreeCode) (val1 val2 : Cst) : Bool :=
  let sgn1 := val1.val.sign
  let sgn2 := val2.val.sign
  match code with
  | .MULT_EXPR => decide (sgn1 = sgn2)
  | .PLUS_EXPR =>
    if 0 ≤ sgn1 then !isNegativeOverflowInfinity fl t2 val2 else isPositiveOverflowInfinity fl t2 val2
  | .MINUS_EXPR =>
    if 0 ≤ sgn1 then !isPositiveOverflowInfinity fl t2 val2 else isNegativeOverflowInfinity fl t2 val2
  | .RSHIFT_EXPR => decide (0 ≤ sgn1)
  | .TRUNC_DIV_EXPR | .FLOOR_DIV_EXPR | .CEIL_DIV_EXPR | .EXACT_DIV_EXPR | .ROUND_DIV_EXPR => true
  | _ => false

/-- Whether an operation on infinities has no answer.
Source: `tree-vrp.c` `vrp_int_const_binop` (`return NULL_TREE`) -/
def infinitiesPunt (fl : Flags) (t t2 : IntType) (code : TreeCode) (val1 val2 : Cst) : Bool :=
  let inf1 := isOverflowInfinity fl t val1
  let inf2 := isOverflowInfinity fl t2 val2
  let sgn1 := val1.val.sign
  let sgn2 := val2.val.sign
  match code with
  | .PLUS_EXPR => decide (sgn1 ≠ sgn2) && inf1 && inf2
  | .MINUS_EXPR => decide (sgn1 = sgn2) && inf1 && inf2
  | .TRUNC_DIV_EXPR | .FLOOR_DIV_EXPR | .CEIL_DIV_EXPR | .EXACT_DIV_EXPR | .ROUND_DIV_EXPR
  | .RSHIFT_EXPR => inf1 || inf2
  | _ => false

/-- Arithmetic on constants with infinities. The outer `none` is the null tree that the code would read (a
division by zero), the inner one the null tree that it returns. The second type is that of `val2`.
Source: `tree-vrp.c` `vrp_int_const_binop` -/
def vrpIntConstBinop (fl : Flags) (t t2 : IntType) (code : TreeCode) (val1 val2 : Cst) :
    Option (Option Cst) :=
  match intConstBinop t code val1 val2 with
  | none => none
  | some res =>
    if t.overflowWraps fl then
      if wrappingOverflow fl t code val1 val2 res then some (some ⟨res.val, true⟩) else some (some res)
    else if (res.overflow && !val1.overflow && !val2.overflow) || isOverflowInfinity fl t val1 ||
        isOverflowInfinity fl t2 val2 then
      if infinitiesPunt fl t t2 code val1 val2 then some none
      else if overflowsUp fl t2 code val1 val2 then
        some (some (if needsOverflowInfinity fl t then positiveOverflowInfinity t else .ofVal t.typeMax))
      else some (some (if needsOverflowInfinity fl t then negativeOverflowInfinity t else .ofVal t.typeMin))
    else some (some res)

end GccCore.Gcc.TreeVrp
