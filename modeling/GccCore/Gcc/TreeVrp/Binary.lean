import GccCore.Gcc.TreeVrp.Constants

/-!
# `gcc/tree-vrp.c`: ranges of binary operations

`extract_range_from_binary_expr` computes a range of values of `op0 CODE op1` from ranges of the operands by
applying the operation to end points. Ranges whose ends are names of variables are not modelled.

* **Ranges** (`ValueRange`) and the values they admit (`ValueRange.Admits`).
* **The function** (`extractRangeFromBinaryExpr`) and its branches; `none` is a failed assertion or a null tree
  that is read.
-/

namespace GccCore.Gcc.TreeVrp

/-! ## Ranges -/

/-- The values inside or outside an interval. Source: `tree-vrp.h` `enum value_range_type`. -/
inductive RangeKind
  | range
  | antiRange
  deriving DecidableEq

/-- A range of constants. Source: `tree-vrp.h` `value_range_t`. -/
inductive ValueRange
  | undefined
  | varying
  | known (kind : RangeKind) (min max : Cst)
  deriving DecidableEq

/-- The values that a range admits. Source: `tree-vrp.h` (comment of `value_range_d`). -/
def ValueRange.Admits : ValueRange → ℤ → Prop
  | .undefined, _ => False
  | .varying, _ => True
  | .known .range min max, z => min.val ≤ z ∧ z ≤ max.val
  | .known .antiRange min max, z => ¬ (min.val ≤ z ∧ z ≤ max.val)

instance (vr : ValueRange) (z : ℤ) : Decidable (vr.Admits z) :=
  match vr with
  | .undefined => .isFalse id
  | .varying => .isTrue trivial
  | .known .range _ _ => inferInstanceAs (Decidable (_ ∧ _))
  | .known .antiRange _ _ => inferInstanceAs (Decidable (¬ (_ ∧ _)))

section Admits

variable {min max : Cst} {z : ℤ}

/-- Nothing. -/
@[simp] theorem ValueRange.admits_undefined : ¬ ValueRange.undefined.Admits z := id

/-- The values of an interval. -/
@[simp] theorem ValueRange.admits_range : (ValueRange.known .range min max).Admits z ↔ min.val ≤ z ∧ z ≤ max.val := Iff.rfl

/-- The values outside an interval. -/
@[simp] theorem ValueRange.admits_antiRange :
    (ValueRange.known .antiRange min max).Admits z ↔ ¬ (min.val ≤ z ∧ z ≤ max.val) := Iff.rfl

end Admits

/-! ## The functions -/

/-- Source: `tree-vrp.c` `operand_less_p`. -/
def operandLess (fl : Flags) (t : IntType) (val val2 : Cst) : Bool :=
  if t.unsigned then decide (val.val < val2.val)
  else if val.val < val2.val then true
  else if isNegativeOverflowInfinity fl t val then !isNegativeOverflowInfinity fl t val2
  else if isPositiveOverflowInfinity fl t val2 then !isPositiveOverflowInfinity fl t val
  else false

/-- Whether an interval has zero. Source: `tree-vrp.c` `range_includes_zero_p`, `value_inside_range`. -/
def rangeIncludesZero (fl : Flags) (t : IntType) (min max : Cst) : Bool :=
  !operandLess fl t (.ofVal 0) min && !operandLess fl t max (.ofVal 0)

/-- Whether an operand with a given type and range is known not to be negative.
Source: `tree-vrp.c` `vrp_expr_computes_nonnegative`, `ssa_name_nonnegative_p` -/
def computesNonnegative (fl : Flags) (t : IntType) (vr : ValueRange) : Bool :=
  t.unsigned ||
    match vr with
    | .known .range min _ =>
      decide (compareValues fl t min (.ofVal 0) = 0 ∨ compareValues fl t min (.ofVal 0) = 1)
    | _ => false

/-- The range with the ends computed, if they are any good. `none` is a null tree.
Source: `tree-vrp.c` `extract_range_from_binary_expr` (from "If either MIN or MAX overflowed" on) -/
def finishRange (fl : Flags) (t : IntType) (kind : RangeKind) : Option Cst → Option Cst → ValueRange
  | some min, some max =>
    if Bad fl t min ∨ Bad fl t max then .varying
    else if (decide (min.val = t.minValue) || isOverflowInfinity fl t min) &&
        (decide (max.val = t.maxValue) || isOverflowInfinity fl t max) then .varying
    else if compareValues fl t min max = -2 ∨ compareValues fl t min max = 1 then .varying
    else .known kind min max
  | _, _ => .varying

/-- The next constant. The one that is added is not cut down to the type, which need not have a one.
Source: `tree-vrp.c` (`int_const_binop (PLUS_EXPR, max, build_int_cst (type, 1), 0)`) -/
def plusOne (t : IntType) (v : Cst) : Cst := forceFit t (t.stored v.val + 1) v.overflow

/-- The constant before. Source: `tree-vrp.c` (`int_const_binop (MINUS_EXPR, min, build_int_cst (type, 1), 0)`). -/
def minusOne (t : IntType) (v : Cst) : Cst := forceFit t (t.stored v.val - 1) v.overflow

/-- An anti-range that touches an end of its type is a range, but for the values that are not zero.
Source: `tree-vrp.c` `set_and_canonicalize_value_range` ("Anti-ranges that can be represented as ranges should be so") -/
def canonicalAntiRange (t : IntType) (min max : Cst) : ValueRange :=
  if min.val = t.minValue ∧ max.val = t.maxValue then .varying
  else if min.val = t.minValue ∧ ¬ (t.unsigned = true ∧ max.val = 0) then
    .known .range (plusOne t max) (.ofVal t.maxValue)
  else if max.val = t.maxValue then .known .range (.ofVal t.minValue) (minusOne t min)
  else .known .antiRange min max

/-- Source: `tree-vrp.c` `set_and_canonicalize_value_range`. -/
def setAndCanonicalizeValueRange (t : IntType) (kind : RangeKind) (min max : Cst) : ValueRange :=
  if max.val < min.val then
    let lo := plusOne t max
    let hi := minusOne t min
    if hi.val < lo.val then .varying
    else if kind = .range then canonicalAntiRange t lo hi
    else .known .range lo hi
  else if kind = .antiRange then canonicalAntiRange t min max
  else .known .range min max

/-- Source: `fold-const.c` `fold_abs_const`. -/
def foldAbsConst (t : IntType) (arg : Cst) : Cst :=
  if t.unsigned then arg
  else if -1 < arg.val then arg
  else ⟨t.wrap (-arg.val), !decide (t.Has (-arg.val)) || arg.overflow⟩

/-- Source: `fold-const.c` `fold_negate_const`. -/
def foldNegateConst (t : IntType) (arg : Cst) : Cst :=
  forceFit t (-t.stored arg.val) (arg.overflow && !t.unsigned)

/-- Source: `tree-vrp.c` `abs_extent_range`. -/
def absExtentRange (fl : Flags) (t : IntType) (min max : Cst) : Option ValueRange :=
  if t.unsigned then none
  else
    let min := foldAbsConst t min
    let max := foldAbsConst t max
    if min.overflow || max.overflow then some .varying
    else if compareValues fl t min max = -1 then
      some (setAndCanonicalizeValueRange t .range (foldNegateConst t max) max)
    else if compareValues fl t min max = 0 ∨ compareValues fl t min max = 1 then
      some (setAndCanonicalizeValueRange t .range (foldNegateConst t min) min)
    else some .varying

/-- The range of a division whose divisor can be anything but zero.
Source: `tree-vrp.c` `extract_range_from_binary_expr` ("For divisions, if op0 is VR_RANGE") -/
def divideByUnknown (fl : Flags) (t t1 : IntType) (min0 max0 : Cst) (vr1 : ValueRange) :
    Option ValueRange :=
  if computesNonnegative fl t1 vr1 then
    let cmpmax := compareValues fl t max0 (.ofVal 0)
    let cmpmin := compareValues fl t min0 (.ofVal 0)
    if cmpmax = -2 ∨ cmpmin = -2 then some .varying
    else
      let max := if cmpmax = -1 then .ofVal 0 else max0
      let min := if cmpmin = 1 then .ofVal 0 else min0
      some (finishRange fl t .range (some min) (some max))
  else absExtentRange fl t min0 max0

/-- One of the four values; the flag is set if it is a null tree that was computed.
Source: `tree-vrp.c` `extract_range_from_binary_expr` (`val[i]`, `sop`) -/
def crossValue (fl : Flags) (t t1 : IntType) (code : TreeCode) (skip : Prop) [Decidable skip]
    (u v : Cst) : Option (Option Cst × Bool) :=
  if skip then some (none, false)
  else (vrpIntConstBinop fl t t1 code u v).map fun r => (r, r.isNone)

/-- The smallest and largest of the values, or an overflowed one as both.
Source: `tree-vrp.c` `extract_range_from_binary_expr` (`for (i = 1; i < 4; i++)`) -/
def crossLoop (fl : Flags) (t : IntType) : Cst → Cst → List (Option Cst) → Cst × Cst
  | min, max, [] => (min, max)
  | min, max, val :: vals =>
    if Bad fl t min ∨ Bad fl t max then (min, max)
    else
      match val with
      | none => crossLoop fl t min max vals
      | some v =>
        if Bad fl t v then (v, v)
        else
          crossLoop fl t (if compareValues fl t v min = -1 then v else min)
            (if compareValues fl t v max = 1 then v else max) vals

/-- The four cross operations.
Source: `tree-vrp.c` `extract_range_from_binary_expr` ("Compute the 4 cross operations") -/
def crossOperations (fl : Flags) (t t1 : IntType) (code : TreeCode) (kind : RangeKind)
    (min0 max0 min1 max1 : Cst) : Option ValueRange := do
  let val0 ← crossValue fl t t1 code False min0 min1
  let val1 ← crossValue fl t t1 code (max1 = min1) min0 max1
  let val2 ← crossValue fl t t1 code (max0 = min0) max0 min1
  let val3 ← crossValue fl t t1 code (min0 = max0 ∨ min1 = max1) max0 max1
  if val0.2 || val1.2 || val2.2 || val3.2 then some .varying
  else
    match val0.1 with
    | none => none
    | some v =>
      let ends := crossLoop fl t v v [val1.1, val2.1, val3.1]
      some (finishRange fl t kind (some ends.1) (some ends.2))

/-- Source: `tree-vrp.c` `extract_range_from_binary_expr` (the divisions). -/
def extractDivision (fl : Flags) (t t1 : IntType) (code : TreeCode) (vr0 vr1 : ValueRange) :
    Option ValueRange :=
  let fromRange (min0 max0 : Cst) : Option ValueRange :=
    match vr1 with
    | .known .range min1 max1 =>
      if rangeIncludesZero fl t1 min1 max1 then divideByUnknown fl t t1 min0 max0 vr1
      else crossOperations fl t t1 code .range min0 max0 min1 max1
    | _ => divideByUnknown fl t t1 min0 max0 vr1
  match vr0 with
  | .known .range min0 max0 => fromRange min0 max0
  | _ =>
    match vr1 with
    | .known .range min1 max1 =>
      if rangeIncludesZero fl t1 min1 max1 then some .varying
      else fromRange (.ofVal t.minValue) (.ofVal t1.maxValue)
    | _ => some .varying

/-- Source: `tree-vrp.c` `extract_range_from_binary_expr` (`code == RSHIFT_EXPR`). -/
def extractShift (fl : Flags) (t t1 : IntType) (kind : RangeKind) (min0 max0 min1 max1 : Cst) :
    Option ValueRange :=
  if kind = .antiRange ∨ computesNonnegative fl t1 (.known kind min1 max1) = false ∨
      operandLess fl t1 (.ofVal ((t.prec : ℤ) - 1)) max1 = true then some .varying
  else crossOperations fl t t1 .RSHIFT_EXPR kind min0 max0 min1 max1

/-- Whether a range is one nonnegative constant. Source: `tree-vrp.c` `extract_range_from_binary_expr`. -/
def isMask : ValueRange → Bool
  | .known .range min max => decide (min = max) && !max.overflow && decide (0 ≤ max.val)
  | _ => false

/-- Source: `tree-vrp.c` `extract_range_from_binary_expr` (`code == BIT_AND_EXPR`). -/
def extractBitAnd (fl : Flags) (t : IntType) (vr0 vr1 : ValueRange) : ValueRange :=
  match vr0, vr1 with
  | .known kind0 min0 max0, .known kind1 min1 max1 =>
    if isMask (.known kind0 min0 max0) then finishRange fl t kind0 (some (.ofVal 0)) (some max0)
    else if isMask (.known kind1 min1 max1) then finishRange fl t .range (some (.ofVal 0)) (some max1)
    else .varying
  | .known kind0 min0 max0, _ =>
    if isMask (.known kind0 min0 max0) then finishRange fl t kind0 (some (.ofVal 0)) (some max0)
    else .varying
  | _, .known kind1 min1 max1 =>
    if isMask (.known kind1 min1 max1) then finishRange fl t .range (some (.ofVal 0)) (some max1)
    else .varying
  | _, _ => .varying

/-- The two words of a constant as one number. Source: `tree.c` `tree_to_double_int`. -/
def IntType.doubleWord (t : IntType) (z : ℤ) : ℕ := (t.stored z % 2 ^ 128).toNat

/-- All bits below the highest set bit of two words are set.
Source: `tree-vrp.c` `extract_range_from_binary_expr` (`ior_max`) -/
def iorMax (max0 max1 : ℕ) : ℕ :=
  let low := (max0 % 2 ^ 64) ||| (max1 % 2 ^ 64)
  let high := (max0 / 2 ^ 64) ||| (max1 / 2 ^ 64)
  if high ≠ 0 then (high ||| (2 ^ Nat.log2 high - 1)) * 2 ^ 64 + (2 ^ 64 - 1)
  else if low ≠ 0 then low ||| (2 ^ Nat.log2 low - 1)
  else 0

/-- Source: `tree-vrp.c` `extract_range_from_binary_expr` (`code == BIT_IOR_EXPR`). -/
def extractBitIor (fl : Flags) (t : IntType) (kind : RangeKind) (min0 max0 min1 max1 : Cst) :
    Option ValueRange :=
  if kind = .range ∧ 0 ≤ min0.val ∧ 0 ≤ min1.val then do
    let min ← vrpIntConstBinop fl t t .MAX_EXPR min0 min1
    let max : Cst := .ofVal (t.wrap (iorMax (t.doubleWord max0.val) (t.doubleWord max1.val)))
    some (finishRange fl t kind min (some max))
  else some .varying

/-- The fold of a truth operation on two constants.
Source: `fold-const.c` `fold_binary` (`TRUTH_AND_EXPR`, `TRUTH_OR_EXPR`) -/
def foldTruth (code : TreeCode) (arg0 arg1 : Cst) : Cst :=
  if code = .TRUTH_AND_EXPR then
    if arg0.val ≠ 0 then arg1 else if arg1.val ≠ 0 then arg0 else arg1
  else if arg0.val = 0 then arg1
  else if arg1.val = 0 then arg0
  else arg1

/-- Whether a range is the constant `n`. Source: `tree-vrp.c` `extract_range_from_binary_expr`. -/
def isConstant (n : ℤ) : ValueRange → Bool
  | .known .range min max => decide (min.val = n) && decide (max.val = n)
  | _ => false

/-- Source: `tree-vrp.c` `extract_range_from_binary_expr` (the truth operations). -/
def extractTruth (fl : Flags) (t : IntType) (code : TreeCode) (vr0 vr1 : ValueRange) : ValueRange :=
  if code = .TRUTH_AND_EXPR ∧ (isConstant 0 vr0 = true ∨ isConstant 0 vr1 = true) then
    finishRange fl t .range (some (.ofVal 0)) (some (.ofVal 0))
  else if code = .TRUTH_OR_EXPR ∧ (isConstant 1 vr0 = true ∨ isConstant 1 vr1 = true) then
    finishRange fl t .range (some (.ofVal 1)) (some (.ofVal 1))
  else
    let truthvalue : ValueRange :=
      if t.prec = 1 then .varying else .known .range (.ofVal 0) (.ofVal 1)
    match vr0, vr1 with
    | .known kind0 min0 max0, .known kind1 min1 max1 =>
      let infinite (kind : RangeKind) (min max : Cst) : Bool :=
        decide (kind = .range) && (isOverflowInfinity fl t min || isOverflowInfinity fl t max)
      if kind0 = kind1 ∧ infinite kind0 min0 max0 = false ∧ infinite kind1 min1 max1 = false then
        finishRange fl t kind0 (some (foldTruth code min0 min1)) (some (foldTruth code max0 max1))
      else truthvalue
    | _, _ => truthvalue

/-- The range of an operation on two operands with ranges; `t` is the type of the first operand and of the
result, `t1` that of the second operand.
Source: `tree-vrp.c` `extract_range_from_binary_expr` -/
def extractRangeFromBinaryExpr (fl : Flags) (t t1 : IntType) (code : TreeCode) (vr0 vr1 : ValueRange) :
    Option ValueRange :=
  if vr0 = .undefined ∨ vr1 = .undefined then some .undefined
  else
    match code with
    | .BIT_AND_EXPR => some (extractBitAnd fl t vr0 vr1)
    | .TRUTH_AND_EXPR | .TRUTH_OR_EXPR => some (extractTruth fl t code vr0 vr1)
    | .TRUNC_DIV_EXPR | .FLOOR_DIV_EXPR | .CEIL_DIV_EXPR | .EXACT_DIV_EXPR | .ROUND_DIV_EXPR =>
      extractDivision fl t t1 code vr0 vr1
    | .PLUS_EXPR | .MINUS_EXPR | .MULT_EXPR | .RSHIFT_EXPR | .MIN_EXPR | .MAX_EXPR | .BIT_IOR_EXPR =>
      match vr0, vr1 with
      | .known kind min0 max0, .known kind1 min1 max1 =>
        if kind ≠ kind1 then some .varying
        else
          match code with
          | .PLUS_EXPR =>
            if kind = .antiRange then some .varying
            else do
              let min ← vrpIntConstBinop fl t t1 code min0 min1
              let max ← vrpIntConstBinop fl t t1 code max0 max1
              some (finishRange fl t kind min max)
          | .MIN_EXPR | .MAX_EXPR => do
            let min ← vrpIntConstBinop fl t t1 code min0 min1
            let max ← vrpIntConstBinop fl t t1 code max0 max1
            some (finishRange fl t kind min max)
          | .MINUS_EXPR =>
            if kind = .antiRange then some .varying
            else do
              let min ← vrpIntConstBinop fl t t1 code min0 max1
              let max ← vrpIntConstBinop fl t t1 code max0 min1
              some (finishRange fl t kind min max)
          | .MULT_EXPR =>
            if kind = .antiRange ∧ t.overflowUndefined fl = false then some .varying
            else crossOperations fl t t1 code kind min0 max0 min1 max1
          | .RSHIFT_EXPR => extractShift fl t t1 kind min0 max0 min1 max1
          | .BIT_IOR_EXPR => extractBitIor fl t kind min0 max0 min1 max1
          | _ => none
      | _, _ => some .varying

end GccCore.Gcc.TreeVrp
