import GccCore.Gcc.RangeTest.Expr
import GccCore.Gcc.TreeVrp.Binary

/-!
# `gcc/fold-const.c`: negation of expressions

* **Trees** (`Tree`) of the codes that negation looks at; an expression of any other code is one without operands.
* **The test** (`negateExprP`) looks through conversions that change neither the mode nor the sign.
* **The negation** (`foldNegateExpr`, `negateExpr`) has two results besides a tree: a null tree, and a null tree that is given to the
  builder of another one.
* **What is negated** (`negatedOperand`): except for complex values, every rule negates one operand at most
  (`foldNegateExpr_eq`).
-/

namespace GccCore.Gcc.Negate

open GccCore.Gcc.TreeVrp GccCore.Gcc.FoldConst GccCore.Gcc.RangeTest

/-! ## Trees -/

section Trees

/-- Source: `tree.def` (`INTEGER_TYPE`). -/
inductive TypeCode
  | INTEGER_TYPE
  | ENUMERAL_TYPE
  | BOOLEAN_TYPE
  | POINTER_TYPE
  | REAL_TYPE
  | FIXED_POINT_TYPE
  | COMPLEX_TYPE
  | VECTOR_TYPE
  deriving DecidableEq

/-- A type; the elements are those of a complex type or a vector.
Source: `tree.h` `TYPE_MODE`, `TYPE_PRECISION`, `TYPE_UNSIGNED`, `FLOAT_TYPE_P` -/
structure TreeType extends IntType where
  code : TypeCode
  mode : ℕ
  floatElements : Bool
  deriving DecidableEq

/-- Source: `tree.h` `INTEGRAL_TYPE_P`. -/
def TreeType.isIntegral (t : TreeType) : Bool :=
  decide (t.code = .ENUMERAL_TYPE ∨ t.code = .BOOLEAN_TYPE ∨ t.code = .INTEGER_TYPE)

/-- Source: `tree.h` `FLOAT_TYPE_P`. -/
def TreeType.isFloat (t : TreeType) : Bool :=
  decide (t.code = .REAL_TYPE) || (decide (t.code = .COMPLEX_TYPE ∨ t.code = .VECTOR_TYPE) && t.floatElements)

/-- Source: `tree.def`. -/
inductive UnaryCode
  | NOP_EXPR
  | CONVERT_EXPR
  | NON_LVALUE_EXPR
  | BIT_NOT_EXPR
  | NEGATE_EXPR
  | CONJ_EXPR
  deriving DecidableEq

/-- Source: `tree.def`. -/
inductive DivisionCode
  | TRUNC_DIV_EXPR
  | ROUND_DIV_EXPR
  | FLOOR_DIV_EXPR
  | CEIL_DIV_EXPR
  | EXACT_DIV_EXPR
  deriving DecidableEq

/-- Source: `tree.def`. -/
inductive BinaryCode
  | PLUS_EXPR
  | MINUS_EXPR
  | MULT_EXPR
  | RDIV_EXPR
  | division (code : DivisionCode)
  | RSHIFT_EXPR
  | COMPLEX_EXPR
  deriving DecidableEq

/-- Expressions. The parts of a complex constant have the type of its elements, and a call has one argument.
Source: `tree.def` -/
inductive Tree (R F : Type)
  | other (t : TreeType) (uid : ℕ)
  | integerCst (t : TreeType) (c : Cst)
  | realCst (t : TreeType) (r : R)
  | fixedCst (t : TreeType) (f : F)
  | complexIntegerCst (t elt : TreeType) (re im : Cst)
  | complexRealCst (t elt : TreeType) (re im : R)
  | unary (code : UnaryCode) (t : TreeType) (op : Tree R F)
  | binary (code : BinaryCode) (t : TreeType) (op0 op1 : Tree R F)
  | call (t : TreeType) (fn : ℕ) (arg : Tree R F)
  deriving DecidableEq

variable {R F : Type}

/-- Source: `tree.h` `TREE_TYPE`. -/
def Tree.type : Tree R F → TreeType
  | .other t _ => t
  | .integerCst t _ => t
  | .realCst t _ => t
  | .fixedCst t _ => t
  | .complexIntegerCst t _ _ _ => t
  | .complexRealCst t _ _ _ => t
  | .unary _ t _ => t
  | .binary _ t _ _ => t
  | .call t _ _ => t

/-- What the recursions descend in; the parts of a complex constant are below it. -/
def Tree.size : Tree R F → ℕ
  | .other _ _ => 1
  | .integerCst _ _ => 1
  | .realCst _ _ => 1
  | .fixedCst _ _ => 1
  | .complexIntegerCst _ _ _ _ => 2
  | .complexRealCst _ _ _ _ => 2
  | .unary _ _ op => op.size + 1
  | .binary _ _ op0 op1 => op0.size + op1.size + 1
  | .call _ _ arg => arg.size + 1

/-- What the negation asks of the rest of the compiler: options, modes, tests of other nodes, arithmetic on constants, and the
functions that build trees.
Source: `fold-const.c` `fold_negate_expr`, `convert.c` `strip_float_extensions` -/
structure Target (R F : Type) where
  flags : Flags
  honorSignDependentRounding : ℕ → Bool
  honorSignedZeros : ℕ → Bool
  decimalFloatMode : ℕ → Bool
  negateMathfnP : ℕ → Bool
  reorderOperandsP : Tree R F → Tree R F → Bool
  floatTypeNode : TreeType
  doubleTypeNode : TreeType
  exactRealTruncate : ℕ → R → Bool
  realValueTruncate : ℕ → R → R
  realValueNegate : R → R
  fixedNegate : F → F
  signedTypeFor : TreeType → TreeType
  unsignedTypeFor : TreeType → TreeType
  foldBuild1 : UnaryCode → TreeType → Tree R F → Tree R F
  foldBuild2 : BinaryCode → TreeType → Tree R F → Tree R F → Tree R F
  foldConvert : TreeType → Tree R F → Tree R F
  buildCallExpr : TreeType → ℕ → Tree R F → Tree R F
  foldConvert_self : ∀ t, foldConvert t.type t = t

/-- Nothing is simplified, and a conversion to the type of a tree is none; the other questions are answered as for a target with integers
only.
Source: `tree.c` `build1`, `build2` -/
def Target.plain (flags : Flags) (signedTypeFor unsignedTypeFor : TreeType → TreeType) (double : TreeType) : Target R F :=
  { flags := flags
    honorSignDependentRounding := fun _ => false
    honorSignedZeros := fun _ => false
    decimalFloatMode := fun _ => false
    negateMathfnP := fun _ => false
    reorderOperandsP := fun _ _ => true
    floatTypeNode := double
    doubleTypeNode := double
    exactRealTruncate := fun _ _ => false
    realValueTruncate := fun _ r => r
    realValueNegate := id
    fixedNegate := id
    signedTypeFor := signedTypeFor
    unsignedTypeFor := unsignedTypeFor
    foldBuild1 := .unary
    foldBuild2 := .binary
    foldConvert := fun t e => if e.type = t then e else .unary .NOP_EXPR t e
    buildCallExpr := .call
    foldConvert_self := fun _ => if_pos rfl }

/-- An integer of 32 bits. Source: `tree.h` `integer_type_node`, `unsigned_type_node`. -/
def integerTypeNode (unsigned : Bool) : TreeType :=
  { IntType.ofWidth 31 unsigned with code := .INTEGER_TYPE, mode := 32, floatElements := false }

/-- The integer type of the same width with this sign. Source: `tree.c` `unsigned_type_for`, `signed_type_for`. -/
def TreeType.withSign (t : TreeType) (unsigned : Bool) : TreeType :=
  { t with
    unsigned := unsigned
    sizetype := false
    subrange := none
    unsigned_of_sizetype := fun h => absurd h Bool.false_ne_true
    subrange_has := nofun }

/-- A target with integers of 32 bits. Source: `tree.c` `build1`, `build2`. -/
def Target.integers (flags : Flags) : Target R F :=
  .plain flags (fun t => t.withSign false) (fun t => t.withSign true) { integerTypeNode false with code := .REAL_TYPE }

end Trees

/-! ## The code -/

section Code

variable {R F : Type}

/-- A conversion that changes neither the mode nor the sign. Source: `tree.h` `STRIP_SIGN_NOPS`. -/
def isSignNop (code : UnaryCode) (t subt : TreeType) : Bool :=
  decide (code = .NOP_EXPR ∨ code = .CONVERT_EXPR ∨ code = .NON_LVALUE_EXPR) && decide (t.mode = subt.mode) &&
    (t.unsigned == subt.unsigned) && (decide (t.code = .POINTER_TYPE) == decide (subt.code = .POINTER_TYPE))

/-- Source: `tree.h` `STRIP_SIGN_NOPS`. -/
def stripSignNops : Tree R F → Tree R F
  | .unary code t op => if isSignNop code t op.type then stripSignNops op else .unary code t op
  | t => t

variable (tgt : Target R F)

/-- Source: `tree.h` `DECIMAL_FLOAT_TYPE_P`. -/
def Target.isDecimalFloat (t : TreeType) : Bool := decide (t.code = .REAL_TYPE) && tgt.decimalFloatMode t.mode

/-- Source: `flags.h` `TYPE_OVERFLOW_TRAPS`. -/
def Target.overflowTraps (t : TreeType) : Bool := !t.unsigned && tgt.flags.trapv

/-- A constant in the narrowest type that can hold it, and a conversion from a narrower type without it.
Source: `convert.c` `strip_float_extensions` -/
def stripFloatExtensions : Tree R F → Tree R F
  | .realCst t r =>
    if tgt.isDecimalFloat t = false ∧ tgt.floatTypeNode.prec < t.prec ∧ tgt.exactRealTruncate tgt.floatTypeNode.mode r = true then
      .realCst tgt.floatTypeNode (tgt.realValueTruncate tgt.floatTypeNode.mode r)
    else if tgt.isDecimalFloat t = false ∧ tgt.doubleTypeNode.prec < t.prec ∧
        tgt.exactRealTruncate tgt.doubleTypeNode.mode r = true then
      .realCst tgt.doubleTypeNode (tgt.realValueTruncate tgt.doubleTypeNode.mode r)
    else .realCst t r
  | .unary code t op =>
    if (code = .NOP_EXPR ∨ code = .CONVERT_EXPR) ∧ op.type.isFloat = true ∧ tgt.isDecimalFloat t = tgt.isDecimalFloat op.type ∧
        op.type.prec ≤ t.prec then stripFloatExtensions op
    else .unary code t op
  | t => t

/-- Source: `fold-const.c` `may_negate_without_overflow_p`. -/
def mayNegateWithoutOverflowP (t : IntType) (c : Cst) : Bool :=
  !t.unsigned && decide (c.val % 2 ^ t.prec ≠ 2 ^ (t.prec - 1))

/-- The count of a shift that leaves the sign bit only.
Source: `fold-const.c` `negate_expr_p` ("Optimize -((int)x >> 31) into (unsigned)x >> 31") -/
def isSignShift (t : TreeType) : Tree R F → Bool
  | .integerCst _ c => decide (c.val = t.prec - 1)
  | _ => false

theorem size_stripSignNops_le (t : Tree R F) : (stripSignNops t).size ≤ t.size := by
  induction t with
  | unary code type op ih =>
    rw [stripSignNops]
    split_ifs
    · exact ih.trans (Nat.le_succ _)
    · exact le_rfl
  | _ => exact le_rfl

theorem size_stripFloatExtensions_le (t : Tree R F) : (stripFloatExtensions tgt t).size ≤ t.size := by
  induction t with
  | realCst type r =>
    rw [stripFloatExtensions]
    split_ifs <;> exact le_rfl
  | unary code type op ih =>
    rw [stripFloatExtensions]
    split_ifs
    · exact ih.trans (Nat.le_succ _)
    · exact le_rfl
  | _ => exact le_rfl

theorem size_stripFloatExtensions_lt {code : UnaryCode} {type : TreeType} {op : Tree R F}
    (h : stripFloatExtensions tgt (.unary code type op) ≠ .unary code type op) :
    (stripFloatExtensions tgt (.unary code type op)).size < (Tree.unary code type op).size := by
  rw [stripFloatExtensions] at h ⊢
  split_ifs at h ⊢ with hstrip
  · exact Nat.lt_succ_of_le (size_stripFloatExtensions_le tgt op)
  · exact absurd rfl h

variable [DecidableEq R] [DecidableEq F]

mutual

/-- Source: `fold-const.c` `negate_expr_p` (`STRIP_SIGN_NOPS`). -/
def negateExprP (t : Tree R F) : Bool := negateCodeP t.type (stripSignNops t)
termination_by (t.size, 1)
decreasing_by exact Prod.Lex.right' _ (size_stripSignNops_le t) Nat.zero_lt_one

/-- Whether a tree can be cheaply negated; the type is that of the tree with its conversions.
Source: `fold-const.c` `negate_expr_p` -/
def negateCodeP (type : TreeType) (t : Tree R F) : Bool :=
  match t with
  | .other _ _ => false
  | .integerCst ct c => type.overflowWraps tgt.flags || mayNegateWithoutOverflowP ct.toIntType c
  | .fixedCst _ _ => true
  | .realCst _ _ => true
  | .complexIntegerCst _ elt re im => negateExprP (.integerCst elt re) && negateExprP (.integerCst elt im)
  | .complexRealCst _ elt re im => negateExprP (.realCst elt re) && negateExprP (.realCst elt im)
  | .unary .BIT_NOT_EXPR _ _ => type.isIntegral && type.overflowWraps tgt.flags
  | .unary .NEGATE_EXPR _ _ => true
  | .unary .CONJ_EXPR _ op => negateExprP op
  | .unary .NOP_EXPR ct op =>
    if type.code = .REAL_TYPE then
      if _h : stripFloatExtensions tgt (.unary .NOP_EXPR ct op) ≠ .unary .NOP_EXPR ct op then
        negateExprP (stripFloatExtensions tgt (.unary .NOP_EXPR ct op))
      else false
    else false
  | .unary .CONVERT_EXPR _ _ => false
  | .unary .NON_LVALUE_EXPR _ _ => false
  | .binary .COMPLEX_EXPR _ op0 op1 => negateExprP op0 && negateExprP op1
  | .binary .PLUS_EXPR _ op0 op1 =>
    if tgt.honorSignDependentRounding type.mode || tgt.honorSignedZeros type.mode then false
    else (negateExprP op1 && tgt.reorderOperandsP op0 op1) || negateExprP op0
  | .binary .MINUS_EXPR _ op0 op1 =>
    !tgt.honorSignDependentRounding type.mode && !tgt.honorSignedZeros type.mode && tgt.reorderOperandsP op0 op1
  | .binary .MULT_EXPR ct op0 op1 =>
    if ct.unsigned then false
    else !tgt.honorSignDependentRounding ct.mode && (negateExprP op1 || negateExprP op0)
  | .binary .RDIV_EXPR ct op0 op1 => !tgt.honorSignDependentRounding ct.mode && (negateExprP op1 || negateExprP op0)
  | .binary (.division _) ct op0 op1 =>
    if ct.isIntegral && !ct.overflowUndefined tgt.flags then false else negateExprP op1 || negateExprP op0
  | .binary .RSHIFT_EXPR _ _ op1 => isSignShift type op1
  | .call _ fn arg => tgt.negateMathfnP fn && negateExprP arg
termination_by (t.size, 0)
decreasing_by
  all_goals first
    | exact Prod.Lex.left _ _ (size_stripFloatExtensions_lt tgt _h)
    | (apply Prod.Lex.left; simp only [Tree.size]; omega)

end

/-- A null tree was given to the builder of such an expression.
Source: `fold-const.c` `fold_negate_expr` (`fold_build2 (COMPLEX_EXPR, ..)`, `fold_build1 (CONJ_EXPR, ..)`) -/
inductive NullOperand
  | COMPLEX_EXPR
  | CONJ_EXPR
  deriving DecidableEq

/-- Source: `fold-const.c` `fold_negate_expr` (`build_complex`). -/
def buildComplex (type : TreeType) : Tree R F → Tree R F → Option (Tree R F)
  | .realCst elt r, .realCst _ i => some (.complexRealCst type elt r i)
  | .integerCst elt r, .integerCst _ i => some (.complexIntegerCst type elt r i)
  | _, _ => none

/-- Source: `fold-const.c` `fold_negate_expr` (`fold_build2 (COMPLEX_EXPR, ..)`). -/
def buildComplexExpr (type : TreeType) : Option (Tree R F) → Option (Tree R F) → Except NullOperand (Tree R F)
  | some op0, some op1 => .ok (tgt.foldBuild2 .COMPLEX_EXPR type op0 op1)
  | _, _ => .error .COMPLEX_EXPR

/-- Source: `fold-const.c` `fold_negate_expr` (`fold_build1 (CONJ_EXPR, ..)`). -/
def buildConjExpr (type : TreeType) : Option (Tree R F) → Except NullOperand (Tree R F)
  | some op => .ok (tgt.foldBuild1 .CONJ_EXPR type op)
  | none => .error .CONJ_EXPR

/-- The sign bit by a shift in the type of the other sign. Source: `fold-const.c` `fold_negate_expr` (`RSHIFT_EXPR`). -/
def negateSignShift (type : TreeType) (op0 op1 : Tree R F) : Tree R F :=
  let ntype := if type.unsigned then tgt.signedTypeFor type else tgt.unsignedTypeFor type
  tgt.foldConvert type (tgt.foldBuild2 .RSHIFT_EXPR ntype (tgt.foldConvert ntype op0) op1)

mutual

/-- A folded tree for the negation, or none if no simplification is possible. A constant that `build_real` makes is not marked.
Source: `fold-const.c` `fold_negate_expr` -/
def foldNegateExpr (t : Tree R F) : Except NullOperand (Option (Tree R F)) :=
  match t with
  | .other _ _ => .ok none
  | .unary .BIT_NOT_EXPR type op =>
    if type.isIntegral then .ok (some (tgt.foldBuild2 .PLUS_EXPR type op (.integerCst type (.ofVal 1)))) else .ok none
  | .integerCst type c =>
    let tem := foldNegateConst type.toIntType c
    if tem.overflow = c.overflow ∨ tgt.overflowTraps type = false then .ok (some (.integerCst type tem)) else .ok none
  | .realCst type r => .ok (some (.realCst type (tgt.realValueNegate r)))
  | .fixedCst type f => .ok (some (.fixedCst type (tgt.fixedNegate f)))
  | .complexIntegerCst type elt re im =>
    (negateExpr (.integerCst elt re)).bind fun rpart => (negateExpr (.integerCst elt im)).map fun ipart => buildComplex type rpart ipart
  | .complexRealCst type elt re im =>
    (negateExpr (.realCst elt re)).bind fun rpart => (negateExpr (.realCst elt im)).map fun ipart => buildComplex type rpart ipart
  | .binary .COMPLEX_EXPR type op0 op1 =>
    if negateExprP tgt (.binary .COMPLEX_EXPR type op0 op1) then
      (foldNegateExpr op0).bind fun tem0 => (foldNegateExpr op1).bind fun tem1 => (buildComplexExpr tgt type tem0 tem1).map some
    else .ok none
  | .unary .CONJ_EXPR type op =>
    if negateExprP tgt (.unary .CONJ_EXPR type op) then (foldNegateExpr op).bind fun tem => (buildConjExpr tgt type tem).map some
    else .ok none
  | .unary .NEGATE_EXPR _ op => .ok (some op)
  | .binary .PLUS_EXPR type op0 op1 =>
    if tgt.honorSignDependentRounding type.mode || tgt.honorSignedZeros type.mode then .ok none
    else if negateExprP tgt op1 && tgt.reorderOperandsP op0 op1 then
      (negateExpr op1).map fun tem => some (tgt.foldBuild2 .MINUS_EXPR type tem op0)
    else if negateExprP tgt op0 then (negateExpr op0).map fun tem => some (tgt.foldBuild2 .MINUS_EXPR type tem op1)
    else .ok none
  | .binary .MINUS_EXPR type op0 op1 =>
    if !tgt.honorSignDependentRounding type.mode && !tgt.honorSignedZeros type.mode && tgt.reorderOperandsP op0 op1 then
      .ok (some (tgt.foldBuild2 .MINUS_EXPR type op1 op0))
    else .ok none
  | .binary .MULT_EXPR type op0 op1 =>
    if type.unsigned || tgt.honorSignDependentRounding type.mode then .ok none
    else if negateExprP tgt op1 then (negateExpr op1).map fun tem => some (tgt.foldBuild2 .MULT_EXPR type op0 tem)
    else if negateExprP tgt op0 then (negateExpr op0).map fun tem => some (tgt.foldBuild2 .MULT_EXPR type tem op1)
    else .ok none
  | .binary .RDIV_EXPR type op0 op1 =>
    if tgt.honorSignDependentRounding type.mode then .ok none
    else if negateExprP tgt op1 then (negateExpr op1).map fun tem => some (tgt.foldBuild2 .RDIV_EXPR type op0 tem)
    else if negateExprP tgt op0 then (negateExpr op0).map fun tem => some (tgt.foldBuild2 .RDIV_EXPR type tem op1)
    else .ok none
  | .binary (.division code) type op0 op1 =>
    if !type.isIntegral || type.overflowUndefined tgt.flags then
      if negateExprP tgt op1 then (negateExpr op1).map fun tem => some (tgt.foldBuild2 (.division code) type op0 tem)
      else if negateExprP tgt op0 then (negateExpr op0).map fun tem => some (tgt.foldBuild2 (.division code) type tem op1)
      else .ok none
    else .ok none
  | .unary .NOP_EXPR type op =>
    if type.code = .REAL_TYPE then
      if _h : stripFloatExtensions tgt (.unary .NOP_EXPR type op) ≠ .unary .NOP_EXPR type op then
        if negateExprP tgt (stripFloatExtensions tgt (.unary .NOP_EXPR type op)) then
          (negateExpr (stripFloatExtensions tgt (.unary .NOP_EXPR type op))).map fun tem => some (tgt.foldConvert type tem)
        else .ok none
      else .ok none
    else .ok none
  | .unary .CONVERT_EXPR _ _ => .ok none
  | .unary .NON_LVALUE_EXPR _ _ => .ok none
  | .call type fn arg =>
    if tgt.negateMathfnP fn && negateExprP tgt arg then (negateExpr arg).map fun tem => some (tgt.buildCallExpr type fn tem)
    else .ok none
  | .binary .RSHIFT_EXPR type op0 op1 => if isSignShift type op1 then .ok (some (negateSignShift tgt type op0 op1)) else .ok none
termination_by (t.size, 0)
decreasing_by
  all_goals first
    | exact Prod.Lex.left _ _ (size_stripFloatExtensions_lt tgt _h)
    | (apply Prod.Lex.left; simp only [Tree.size]; omega)

/-- The negation of a tree, which is a `NEGATE_EXPR` if there is no simpler one. Source: `fold-const.c` `negate_expr`. -/
def negateExpr (t : Tree R F) : Except NullOperand (Tree R F) :=
  (foldNegateExpr (stripSignNops t)).map fun tem =>
    tgt.foldConvert t.type (tem.getD (.unary .NEGATE_EXPR (stripSignNops t).type (stripSignNops t)))
termination_by (t.size, 1)
decreasing_by exact Prod.Lex.right' _ (size_stripSignNops_le t) Nat.zero_lt_one

end

end Code

/-! ## What is negated -/

section Operand

variable {R F : Type} [DecidableEq R] [DecidableEq F] (tgt : Target R F)

/-- The first of two operands that can be negated, and the tree around its negation. Source: `fold-const.c` `fold_negate_expr`. -/
def negatedFactor (code : BinaryCode) (type : TreeType) (op0 op1 : Tree R F) : Option (Tree R F × (Tree R F → Tree R F)) :=
  if negateExprP tgt op1 then some (op1, fun tem => tgt.foldBuild2 code type op0 tem)
  else if negateExprP tgt op0 then some (op0, fun tem => tgt.foldBuild2 code type tem op1)
  else none

/-- The operand that is negated, and the tree around its negation. Source: `fold-const.c` `fold_negate_expr`. -/
def negatedOperand : Tree R F → Option (Tree R F × (Tree R F → Tree R F))
  | .binary .PLUS_EXPR type op0 op1 =>
    if tgt.honorSignDependentRounding type.mode || tgt.honorSignedZeros type.mode then none
    else if negateExprP tgt op1 && tgt.reorderOperandsP op0 op1 then some (op1, fun tem => tgt.foldBuild2 .MINUS_EXPR type tem op0)
    else if negateExprP tgt op0 then some (op0, fun tem => tgt.foldBuild2 .MINUS_EXPR type tem op1)
    else none
  | .binary .MULT_EXPR type op0 op1 =>
    if type.unsigned || tgt.honorSignDependentRounding type.mode then none else negatedFactor tgt .MULT_EXPR type op0 op1
  | .binary .RDIV_EXPR type op0 op1 =>
    if tgt.honorSignDependentRounding type.mode then none else negatedFactor tgt .RDIV_EXPR type op0 op1
  | .binary (.division code) type op0 op1 =>
    if !type.isIntegral || type.overflowUndefined tgt.flags then negatedFactor tgt (.division code) type op0 op1 else none
  | .unary .NOP_EXPR type op =>
    if type.code = .REAL_TYPE ∧ stripFloatExtensions tgt (.unary .NOP_EXPR type op) ≠ .unary .NOP_EXPR type op ∧
        negateExprP tgt (stripFloatExtensions tgt (.unary .NOP_EXPR type op)) = true then
      some (stripFloatExtensions tgt (.unary .NOP_EXPR type op), tgt.foldConvert type)
    else none
  | .call type fn arg =>
    if tgt.negateMathfnP fn && negateExprP tgt arg then some (arg, tgt.buildCallExpr type fn) else none
  | _ => none

variable {tgt} {t op : Tree R F} {build : Tree R F → Tree R F}

theorem negatedFactor_eq_some {code : BinaryCode} {type : TreeType} {op0 op1 : Tree R F}
    (h : negatedFactor tgt code type op0 op1 = some (op, build)) :
    negateExprP tgt op = true ∧ ((op = op1 ∧ build = fun tem => tgt.foldBuild2 code type op0 tem) ∨
      (op = op0 ∧ build = fun tem => tgt.foldBuild2 code type tem op1)) := by
  rw [negatedFactor] at h
  split_ifs at h with h1 h0
  · obtain ⟨rfl, rfl⟩ := Prod.mk.inj (Option.some.inj h)
    exact ⟨h1, Or.inl ⟨rfl, rfl⟩⟩
  · obtain ⟨rfl, rfl⟩ := Prod.mk.inj (Option.some.inj h)
    exact ⟨h0, Or.inr ⟨rfl, rfl⟩⟩

theorem size_negatedOperand_lt (h : negatedOperand tgt t = some (op, build)) : op.size < t.size := by
  have hfactor {code : BinaryCode} {type : TreeType} {op0 op1 : Tree R F}
      (h : negatedFactor tgt code type op0 op1 = some (op, build)) : op.size < op0.size + op1.size + 1 := by
    obtain ⟨rfl, -⟩ | ⟨rfl, -⟩ := (negatedFactor_eq_some h).2 <;> omega
  unfold negatedOperand at h
  split at h
  · split_ifs at h with h0 h1 h2
    all_goals
      rw [← (Prod.mk.inj (Option.some.inj h)).1, Tree.size]
      omega
  · split_ifs at h
    exact hfactor h
  · split_ifs at h
    exact hfactor h
  · split_ifs at h
    exact hfactor h
  · split_ifs at h with h0
    rw [← (Prod.mk.inj (Option.some.inj h)).1]
    exact size_stripFloatExtensions_lt tgt h0.2.1
  · split_ifs at h with h0
    rw [← (Prod.mk.inj (Option.some.inj h)).1, Tree.size]
    omega
  · exact absurd h (Option.some_ne_none _).symm

theorem negateFactor_eq {code : BinaryCode} {type : TreeType} {op0 op1 : Tree R F}
    (h : negatedFactor tgt code type op0 op1 = some (op, build)) :
    (if negateExprP tgt op1 then (negateExpr tgt op1).map fun tem => some (tgt.foldBuild2 code type op0 tem)
      else if negateExprP tgt op0 then (negateExpr tgt op0).map fun tem => some (tgt.foldBuild2 code type tem op1)
      else .ok none) = (negateExpr tgt op).map fun tem => some (build tem) := by
  rw [negatedFactor] at h
  by_cases h1 : negateExprP tgt op1 = true
  · rw [if_pos h1] at h ⊢
    obtain ⟨rfl, rfl⟩ := Prod.mk.inj (Option.some.inj h)
    rfl
  · rw [if_neg h1] at h ⊢
    split_ifs at h ⊢
    obtain ⟨rfl, rfl⟩ := Prod.mk.inj (Option.some.inj h)
    rfl

/-- **The rules that negate an operand**, through `negate_expr`. Source: `fold-const.c` `fold_negate_expr`. Kind: L -/
theorem foldNegateExpr_eq (h : negatedOperand tgt t = some (op, build)) :
    foldNegateExpr tgt t = (negateExpr tgt op).map fun tem => some (build tem) := by
  unfold negatedOperand at h
  split at h
  · rw [foldNegateExpr]
    split_ifs at h ⊢
    all_goals
      obtain ⟨rfl, rfl⟩ := Prod.mk.inj (Option.some.inj h)
      rfl
  · split_ifs at h with h0
    rw [foldNegateExpr, if_neg h0, negateFactor_eq h]
  · split_ifs at h with h0
    rw [foldNegateExpr, if_neg h0, negateFactor_eq h]
  · split_ifs at h with h0
    rw [foldNegateExpr, if_pos h0, negateFactor_eq h]
  · split_ifs at h with h0
    obtain ⟨rfl, rfl⟩ := Prod.mk.inj (Option.some.inj h)
    rw [foldNegateExpr, if_pos h0.1, dif_pos h0.2.1, if_pos h0.2.2]
  · rw [foldNegateExpr]
    split_ifs at h ⊢
    obtain ⟨rfl, rfl⟩ := Prod.mk.inj (Option.some.inj h)
    rfl
  · exact absurd h (Option.some_ne_none _).symm

theorem negatedFactor_eq_none {code : BinaryCode} {type : TreeType} {op0 op1 : Tree R F}
    (h : negatedFactor tgt code type op0 op1 = none) : ¬ negateExprP tgt op1 = true ∧ ¬ negateExprP tgt op0 = true := by
  rw [negatedFactor] at h
  split_ifs at h with h1 h0
  exact ⟨h1, h0⟩

/-- **No operand is negated** by the rules that would negate one. Source: `fold-const.c` `fold_negate_expr`. Kind: L -/
theorem foldNegateExpr_eq_none {code : BinaryCode} {type : TreeType} {op0 op1 : Tree R F}
    (hcode : code ≠ .COMPLEX_EXPR ∧ code ≠ .MINUS_EXPR ∧ code ≠ .RSHIFT_EXPR)
    (h : negatedOperand tgt (.binary code type op0 op1) = none) : foldNegateExpr tgt (.binary code type op0 op1) = .ok none := by
  cases code with
  | PLUS_EXPR =>
    rw [foldNegateExpr]
    rw [negatedOperand] at h
    split_ifs at h ⊢
    all_goals rfl
  | MULT_EXPR | RDIV_EXPR =>
    rw [foldNegateExpr]
    rw [negatedOperand] at h
    split_ifs at h with hout
    · exact if_pos hout
    · rw [if_neg hout, if_neg (negatedFactor_eq_none h).1, if_neg (negatedFactor_eq_none h).2]
  | division code =>
    rw [foldNegateExpr]
    rw [negatedOperand] at h
    split_ifs at h with hout
    · rw [if_pos hout, if_neg (negatedFactor_eq_none h).1, if_neg (negatedFactor_eq_none h).2]
    · exact if_neg hout
  | COMPLEX_EXPR => exact absurd rfl hcode.1
  | MINUS_EXPR => exact absurd rfl hcode.2.1
  | RSHIFT_EXPR => exact absurd rfl hcode.2.2

theorem negateExpr_eq_ok_iff : (∃ tem, negateExpr tgt t = .ok tem) ↔ ∃ r, foldNegateExpr tgt (stripSignNops t) = .ok r := by
  rw [negateExpr]
  rcases foldNegateExpr tgt (stripSignNops t) with e | r
  · exact iff_of_false (fun ⟨tem, h⟩ => (nomatch h)) fun ⟨r, h⟩ => (nomatch h)
  · exact iff_of_true ⟨_, rfl⟩ ⟨r, rfl⟩

end Operand

end GccCore.Gcc.Negate
