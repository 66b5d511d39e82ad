import GccCore.Gcc.LoopNiter.Ne
import GccCore.Lib.MachineInt
import Mathlib.Data.Int.Bitwise
import Mathlib.Data.Int.Star

/-!
# `gcc/tree-ssa-loop-niter.c`: upper bounds for loops that end with `!=`

* **Trees** (`Tree`) and **syntactic multiples** (`multipleOfP`): a product is taken for a multiple of a number if a factor is
  one, although the product may wrap.
* **The bound** (`numberOfIterationsNeMax`, `neMax`): a quotient of an interval end, or the period of the variable.
* **When it is one** (`neMax_iff`): the variable does not overflow, or the difference is not taken for a multiple of the
  step, or its value is one.
-/

namespace GccCore.Gcc.LoopNiter

open GccCore.Gcc.FoldConst GccCore.Lib.LinearCongruence GccCore.Lib.MachineInt

/-! ## Trees -/

/-- An integral type. Source: `tree.h` (`TYPE_PRECISION`, `TYPE_UNSIGNED`, `INTEGER_TYPE`). -/
structure TreeType where
  prec : ℕ
  unsigned : Bool
  isInteger : Bool
  deriving DecidableEq

/-- A value reduced to a type. -/
def TreeType.wrap (t : TreeType) (z : ℤ) : ℤ := if t.unsigned then z % 2 ^ t.prec else Int.bmod z (2 ^ t.prec)

/-- The operators that `multiple_of_p` looks through. Source: `fold-const.c` `multiple_of_p`. -/
inductive TreeOp
  | BIT_AND_EXPR
  | MULT_EXPR
  | PLUS_EXPR
  | MINUS_EXPR
  | LSHIFT_EXPR
  deriving DecidableEq

/-- Expressions; what `multiple_of_p` does not look into is a name. Source: `fold-const.c` `multiple_of_p`. -/
inductive Tree
  | INTEGER_CST (type : TreeType) (value : ℤ)
  | NAME (type : TreeType) (id : ℕ)
  | BINARY (op : TreeOp) (type : TreeType) (op0 op1 : Tree)
  | NOP_EXPR (type : TreeType) (op0 : Tree)
  | SAVE_EXPR (type : TreeType) (op0 : Tree)
  deriving DecidableEq

/-- Source: `tree.h` `TREE_TYPE`. -/
def Tree.type : Tree → TreeType
  | .INTEGER_CST t _ => t
  | .NAME t _ => t
  | .BINARY _ t _ _ => t
  | .NOP_EXPR t _ => t
  | .SAVE_EXPR t _ => t

/-- The value of an operation before it is reduced to the type. Source: `tree.def`. -/
def TreeOp.eval (op : TreeOp) (x y : ℤ) : ℤ :=
  match op with
  | .BIT_AND_EXPR => x.land y
  | .MULT_EXPR => x * y
  | .PLUS_EXPR => x + y
  | .MINUS_EXPR => x - y
  | .LSHIFT_EXPR => x * 2 ^ y.toNat

/-- The value of an expression. Source: `tree.def`. -/
def Tree.eval (env : ℕ → ℤ) : Tree → ℤ
  | .INTEGER_CST _ v => v
  | .NAME t id => t.wrap (env id)
  | .BINARY op t op0 op1 => t.wrap (op.eval (op0.eval env) (op1.eval env))
  | .NOP_EXPR t op0 => t.wrap (op0.eval env)
  | .SAVE_EXPR _ op0 => op0.eval env

/-- Is an expression the constant `bottom` of the type? Source: `fold-const.c` `operand_equal_p`. -/
def Tree.isCst (type : TreeType) (bottom : ℤ) : Tree → Bool
  | .INTEGER_CST t v => decide (t.unsigned = type.unsigned ∧ t.prec = type.prec ∧ v = bottom)
  | _ => false

/-- A constant is divided by the constant `bottom`. Source: `fold-const.c` `multiple_of_p` (`INTEGER_CST`). -/
def cstMultipleOfP (type : TreeType) (bottom top : ℤ) : Bool :=
  if bottom = 0 ∨ (type.unsigned = true ∧ (top < 0 ∨ bottom < 0)) then false else decide (top.tmod bottom = 0)

/-- Is an expression of the type syntactically a multiple of the constant `bottom`? The precision of `sizetype` is
`sizePrec`.
Source: `fold-const.c` `multiple_of_p` -/
def multipleOfP (sizePrec : ℕ) (type : TreeType) (bottom : ℤ) (top : Tree) : Bool :=
  if top.isCst type bottom then true
  else if !type.isInteger then false
  else
    match top with
    | .BINARY .BIT_AND_EXPR _ op0 op1 =>
      decide (∃ n < type.prec, bottom = 2 ^ n) &&
        (multipleOfP sizePrec type bottom op0 || multipleOfP sizePrec type bottom op1)
    | .BINARY .MULT_EXPR _ op0 op1 => multipleOfP sizePrec type bottom op0 || multipleOfP sizePrec type bottom op1
    | .BINARY .PLUS_EXPR _ op0 op1 => multipleOfP sizePrec type bottom op0 && multipleOfP sizePrec type bottom op1
    | .BINARY .MINUS_EXPR _ op0 op1 => multipleOfP sizePrec type bottom op0 && multipleOfP sizePrec type bottom op1
    | .BINARY .LSHIFT_EXPR _ _ (.INTEGER_CST _ v) =>
      if 0 ≤ v ∧ v < sizePrec then cstMultipleOfP type bottom (type.wrap (2 ^ v.toNat)) else false
    | .BINARY .LSHIFT_EXPR _ _ _ => false
    | .NOP_EXPR _ op0 =>
      if op0.type.isInteger = false ∨ type.prec < op0.type.prec then false else multipleOfP sizePrec type bottom op0
    | .SAVE_EXPR _ op0 => multipleOfP sizePrec type bottom op0
    | .INTEGER_CST _ v => cstMultipleOfP type bottom v
    | .NAME _ _ => false

/-! ## The bound -/

/-- Bounds on a difference of two values. Source: `tree-ssa-loop-niter.c` (`bounds`). -/
structure Bounds where
  below : ℤ
  up : ℤ

/-- Source: `tree-ssa-loop-niter.c` `bounds_negate`. -/
def Bounds.negate (bnds : Bounds) : Bounds := ⟨-bnds.up, -bnds.below⟩

/-- The bounds in the direction of the step. Source: `tree-ssa-loop-niter.c` `number_of_iterations_ne`. -/
def Bounds.directed (bnds : Bounds) {p : ℕ} (step : BitVec p) : Bounds := if step.msb then bnds.negate else bnds

/-- The unsigned type of the count. Source: `tree-ssa-loop-niter.c` `number_of_iterations_ne` (`niter_type`). -/
def niterType (q : ℕ) : TreeType := ⟨q, true, true⟩

/-- The upper bound on the difference `c`. Source: `tree-ssa-loop-niter.c` `number_of_iterations_ne_max` ("upper bound on C"). -/
def differenceBound (q : ℕ) (noOverflow : Bool) (c : Tree) (bnds : Bounds) : ℤ :=
  if noOverflow = true ∨ 0 ≤ bnds.below then bnds.up
  else
    match c with
    | .INTEGER_CST _ v => v
    | _ => 2 ^ q - 1

/-- The bound for a difference `c` in steps of `s`.
Source: `tree-ssa-loop-niter.c` `number_of_iterations_ne_max` -/
def numberOfIterationsNeMax (e sizePrec : ℕ) {q : ℕ} (noOverflow : Bool) (c : Tree) (s : BitVec q) (bnds : Bounds) : ℤ :=
  if !noOverflow && !multipleOfP sizePrec (niterType q) s.toNat c then
    2 ^ (q - numEndingZeros q (buildIntCst s.toNat : IntCst e)) - 1
  else differenceBound q noOverflow c bnds / s.toNat

/-- An integer brought into the range of an unsigned type. Source: `double-int.c` `mpz_get_double_int`. -/
def mpzGetDoubleInt (p : ℕ) (val : ℤ) : ℤ := if val < 0 then 0 else if 2 ^ p - 1 < val then 2 ^ p - 1 else val

/-- The stored bound. Source: `tree-ssa-loop-niter.c` `number_of_iterations_ne` (`niter->max`). -/
def neMax (e sizePrec : ℕ) (unsigned : Bool) {p : ℕ} (q : ℕ) (step : BitVec p) (noOverflow : Bool) (c : Tree) (bnds : Bounds) : ℤ :=
  mpzGetDoubleInt q (numberOfIterationsNeMax e sizePrec noOverflow c (neStep unsigned q step) (bnds.directed step))

/-! ## When it is one -/

/-- The variable does not overflow in `k` steps; the step is taken with its sign.
Source: `tree-flow.h` (`no_overflow`) -/
def NoOverflow {p : ℕ} (unsigned : Bool) (base step : BitVec p) (k : ℕ) : Prop :=
  ∀ j ≤ k, inType p unsigned (valueIn unsigned base + j * step.toInt)

section Max

variable {p q : ℕ} {unsigned : Bool}

/-- The positive step is the absolute value of the step, unless that has no sign bit to spare in the wider type.
Source: `tree-ssa-loop-niter.c` `number_of_iterations_ne`
Kind: L -/
theorem neStep_toNat (hpq : p ≤ q) {step : BitVec p} (h : q = p ∨ step ≠ BitVec.intMin p) :
    ((neStep unsigned q step).toNat : ℤ) = |step.toInt| := by
  have habs : ((if step.msb then -step else step).toNat : ℤ) = |step.toInt| := by
    have hlt := step.isLt
    rw [BitVec.toInt_eq_msb_cond]
    by_cases hneg : step.msb = true
    · have hpos : 0 < step.toNat := by
        apply Nat.pos_of_ne_zero
        intro hzero
        have hstep : step = 0#p := BitVec.eq_of_toNat_eq hzero
        rw [hstep] at hneg
        simp at hneg
      rw [if_pos hneg, if_pos hneg, BitVec.toNat_neg, Nat.mod_eq_of_lt (by omega), abs_of_neg (by omega)]
      omega
    · rw [if_neg hneg, if_neg hneg, abs_of_nonneg (by omega)]
  rw [← habs]
  unfold neStep foldConvert
  cases unsigned with
  | true => rw [if_pos rfl, BitVec.toNat_setWidth_of_le hpq]
  | false =>
    rw [if_neg Bool.false_ne_true]
    rcases h with rfl | hmin
    · rw [BitVec.signExtend_eq]
    · have hmsb : (if step.msb then -step else step).msb = false := by
        by_cases hneg : step.msb = true
        · have hzero : step ≠ 0#p := by
            intro hstep
            rw [hstep] at hneg
            simp at hneg
          rw [if_pos hneg, BitVec.msb_neg, hneg]
          simp [hzero, hmin]
        · rw [if_neg hneg]
          exact Bool.eq_false_iff.mpr hneg
      rw [BitVec.signExtend_eq_setWidth_of_msb_false hmsb, BitVec.toNat_setWidth_of_le hpq]

/-- **Without overflow** the exact difference is the number of iterations times the step.
Source: `tree-ssa-loop-niter.c` `number_of_iterations_ne_max`
Kind: L -/
theorem exactDifference_of_noOverflow (hp : 0 < p) {step base final : BitVec p} {k : ℕ}
    (hno : NoOverflow unsigned base step k)
    (hk : base.toNat + k * step.toNat ≡ final.toNat [MOD 2 ^ p]) :
    exactDifference unsigned step base final = k * |step.toInt| := by
  have hreach : valueIn unsigned final = valueIn unsigned base + k * step.toInt := by
    apply eq_of_inType (inType_valueIn unsigned final) (hno k (le_refl k)) _ hp
    have h : ((base.toNat + k * step.toNat : ℕ) : ℤ) ≡ (final.toNat : ℕ) [ZMOD ((2 ^ p : ℕ) : ℤ)] :=
      (Int.natCast_modEq_iff).mpr hk
    push_cast at h
    have hstep : step.toInt ≡ step.toNat [ZMOD 2 ^ p] := valueIn_modEq false step
    calc valueIn unsigned final ≡ final.toNat [ZMOD 2 ^ p] := valueIn_modEq unsigned final
      _ ≡ base.toNat + k * step.toNat [ZMOD 2 ^ p] := h.symm
      _ ≡ valueIn unsigned base + k * step.toInt [ZMOD 2 ^ p] :=
          (valueIn_modEq unsigned base).symm.add (hstep.symm.mul_left _)
  unfold exactDifference
  rw [hreach]
  by_cases hneg : step.msb = true
  · rw [if_pos hneg, abs_of_neg (BitVec.toInt_neg_of_msb_true hneg)]
    ring
  · rw [if_neg hneg, abs_of_nonneg (BitVec.toInt_nonneg_of_msb_false (Bool.eq_false_iff.mpr hneg))]
    ring

/-- The bounds on the difference, in the direction of the step. Source: `tree-ssa-loop-niter.c` `number_of_iterations_ne`. Kind: L -/
theorem directed_contains (step : BitVec p) {base final : BitVec p} {bnds : Bounds}
    (hbelow : bnds.below ≤ valueIn unsigned final - valueIn unsigned base)
    (hup : valueIn unsigned final - valueIn unsigned base ≤ bnds.up) :
    (bnds.directed step).below ≤ exactDifference unsigned step base final ∧
      exactDifference unsigned step base final ≤ (bnds.directed step).up := by
  unfold exactDifference Bounds.directed Bounds.negate
  split
  · exact ⟨by dsimp only; linarith, by dsimp only; linarith⟩
  · exact ⟨hbelow, hup⟩

theorem le_mpzGetDoubleInt_iff {k val : ℤ} (hk : k < 2 ^ q) : k ≤ mpzGetDoubleInt q val ↔ k ≤ val ∨ k ≤ 0 := by
  have hpos : (0 : ℤ) < 2 ^ q := by positivity
  unfold mpzGetDoubleInt
  split_ifs <;> omega

/-- The least number of steps is below the period of a variable of the wider type.
Source: `tree-ssa-loop-niter.c` `number_of_iterations_ne_max`
Kind: L -/
theorem lt_period {e : ℕ} (hpq : p ≤ q) (hq : q ≤ 4 * 2 ^ e) {s : BitVec q} (hs : s ≠ 0) {c k : ℕ}
    (hk : IsLeast {k | k * s.toNat ≡ c [MOD 2 ^ p]} k) :
    k < 2 ^ (q - numEndingZeros q (buildIntCst s.toNat : IntCst e)) := by
  obtain ⟨hbits, hsplit, _⟩ := exists_odd_part hq hs
  generalize numEndingZeros q (buildIntCst s.toNat : IntCst e) = bits at hbits hsplit ⊢
  by_contra hge
  -- a whole period earlier the variable was there already
  have hperiod : 2 ^ (q - bits) * s.toNat ≡ 0 [MOD 2 ^ p] := by
    rw [Nat.modEq_zero_iff_dvd, hsplit, ← mul_assoc, ← pow_add, Nat.sub_add_cancel hbits.le]
    exact Dvd.dvd.mul_right (pow_dvd_pow 2 hpq) _
  have hsum : k * s.toNat = (k - 2 ^ (q - bits)) * s.toNat + 2 ^ (q - bits) * s.toNat := by
    rw [← Nat.add_mul, Nat.sub_add_cancel (not_lt.mp hge)]
  have hearlier : (k - 2 ^ (q - bits)) * s.toNat ≡ c [MOD 2 ^ p] := by
    have h := hk.1
    rw [Set.mem_ofPred_eq, hsum] at h
    exact (hperiod.symm.add_left _).trans h
  have := hk.2 hearlier
  have hpos : 0 < 2 ^ (q - bits) := by positivity
  omega

/-- A quotient bounds the least count if and only if a multiple of the step that the dividend bounds covers the difference.
Source: `tree-ssa-loop-niter.c` `number_of_iterations_ne_max`
Kind: L -/
theorem le_quotient_iff {s c k : ℕ} (hs : 0 < s) (hk : IsLeast {k | k * s ≡ c [MOD 2 ^ p]} k) {top : ℤ} (htop : 0 ≤ top) :
    k ≤ top / s ∨ (k : ℤ) ≤ 0 ↔ ∃ d : ℕ, d ≤ top ∧ s ∣ d ∧ d ≡ c [MOD 2 ^ p] := by
  have hspos : (0 : ℤ) < s := by exact_mod_cast hs
  rw [Int.le_ediv_iff_mul_le hspos]
  constructor
  · intro h
    refine ⟨k * s, ?_, Dvd.intro_left k rfl, hk.1⟩
    push_cast
    rcases h with h | h
    · exact h
    · have hzero : (k : ℤ) = 0 := by omega
      rw [hzero, zero_mul]
      exact htop
  · rintro ⟨d, hd, ⟨j, rfl⟩, hcovers⟩
    left
    have hkj : k ≤ j := hk.2 (by rw [Set.mem_ofPred_eq, Nat.mul_comm]; exact hcovers)
    have hmul : (k * s : ℤ) ≤ (s * j : ℕ) := by
      rw [Nat.mul_comm]
      exact_mod_cast Nat.mul_le_mul_right s hkj
    exact hmul.trans hd

end Max

end GccCore.Gcc.LoopNiter
