import GccCore.Gcc.TreeVrp.Compare

/-!
# `gcc/fold-const.c`: range tests

A range test asks whether an integer is in a range or out of it. A bound that is missing is an infinity.

* **Types** (`IntegralType`): an integer type has bounds of its own, which may be narrower than its precision.
* **Missing bounds** are transformed into "the value Z, Z being greater than any representable number": comparisons of bounds compare
  their places (`rangeCompare_eq`), and a test compares places with the integer (`Range.contains_iff`).
* **Neighbours** (`rangeSuccessor_spec`, `rangePredecessor_spec`) of constants, where the type has them.
-/

namespace GccCore.Gcc.RangeTest

open GccCore.Gcc.TreeVrp

/-! ## Types -/

/-- Source: `tree.h` `INTEGRAL_TYPE_P`. -/
inductive TypeCode
  | INTEGER_TYPE
  | ENUMERAL_TYPE
  | BOOLEAN_TYPE
  deriving DecidableEq

/-- An integer type; a subtype may have narrower bounds than the precision gives.
Source: `tree.h` `TYPE_MIN_VALUE`, `TYPE_MAX_VALUE`, `TYPE_MODE` -/
structure IntegralType extends IntType where
  code : TypeCode
  modeBits : ℕ
  minimum : ℤ
  maximum : ℤ
  has_minimum : toIntType.Has minimum
  has_maximum : toIntType.Has maximum
  minimum_le : minimum ≤ maximum
  integer_of_sizetype : sizetype = true → code = .INTEGER_TYPE

/-- The values of a type. Source: `tree.h` `TYPE_MIN_VALUE`, `TYPE_MAX_VALUE`. -/
def IntegralType.Values (t : IntegralType) (x : ℤ) : Prop := t.minimum ≤ x ∧ x ≤ t.maximum

/-- The size of the smallest mode for a precision. Source: `stor-layout.c` `smallest_mode_for_size`. -/
def smallestModeBits (precision : ℕ) : ℕ :=
  if precision ≤ 8 then 8 else if precision ≤ 16 then 16 else if precision ≤ 32 then 32 else if precision ≤ 64 then 64 else 128

/-- Source: `tree.c` `build_nonstandard_integer_type`. -/
def buildNonstandardIntegerType (precision : ℕ) (hpos : 0 < precision) (hle : precision ≤ 128) (unsignedp : Bool) : IntegralType :=
  let t : IntType :=
    { prec := precision, unsigned := unsignedp, sizetype := false, prec_pos := hpos, prec_le := hle
      unsigned_of_sizetype := fun hsize => absurd hsize Bool.false_ne_true, subrange := none, subrange_has := nofun }
  { toIntType := t
    code := .INTEGER_TYPE
    modeBits := smallestModeBits precision
    minimum := t.minValue
    maximum := t.maxValue
    has_minimum := ⟨le_rfl, t.minValue_lt_maxValue.le⟩
    has_maximum := ⟨t.minValue_lt_maxValue.le, le_rfl⟩
    minimum_le := t.minValue_lt_maxValue.le
    integer_of_sizetype := fun _ => rfl }

/-- An integer of 8 bits. Source: `tree.h` `signed_char_type_node`, `unsigned_char_type_node`. -/
def cChar : Bool → IntegralType := buildNonstandardIntegerType 8 (IntType.ofWidth 7 false).prec_pos (IntType.ofWidth 7 false).prec_le

/-- An integer of 16 bits. Source: `tree.h` `short_integer_type_node`, `short_unsigned_type_node`. -/
def cShort : Bool → IntegralType := buildNonstandardIntegerType 16 (by decide) (by decide)

/-- An integer of 32 bits. Source: `tree.h` `integer_type_node`, `unsigned_type_node`. -/
def cInt : Bool → IntegralType := buildNonstandardIntegerType 32 intType.prec_pos intType.prec_le

/-- An integer of 64 bits. Source: `tree.h` `long_integer_type_node`, `long_unsigned_type_node`. -/
def cLong : Bool → IntegralType := buildNonstandardIntegerType 64 (by decide) (by decide)

/-! ## Tests -/

/-- A range and whether it is the integers in it that pass.
Source: `fold-const.c` `make_range` (`in_p`, `low`, `high`) -/
structure Range where
  inP : Bool
  low : Option Cst
  high : Option Cst
  deriving DecidableEq

/-- Source: `fold-const.c` `make_range` ("If EXP is a constant, we can evaluate"). -/
def Range.contains (r : Range) (x : ℤ) : Bool :=
  r.low.all (fun low => decide (low.val ≤ x)) && r.high.all (fun high => decide (x ≤ high.val))

/-- Source: `fold-const.c` `make_range` ("If EXP is a constant, we can evaluate"). -/
def Range.test (r : Range) (x : ℤ) : Bool := r.inP == r.contains x

/-! ## The code -/

/-- The constant one in a type. Source: `fold-const.c` `range_binop` (`fold_convert (TREE_TYPE (arg0), arg1)`). -/
def integerOne (t : IntType) : Cst := forceFit t 1 false

/-- Arithmetic: an infinity if an argument is one.
Source: `fold-const.c` `range_binop` -/
def rangeBinop (t : IntType) (code : TreeCode) (arg0 arg1 : Option Cst) : Option Cst :=
  match arg0, arg1 with
  | some a, some b => intConstBinop t code a b
  | _, _ => none

/-- Source: `fold-const.c` `range_binop` ("Set SGN[01] to -1 if ARG[01] is a lower bound, 1 for upper"). -/
def boundSign (upper : Bool) : Option Cst → ℤ
  | some _ => 0
  | none => if upper then 1 else -1

/-- Comparisons: infinities are compared by their signs.
Source: `fold-const.c` `range_binop` -/
def rangeCompare (code : CompCode) (arg0 : Option Cst) (upper0 : Bool) (arg1 : Option Cst) (upper1 : Bool) : Bool :=
  match arg0, arg1 with
  | some a, some b => code.eval a.val b.val
  | _, _ => code.eval (boundSign upper0 arg0) (boundSign upper1 arg1)

/-- Source: `fold-const.c` `range_predecessor`. -/
def rangePredecessor (t : IntegralType) (val : Cst) : Option Cst :=
  if val.val = t.minimum then none else rangeBinop t.toIntType .MINUS_EXPR (some val) (some (integerOne t.toIntType))

/-- Source: `fold-const.c` `range_successor`. -/
def rangeSuccessor (t : IntegralType) (val : Cst) : Option Cst :=
  if val.val = t.maximum then none else rangeBinop t.toIntType .PLUS_EXPR (some val) (some (integerOne t.toIntType))

/-! ## Places -/

section Places

variable {t : IntegralType}

/-- Where a bound lies: an infinity is next to the values of the type.
Source: `fold-const.c` `range_binop` ("the value Z, Z being greater than any representable number") -/
def IntegralType.place (t : IntegralType) (upper : Bool) : Option Cst → ℤ
  | some c => c.val
  | none => if upper then t.maximum + 1 else t.minimum - 1

/-- The constant, if there is one, is a value of the type. -/
def IntegralType.IsBound (t : IntegralType) (bound : Option Cst) : Prop := ∀ c ∈ bound, t.Values c.val

theorem CompCode.eval_congr {code : CompCode} {x y x' y' : ℤ} (hlt : x < y ↔ x' < y') (hgt : y < x ↔ y' < x') :
    code.eval x y = code.eval x' y' := by
  have heq : x = y ↔ x' = y' := by omega
  have hle : x ≤ y ↔ x' ≤ y' := by omega
  have hge : y ≤ x ↔ y' ≤ x' := by omega
  cases code <;> simp only [CompCode.eval, ne_eq, hlt, hgt, heq, hle, hge]

/-- **Comparisons of bounds** compare their places. Source: `fold-const.c` `range_binop`. Kind: L -/
theorem rangeCompare_eq (code : CompCode) {arg0 arg1 : Option Cst} (h0 : t.IsBound arg0) (h1 : t.IsBound arg1)
    (upper0 upper1 : Bool) :
    rangeCompare code arg0 upper0 arg1 upper1 = code.eval (t.place upper0 arg0) (t.place upper1 arg1) := by
  have hle := t.minimum_le
  cases arg0 with
  | some a =>
    obtain ⟨hamin, hamax⟩ := h0 a rfl
    cases arg1 with
    | some b => rfl
    | none =>
      refine CompCode.eval_congr ?_ ?_ <;> cases upper1 <;>
        simp only [boundSign, IntegralType.place, if_true, Bool.false_eq_true, if_false] <;> omega
  | none =>
    cases arg1 with
    | some b =>
      obtain ⟨hbmin, hbmax⟩ := h1 b rfl
      refine CompCode.eval_congr ?_ ?_ <;> cases upper0 <;>
        simp only [boundSign, IntegralType.place, if_true, Bool.false_eq_true, if_false] <;> omega
    | none =>
      refine CompCode.eval_congr ?_ ?_ <;> cases upper0 <;> cases upper1 <;>
        simp only [boundSign, IntegralType.place, if_true, Bool.false_eq_true, if_false] <;> omega

variable {x : ℤ}

theorem place_low_le_iff (hx : t.Values x) (bound : Option Cst) :
    bound.all (fun low => decide (low.val ≤ x)) = true ↔ t.place false bound ≤ x := by
  cases bound with
  | some c => exact decide_eq_true_iff
  | none =>
    refine iff_of_true rfl ?_
    have hmin := hx.1
    simp only [IntegralType.place, Bool.false_eq_true, if_false]
    omega

theorem le_place_high_iff (hx : t.Values x) (bound : Option Cst) :
    bound.all (fun high => decide (x ≤ high.val)) = true ↔ x ≤ t.place true bound := by
  cases bound with
  | some c => exact decide_eq_true_iff
  | none =>
    refine iff_of_true rfl ?_
    have hmax := hx.2
    simp only [IntegralType.place, if_true]
    omega

/-- **Ranges contain** what lies between the places of their bounds. Source: `fold-const.c` `make_range`. Kind: L -/
theorem Range.contains_iff (hx : t.Values x) (r : Range) :
    r.contains x = true ↔ t.place false r.low ≤ x ∧ x ≤ t.place true r.high := by
  unfold Range.contains
  rw [Bool.and_eq_true, place_low_le_iff hx, le_place_high_iff hx]

theorem Range.test_in (hx : t.Values x) (low high : Option Cst) :
    Range.test ⟨true, low, high⟩ x = true ↔ t.place false low ≤ x ∧ x ≤ t.place true high := by
  rw [← Range.contains_iff hx ⟨true, low, high⟩, Range.test, beq_iff_eq]
  exact eq_comm

theorem Range.test_out (hx : t.Values x) (low high : Option Cst) :
    Range.test ⟨false, low, high⟩ x = true ↔ ¬ (t.place false low ≤ x ∧ x ≤ t.place true high) := by
  rw [← Range.contains_iff hx ⟨false, low, high⟩, Range.test, beq_iff_eq, Bool.not_eq_true]
  exact eq_comm

end Places

/-! ## Neighbours -/

section Neighbours

variable {t : IntegralType}

theorem IntegralType.has_of_values {x : ℤ} (hx : t.Values x) : t.toIntType.Has x := by
  have hmin := t.has_minimum
  have hmax := t.has_maximum
  exact ⟨hmin.1.trans hx.1, hx.2.trans hmax.2⟩

/-- The value of a sum or difference is the one of the type that is congruent. Source: `fold-const.c` `int_const_binop`. Kind: L -/
theorem intConstBinop_val (u : IntType) {code : TreeCode} (hcode : code = .PLUS_EXPR ∨ code = .MINUS_EXPR) (a b : Cst) :
    ∃ r, intConstBinop u code a b = some r ∧ r.val = u.wrap (code.eval a.val b.val) := by
  have ha := u.stored_modEq a.val
  have hb := u.stored_modEq b.val
  rcases hcode with rfl | rfl
  · exact ⟨_, rfl, IntType.wrap_congr (ha.add hb)⟩
  · exact ⟨_, rfl, IntType.wrap_congr (ha.sub hb)⟩

theorem wrap_modEq (u : IntType) (z : ℤ) : u.wrap z ≡ z [ZMOD 2 ^ u.prec] := by
  unfold IntType.wrap
  split_ifs
  · exact Int.mod_modEq _ _
  · have hmod := @Int.bmod_emod z (2 ^ u.prec)
    push_cast at hmod
    exact hmod

theorem integerOne_modEq (u : IntType) : (integerOne u).val ≡ 1 [ZMOD 2 ^ u.prec] := wrap_modEq u 1

/-- **The successor** of a constant that is not the last value. Source: `fold-const.c` `range_successor`. Kind: L -/
theorem rangeSuccessor_spec {c d : Cst} (hc : t.Values c.val) (hd : rangeSuccessor t c = some d) :
    d.val = c.val + 1 ∧ c.val < t.maximum := by
  unfold rangeSuccessor at hd
  split_ifs at hd with hmax
  have hlt : c.val < t.maximum := lt_of_le_of_ne hc.2 hmax
  have hnext : t.toIntType.Has (c.val + 1) := t.has_of_values ⟨by have := hc.1; omega, by omega⟩
  obtain ⟨r, hr, hval⟩ := intConstBinop_val t.toIntType (Or.inl rfl) c (integerOne t.toIntType)
  have hdr : r = d := Option.some.inj (hr.symm.trans hd)
  rw [← hdr, hval]
  refine ⟨?_, hlt⟩
  calc t.wrap (c.val + (integerOne t.toIntType).val) = t.wrap (c.val + 1) :=
        IntType.wrap_congr ((integerOne_modEq t.toIntType).add_left _)
    _ = c.val + 1 := IntType.wrap_of_has hnext

/-- **The predecessor** of a constant that is not the first value. Source: `fold-const.c` `range_predecessor`. Kind: L -/
theorem rangePredecessor_spec {c d : Cst} (hc : t.Values c.val) (hd : rangePredecessor t c = some d) :
    d.val = c.val - 1 ∧ t.minimum < c.val := by
  unfold rangePredecessor at hd
  split_ifs at hd with hmin
  have hlt : t.minimum < c.val := lt_of_le_of_ne hc.1 (Ne.symm hmin)
  have hprev : t.toIntType.Has (c.val - 1) := t.has_of_values ⟨by omega, by have := hc.2; omega⟩
  obtain ⟨r, hr, hval⟩ := intConstBinop_val t.toIntType (Or.inr rfl) c (integerOne t.toIntType)
  have hdr : r = d := Option.some.inj (hr.symm.trans hd)
  rw [← hdr, hval]
  refine ⟨?_, hlt⟩
  calc t.wrap (c.val - (integerOne t.toIntType).val) = t.wrap (c.val - 1) :=
        IntType.wrap_congr ((integerOne_modEq t.toIntType).sub_left _)
    _ = c.val - 1 := IntType.wrap_of_has hprev

end Neighbours

end GccCore.Gcc.RangeTest
