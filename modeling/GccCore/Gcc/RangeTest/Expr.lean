import GccCore.Gcc.RangeTest.Basic

/-!
# `gcc/fold-const.c`: integer expressions and what folds them

* **Expressions** (`Expr`) over one integer variable have no value where arithmetic overflows in a type that does not wrap around.
* **The front end** (`TypeTable`) supplies types by their precision, and the supertypes of subtypes.
* **Folding** (`Folder`) simplifies the trees that are built: what comes out has the value of the tree wherever that has one.
* **Constants** are converted to a type modulo its precision (`foldConvertConst_modEq`); a signed type marks every constant that is
  not a value of it (`foldConvertConst_signed`).
-/

namespace GccCore.Gcc.RangeTest

open GccCore.Gcc.TreeVrp

/-! ## Expressions -/

/-- Integer expressions. Source: `tree.def`. -/
inductive Expr
  | var (t : IntegralType)
  | cst (t : IntegralType) (c : Cst)
  | convert (t : IntegralType) (e : Expr)
  | plus (t : IntegralType) (e0 e1 : Expr)
  | minus (t : IntegralType) (e0 e1 : Expr)
  | compare (code : CompCode) (t : IntegralType) (e0 e1 : Expr)
  | truthNot (t : IntegralType) (e : Expr)

/-- Source: `tree.h` `TREE_TYPE`. -/
def Expr.typeOf : Expr → IntegralType
  | .var t => t
  | .cst t _ => t
  | .convert t _ => t
  | .plus t _ _ => t
  | .minus t _ _ => t
  | .compare _ t _ _ => t
  | .truthNot t _ => t

/-- The result of arithmetic. Source: `flags.h` `TYPE_OVERFLOW_WRAPS`. -/
def arith (fl : Flags) (t : IntType) (z : ℤ) : Option ℤ :=
  if t.overflowWraps fl then some (t.wrap z) else if t.Has z then some z else none

/-- Source: `tree.def` ("the value is 0 or 1"). -/
def truthValue (t : IntType) (b : Bool) : ℤ := t.wrap (if b then 1 else 0)

/-- The value of an expression at a value of the variable, if nothing overflows. Source: `tree.def`. -/
def Expr.eval (fl : Flags) : Expr → ℤ → Option ℤ
  | .var _, x => some x
  | .cst _ c, _ => some c.val
  | .convert t e, x => (e.eval fl x).map t.wrap
  | .plus t e0 e1, x => (e0.eval fl x).bind fun v => (e1.eval fl x).bind fun w => arith fl t.toIntType (v + w)
  | .minus t e0 e1, x => (e0.eval fl x).bind fun v => (e1.eval fl x).bind fun w => arith fl t.toIntType (v - w)
  | .compare code t e0 e1, x =>
    (e0.eval fl x).bind fun v => (e1.eval fl x).map fun w => truthValue t.toIntType (code.eval v w)
  | .truthNot t e, x => (e.eval fl x).map fun v => truthValue t.toIntType (v == 0)

/-- One expression has the values of another wherever that has one. -/
def Expr.Refines (fl : Flags) (e e' : Expr) : Prop := ∀ x v, e.eval fl x = some v → e'.eval fl x = some v

/-! ## The front end and the folder -/

/-- The types that a front end supplies. A type with a supertype comes from `build_range_type`, which is given an integer type.
Source: `langhooks.h` `type_for_size` ("an integer type with at least that precision"), `tree.c` `build_range_type` -/
structure TypeTable where
  supertype : IntegralType → Option IntegralType
  typeForSize : ℕ → Bool → Option IntegralType
  supertype_code {t s : IntegralType} : supertype t = some s → s.code = .INTEGER_TYPE
  supertype_prec {t s : IntegralType} : supertype t = some s → s.prec = t.prec
  typeForSize_code {p : ℕ} {u : Bool} {t : IntegralType} : typeForSize p u = some t → t.code = .INTEGER_TYPE
  typeForSize_prec {p : ℕ} {u : Bool} {t : IntegralType} : typeForSize p u = some t → p ≤ t.prec
  typeForSize_unsigned {p : ℕ} {u : Bool} {t : IntegralType} : typeForSize p u = some t → t.unsigned = u

/-- The integer types of C, if they have 8, 16, 32 and 64 bits. Source: `c-common.c` `c_common_type_for_size`. -/
def cTypeForSize (bits : ℕ) (unsignedp : Bool) : Option IntegralType :=
  if bits ≤ 8 then some (cChar unsignedp)
  else if bits ≤ 16 then some (cShort unsignedp)
  else if bits ≤ 32 then some (cInt unsignedp)
  else if bits ≤ 64 then some (cLong unsignedp)
  else none

theorem cTypeForSize_spec {bits : ℕ} {u : Bool} {t : IntegralType} (h : cTypeForSize bits u = some t) :
    t.code = .INTEGER_TYPE ∧ bits ≤ t.prec ∧ t.unsigned = u := by
  unfold cTypeForSize at h
  split_ifs at h <;> (rw [← Option.some.inj h]; exact ⟨rfl, ‹_›, rfl⟩)

/-- The front end of C; no expression has a type with a supertype. Source: `c-common.c` `c_common_type_for_size`. -/
def cTypes : TypeTable :=
  { supertype := fun _ => none
    typeForSize := cTypeForSize
    supertype_code := fun h => absurd h (Option.not_mem_none _)
    supertype_prec := fun h => absurd h (Option.not_mem_none _)
    typeForSize_code := fun h => (cTypeForSize_spec h).1
    typeForSize_prec := fun h => (cTypeForSize_spec h).2.1
    typeForSize_unsigned := fun h => (cTypeForSize_spec h).2.2 }

/-- What simplifies the trees that a range check is made of: the type is the one asked for, and no value is changed. A constant is
subtracted from a conversion, in a type that wraps around; an expression is compared with a constant of its type; and such comparisons,
or the constant one, are inverted.
Source: `fold-const.c` `fold_build2`, `fold_convert`, `invert_truthvalue` -/
structure Folder (fl : Flags) where
  convert : IntegralType → Expr → Expr
  minus : IntegralType → Expr → Expr → Expr
  compare : CompCode → IntegralType → Expr → Expr → Expr
  invert : Expr → Expr
  typeOf_convert (t : IntegralType) (e : Expr) : (convert t e).typeOf = t
  typeOf_minus (t : IntegralType) (e0 e1 : Expr) : (minus t e0 e1).typeOf = t
  convert_refines (t : IntegralType) (e : Expr) : Expr.Refines fl (.convert t e) (convert t e)
  minus_refines (t : IntegralType) (e : Expr) (c : Cst) : t.overflowWraps fl = true →
    Expr.Refines fl (.minus t (convert t e) (.cst t c)) (minus t (convert t e) (.cst t c))
  compare_refines (code : CompCode) (type : IntegralType) {t : IntegralType} {e : Expr} (c : Cst) : e.typeOf = t →
    Expr.Refines fl (.compare code type e (.cst t c)) (compare code type e (.cst t c))
  invert_compare_refines (code : CompCode) (type : IntegralType) {t : IntegralType} {e : Expr} (c : Cst) : e.typeOf = t →
    Expr.Refines fl (.truthNot (compare code type e (.cst t c)).typeOf (compare code type e (.cst t c)))
      (invert (compare code type e (.cst t c)))
  invert_one_refines (type : IntegralType) : Expr.Refines fl (.truthNot type (.cst type ⟨1, false⟩)) (invert (.cst type ⟨1, false⟩))

/-- Nothing is simplified. Source: `tree.c` `build2`, `build1`. -/
def Folder.plain (fl : Flags) : Folder fl :=
  { convert := .convert
    minus := .minus
    compare := .compare
    invert := fun e => .truthNot e.typeOf e
    typeOf_convert := fun _ _ => rfl
    typeOf_minus := fun _ _ _ => rfl
    convert_refines := fun _ _ _ _ h => h
    minus_refines := fun _ _ _ _ _ _ h => h
    compare_refines := fun _ _ _ _ _ _ _ _ h => h
    invert_compare_refines := fun _ _ _ _ _ _ _ _ h => h
    invert_one_refines := fun _ _ _ h => h }

/-- Source: `tree.c` `signed_or_unsigned_type_for`. -/
def signedOrUnsignedTypeFor (T : TypeTable) (unsignedp : Bool) (t : IntegralType) : Option IntegralType :=
  if t.unsigned = unsignedp then some t else T.typeForSize t.prec unsignedp

/-! ## Constants -/

/-- A constant in another type. The mark is not set between a size type and a type that differs in nothing else.
Source: `fold-const.c` `fold_convert_const_int_from_int` -/
def foldConvertConst (src type : IntType) (arg1 : Cst) : Cst :=
  let z := src.stored arg1.val
  let overflowable := !(decide (src.prec = type.prec) && (src.unsigned == type.unsigned) && (src.sizetype || type.sizetype))
  let highNegative := decide (z < 0) || decide (2 ^ 127 ≤ z)
  let overflowed := (highNegative && !type.unsigned && src.unsigned) || arg1.overflow
  ⟨type.wrap z, overflowed || (overflowable && type.signExtended && !decide (type.SignFits z))⟩

section Constants

variable {src type : IntType} {c : Cst}

/-- **Converted constants** are congruent, if the type is not wider than a size type. Source: `fold-const.c`. Kind: L -/
theorem foldConvertConst_modEq (hsize : src.sizetype = true → type.prec = src.prec) :
    (foldConvertConst src type c).val ≡ c.val [ZMOD 2 ^ type.prec] := by
  refine (wrap_modEq type _).trans ?_
  by_cases hs : src.sizetype = true
  · rw [hsize hs]
    exact src.stored_modEq c.val
  · rw [src.stored_eq (Bool.not_eq_true _ ▸ hs)]

/-- **Constants of a signed type** that are not marked have kept their value. Source: `fold-const.c`. Kind: L -/
theorem foldConvertConst_signed (hc : src.Has c.val) (hsigned : type.unsigned = false)
    (hmark : (foldConvertConst src type c).overflow = false) : (foldConvertConst src type c).val = c.val := by
  have hnosize := IntType.sizetype_of_signed hsigned
  have hext : type.signExtended = true := by rw [IntType.signExtended, hsigned, Bool.not_false, Bool.true_or]
  unfold foldConvertConst at hmark ⊢
  dsimp only at hmark ⊢
  rw [hsigned, hnosize, hext, Bool.or_false, Bool.not_false, Bool.and_true, Bool.and_true, Bool.or_eq_false_iff,
    Bool.or_eq_false_iff] at hmark
  obtain ⟨⟨hneg, -⟩, hfits⟩ := hmark
  -- an unsigned source is not negative as it is stored, and is no size type of the same precision and sign
  have hstored : src.stored c.val = c.val := by
    by_cases hs : src.sizetype = true
    · have hu := (src.unsigned_of_sizetype hs).1
      rw [hu, Bool.and_true, Bool.or_eq_false_iff, decide_eq_false_iff_not, decide_eq_false_iff_not] at hneg
      have hrange := (IntType.has_unsigned hu).mp hc
      have hmod := src.stored_modEq c.val
      have hlt : src.stored c.val < 2 ^ src.prec := by
        have hbound := @Int.bmod_lt c.val (2 ^ src.prec) (by positivity)
        have hpow := src.two_pow_prec
        have hhalf := src.half_pos
        rw [IntType.stored, if_pos hs]
        push_cast at hbound
        omega
      calc src.stored c.val = src.stored c.val % 2 ^ src.prec := (Int.emod_eq_of_lt (not_lt.mp hneg.1) hlt).symm
        _ = c.val % 2 ^ src.prec := hmod
        _ = c.val := Int.emod_eq_of_lt hrange.1 hrange.2
    · exact src.stored_eq (Bool.not_eq_true _ ▸ hs) _
  rw [hstored] at hfits ⊢
  have hoverflowable : (decide (src.prec = type.prec) && (src.unsigned == false) && src.sizetype) = false := by
    cases hs : src.sizetype with
    | false => rw [Bool.and_false]
    | true => rw [(src.unsigned_of_sizetype hs).1]; simp
  rw [hoverflowable, Bool.not_false, Bool.true_and, Bool.not_eq_false', decide_eq_true_iff] at hfits
  exact IntType.wrap_of_has ((IntType.has_signed hsigned).mpr hfits)

end Constants

end GccCore.Gcc.RangeTest
