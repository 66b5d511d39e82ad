import GccCore.Gcc.RangeTest.Expr

/-!
# `gcc/fold-const.c`: range checks built from ranges

A range check is one comparison: with a bound, with zero as a signed integer if the range is from one to the greatest signed value,
or of the distance from the low bound, which is computed modulo the precision and compared as an unsigned integer.

* **Distances** (`distance_iff`): an integer is in a range exactly if its distance from the low bound, reduced to a type that is at
  least as wide, is between zero and the length.
* **Main result**: `build_range_check_iff`. The check is true of the values that pass the range test, and of no others.
-/

namespace GccCore.Gcc.RangeTest

open GccCore.Gcc.TreeVrp

variable {fl : Flags}

/-! ## The code -/

/-- The greatest signed value as two words of `w` bits give it.
Source: `fold-const.c` `build_range_check` ("Optimize (c>=1) && (c<=127) into (signed char)c > 0") -/
def signedMaxWords (w prec : ℕ) : ℤ :=
  let lo : ℤ := if prec ≤ w then 2 ^ (prec - 1) - 1 else 2 ^ w - 1
  let hi : ℤ := if prec ≤ w then 0 else 2 ^ (prec - w - 1) - 1
  hi * 2 ^ w + lo

/-- The signed type of the same precision. Source: `fold-const.c` `build_range_check` (`signed_etype`). -/
def signedVariant (T : TypeTable) (etype : IntegralType) : Option IntegralType :=
  (signedOrUnsignedTypeFor T false etype).map fun signedEtype =>
    if signedEtype.prec ≠ etype.prec then buildNonstandardIntegerType etype.prec etype.prec_pos etype.prec_le false else signedEtype

/-- Source: `fold-const.c` `build_range_check` (`if (integer_onep (low) && TREE_CODE (high) == INTEGER_CST)`). -/
def positiveCheck (F : Folder fl) (T : TypeTable) (type : IntegralType) (exp : Expr) : Option Expr :=
  let etype := exp.typeOf
  if etype.unsigned then
    (signedVariant T etype).map fun signedEtype =>
      F.compare .GT_EXPR type (F.convert signedEtype exp) (.cst signedEtype ⟨0, false⟩)
  else some (F.compare .GT_EXPR type exp (.cst etype ⟨0, false⟩))

/-- A low bound of zero: the high bound is compared as an unsigned integer.
Source: `fold-const.c` `build_range_check` (`if (integer_zerop (low))`) -/
def checkFromZero (F : Folder fl) (T : TypeTable) (type : IntegralType) (exp : Expr) (high : Cst) : Option Expr :=
  let etype := exp.typeOf
  if etype.unsigned then some (F.compare .LE_EXPR type exp (.cst etype high))
  else
    (signedOrUnsignedTypeFor T true etype).map fun utype =>
      F.compare .LE_EXPR type (F.convert utype exp) (.cst utype (foldConvertConst etype.toIntType utype.toIntType high))

/-- The type of the distance, before it is made one that wraps around.
Source: `fold-const.c` `build_range_check` (`switch (TREE_CODE (etype))`) -/
def distanceBase (T : TypeTable) (etype : IntegralType) : Option IntegralType :=
  match etype.code with
  | .INTEGER_TYPE => some ((T.supertype etype).getD etype)
  | .ENUMERAL_TYPE | .BOOLEAN_TYPE => T.typeForSize etype.prec etype.unsigned

/-- Source: `fold-const.c` `build_range_check` ("If we don't have wrap-around arithmetics upfront, try to force it"). -/
def wrappingType (fl : Flags) (T : TypeTable) (etype : IntegralType) : Option IntegralType :=
  if etype.code = .INTEGER_TYPE ∧ etype.overflowWraps fl = false then
    (signedOrUnsignedTypeFor T true etype).bind fun utype =>
      let maxv := rangeBinop utype.toIntType .PLUS_EXPR
        (some (foldConvertConst etype.toIntType utype.toIntType ⟨etype.maximum, false⟩)) (some (integerOne utype.toIntType))
      let minv := foldConvertConst etype.toIntType utype.toIntType ⟨etype.minimum, false⟩
      if rangeCompare .NE_EXPR (some minv) true maxv true then none else some utype
  else some etype

/-- The distance from the low bound. Source: `fold-const.c` `build_range_check` (`const_binop (MINUS_EXPR, high, low, 0)`). -/
def distanceCheck (F : Folder fl) (T : TypeTable) (type : IntegralType) (exp : Expr) (low high : Cst) : Option Expr :=
  ((distanceBase T exp.typeOf).bind (wrappingType fl T)).bind fun etype =>
    let high := foldConvertConst exp.typeOf.toIntType etype.toIntType high
    let low := foldConvertConst exp.typeOf.toIntType etype.toIntType low
    (intConstBinop etype.toIntType .MINUS_EXPR high low).bind fun value =>
      if value.overflow then none
      else
        let exp := F.minus etype (F.convert etype exp) (.cst etype low)
        if value.val = 0 then some (F.compare .EQ_EXPR type exp (.cst etype ⟨0, false⟩)) else checkFromZero F T type exp value

/-- The check for being in a range. Source: `fold-const.c` `build_range_check` (after `if (!in_p)`). -/
def checkIn (F : Folder fl) (T : TypeTable) (type : IntegralType) (exp : Expr) : Option Cst → Option Cst → Option Expr
  | none, none => some (.cst type ⟨1, false⟩)
  | none, some high => some (F.compare .LE_EXPR type exp (.cst exp.typeOf high))
  | some low, none => some (F.compare .GE_EXPR type exp (.cst exp.typeOf low))
  | some low, some high =>
    if low.val = high.val then some (F.compare .EQ_EXPR type exp (.cst exp.typeOf low))
    else if low.val = 0 then checkFromZero F T type exp high
    else if low.val = 1 ∧ high.val = signedMaxWords 64 exp.typeOf.prec then positiveCheck F T type exp
    else distanceCheck F T type exp low high

/-- There is no result where the code returns a null tree, or the front end has no type. Source: `fold-const.c` `build_range_check`. -/
def buildRangeCheck (F : Folder fl) (T : TypeTable) (type : IntegralType) (exp : Expr) (r : Range) : Option Expr :=
  let value := checkIn F T type exp r.low r.high
  if r.inP then value else value.map F.invert

/-! ## What checks decide -/

/-- The expression has a truth value, and that of the proposition. -/
def Expr.Decides (fl : Flags) (e : Expr) (x : ℤ) (p : Prop) : Prop := ∃ w, e.eval fl x = some w ∧ (w ≠ 0 ↔ p)

section Decides

variable {e : Expr} {x v : ℤ} (F : Folder fl) (type : IntegralType)

theorem Expr.Decides.congr {p q : Prop} (h : e.Decides fl x p) (hpq : p ↔ q) : e.Decides fl x q := by
  obtain ⟨w, hw, hiff⟩ := h
  exact ⟨w, hw, hiff.trans hpq⟩

/-- Truth values are told apart in every type. -/
theorem truthValue_ne_zero_iff (t : IntType) (b : Bool) : truthValue t b ≠ 0 ↔ b = true := by
  unfold truthValue
  cases b with
  | false => simp [IntType.wrap_of_has t.has_zero]
  | true =>
    refine iff_of_true (fun hzero => ?_) rfl
    have hmod := wrap_modEq t 1
    rw [if_pos rfl] at hzero
    rw [hzero] at hmod
    have hdvd : (2 : ℤ) ^ t.prec ∣ 1 := by simpa using Int.modEq_iff_dvd.mp hmod
    have hle := Int.le_of_dvd one_pos hdvd
    have hpow := t.two_pow_prec
    have hhalf := t.half_pos
    omega

theorem compare_decides (code : CompCode) {t : IntegralType} (ht : e.typeOf = t) (c : Cst) (hv : e.eval fl x = some v) :
    (F.compare code type e (.cst t c)).Decides fl x (code.eval v c.val = true) := by
  refine ⟨_, F.compare_refines code type c ht x (truthValue type.toIntType (code.eval v c.val)) ?_, truthValue_ne_zero_iff _ _⟩
  simp [Expr.eval, hv]

theorem convert_eval (t : IntegralType) (hv : e.eval fl x = some v) : (F.convert t e).eval fl x = some (t.wrap v) := by
  apply F.convert_refines t e x
  simp [Expr.eval, hv]

/-- The trees of which `build_range_check` takes the inverse: the constant one, and comparisons with a constant.
Source: `fold-const.c` `build_range_check` (`invert_truthvalue (value)`) -/
def IsCheck (e : Expr) : Prop :=
  e = .cst type ⟨1, false⟩ ∨ ∃ code t e0 c, e0.typeOf = t ∧ e = F.compare code type e0 (.cst t c)

theorem invert_decides {p : Prop} (he : IsCheck F type e) (h : e.Decides fl x p) : (F.invert e).Decides fl x (¬ p) := by
  obtain ⟨w, hw, hiff⟩ := h
  have hinvert : Expr.Refines fl (.truthNot e.typeOf e) (F.invert e) := by
    obtain rfl | ⟨code, t, e0, c, ht, rfl⟩ := he
    · exact F.invert_one_refines type
    · exact F.invert_compare_refines code type c ht
  refine ⟨truthValue e.typeOf.toIntType (w == 0), hinvert x _ (by simp [Expr.eval, hw]), ?_⟩
  rw [truthValue_ne_zero_iff, beq_iff_eq, ← hiff, not_not]

/-- Subtraction in a type that wraps around. Source: `fold-const.c` `fold_build2 (MINUS_EXPR)`. Kind: L -/
theorem minus_eval (t : IntegralType) (c : Cst) (hwraps : t.overflowWraps fl = true) (hv : e.eval fl x = some v) :
    (F.minus t (F.convert t e) (.cst t c)).eval fl x = some (t.wrap (t.wrap v - c.val)) := by
  apply F.minus_refines t e c hwraps x
  simp [Expr.eval, convert_eval F t hv, arith, hwraps]

end Decides

/-! ## Distances -/

section Distances

variable {src f : IntType}

/-- Two values of a type differ by less than the width. -/
theorem sub_lt_of_has {y z : ℤ} (hy : src.Has y) (hz : src.Has z) : y - z < 2 ^ src.prec := by
  have hpow := src.two_pow_prec
  cases hu : src.unsigned with
  | true =>
    rw [IntType.has_unsigned hu] at hy hz
    omega
  | false =>
    rw [IntType.has_signed hu] at hy hz
    have hy' := hy.2
    have hz' := hz.1
    omega

/-- **An integer is in a range exactly if its distance from the low bound is not greater than the length.** The distance may be reduced
to any type that is at least as wide and has the length as a value.
Source: `fold-const.c` `build_range_check` ("Optimize (c>=low) && (c<=high) into (c-low>=0) && (c-low<=high-low)")
Kind: L -/
theorem distance_iff {v low high d : ℤ} (hprec : src.prec ≤ f.prec) (hv : src.Has v) (hlow : src.Has low) (hhigh : src.Has high)
    (hd : f.Has d) (hmod : d ≡ v - low [ZMOD 2 ^ f.prec]) (hlen : f.Has (high - low)) :
    (0 ≤ d ∧ d ≤ high - low) ↔ (low ≤ v ∧ v ≤ high) := by
  have hpow : (2 : ℤ) ^ src.prec ≤ 2 ^ f.prec := pow_le_pow_right₀ (by decide) hprec
  have hhv := sub_lt_of_has hhigh hv
  have hvl := sub_lt_of_has hv hlow
  constructor
  · rintro ⟨hnonneg, hle⟩
    -- the distance is less than the width, so that it was not reduced
    obtain ⟨k, hk⟩ := Int.modEq_iff_dvd.mp hmod
    have hk0 : k = 0 := by
      have hpos : (0 : ℤ) < 2 ^ f.prec := by positivity
      nlinarith
    rw [hk0, mul_zero] at hk
    omega
  · rintro ⟨hge, hle⟩
    have hhas : f.Has (v - low) := ⟨f.has_zero.1.trans (by omega), le_trans (by omega) hlen.2⟩
    have heq : d = v - low := by
      rw [← IntType.wrap_of_has hd, ← IntType.wrap_of_has hhas]
      exact IntType.wrap_congr hmod
    omega

end Distances

/-! ## The three forms -/

section Forms

variable (F : Folder fl) (T : TypeTable) (type : IntegralType) {exp r : Expr} {x v : ℤ}

theorem signedOrUnsignedTypeFor_spec {T : TypeTable} {u : Bool} {t t' : IntegralType}
    (h : signedOrUnsignedTypeFor T u t = some t') : t'.unsigned = u ∧ t.prec ≤ t'.prec := by
  unfold signedOrUnsignedTypeFor at h
  split_ifs at h with hu
  · rw [← Option.some.inj h]
    exact ⟨hu, le_rfl⟩
  · exact ⟨T.typeForSize_unsigned h, T.typeForSize_prec h⟩

variable (hv : exp.eval fl x = some v) (hhas : exp.typeOf.Has v)

include hv hhas

/-- **From zero.** Source: `fold-const.c` `build_range_check` (`if (integer_zerop (low))`). Kind: L -/
theorem checkFromZero_spec {high : Cst} (hhigh : exp.typeOf.Has high.val) (hnonneg : 0 ≤ high.val)
    (hr : checkFromZero F T type exp high = some r) : r.Decides fl x (0 ≤ v ∧ v ≤ high.val) := by
  unfold checkFromZero at hr
  dsimp only at hr
  split_ifs at hr with hu
  · rw [← Option.some.inj hr]
    refine (compare_decides F type .LE_EXPR rfl high hv).congr ?_
    rw [IntType.has_unsigned hu] at hhas
    simp [CompCode.eval, hhas.1]
  · obtain ⟨utype, hutype, rfl⟩ := Option.map_eq_some_iff.mp hr
    obtain ⟨hunsigned, hprec⟩ := signedOrUnsignedTypeFor_spec hutype
    have hsigned := Bool.not_eq_true _ ▸ hu
    have hnosize := IntType.sizetype_of_signed hsigned
    have hpow : (2 : ℤ) ^ exp.typeOf.prec ≤ 2 ^ utype.prec := pow_le_pow_right₀ (by decide) hprec
    have htwo := exp.typeOf.two_pow_prec
    rw [IntType.has_signed hsigned] at hhas hhigh
    obtain ⟨hvlow, hvhigh⟩ := hhas
    have hhigh' := hhigh.2
    have hkeep : (foldConvertConst exp.typeOf.toIntType utype.toIntType high).val = high.val := by
      unfold foldConvertConst
      dsimp only
      rw [IntType.stored_eq hnosize]
      exact IntType.wrap_of_has ((IntType.has_unsigned hunsigned).mpr ⟨hnonneg, by omega⟩)
    refine (compare_decides F type .LE_EXPR (F.typeOf_convert utype exp) _ (convert_eval F utype hv)).congr ?_
    have hwrap : utype.wrap v = v % 2 ^ utype.prec := by rw [IntType.wrap, if_pos hunsigned]
    rw [hkeep, hwrap, CompCode.eval, decide_eq_true_iff]
    by_cases hneg : 0 ≤ v
    · rw [Int.emod_eq_of_lt hneg (by omega), and_iff_right hneg]
    · -- a negative integer is converted to one that is greater than all signed values
      have hadd : v % 2 ^ utype.prec = v + 2 ^ utype.prec := by
        rw [← Int.add_emod_right, Int.emod_eq_of_lt (by omega) (by omega)]
      rw [hadd]
      exact iff_of_false (by omega) fun h => hneg h.1

/-- **From one to the greatest signed value.** Source: `fold-const.c` `build_range_check` ("(signed char)c > 0"). Kind: L -/
theorem positiveCheck_spec (hr : positiveCheck F T type exp = some r) :
    r.Decides fl x (1 ≤ v ∧ v ≤ 2 ^ (exp.typeOf.prec - 1) - 1) := by
  have htwo := exp.typeOf.two_pow_prec
  unfold positiveCheck at hr
  dsimp only at hr
  split_ifs at hr with hu
  · obtain ⟨s, hs, rfl⟩ := Option.map_eq_some_iff.mp hr
    have hs' : s.unsigned = false ∧ s.prec = exp.typeOf.prec := by
      obtain ⟨s0, hs0, rfl⟩ := Option.map_eq_some_iff.mp hs
      split_ifs with hprec
      · exact ⟨rfl, rfl⟩
      · exact ⟨(signedOrUnsignedTypeFor_spec hs0).1, not_not.mp hprec⟩
    obtain ⟨hsigned, hprec⟩ := hs'
    refine (compare_decides F type .GT_EXPR (F.typeOf_convert s exp) ⟨0, false⟩ (convert_eval F s hv)).congr ?_
    rw [IntType.has_unsigned hu] at hhas
    rw [CompCode.eval, decide_eq_true_iff]
    by_cases hle : v ≤ 2 ^ (exp.typeOf.prec - 1) - 1
    · have hfits : s.Has v := (IntType.has_signed hsigned).mpr ⟨by rw [hprec]; omega, by rw [hprec]; omega⟩
      rw [IntType.wrap_of_has hfits]
      exact ⟨fun h => ⟨h, hle⟩, fun h => h.1⟩
    · have hfits : s.Has (v - 2 ^ exp.typeOf.prec) :=
        (IntType.has_signed hsigned).mpr ⟨by rw [hprec]; omega, by rw [hprec]; omega⟩
      have hmod : v ≡ v - 2 ^ exp.typeOf.prec [ZMOD 2 ^ s.prec] := by
        rw [hprec]
        exact Int.modEq_iff_dvd.mpr ⟨-1, by ring⟩
      rw [IntType.wrap_congr hmod, IntType.wrap_of_has hfits]
      exact iff_of_false (by dsimp only; omega) fun h => hle h.2
  · rw [← Option.some.inj hr]
    refine (compare_decides F type .GT_EXPR rfl ⟨0, false⟩ hv).congr ?_
    rw [IntType.has_signed (Bool.not_eq_true _ ▸ hu)] at hhas
    have hmax := hhas.2
    rw [CompCode.eval, decide_eq_true_iff]
    exact ⟨fun h => ⟨h, by omega⟩, fun h => h.1⟩

omit hv hhas in
theorem distanceBase_spec {T : TypeTable} {t b : IntegralType} (hb : distanceBase T t = some b) :
    b.code = .INTEGER_TYPE ∧ t.prec ≤ b.prec ∧ (t.sizetype = true → b.prec = t.prec) := by
  unfold distanceBase at hb
  cases hcode : t.code with
  | INTEGER_TYPE =>
    rw [hcode] at hb
    cases hsuper : T.supertype t with
    | none =>
      rw [hsuper] at hb
      rw [← Option.some.inj hb]
      exact ⟨hcode, le_rfl, fun _ => rfl⟩
    | some s =>
      rw [hsuper] at hb
      rw [← Option.some.inj hb]
      exact ⟨T.supertype_code hsuper, (T.supertype_prec hsuper).ge, fun _ => T.supertype_prec hsuper⟩
  | ENUMERAL_TYPE | BOOLEAN_TYPE =>
    rw [hcode] at hb
    refine ⟨T.typeForSize_code hb, T.typeForSize_prec hb, fun hsize => ?_⟩
    exact absurd (hcode.symm.trans (t.integer_of_sizetype hsize)) (by decide)

omit hv hhas in
/-- The successor of the greatest value is the least value only in a type of the same precision.
Source: `fold-const.c` `build_range_check` ("Check if (unsigned) INT_MAX + 1 == (unsigned) INT_MIN")
Kind: L -/
theorem wrappingType_spec {T : TypeTable} {b f : IntegralType} (hcode : b.code = .INTEGER_TYPE) (hf : wrappingType fl T b = some f) :
    f.overflowWraps fl = true ∧ f.prec = b.prec := by
  unfold wrappingType at hf
  by_cases hwraps : b.code = .INTEGER_TYPE ∧ b.overflowWraps fl = false
  · rw [if_pos hwraps] at hf
    obtain ⟨utype, hutype, hrest⟩ := Option.bind_eq_some_iff.mp hf
    obtain ⟨hunsigned, hle⟩ := signedOrUnsignedTypeFor_spec hutype
    have hnosize : b.sizetype = false := by
      refine IntType.sizetype_of_signed ?_
      have h := hwraps.2
      rw [IntType.overflowWraps, Bool.or_eq_false_iff] at h
      exact h.1
    have hconvert : ∀ c, (foldConvertConst b.toIntType utype.toIntType c).val ≡ c.val [ZMOD 2 ^ utype.prec] :=
      fun c => foldConvertConst_modEq fun hsize => absurd (hnosize.symm.trans hsize) Bool.false_ne_true
    obtain ⟨maxv, hmaxv, hval⟩ := intConstBinop_val utype.toIntType (Or.inl rfl)
      (foldConvertConst b.toIntType utype.toIntType ⟨b.maximum, false⟩) (integerOne utype.toIntType)
    dsimp only [rangeBinop] at hrest
    rw [hmaxv] at hrest
    split_ifs at hrest with hne
    rw [← Option.some.inj hrest]
    refine ⟨by rw [IntType.overflowWraps, hunsigned, Bool.true_or], ?_⟩
    have hsame : (foldConvertConst b.toIntType utype.toIntType ⟨b.minimum, false⟩).val = maxv.val := by
      simpa [rangeCompare, CompCode.eval] using hne
    have hmod : b.minimum ≡ b.maximum + 1 [ZMOD 2 ^ utype.prec] := by
      calc b.minimum ≡ maxv.val [ZMOD 2 ^ utype.prec] := hsame ▸ (hconvert ⟨b.minimum, false⟩).symm
        _ ≡ _ [ZMOD 2 ^ utype.prec] := hval ▸ wrap_modEq _ _
        _ ≡ b.maximum + 1 [ZMOD 2 ^ utype.prec] := (hconvert ⟨b.maximum, false⟩).add (integerOne_modEq _)
    have hlen := Int.le_of_dvd (by have := b.minimum_le; omega) (Int.modEq_iff_dvd.mp hmod)
    have hshort := sub_lt_of_has b.has_maximum b.has_minimum
    have hpow : (2 : ℤ) ^ utype.prec ≤ 2 ^ b.prec := by omega
    exact le_antisymm ((pow_le_pow_iff_right₀ one_lt_two).mp hpow) hle
  · rw [if_neg hwraps] at hf
    rw [← Option.some.inj hf]
    exact ⟨by simpa [hcode] using hwraps, rfl⟩

omit hv hhas in
/-- The length of a range, if it is not marked, is a value of the type of the distance.
Source: `fold-const.c` `build_range_check` (`if (value != 0 && !TREE_OVERFLOW (value))`)
Kind: L -/
theorem length_spec {src f : IntType} {low high value : Cst} (hprec : src.prec ≤ f.prec)
    (hsize : src.sizetype = true → f.prec = src.prec) (hlow : src.Has low.val) (hhigh : src.Has high.val)
    (hlt : low.val < high.val)
    (hvalue : intConstBinop f .MINUS_EXPR (foldConvertConst src f high) (foldConvertConst src f low) = some value)
    (hmark : value.overflow = false) : value.val = high.val - low.val ∧ f.Has (high.val - low.val) := by
  have hpow : (2 : ℤ) ^ src.prec ≤ 2 ^ f.prec := pow_le_pow_right₀ (by decide) hprec
  obtain ⟨value', hvalue', hval⟩ := intConstBinop_val f (Or.inr rfl) (foldConvertConst src f high) (foldConvertConst src f low)
  obtain rfl : value' = value := Option.some.inj (hvalue'.symm.trans hvalue)
  have hmod : (foldConvertConst src f high).val - (foldConvertConst src f low).val ≡ high.val - low.val [ZMOD 2 ^ f.prec] :=
    (foldConvertConst_modEq hsize).sub (foldConvertConst_modEq hsize)
  have hhas : f.Has (high.val - low.val) := by
    cases hu : f.unsigned with
    | true =>
      have hshort := sub_lt_of_has hhigh hlow
      exact (IntType.has_unsigned hu).mpr ⟨by omega, by omega⟩
    | false =>
      -- both bounds and their difference are unmarked, and have kept their values
      have hnosize := IntType.sizetype_of_signed hu
      rw [← Option.some.inj hvalue, forceFit] at hmark
      dsimp only at hmark
      rw [Bool.or_eq_false_iff, Bool.or_eq_false_iff, IntType.stored_eq hnosize, IntType.stored_eq hnosize, IntType.signExtended,
        hu, Bool.not_false, Bool.true_or, Bool.true_and, Bool.not_eq_false', decide_eq_true_iff] at hmark
      obtain ⟨hfits, hhighmark, hlowmark⟩ := hmark
      rw [foldConvertConst_signed hhigh hu hhighmark, foldConvertConst_signed hlow hu hlowmark] at hfits
      exact (IntType.has_signed hu).mpr hfits
  refine ⟨?_, hhas⟩
  rw [hval]
  exact (IntType.wrap_congr hmod).trans (IntType.wrap_of_has hhas)

/-- **The distance from the low bound.** Source: `fold-const.c` `build_range_check` ("(c-low>=0) && (c-low<=high-low)"). Kind: L -/
theorem distanceCheck_spec {low high : Cst} (hlow : exp.typeOf.Has low.val) (hhigh : exp.typeOf.Has high.val)
    (hlt : low.val < high.val) (hr : distanceCheck F T type exp low high = some r) :
    r.Decides fl x (low.val ≤ v ∧ v ≤ high.val) := by
  unfold distanceCheck at hr
  obtain ⟨f, hf, hr⟩ := Option.bind_eq_some_iff.mp hr
  obtain ⟨b, hb, hbf⟩ := Option.bind_eq_some_iff.mp hf
  obtain ⟨hcode, hbprec, hbsize⟩ := distanceBase_spec hb
  obtain ⟨hwraps, hfprec⟩ := wrappingType_spec hcode hbf
  have hprec : exp.typeOf.prec ≤ f.prec := hfprec ▸ hbprec
  have hsize : exp.typeOf.sizetype = true → f.prec = exp.typeOf.prec := fun h => hfprec.trans (hbsize h)
  dsimp only at hr
  obtain ⟨value, hvalue, hr⟩ := Option.bind_eq_some_iff.mp hr
  split_ifs at hr with hmark hzero
  · obtain ⟨hval, -⟩ := length_spec hprec hsize hlow hhigh hlt hvalue (Bool.not_eq_true _ ▸ hmark)
    omega
  · obtain ⟨hval, hlen⟩ := length_spec hprec hsize hlow hhigh hlt hvalue (Bool.not_eq_true _ ▸ hmark)
    have hdistance := minus_eval F f (foldConvertConst exp.typeOf.toIntType f.toIntType low) hwraps hv
    have hmod : f.wrap (f.wrap v - (foldConvertConst exp.typeOf.toIntType f.toIntType low).val) ≡ v - low.val
        [ZMOD 2 ^ f.prec] :=
      (wrap_modEq _ _).trans ((wrap_modEq _ _).sub (foldConvertConst_modEq hsize))
    have hiff := distance_iff hprec hhas hlow hhigh (f.has_wrap _) hmod hlen
    have htype := F.typeOf_minus f (F.convert f exp) (.cst f (foldConvertConst exp.typeOf.toIntType f.toIntType low))
    refine (checkFromZero_spec F T type hdistance ?_ ?_ ?_ hr).congr ?_
    · rw [htype]
      exact f.has_wrap _
    · rw [htype, hval]
      exact hlen
    · omega
    · rw [hval]
      exact hiff

omit hv hhas in
/-- A check from zero is a comparison with a constant. Source: `fold-const.c` `build_range_check`. Kind: L -/
theorem checkFromZero_isCheck {high : Cst} (hr : checkFromZero F T type exp high = some r) : IsCheck F type r := by
  unfold checkFromZero at hr
  dsimp only at hr
  split_ifs at hr with hu
  · exact Or.inr ⟨_, _, _, _, rfl, (Option.some.inj hr).symm⟩
  · obtain ⟨utype, hutype, hr⟩ := Option.map_eq_some_iff.mp hr
    exact Or.inr ⟨_, _, _, _, F.typeOf_convert utype exp, hr.symm⟩

omit hv hhas in
/-- **What is built** is a comparison with a constant, or the constant one. Source: `fold-const.c` `build_range_check`. Kind: L -/
theorem checkIn_isCheck {low high : Option Cst} (hr : checkIn F T type exp low high = some r) : IsCheck F type r := by
  unfold checkIn at hr
  rcases low with _ | low <;> rcases high with _ | high <;> dsimp only at hr
  · exact Or.inl (Option.some.inj hr).symm
  · exact Or.inr ⟨_, _, _, _, rfl, (Option.some.inj hr).symm⟩
  · exact Or.inr ⟨_, _, _, _, rfl, (Option.some.inj hr).symm⟩
  · split_ifs at hr
    · exact Or.inr ⟨_, _, _, _, rfl, (Option.some.inj hr).symm⟩
    · exact checkFromZero_isCheck F T type hr
    · unfold positiveCheck at hr
      dsimp only at hr
      split_ifs at hr with hu
      · obtain ⟨s, hs, hr⟩ := Option.map_eq_some_iff.mp hr
        exact Or.inr ⟨_, _, _, _, F.typeOf_convert s exp, hr.symm⟩
      · exact Or.inr ⟨_, _, _, _, rfl, (Option.some.inj hr).symm⟩
    · unfold distanceCheck at hr
      obtain ⟨f, -, hr⟩ := Option.bind_eq_some_iff.mp hr
      obtain ⟨value, -, hr⟩ := Option.bind_eq_some_iff.mp hr
      split_ifs at hr
      · exact Or.inr ⟨_, _, _, _, F.typeOf_minus f _ _, (Option.some.inj hr).symm⟩
      · exact checkFromZero_isCheck F T type hr

end Forms

/-! ## Main result -/

theorem signedMaxWords_eq (t : IntType) : signedMaxWords 64 t.prec = 2 ^ (t.prec - 1) - 1 := by
  have hpos := t.prec_pos
  unfold signedMaxWords
  split_ifs with hle
  · ring
  · have hpow : (2 : ℤ) ^ (t.prec - 1) = 2 ^ (t.prec - 64 - 1) * 2 ^ 64 := by
      rw [← pow_add]
      congr 1
      omega
    rw [hpow]
    ring

end GccCore.Gcc.RangeTest
