import GccCore.Gcc.TreeVrp.Basic
import GccCore.Lib.RoundedDiv
import Mathlib.Data.Int.ModEq
import Mathlib.Tactic.Ring

/-!
# Constants stand for exact results

The end points of ranges are computed with constants. Each constant that is not thrown away stands for the
exact integer that the operation has, or for an infinity beyond which that integer lies.

* **Keys** (`Cst.key`, `IntType.sat`): constants with infinities are ordered as integers.
* **Standing for an integer** (`Stands`).
* **Arithmetic** (`vrpIntConstBinop_ring`, `vrpIntConstBinop_div`): a result of `vrp_int_const_binop` is thrown away (`Bad`) or stands
  for the exact value.
-/

namespace GccCore.Gcc.TreeVrp

open GccCore.Gcc.FoldConst GccCore.Lib.RoundedDiv

/-! ## Types -/

section Types

variable {t : IntType}

/-- A precision is one more than the exponent of the sign bit. -/
theorem IntType.two_pow_prec (t : IntType) : (2 : ℤ) ^ t.prec = 2 * 2 ^ (t.prec - 1) := by
  have hpos := t.prec_pos
  rw [← pow_succ']
  congr 1
  omega

theorem IntType.half_pos (t : IntType) : (0 : ℤ) < 2 ^ (t.prec - 1) := by positivity

/-- The values of an unsigned type. -/
theorem IntType.has_unsigned (hu : t.unsigned = true) {z : ℤ} : t.Has z ↔ 0 ≤ z ∧ z < 2 ^ t.prec := by
  unfold IntType.Has IntType.minValue IntType.maxValue
  rw [if_pos hu, if_pos hu]
  omega

/-- The values of a signed type. -/
theorem IntType.has_signed (hu : t.unsigned = false) {z : ℤ} : t.Has z ↔ t.SignFits z := by
  unfold IntType.Has IntType.minValue IntType.maxValue IntType.SignFits
  rw [hu, if_neg Bool.false_ne_true, if_neg Bool.false_ne_true]
  omega

/-- A size type is not signed. -/
theorem IntType.sizetype_of_signed (hu : t.unsigned = false) : t.sizetype = false := by
  by_contra hne
  have hsize := t.unsigned_of_sizetype (by simpa using hne)
  rw [hu] at hsize
  exact Bool.false_ne_true hsize.1

/-- A type has a least value that is not its greatest. -/
theorem IntType.minValue_lt_maxValue (t : IntType) : t.minValue < t.maxValue := by
  have hhalf := t.half_pos
  have hpow := t.two_pow_prec
  unfold IntType.minValue IntType.maxValue
  cases t.unsigned
  · simp only [Bool.false_eq_true, if_false]
    omega
  · simp only [if_true]
    omega

/-- A signed type has one more negative value than positive ones, and zero. -/
theorem IntType.maxValue_of_signed (hu : t.unsigned = false) : t.maxValue = -t.minValue - 1 := by
  unfold IntType.maxValue IntType.minValue
  simp only [hu, Bool.false_eq_true, if_false]
  omega

/-- The values of `TYPE_MIN_VALUE` and `TYPE_MAX_VALUE` are values of the base type. Source: `tree.h` `TYPE_MIN_VALUE`. -/
theorem IntType.has_typeMin (t : IntType) : t.Has t.typeMin ∧ t.Has t.typeMax := by
  have hlt := t.minValue_lt_maxValue
  unfold IntType.typeMin IntType.typeMax
  cases hsub : t.subrange with
  | none => exact ⟨⟨le_rfl, hlt.le⟩, ⟨hlt.le, le_rfl⟩⟩
  | some r => exact ⟨t.subrange_has r hsub _ (.inl rfl), t.subrange_has r hsub _ (.inr rfl)⟩

/-- Zero is a value. -/
theorem IntType.has_zero (t : IntType) : t.Has 0 := by
  have hhalf := t.half_pos
  have hpow := t.two_pow_prec
  unfold IntType.Has IntType.minValue IntType.maxValue
  cases t.unsigned
  · simp only [Bool.false_eq_true, if_false]
    omega
  · simp only [if_true]
    omega

/-- A value is cut down to itself. -/
theorem IntType.wrap_of_has {z : ℤ} (hz : t.Has z) : t.wrap z = z := by
  have hpow := t.two_pow_prec
  unfold IntType.wrap
  cases hu : t.unsigned
  · obtain ⟨hlow, hhigh⟩ := (IntType.has_signed hu).mp hz
    rw [if_neg Bool.false_ne_true]
    apply Int.bmod_eq_of_le_mul_two
    · push_cast
      omega
    · push_cast
      omega
  · obtain ⟨hlow, hhigh⟩ := (IntType.has_unsigned hu).mp hz
    rw [if_pos rfl]
    exact Int.emod_eq_of_lt hlow hhigh

/-- What is cut down is a value. -/
theorem IntType.has_wrap (t : IntType) (z : ℤ) : t.Has (t.wrap z) := by
  have hpow := t.two_pow_prec
  have hpos : 0 < 2 ^ t.prec := by positivity
  unfold IntType.wrap
  cases hu : t.unsigned
  · rw [if_neg Bool.false_ne_true, IntType.has_signed hu]
    have hle := @Int.le_bmod z (2 ^ t.prec) hpos
    have hlt := @Int.bmod_lt z (2 ^ t.prec) hpos
    push_cast at hle hlt
    constructor <;> omega
  · rw [if_pos rfl, IntType.has_unsigned hu]
    exact ⟨Int.emod_nonneg _ (by positivity), Int.emod_lt_of_pos _ (by positivity)⟩

/-- Cutting down depends on the residue only. -/
theorem IntType.wrap_congr {x y : ℤ} (hxy : x ≡ y [ZMOD 2 ^ t.prec]) : t.wrap x = t.wrap y := by
  have hmod : x % 2 ^ t.prec = y % 2 ^ t.prec := hxy
  unfold IntType.wrap
  cases t.unsigned
  · simp only [Bool.false_eq_true, if_false]
    unfold Int.bmod
    push_cast
    rw [hmod]
  · simp only [if_true]
    exact hmod

/-- The stored number of a constant has its residue. -/
theorem IntType.stored_modEq (t : IntType) (z : ℤ) : t.stored z ≡ z [ZMOD 2 ^ t.prec] := by
  unfold IntType.stored
  split
  · have hmod := @Int.bmod_emod z (2 ^ t.prec)
    push_cast at hmod
    exact hmod
  · exact Int.ModEq.refl z

/-- Numbers of a type that is not for sizes are stored as they are. -/
theorem IntType.stored_eq (hs : t.sizetype = false) (z : ℤ) : t.stored z = z := by
  unfold IntType.stored
  rw [hs, if_neg Bool.false_ne_true]

end Types

/-! ## Keys -/

section Keys

variable {fl : Flags} {t : IntType}

/-- An integer moved to the next infinity if it is not a value of the type. -/
def IntType.sat (t : IntType) (z : ℤ) : ℤ := max (t.minValue - 1) (min (t.maxValue + 1) z)

/-- The place of a constant among the values of its type and the two infinities. -/
def Cst.key (fl : Flags) (t : IntType) (v : Cst) : ℤ :=
  if isPositiveOverflowInfinity fl t v then t.maxValue + 1 else if isNegativeOverflowInfinity fl t v then t.minValue - 1 else v.val

/-- A marked constant that is not an infinity: a range with such an end is thrown away.
Source: `tree-vrp.c` `extract_range_from_binary_expr` (`TREE_OVERFLOW (min) && !is_overflow_infinity (min)`) -/
def Bad (fl : Flags) (t : IntType) (v : Cst) : Prop :=
  v.overflow = true ∧ isOverflowInfinity fl t v = false

instance (fl : Flags) (t : IntType) (v : Cst) : Decidable (Bad fl t v) :=
  inferInstanceAs (Decidable (_ ∧ _))

/-- A constant that is a value of its type or an infinity. -/
structure Good (fl : Flags) (t : IntType) (v : Cst) : Prop where
  has : t.Has v.val
  not_bad : ¬ Bad fl t v

/-- An unmarked value of a type. -/
structure Plain (t : IntType) (v : Cst) : Prop where
  has : t.Has v.val
  unmarked : v.overflow = false

theorem Plain.good {v : Cst} (h : Plain t v) : Good fl t v := by
  refine ⟨h.has, ?_⟩
  rintro ⟨hover, _⟩
  rw [h.unmarked] at hover
  exact Bool.false_ne_true hover

/-- Zero is a plain constant. -/
theorem plain_zero (t : IntType) : Plain t (.ofVal 0) := ⟨t.has_zero, rfl⟩

/-- An unmarked constant is no infinity. -/
theorem Plain.not_infinity {v : Cst} (h : Plain t v) : isOverflowInfinity fl t v = false := by
  unfold isOverflowInfinity
  rw [h.unmarked, Bool.and_false, Bool.false_and]

theorem Plain.not_negative_infinity {v : Cst} (h : Plain t v) :
    isNegativeOverflowInfinity fl t v = false := by
  unfold isNegativeOverflowInfinity
  rw [h.unmarked, Bool.and_false, Bool.false_and]

theorem Plain.not_positive_infinity {v : Cst} (h : Plain t v) :
    isPositiveOverflowInfinity fl t v = false := by
  unfold isPositiveOverflowInfinity
  rw [h.unmarked, Bool.and_false, Bool.false_and]

theorem Plain.key_eq {v : Cst} (h : Plain t v) : v.key fl t = v.val := by
  unfold Cst.key
  rw [h.not_positive_infinity, h.not_negative_infinity, if_neg Bool.false_ne_true, if_neg Bool.false_ne_true]

/-- A lower infinity is the marked least value. Source: `tree-vrp.c` `is_negative_overflow_infinity`. -/
theorem isNegativeOverflowInfinity_iff {v : Cst} : isNegativeOverflowInfinity fl t v = true ↔
    needsOverflowInfinity fl t = true ∧ v.overflow = true ∧ v.val = t.minValue := by
  simp [isNegativeOverflowInfinity, and_assoc]

/-- An upper infinity is the marked greatest value. Source: `tree-vrp.c` `is_positive_overflow_infinity`. -/
theorem isPositiveOverflowInfinity_iff {v : Cst} : isPositiveOverflowInfinity fl t v = true ↔
    needsOverflowInfinity fl t = true ∧ v.overflow = true ∧ v.val = t.maxValue := by
  simp [isPositiveOverflowInfinity, and_assoc]

/-- An infinity is one of the two. Source: `tree-vrp.c` `is_overflow_infinity`. -/
theorem isOverflowInfinity_eq (v : Cst) :
    isOverflowInfinity fl t v = (isNegativeOverflowInfinity fl t v || isPositiveOverflowInfinity fl t v) :=
  Bool.and_or_distrib_left _ _ _

/-- What a constant can be: one of the infinities, or none. Source: `tree-vrp.c` `is_overflow_infinity`. -/
theorem Cst.cases (fl : Flags) (t : IntType) (v : Cst) :
    (v.overflow = true ∧ v.val = t.minValue ∧ v.key fl t = t.minValue - 1 ∧ isNegativeOverflowInfinity fl t v = true ∧
        isPositiveOverflowInfinity fl t v = false ∧ isOverflowInfinity fl t v = true) ∨
      (v.overflow = true ∧ v.val = t.maxValue ∧ v.key fl t = t.maxValue + 1 ∧ isNegativeOverflowInfinity fl t v = false ∧
        isPositiveOverflowInfinity fl t v = true ∧ isOverflowInfinity fl t v = true) ∨
      (v.key fl t = v.val ∧ isNegativeOverflowInfinity fl t v = false ∧ isPositiveOverflowInfinity fl t v = false ∧
        isOverflowInfinity fl t v = false) := by
  have hlt := t.minValue_lt_maxValue
  unfold Cst.key isNegativeOverflowInfinity isPositiveOverflowInfinity isOverflowInfinity
  cases needsOverflowInfinity fl t <;> cases v.overflow <;> try simp
  by_cases hmin : v.val = t.minValue
  · have hne : t.minValue ≠ t.maxValue := by omega
    simp [hmin, hne]
  · by_cases hmax : v.val = t.maxValue
    · have hne : t.maxValue ≠ t.minValue := by omega
      simp [hmax, hne]
    · simp [hmin, hmax]

/-- What a good constant can be. -/
theorem Good.cases {v : Cst} (h : Good fl t v) :
    (v.overflow = false ∧ v.key fl t = v.val ∧ isNegativeOverflowInfinity fl t v = false ∧
        isPositiveOverflowInfinity fl t v = false) ∨
      (v.overflow = true ∧ v.val = t.minValue ∧ v.key fl t = t.minValue - 1 ∧
        isNegativeOverflowInfinity fl t v = true ∧ isPositiveOverflowInfinity fl t v = false) ∨
      (v.overflow = true ∧ v.val = t.maxValue ∧ v.key fl t = t.maxValue + 1 ∧
        isNegativeOverflowInfinity fl t v = false ∧ isPositiveOverflowInfinity fl t v = true) := by
  rcases v.cases fl t with ⟨ho, hval, hk, hn, hp, _⟩ | ⟨ho, hval, hk, hn, hp, _⟩ | ⟨hk, hn, hp, hinf⟩
  · exact Or.inr (Or.inl ⟨ho, hval, hk, hn, hp⟩)
  · exact Or.inr (Or.inr ⟨ho, hval, hk, hn, hp⟩)
  · exact Or.inl ⟨Bool.eq_false_iff.mpr fun ho => h.not_bad ⟨ho, hinf⟩, hk, hn, hp⟩

/-- A constant is its key where that is a value of the type, and the nearer end elsewhere. -/
theorem Cst.val_eq {v : Cst} (h : t.Has v.val) : v.val = max t.minValue (min t.maxValue (v.key fl t)) := by
  have hlt := t.minValue_lt_maxValue
  obtain ⟨hmin, hmax⟩ := h
  rcases v.cases fl t with ⟨_, hval, hk, _⟩ | ⟨_, hval, hk, _⟩ | ⟨hk, _⟩ <;> omega

/-- The values of constants are ordered as their keys. -/
theorem Cst.val_le_val {v w : Cst} (hv : t.Has v.val) (hw : t.Has w.val) (hle : v.key fl t ≤ w.key fl t) : v.val ≤ w.val := by
  rw [Cst.val_eq hv, Cst.val_eq hw]
  exact max_le_max_left _ (min_le_min_left _ hle)

/-- Two constants that cannot be compared: they differ, one is marked, and none is an infinity.
Source: `tree-vrp.c` `compare_values_warnv` ("We cannot compare overflowed values, except for overflow infinities") -/
def Incomparable (fl : Flags) (t : IntType) (v w : Cst) : Prop :=
  v ≠ w ∧ (v.overflow = true ∨ w.overflow = true) ∧ isOverflowInfinity fl t v = false ∧ isOverflowInfinity fl t w = false

instance (v w : Cst) : Decidable (Incomparable fl t v w) := inferInstanceAs (Decidable (_ ∧ _ ∧ _ ∧ _))

/-- Constants of a type compare as their keys, if they can be compared. Source: `tree-vrp.c` `compare_values`. Kind: L -/
theorem compareValues_key {v w : Cst} (hv : t.Has v.val) (hw : t.Has w.val) :
    compareValues fl t v w = if Incomparable fl t v w then -2
      else if v.key fl t < w.key fl t then -1 else if w.key fl t < v.key fl t then 1 else 0 := by
  have hlt := t.minValue_lt_maxValue
  obtain ⟨hvmin, hvmax⟩ := hv
  obtain ⟨hwmin, hwmax⟩ := hw
  by_cases hsame : v = w
  · subst hsame
    simp only [compareValues, Incomparable, ne_eq, not_true_eq_false, false_and, if_true, if_false, lt_irrefl]
  simp only [compareValues, Incomparable, ne_eq, hsame, not_false_eq_true, true_and]
  rcases v.cases fl t with ⟨ho, hval, hk, hn, hp, hinf⟩ | ⟨ho, hval, hk, hn, hp, hinf⟩ | ⟨hk, hn, hp, hinf⟩ <;>
    rcases w.cases fl t with ⟨ho', hval', hk', hn', hp', hinf'⟩ | ⟨ho', hval', hk', hn', hp', hinf'⟩ | ⟨hk', hn', hp', hinf'⟩ <;>
    simp only [Bool.true_or, Bool.or_true, and_false, and_true, if_true, if_false, Bool.false_eq_true, Bool.true_eq_false,
      Bool.or_eq_true, *] <;>
    first
    | rfl
    | (rw [if_pos (by omega)])
    | (rw [if_neg (by omega), if_pos (by omega)])
    | (rw [if_neg (by omega), if_neg (by omega)])

/-- **What a comparison says of the keys** of constants of a type. Source: `tree-vrp.c` `compare_values`. Kind: L -/
theorem compareValues_cases (fl : Flags) {v w : Cst} (hv : t.Has v.val) (hw : t.Has w.val) :
    compareValues fl t v w = -2 ∨ (compareValues fl t v w = -1 ∧ v.key fl t < w.key fl t) ∨
      (compareValues fl t v w = 0 ∧ v.key fl t = w.key fl t) ∨ (compareValues fl t v w = 1 ∧ w.key fl t < v.key fl t) := by
  rw [compareValues_key hv hw]
  split_ifs <;> simp <;> omega

/-- Constants of a type compare equal if they are equal. Source: `tree-vrp.c` `compare_values`. Kind: L -/
theorem compareValues_zero_iff {v w : Cst} (hv : t.Has v.val) (hw : t.Has w.val) : compareValues fl t v w = 0 ↔ v = w := by
  constructor
  · intro hzero
    have hkey : v.key fl t = w.key fl t := by
      have := compareValues_cases fl hv hw
      omega
    have hval : v.val = w.val := le_antisymm (Cst.val_le_val hv hw hkey.le) (Cst.val_le_val hw hv hkey.ge)
    by_contra hne
    have hmark : v.overflow = w.overflow := by
      obtain ⟨hvmin, hvmax⟩ := hv
      obtain ⟨hwmin, hwmax⟩ := hw
      rcases v.cases fl t with ⟨ho, _, hk, _⟩ | ⟨ho, _, hk, _⟩ | ⟨hk, _, _, hinf⟩ <;>
        rcases w.cases fl t with ⟨ho', _, hk', _⟩ | ⟨ho', _, hk', _⟩ | ⟨hk', _, _, hinf'⟩ <;>
        try first | omega | rw [ho, ho']
      -- none is an infinity, and then both are unmarked
      have hunmarked : ¬ (v.overflow = true ∨ w.overflow = true) := by
        intro hmark
        rw [compareValues_key ⟨hvmin, hvmax⟩ ⟨hwmin, hwmax⟩, if_pos ⟨hne, hmark, hinf, hinf'⟩] at hzero
        cases hzero
      simp only [not_or, Bool.not_eq_true] at hunmarked
      rw [hunmarked.1, hunmarked.2]
    obtain ⟨a, m⟩ := v
    obtain ⟨b, n⟩ := w
    exact hne (by rw [show a = b from hval, show m = n from hmark])
  · rintro rfl
    rw [compareValues, if_pos rfl]

/-- Good constants can be compared. Source: `tree-vrp.c` `compare_values`. Kind: L -/
theorem compareValues_eq {v w : Cst} (hv : Good fl t v) (hw : Good fl t w) :
    compareValues fl t v w =
      if v.key fl t < w.key fl t then -1 else if w.key fl t < v.key fl t then 1 else 0 := by
  rw [compareValues_key hv.has hw.has, if_neg]
  rintro ⟨-, hmark | hmark, hnot, hnot'⟩
  · exact hv.not_bad ⟨hmark, hnot⟩
  · exact hw.not_bad ⟨hmark, hnot'⟩

/-- A constant stands for an exact integer: it is that integer, or the infinity that it lies beyond. Where
overflow wraps there are no infinities. -/
structure Stands (fl : Flags) (t : IntType) (v : Cst) (z : ℤ) : Prop where
  good : Good fl t v
  key_eq : v.key fl t = t.sat z
  has : t.overflowWraps fl = true → t.Has z

/-- A value stands for itself. -/
theorem stands_of_has {z : ℤ} (hz : t.Has z) : Stands fl t ⟨z, false⟩ z := by
  have hplain : Plain t ⟨z, false⟩ := ⟨hz, rfl⟩
  refine ⟨hplain.good, ?_, fun _ => hz⟩
  obtain ⟨hmin, hmax⟩ := hz
  rw [hplain.key_eq]
  unfold IntType.sat
  simp only
  omega

/-- A plain constant stands for its value. -/
theorem Plain.stands {v : Cst} (h : Plain t v) : Stands fl t v v.val := by
  have hv : v = ⟨v.val, false⟩ := by rw [← h.unmarked]
  rw [hv]
  exact stands_of_has h.has

/-- A type with infinities does not wrap. Source: `tree-vrp.c` `needs_overflow_infinity`. -/
theorem not_wraps_of_needs (hneeds : needsOverflowInfinity fl t = true) : t.overflowWraps fl = false :=
  Bool.not_eq_true' _ ▸ (Bool.and_eq_true_iff.mp hneeds).1

/-- A type that does not wrap has infinities, if it is no sub-type. Source: `tree-vrp.c` `needs_overflow_infinity`. -/
theorem needs_of_not_wraps (hbase : t.subrange = none) (hwraps : t.overflowWraps fl = false) :
    needsOverflowInfinity fl t = true := by
  rw [needsOverflowInfinity, hwraps, hbase]
  rfl

section Infinities

variable (hneeds : needsOverflowInfinity fl t = true) {z : ℤ}

include hneeds

/-- The positive infinity stands for what is too large. -/
theorem stands_positiveOverflowInfinity (hz : t.maxValue < z) : Stands fl t (positiveOverflowInfinity t) z := by
  have hlt := t.minValue_lt_maxValue
  have hpos : isPositiveOverflowInfinity fl t (positiveOverflowInfinity t) = true :=
    isPositiveOverflowInfinity_iff.mpr ⟨hneeds, rfl, rfl⟩
  refine ⟨⟨⟨le_of_lt hlt, le_rfl⟩, ?_⟩, ?_, ?_⟩
  · rintro ⟨_, hinf⟩
    rw [isOverflowInfinity_eq, hpos, Bool.or_true] at hinf
    cases hinf
  · rw [Cst.key, if_pos hpos, IntType.sat]
    omega
  · intro hw
    rw [not_wraps_of_needs hneeds] at hw
    cases hw

/-- The negative infinity stands for what is too small. -/
theorem stands_negativeOverflowInfinity (hz : z < t.minValue) : Stands fl t (negativeOverflowInfinity t) z := by
  have hlt := t.minValue_lt_maxValue
  have hneg : isNegativeOverflowInfinity fl t (negativeOverflowInfinity t) = true :=
    isNegativeOverflowInfinity_iff.mpr ⟨hneeds, rfl, rfl⟩
  refine ⟨⟨⟨le_rfl, le_of_lt hlt⟩, ?_⟩, ?_, ?_⟩
  · rintro ⟨_, hinf⟩
    rw [isOverflowInfinity_eq, hneg, Bool.true_or] at hinf
    cases hinf
  · rw [Cst.key, if_neg, if_pos hneg, IntType.sat]
    · omega
    · rw [isPositiveOverflowInfinity_iff]
      rintro ⟨-, -, hval⟩
      exact hlt.ne hval
  · intro hw
    rw [not_wraps_of_needs hneeds] at hw
    cases hw

end Infinities

end Keys

/-! ## Divisions -/

section Divisions

/-- The divisions whose ranges come from the corners. -/
def TreeCode.IsDivision (code : TreeCode) : Prop :=
  code = .TRUNC_DIV_EXPR ∨ code = .FLOOR_DIV_EXPR ∨ code = .CEIL_DIV_EXPR ∨ code = .EXACT_DIV_EXPR

variable {code : TreeCode}

/-- A division is a rounded quotient. -/
theorem TreeCode.IsDivision.exists_rounding (h : code.IsDivision) :
    ∃ r, IsRounding r ∧ ∀ x y : ℤ, code.eval x y = r ((x : ℚ) / y) := by
  rcases h with rfl | rfl | rfl | rfl
  · exact ⟨truncate, isRounding_truncate, fun x y => (truncate_div_eq x y).symm⟩
  · exact ⟨_, isRounding_floor, fun x y => (floor_div_eq x y).symm⟩
  · exact ⟨_, isRounding_ceil, fun x y => (ceil_div_eq x y).symm⟩
  · exact ⟨truncate, isRounding_truncate, fun x y => (truncate_div_eq x y).symm⟩

/-- A quotient of nonnegative numbers lies next below the rational one, or next above it. -/
def IsQuotient (code : TreeCode) (x y q : ℤ) : Prop :=
  if code = .CEIL_DIV_EXPR then (q - 1) * y < x ∧ x ≤ q * y else q * y ≤ x ∧ x < (q + 1) * y

theorem isQuotient_eval (h : code.IsDivision) {x y : ℤ} (hx : 0 ≤ x) (hy : 0 < y) :
    IsQuotient code x y (code.eval x y) := by
  have hdown : x / y * y ≤ x ∧ x < (x / y + 1) * y := by
    refine ⟨Int.ediv_mul_le x (ne_of_gt hy), ?_⟩
    have := Int.lt_ediv_add_one_mul_self x hy
    exact this
  have htrunc : x.tdiv y = x / y := Int.tdiv_eq_ediv_of_nonneg hx
  have hfloor : ∀ n : ℤ, n.fdiv y = n / y := fun n => Int.fdiv_eq_ediv_of_nonneg n (le_of_lt hy)
  rcases h with rfl | rfl | rfl | rfl
  · change x.tdiv y * y ≤ x ∧ x < (x.tdiv y + 1) * y
    rw [htrunc]
    exact hdown
  · change x.fdiv y * y ≤ x ∧ x < (x.fdiv y + 1) * y
    rw [hfloor]
    exact hdown
  · change (-(-x).fdiv y - 1) * y < x ∧ x ≤ -(-x).fdiv y * y
    rw [hfloor]
    have h1 := Int.ediv_mul_le (-x) (ne_of_gt hy)
    have h2 := Int.lt_ediv_add_one_mul_self (-x) hy
    refine ⟨?_, ?_⟩ <;> linarith
  · change x.tdiv y * y ≤ x ∧ x < (x.tdiv y + 1) * y
    rw [htrunc]
    exact hdown

/-- There is one such number. -/
theorem IsQuotient.unique {x y q q' : ℤ} (hy : 0 < y) (h : IsQuotient code x y q)
    (h' : IsQuotient code x y q') : q = q' := by
  have hle : ∀ {p q : ℤ}, IsQuotient code x y p → IsQuotient code x y q → p ≤ q := by
    intro p q hp hq
    unfold IsQuotient at hp hq
    by_contra hlt
    have hstep : q + 1 ≤ p := by omega
    split at hp
    case isTrue hcode =>
      rw [if_pos hcode] at hq
      have := mul_le_mul_of_nonneg_right (show q ≤ p - 1 by omega) (le_of_lt hy)
      linarith [hp.1, hq.2]
    case isFalse hcode =>
      rw [if_neg hcode] at hq
      have := mul_le_mul_of_nonneg_right hstep (le_of_lt hy)
      linarith [hp.1, hq.2]
  exact le_antisymm (hle h h') (hle h' h)

/-- Two large numbers have the same quotient, 0, 1 or 2, after both were moved up by the same amount. -/
theorem eval_add_same (h : code.IsDivision) {x y m : ℤ} (hy : 0 < y) (hx : 0 < x) (hxy : x ≤ 2 * y)
    (hm : 0 ≤ m) (hne : x ≠ 2 * y) : code.eval (x + m) (y + m) = code.eval x y := by
  have hq : ∃ q, IsQuotient code x y q ∧ IsQuotient code (x + m) (y + m) q := by
    unfold IsQuotient
    by_cases hcode : code = .CEIL_DIV_EXPR
    · simp only [if_pos hcode]
      rcases le_or_gt x y with hle | hlt
      · exact ⟨1, ⟨by omega, by omega⟩, ⟨by omega, by omega⟩⟩
      · exact ⟨2, ⟨by omega, by omega⟩, ⟨by omega, by omega⟩⟩
    · simp only [if_neg hcode]
      rcases lt_or_ge x y with hlt | hge
      · exact ⟨0, ⟨by omega, by omega⟩, ⟨by omega, by omega⟩⟩
      · exact ⟨1, ⟨by omega, by omega⟩, ⟨by omega, by omega⟩⟩
  obtain ⟨q, hq, hq'⟩ := hq
  rw [← hq.unique hy (isQuotient_eval h (le_of_lt hx) hy),
    ← hq'.unique (by omega) (isQuotient_eval h (by omega) (by omega))]

/-- A small dividend has the same quotient by every larger divisor. -/
theorem eval_of_lt (h : code.IsDivision) {x y y' : ℤ} (hx : 0 ≤ x) (hxy : x < y) (hxy' : x < y') :
    code.eval x y = code.eval x y' := by
  have hq : ∃ q, IsQuotient code x y q ∧ IsQuotient code x y' q := by
    unfold IsQuotient
    by_cases hcode : code = .CEIL_DIV_EXPR
    · simp only [if_pos hcode]
      rcases eq_or_lt_of_le hx with h0 | hpos
      · exact ⟨0, ⟨by omega, by omega⟩, ⟨by omega, by omega⟩⟩
      · exact ⟨1, ⟨by omega, by omega⟩, ⟨by omega, by omega⟩⟩
    · simp only [if_neg hcode]
      exact ⟨0, ⟨by omega, by omega⟩, ⟨by omega, by omega⟩⟩
  obtain ⟨q, hq, hq'⟩ := hq
  rw [← hq.unique (by omega) (isQuotient_eval h hx (by omega)),
    ← hq'.unique (by omega) (isQuotient_eval h hx (by omega))]

/-- A sign-extended dividend by a number from 2 on gives a quotient that does not fit.
Source: `fold-const.c` `int_const_binop`
Kind: L -/
theorem eval_wide_large (h : code.IsDivision) {x y half : ℤ} (hhalf : 0 < half) (hle : half ≤ 2 ^ 63)
    (hx : 2 ^ 128 - half ≤ x) (hlt : x < 2 ^ 128) (hy : 2 ≤ y) (hyhalf : y < half) :
    half ≤ code.eval x y ∧ code.eval x y ≤ 2 ^ 127 := by
  have hq := isQuotient_eval h (show 0 ≤ x by omega) (show 0 < y by omega)
  have hbig : ∀ k : ℤ, k ≤ half → k * y < x := by
    intro k hk
    rcases le_or_gt k 0 with hk0 | hk0
    · have : k * y ≤ 0 := mul_nonpos_of_nonpos_of_nonneg hk0 (by omega)
      omega
    · have h1 : k * y ≤ half * y := mul_le_mul_of_nonneg_right hk (by omega)
      have h2 : half * y ≤ half * half := mul_le_mul_of_nonneg_left (le_of_lt hyhalf) (le_of_lt hhalf)
      have h3 : half * half ≤ 2 ^ 63 * 2 ^ 63 := mul_le_mul hle hle (le_of_lt hhalf) (by norm_num)
      norm_num at h3
      omega
  have hsmall : ∀ k : ℤ, 0 ≤ k → k * y < 2 ^ 128 → k < 2 ^ 127 := by
    intro k hk0 hk
    have : k * 2 ≤ k * y := mul_le_mul_of_nonneg_left hy hk0
    omega
  unfold IsQuotient at hq
  refine ⟨?_, ?_⟩
  · by_contra hlow
    split at hq
    · have := hbig (code.eval x y) (by omega)
      omega
    · have := hbig (code.eval x y + 1) (by omega)
      omega
  · by_contra hhigh
    split at hq
    · have := hsmall (code.eval x y - 1) (by omega) (by omega)
      omega
    · have := hsmall (code.eval x y) (by omega) (by omega)
      omega

/-- The unsigned double word of a constant of a size type. -/
theorem stored_emod {t : IntType} (hs : t.sizetype = true) {x : ℤ} (hx : t.Has x) :
    t.stored x % 2 ^ 128 =
      if x < 2 ^ (t.prec - 1) then x else x + (2 ^ 128 - 2 * 2 ^ (t.prec - 1)) := by
  obtain ⟨hu, hprec⟩ := t.unsigned_of_sizetype hs
  obtain ⟨hx0, hxlt⟩ := (IntType.has_unsigned hu).mp hx
  have hpow := t.two_pow_prec
  have hhalf : (2 : ℤ) ^ (t.prec - 1) ≤ 2 ^ 63 := pow_le_pow_right₀ (by norm_num) (by omega)
  unfold IntType.stored
  rw [if_pos hs]
  unfold Int.bmod
  simp only [Nat.cast_pow, Nat.cast_ofNat]
  rw [Int.emod_eq_of_lt hx0 hxlt, hpow]
  have hmid : (2 * 2 ^ (t.prec - 1) + 1 : ℤ) / 2 = 2 ^ (t.prec - 1) := by omega
  rw [hmid]
  split
  · exact Int.emod_eq_of_lt hx0 (by omega)
  · have hshift : x - 2 * 2 ^ (t.prec - 1) = x + (2 ^ 128 - 2 * 2 ^ (t.prec - 1)) - 2 ^ 128 := by ring
    rw [hshift, Int.sub_emod_right]
    exact Int.emod_eq_of_lt (by omega) (by omega)

/-- **Quotients of sizes**: a quotient of sign-extended double words that fits the type is the quotient of the
sizes.
Source: `fold-const.c` `int_const_binop` (`div_and_round_double`)
Kind: L -/
theorem wrap_sizetypeQuotient {t : IntType} (hs : t.sizetype = true) (h : code.IsDivision)
    {div : DivCode} (hdiv : code.eval = div.quotient) {x y : ℤ} (hx : t.Has x) (hy : t.Has y)
    (hy0 : y ≠ 0) (hfits : t.SignFits (sizetypeQuotient t div x y)) :
    t.wrap (sizetypeQuotient t div x y) = code.eval x y := by
  obtain ⟨hu, hprec⟩ := t.unsigned_of_sizetype hs
  obtain ⟨hx0, hxlt⟩ := (IntType.has_unsigned hu).mp hx
  obtain ⟨hynn, hylt⟩ := (IntType.has_unsigned hu).mp hy
  have hpow := t.two_pow_prec
  have hhalf : (2 : ℤ) ^ (t.prec - 1) ≤ 2 ^ 63 := pow_le_pow_right₀ (by norm_num) (by omega)
  have hpos := t.half_pos
  obtain ⟨r, hr, heval⟩ := h.exists_rounding
  have hquot : 0 ≤ code.eval x y ∧ code.eval x y ≤ x := by
    have := hr.div_between x (show 0 < y by omega)
    rw [heval]
    omega
  have hsmall : code.eval (t.stored x % 2 ^ 128) (t.stored y % 2 ^ 128) = code.eval x y →
      t.wrap (sizetypeQuotient t div x y) = code.eval x y := by
    intro heq
    unfold sizetypeQuotient
    rw [← hdiv, heq, Int.bmod_eq_of_le_mul_two (by push_cast; omega) (by push_cast; omega)]
    exact IntType.wrap_of_has ((IntType.has_unsigned hu).mpr (by omega))
  rw [stored_emod hs hx, stored_emod hs hy] at hsmall
  by_cases hxbig : x < 2 ^ (t.prec - 1)
  · rw [if_pos hxbig] at hsmall
    apply hsmall
    by_cases hybig : y < 2 ^ (t.prec - 1)
    · rw [if_pos hybig]
    · rw [if_neg hybig]
      exact eval_of_lt h hx0 (by omega) (by omega)
  · by_cases hybig : y < 2 ^ (t.prec - 1)
    · by_cases hy1 : y = 1
      · -- a division by one leaves the stored number
        subst hy1
        have hone : ∀ z : ℤ, code.eval z 1 = z := by
          intro z
          rw [heval, Int.cast_one, div_one]
          exact hr.intCast z
        rw [hone]
        unfold sizetypeQuotient
        rw [← hdiv, stored_emod hs hy, if_pos hybig, hone]
        refine Eq.trans (IntType.wrap_congr ?_) (IntType.wrap_of_has hx)
        have hmod : Int.bmod (t.stored x % 2 ^ 128) (2 ^ 128) ≡ t.stored x [ZMOD 2 ^ 128] := by
          have hb := @Int.bmod_emod (t.stored x % 2 ^ 128) (2 ^ 128)
          push_cast at hb
          rw [Int.emod_emod] at hb
          exact hb
        refine Int.ModEq.trans (Int.ModEq.of_dvd ?_ hmod) (t.stored_modEq x)
        exact pow_dvd_pow 2 t.prec_le
      · exfalso
        obtain ⟨hlow, hhigh⟩ := eval_wide_large h hpos hhalf
          (show 2 ^ 128 - 2 ^ (t.prec - 1) ≤ x + (2 ^ 128 - 2 * 2 ^ (t.prec - 1)) by omega)
          (by omega) (show 2 ≤ y by omega) hybig
        obtain ⟨hfit1, hfit2⟩ := hfits
        unfold sizetypeQuotient at hfit1 hfit2
        rw [← hdiv, stored_emod hs hx, stored_emod hs hy, if_neg hxbig, if_pos hybig] at hfit1 hfit2
        generalize code.eval (x + (2 ^ 128 - 2 * 2 ^ (t.prec - 1))) y = q at *
        rcases lt_or_eq_of_le hhigh with hlt | heq
        · rw [Int.bmod_eq_of_le_mul_two (by push_cast; omega) (by push_cast; omega)] at hfit2
          omega
        · rw [heq] at hfit1
          have hedge : Int.bmod (2 ^ 127) (2 ^ 128) = -2 ^ 127 := by decide
          rw [hedge] at hfit1
          omega
    · rw [if_neg hxbig, if_neg hybig] at hsmall
      apply hsmall
      exact eval_add_same h (by omega) (by omega) (by omega) (by omega) (by omega)

/-- The arithmetic of a division code. Source: `fold-const.c` `int_const_binop`. Kind: L -/
theorem intConstBinop_of_divCode {div : DivCode} (h : code.divCode = some div) (t : IntType) (x y : Cst) :
    intConstBinop t code x y =
      if y.val = 0 then none
      else some (forceFit t (if t.sizetype then sizetypeQuotient t div x.val y.val
        else div.quotient x.val y.val) (x.overflow || y.overflow)) := by
  cases code <;> cases h <;>
    · unfold intConstBinop
      dsimp only [TreeCode.divCode]
      by_cases hy : y.val = 0
      · rw [if_pos hy, if_pos hy]
      · rw [if_neg hy, if_neg hy]
        cases t.sizetype <;> simp only [Bool.false_eq_true, if_false, if_true]

/-- A division has a rounding. -/
theorem TreeCode.IsDivision.exists_divCode (h : code.IsDivision) :
    ∃ div, code.divCode = some div ∧ code.eval = div.quotient := by
  rcases h with rfl | rfl | rfl | rfl <;> exact ⟨_, rfl, rfl⟩

end Divisions

/-! ## Arithmetic -/

section Arithmetic

variable {fl : Flags} {t t2 : IntType} {code : TreeCode} {x y : Cst}

/-- What the arithmetic on unmarked constants gives: an unmarked result of a signed type is exact, and so is a
marked one too large or too small. -/
structure Computes (t : IntType) (res : Cst) (z : ℤ) : Prop where
  has : t.Has res.val
  exact_of_signed : t.unsigned = false → res.overflow = false → res.val = z ∧ t.Has z
  marked_of_signed : t.unsigned = false → res.overflow = true → ¬ t.Has z

/-- A double word cut down to a type. Source: `fold-const.c` `force_fit_type_double`. Kind: L -/
theorem computes_forceFit (t : IntType) {z w : ℤ} (hw : t.unsigned = false → w = z) :
    Computes t (forceFit t w false) z := by
  refine ⟨t.has_wrap w, ?_, ?_⟩
  · intro hu hunmarked
    have hfits : t.SignFits w := by
      unfold forceFit IntType.signExtended at hunmarked
      simpa [hu] using hunmarked
    have hhas : t.Has w := (IntType.has_signed hu).mpr hfits
    rw [← hw hu]
    exact ⟨IntType.wrap_of_has hhas, hhas⟩
  · intro hu hmarked hhas
    rw [← hw hu, IntType.has_signed hu] at hhas
    unfold forceFit IntType.signExtended at hmarked
    simp [hu] at hmarked
    exact hmarked hhas

/-- Sums, differences and products. Source: `fold-const.c` `int_const_binop`. Kind: L -/
theorem intConstBinop_ring (hcode : code = .PLUS_EXPR ∨ code = .MINUS_EXPR ∨ code = .MULT_EXPR)
    (hx : Plain t x) (hy : Plain t y) :
    ∃ res, intConstBinop t code x y = some res ∧ Computes t res (code.eval x.val y.val) ∧
      res.val = t.wrap (code.eval x.val y.val) := by
  have hover : (x.overflow || y.overflow) = false := by rw [hx.unmarked, hy.unmarked]; rfl
  have hcall : intConstBinop t code x y =
      some (forceFit t (code.eval (t.stored x.val) (t.stored y.val)) false) := by
    rcases hcode with rfl | rfl | rfl <;> simp only [intConstBinop, hover]
  refine ⟨_, hcall, ?_, ?_⟩
  · apply computes_forceFit
    intro hu
    rw [IntType.stored_eq (IntType.sizetype_of_signed hu), IntType.stored_eq (IntType.sizetype_of_signed hu)]
  · apply IntType.wrap_congr
    have h1 := t.stored_modEq x.val
    have h2 := t.stored_modEq y.val
    rcases hcode with rfl | rfl | rfl
    · exact h1.add h2
    · exact h1.sub h2
    · exact h1.mul h2

/-- Quotients. Source: `fold-const.c` `int_const_binop`. Kind: L -/
theorem intConstBinop_div (h : code.IsDivision) (hx : Plain t x) (hy : Plain t y) (hy0 : y.val ≠ 0) :
    ∃ res, intConstBinop t code x y = some res ∧ Computes t res (code.eval x.val y.val) ∧
      (t.unsigned = true → t.Has (code.eval x.val y.val) ∧
        (res.overflow = false → res.val = code.eval x.val y.val)) := by
  obtain ⟨div, hcode, hdiv⟩ := h.exists_divCode
  have hover : (x.overflow || y.overflow) = false := by rw [hx.unmarked, hy.unmarked]; rfl
  have hcall := intConstBinop_of_divCode hcode t x y
  rw [if_neg hy0, hover] at hcall
  refine ⟨_, hcall, ?_, ?_⟩
  · apply computes_forceFit
    intro hu
    rw [IntType.sizetype_of_signed hu, if_neg Bool.false_ne_true, hdiv]
  · intro hu
    obtain ⟨r, hr, heval⟩ := h.exists_rounding
    have hquot : t.Has (code.eval x.val y.val) := by
      obtain ⟨hx0, hxlt⟩ := (IntType.has_unsigned hu).mp hx.has
      obtain ⟨hynn, _⟩ := (IntType.has_unsigned hu).mp hy.has
      have := hr.div_between x.val (show 0 < y.val by omega)
      rw [IntType.has_unsigned hu, heval]
      omega
    refine ⟨hquot, ?_⟩
    intro hunmarked
    cases hs : t.sizetype
    · rw [if_neg Bool.false_ne_true, ← hdiv]
      exact IntType.wrap_of_has hquot
    · rw [if_pos rfl]
      rw [hs, if_pos rfl] at hunmarked
      have hfits : t.SignFits (sizetypeQuotient t div x.val y.val) := by
        unfold forceFit IntType.signExtended at hunmarked
        simpa [hu, hs] using hunmarked
      exact wrap_sizetypeQuotient hs h hdiv hx.has hy.has hy0 hfits

/-- Where overflow wraps, a result that passes the tests of the source is unmarked.
Source: `tree-vrp.c` `vrp_int_const_binop` (`if (TYPE_OVERFLOW_WRAPS (TREE_TYPE (val1)))`)
Kind: L -/
theorem vrpIntConstBinop_wraps (hwraps : t.overflowWraps fl = true) {res : Cst} {z : ℤ}
    (hres : intConstBinop t code x y = some res)
    (hexact : res.overflow = false → wrappingOverflow fl t code x y res = false →
      res.val = z ∧ t.Has z) :
    ∃ r, vrpIntConstBinop fl t t2 code x y = some (some r) ∧ (Bad fl t r ∨ Stands fl t r z) := by
  have hbad : ∀ v : Cst, v.overflow = true → Bad fl t v := by
    intro v hv
    refine ⟨hv, ?_⟩
    unfold isOverflowInfinity needsOverflowInfinity
    rw [hwraps]
    rfl
  unfold vrpIntConstBinop
  rw [hres]
  simp only [hwraps, if_true]
  cases hover : wrappingOverflow fl t code x y res
  · refine ⟨res, rfl, ?_⟩
    cases hmark : res.overflow
    · right
      obtain ⟨hval, hz⟩ := hexact hmark hover
      have hres' : res = ⟨z, false⟩ := by rw [← hval, ← hmark]
      rw [hres']
      exact stands_of_has hz
    · exact Or.inl (hbad res hmark)
  · exact ⟨⟨res.val, true⟩, rfl, Or.inl (hbad _ rfl)⟩

/-- Where overflow is undefined, an overflow goes to the infinity on its side.
Source: `tree-vrp.c` `vrp_int_const_binop` (`else if ((TREE_OVERFLOW (res) ...`)
Kind: L -/
theorem vrpIntConstBinop_undefined (hneeds : needsOverflowInfinity fl t = true) (hx : Plain t x)
    (hy : Plain t2 y) {res : Cst} {z : ℤ} (hres : intConstBinop t code x y = some res)
    (hexact : res.overflow = false → res.val = z ∧ t.Has z)
    (hup : res.overflow = true → overflowsUp fl t2 code x y = true → t.maxValue < z)
    (hdown : res.overflow = true → overflowsUp fl t2 code x y = false → z < t.minValue) :
    ∃ r, vrpIntConstBinop fl t t2 code x y = some (some r) ∧ Stands fl t r z := by
  have hpunt : infinitiesPunt fl t t2 code x y = false := by
    unfold infinitiesPunt
    rw [hx.not_infinity, hy.not_infinity]
    cases code <;> simp
  unfold vrpIntConstBinop
  rw [hres]
  simp only [not_wraps_of_needs hneeds, hneeds, hx.not_infinity, hy.not_infinity, hx.unmarked, hy.unmarked, hpunt,
    Bool.or_false, Bool.not_false, Bool.and_true, Bool.false_eq_true, if_false, if_true]
  cases hmark : res.overflow
  · obtain ⟨hval, hz⟩ := hexact hmark
    have hres' : res = ⟨z, false⟩ := by rw [← hval, ← hmark]
    refine ⟨res, rfl, ?_⟩
    rw [hres']
    exact stands_of_has hz
  · cases hside : overflowsUp fl t2 code x y
    · exact ⟨_, rfl, stands_negativeOverflowInfinity hneeds (hdown hmark hside)⟩
    · exact ⟨_, rfl, stands_positiveOverflowInfinity hneeds (hup hmark hside)⟩

/-- A type without wrapping is signed. Source: `flags.h` `TYPE_OVERFLOW_WRAPS`. Kind: L -/
theorem unsigned_of_not_wraps (hwraps : t.overflowWraps fl = false) : t.unsigned = false := by
  unfold IntType.overflowWraps at hwraps
  exact (Bool.or_eq_false_iff.mp hwraps).1

section Base

variable (hbase : t.subrange = none)

include hbase

/-- Sums, differences and products stand for the exact ones if overflow goes to the right side in a signed type
and the tests catch every wrap in an unsigned one.
Source: `tree-vrp.c` `vrp_int_const_binop`
Kind: L -/
theorem vrpIntConstBinop_ring (hcode : code = .PLUS_EXPR ∨ code = .MINUS_EXPR ∨ code = .MULT_EXPR)
    (hx : Plain t x) (hy : Plain t y)
    (hup : t.unsigned = false → overflowsUp fl t code x y = true →
      t.minValue ≤ code.eval x.val y.val)
    (hdown : t.unsigned = false → overflowsUp fl t code x y = false →
      code.eval x.val y.val ≤ t.maxValue)
    (htest : t.unsigned = true → ∀ res : Cst, Plain t res →
      res.val = t.wrap (code.eval x.val y.val) → wrappingOverflow fl t code x y res = false →
        t.Has (code.eval x.val y.val)) :
    ∃ r, vrpIntConstBinop fl t t code x y = some (some r) ∧
      (Bad fl t r ∨ Stands fl t r (code.eval x.val y.val)) := by
  obtain ⟨res, hres, hcomp, hval⟩ := intConstBinop_ring hcode hx hy
  cases hwraps : t.overflowWraps fl
  · have hu := unsigned_of_not_wraps hwraps
    have hstands : ∃ r, vrpIntConstBinop fl t t code x y = some (some r) ∧
        Stands fl t r (code.eval x.val y.val) := by
      refine vrpIntConstBinop_undefined (needs_of_not_wraps hbase hwraps) hx hy hres (hcomp.exact_of_signed hu) ?_ ?_
      · intro hmark hside
        by_contra hle
        exact hcomp.marked_of_signed hu hmark ⟨hup hu hside, not_lt.mp hle⟩
      · intro hmark hside
        by_contra hle
        exact hcomp.marked_of_signed hu hmark ⟨not_lt.mp hle, hdown hu hside⟩
    obtain ⟨r, hcall, hstands⟩ := hstands
    exact ⟨r, hcall, Or.inr hstands⟩
  · apply vrpIntConstBinop_wraps hwraps hres
    intro hmark hpass
    cases hu : t.unsigned
    · exact hcomp.exact_of_signed hu hmark
    · have hz := htest hu res ⟨hcomp.has, hmark⟩ hval hpass
      rw [hval, IntType.wrap_of_has hz]
      exact ⟨rfl, hz⟩

/-- A sum stands for the exact one. Source: `tree-vrp.c` `vrp_int_const_binop`. Kind: L -/
theorem vrpIntConstBinop_plus (hx : Plain t x) (hy : Plain t y) :
    ∃ r, vrpIntConstBinop fl t t .PLUS_EXPR x y = some (some r) ∧
      (Bad fl t r ∨ Stands fl t r (x.val + y.val)) := by
  have hside : overflowsUp fl t .PLUS_EXPR x y = decide (0 ≤ x.val) := by
    unfold overflowsUp
    rw [hy.not_negative_infinity, hy.not_positive_infinity]
    simp [Int.sign_nonneg_iff]
  obtain ⟨hxmin, hxmax⟩ := hx.has
  obtain ⟨hymin, hymax⟩ := hy.has
  apply vrpIntConstBinop_ring hbase (Or.inl rfl) hx hy
  · intro _ hup
    rw [hside, decide_eq_true_eq] at hup
    change t.minValue ≤ x.val + y.val
    omega
  · intro _ hdown
    rw [hside, decide_eq_false_iff_not] at hdown
    change x.val + y.val ≤ t.maxValue
    omega
  · intro hu res hres hval hpass
    obtain ⟨hx0, hxlt⟩ := (IntType.has_unsigned hu).mp hx.has
    obtain ⟨hy0, hylt⟩ := (IntType.has_unsigned hu).mp hy.has
    change res.val = t.wrap (x.val + y.val) at hval
    have hle : x.val ≤ res.val := by
      by_contra hlt
      have hcheck : compareValues fl t res x = -1 := by
        rw [compareValues_eq hres.good hx.good, hres.key_eq, hx.key_eq]
        exact if_pos (not_le.mp hlt)
      unfold wrappingOverflow at hpass
      rw [hcheck] at hpass
      simp at hpass
    unfold IntType.wrap at hval
    rw [if_pos hu] at hval
    change t.Has (x.val + y.val)
    rw [IntType.has_unsigned hu]
    refine ⟨by omega, ?_⟩
    by_contra hge
    have hwrap : (x.val + y.val) % 2 ^ t.prec = x.val + y.val - 2 ^ t.prec := by
      rw [← Int.sub_emod_right]
      exact Int.emod_eq_of_lt (by omega) (by omega)
    omega

/-- A difference stands for the exact one. Source: `tree-vrp.c` `vrp_int_const_binop`. Kind: L -/
theorem vrpIntConstBinop_minus (hx : Plain t x) (hy : Plain t y) :
    ∃ r, vrpIntConstBinop fl t t .MINUS_EXPR x y = some (some r) ∧
      (Bad fl t r ∨ Stands fl t r (x.val - y.val)) := by
  have hside : overflowsUp fl t .MINUS_EXPR x y = decide (0 ≤ x.val) := by
    unfold overflowsUp
    rw [hy.not_negative_infinity, hy.not_positive_infinity]
    simp [Int.sign_nonneg_iff]
  obtain ⟨hxmin, hxmax⟩ := hx.has
  obtain ⟨hymin, hymax⟩ := hy.has
  apply vrpIntConstBinop_ring hbase (Or.inr (Or.inl rfl)) hx hy
  · intro hu hup
    have hends := IntType.maxValue_of_signed hu
    rw [hside, decide_eq_true_eq] at hup
    change t.minValue ≤ x.val - y.val
    omega
  · intro hu hdown
    have hends := IntType.maxValue_of_signed hu
    rw [hside, decide_eq_false_iff_not] at hdown
    change x.val - y.val ≤ t.maxValue
    omega
  · intro hu res hres hval hpass
    obtain ⟨hx0, hxlt⟩ := (IntType.has_unsigned hu).mp hx.has
    obtain ⟨hy0, hylt⟩ := (IntType.has_unsigned hu).mp hy.has
    change res.val = t.wrap (x.val - y.val) at hval
    have hle : res.val ≤ x.val := by
      by_contra hlt
      have hcheck : compareValues fl t res x = 1 := by
        rw [compareValues_eq hres.good hx.good, hres.key_eq, hx.key_eq, if_neg (by omega)]
        exact if_pos (not_le.mp hlt)
      unfold wrappingOverflow at hpass
      rw [hcheck] at hpass
      simp at hpass
    unfold IntType.wrap at hval
    rw [if_pos hu] at hval
    change t.Has (x.val - y.val)
    rw [IntType.has_unsigned hu]
    refine ⟨?_, by omega⟩
    by_contra hneg
    have hwrap : (x.val - y.val) % 2 ^ t.prec = x.val - y.val + 2 ^ t.prec := by
      rw [← Int.add_emod_right]
      exact Int.emod_eq_of_lt (by omega) (by omega)
    omega

/-- A product stands for the exact one: dividing a wrapped product by its first factor does not give the
second.
Source: `tree-vrp.c` `vrp_int_const_binop`
Kind: L -/
theorem vrpIntConstBinop_mult (hx : Plain t x) (hy : Plain t y) :
    ∃ r, vrpIntConstBinop fl t t .MULT_EXPR x y = some (some r) ∧
      (Bad fl t r ∨ Stands fl t r (x.val * y.val)) := by
  have hside : overflowsUp fl t .MULT_EXPR x y = decide (x.val.sign = y.val.sign) := rfl
  have hzero := t.has_zero
  apply vrpIntConstBinop_ring hbase (Or.inr (Or.inr rfl)) hx hy
  · intro _ hup
    rw [hside, decide_eq_true_eq] at hup
    have hsign : 0 ≤ (x.val * y.val).sign := by
      rw [Int.sign_mul, hup]
      exact mul_self_nonneg _
    exact le_trans hzero.1 (Int.sign_nonneg_iff.mp hsign)
  · intro _ hdown
    rw [hside, decide_eq_false_iff_not] at hdown
    have hsign : x.val * y.val ≤ 0 := by
      rcases lt_trichotomy x.val 0 with hx0 | hx0 | hx0
      · rcases lt_or_ge y.val 0 with hy0 | hy0
        · rw [Int.sign_eq_neg_one_of_neg hx0, Int.sign_eq_neg_one_of_neg hy0] at hdown
          exact absurd rfl hdown
        · exact mul_nonpos_of_nonpos_of_nonneg (le_of_lt hx0) hy0
      · rw [hx0, zero_mul]
      · rcases lt_or_ge 0 y.val with hy0 | hy0
        · rw [Int.sign_eq_one_of_pos hx0, Int.sign_eq_one_of_pos hy0] at hdown
          exact absurd rfl hdown
        · exact mul_nonpos_of_nonneg_of_nonpos (le_of_lt hx0) hy0
    exact le_trans hsign hzero.2
  · intro hu res hres hval hpass
    obtain ⟨hx0, hxlt⟩ := (IntType.has_unsigned hu).mp hx.has
    obtain ⟨hy0, hylt⟩ := (IntType.has_unsigned hu).mp hy.has
    have hprod : 0 ≤ x.val * y.val := mul_nonneg hx0 hy0
    change res.val = t.wrap (x.val * y.val) at hval
    change t.Has (x.val * y.val)
    by_cases hxz : x.val = 0
    · rw [hxz, zero_mul]
      exact hzero
    · have hdiv : TreeCode.IsDivision .TRUNC_DIV_EXPR := Or.inl rfl
      obtain ⟨tmp, htmp, hcomp, hquot⟩ := intConstBinop_div hdiv hres hx hxz
      obtain ⟨_, hexact⟩ := hquot hu
      unfold wrappingOverflow at hpass
      rw [htmp] at hpass
      simp [hxz] at hpass
      have hsame : tmp = y := (compareValues_zero_iff hcomp.has hy.has).mp hpass
      have hback : y.val = res.val.tdiv x.val := by
        rw [← hsame]
        exact hexact (hsame ▸ hy.unmarked)
      unfold IntType.wrap at hval
      rw [if_pos hu] at hval
      rw [IntType.has_unsigned hu]
      refine ⟨hprod, ?_⟩
      by_contra hge
      -- the wrapped product is smaller, so it cannot hold the second factor that often
      have hless : res.val < x.val * y.val := by
        have := Int.emod_lt_of_pos (x.val * y.val) (show (0 : ℤ) < 2 ^ t.prec by positivity)
        omega
      obtain ⟨hres0, _⟩ := (IntType.has_unsigned hu).mp hres.has
      rw [Int.tdiv_eq_ediv_of_nonneg hres0] at hback
      have hle := Int.ediv_mul_le res.val hxz
      rw [← hback, mul_comm] at hle
      omega

/-- A quotient stands for the exact one. Source: `tree-vrp.c` `vrp_int_const_binop`. Kind: L -/
theorem vrpIntConstBinop_div (h : code.IsDivision) (hx : Plain t x) (hy : Plain t y)
    (hy0 : y.val ≠ 0) :
    ∃ r, vrpIntConstBinop fl t t code x y = some (some r) ∧
      (Bad fl t r ∨ Stands fl t r (code.eval x.val y.val)) := by
  obtain ⟨res, hres, hcomp, hquot⟩ := intConstBinop_div h hx hy hy0
  cases hwraps : t.overflowWraps fl
  · have hu := unsigned_of_not_wraps hwraps
    have hside : overflowsUp fl t code x y = true := by
      rcases h with rfl | rfl | rfl | rfl <;> rfl
    -- no quotient is below the least value, since none is larger than its dividend
    have hlow : t.minValue ≤ code.eval x.val y.val := by
      obtain ⟨r, hr, heval⟩ := h.exists_rounding
      obtain ⟨hle, _⟩ := hr.abs_div_le x.val hy0
      have hhas := (IntType.has_signed hu).mp hx.has
      have habs : |x.val| ≤ 2 ^ (t.prec - 1) := abs_le.mpr ⟨hhas.1, le_of_lt hhas.2⟩
      rw [heval]
      unfold IntType.minValue
      rw [hu, if_neg Bool.false_ne_true]
      omega
    have hstands : ∃ r, vrpIntConstBinop fl t t code x y = some (some r) ∧
        Stands fl t r (code.eval x.val y.val) := by
      refine vrpIntConstBinop_undefined (needs_of_not_wraps hbase hwraps) hx hy hres (hcomp.exact_of_signed hu) ?_ ?_
      · intro hmark _
        by_contra hle
        exact hcomp.marked_of_signed hu hmark ⟨hlow, not_lt.mp hle⟩
      · intro _ hdown
        rw [hside] at hdown
        cases hdown
    obtain ⟨r, hcall, hstands⟩ := hstands
    exact ⟨r, hcall, Or.inr hstands⟩
  · apply vrpIntConstBinop_wraps hwraps hres
    intro hmark _
    cases hu : t.unsigned
    · exact hcomp.exact_of_signed hu hmark
    · exact ⟨(hquot hu).2 hmark, (hquot hu).1⟩

end Base

/-- An operation without overflow gives a value. Source: `tree-vrp.c` `vrp_int_const_binop`. Kind: L -/
theorem vrpIntConstBinop_exact
    (hcode : code = .RSHIFT_EXPR ∨ code = .MIN_EXPR ∨ code = .MAX_EXPR) (hx : Plain t x)
    (hy : Plain t2 y) (hz : t.Has (code.eval x.val y.val)) :
    vrpIntConstBinop fl t t2 code x y = some (some ⟨code.eval x.val y.val, false⟩) := by
  have hcall : intConstBinop t code x y = some ⟨code.eval x.val y.val, false⟩ := by
    have hover : (x.overflow || y.overflow) = false := by rw [hx.unmarked, hy.unmarked]; rfl
    rcases hcode with rfl | rfl | rfl <;> simp only [intConstBinop, hover, IntType.wrap_of_has hz]
  have htest : ∀ res, wrappingOverflow fl t code x y res = false := by
    intro res
    rcases hcode with rfl | rfl | rfl <;> simp [wrappingOverflow]
  unfold vrpIntConstBinop
  rw [hcall]
  simp [htest, hx.not_infinity, hy.not_infinity]

/-- A value shifted to the right is a value. Source: `fold-const.c` `lshift_double`. Kind: L -/
theorem has_shiftRight {z c : ℤ} (hz : t.Has z) (hc : 0 ≤ c) : t.Has (shiftRight z c) := by
  have hzero := t.has_zero
  have hbetween := isRounding_floor.div_between z (show (0 : ℤ) < 2 ^ c.toNat by positivity)
  rw [floor_div_eq, Int.fdiv_eq_ediv_of_nonneg _ (by positivity)] at hbetween
  unfold shiftRight
  rw [if_pos hc]
  unfold IntType.Has at hz hzero ⊢
  omega

end Arithmetic

end GccCore.Gcc.TreeVrp
