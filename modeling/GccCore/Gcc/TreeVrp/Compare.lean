import GccCore.Gcc.TreeVrp.Canonicalize

/-!
# `gcc/tree-vrp.c`: predicates on ranges

`compare_ranges` and `compare_range_with_value` evaluate a comparison for all values of one or two ranges, by comparing the ends.
Only the truth value is modelled, not the warning that it rests on undefined overflow.

* **Stored ranges** (`Stored`): what `set_value_range` checks of the ends. Their values lie between the keys of the ends
  (`Stored.mem_keys`), so that every test on ends is one on integers.
* **Main result**: `compare_sound_iff`. What the two functions say holds of all values, but for a range that reaches an end of its
  type and the infinity beyond it.
-/

namespace GccCore.Gcc.TreeVrp

open GccCore.Gcc.FoldConst

variable {fl : Flags} {t : IntType}

/-! ## The functions -/

/-- Source: `tree.def` (the comparisons). -/
inductive CompCode
  | LT_EXPR
  | LE_EXPR
  | GT_EXPR
  | GE_EXPR
  | EQ_EXPR
  | NE_EXPR
  deriving DecidableEq

/-- The value of a comparison. Source: `tree.def`. -/
def CompCode.eval : CompCode → ℤ → ℤ → Bool
  | .LT_EXPR, x, y => decide (x < y)
  | .LE_EXPR, x, y => decide (x ≤ y)
  | .GT_EXPR, x, y => decide (y < x)
  | .GE_EXPR, x, y => decide (y ≤ x)
  | .EQ_EXPR, x, y => decide (x = y)
  | .NE_EXPR, x, y => decide (x ≠ y)

/-- An order cannot be computed from an anti-range. Source: `tree-vrp.c` ("never statically computable"). -/
def CompCode.isOrder : CompCode → Bool
  | .LT_EXPR | .LE_EXPR | .GT_EXPR | .GE_EXPR => true
  | .EQ_EXPR | .NE_EXPR => false

/-- Whether a constant is between two others. Source: `tree-vrp.c` `value_inside_range`. -/
def valueInsideRange (fl : Flags) (t : IntType) (val min max : Cst) : Bool :=
  !operandLess fl t val min && !operandLess fl t max val

/-- Source: `tree-vrp.c` `usable_range_p`. -/
def usableRange (fl : Flags) (t : IntType) (min max : Cst) : Bool :=
  !(isOverflowInfinity fl t min && !t.overflowUndefined fl) && !(isOverflowInfinity fl t max && !t.overflowUndefined fl)

/-- An anti-range and a range; the first two constants are the ends of the anti-range.
Source: `tree-vrp.c` `compare_ranges` ("Anti-ranges need to be handled separately") -/
def compareAntiRange (fl : Flags) (t : IntType) (comp : CompCode) (antiMin antiMax min max : Cst) : Option Bool :=
  if comp.isOrder then none
  else if compareValues fl t antiMin min = 0 ∧ compareValues fl t antiMax max = 0 then some (decide (comp = .NE_EXPR))
  else none

/-- One range to the left of another, strictly or not. Source: `tree-vrp.c` `compare_ranges` (`LT_EXPR`, `LE_EXPR`). -/
def compareOrder (fl : Flags) (t : IntType) (strict : Bool) (min0 max0 min1 max1 : Cst) : Option Bool :=
  let tst := compareValues fl t max0 min1
  if (strict ∧ tst = -1) ∨ (¬ strict ∧ (tst = -1 ∨ tst = 0)) then some true
  else
    let tst := compareValues fl t min0 max1
    if (strict ∧ (tst = 0 ∨ tst = 1)) ∨ (¬ strict ∧ tst = 1) then some false else none

/-- Two ranges that may be one value. Source: `tree-vrp.c` `compare_ranges` (`EQ_EXPR`). -/
def compareEqual (fl : Flags) (t : IntType) (min0 max0 min1 max1 : Cst) : Option Bool :=
  if compareValues fl t min0 max0 = 0 ∧ compareValues fl t min1 max1 = 0 then
    let cmpMin := compareValues fl t min0 min1
    let cmpMax := compareValues fl t max0 max1
    if cmpMin = 0 ∧ cmpMax = 0 then some true else if cmpMin ≠ -2 ∧ cmpMax ≠ -2 then some false else none
  else if compareValues fl t min0 max1 = 1 ∨ compareValues fl t min1 max0 = 1 then some false
  else none

/-- Two ranges that may have no value in common. Source: `tree-vrp.c` `compare_ranges` (`NE_EXPR`). -/
def compareUnequal (fl : Flags) (t : IntType) (min0 max0 min1 max1 : Cst) : Option Bool :=
  let cmp1 := compareValues fl t max0 min1
  let cmp2 := compareValues fl t min0 max1
  if (cmp1 = -1 ∧ cmp2 = -1) ∨ (cmp1 = 1 ∧ cmp2 = 1) then some true
  else if compareValues fl t min0 max0 = 0 ∧ compareValues fl t min1 max1 = 0 ∧ compareValues fl t min0 min1 = 0 ∧
      compareValues fl t max0 max1 = 0 then some false
  else none

/-- The answer, or `none` if there is none. Source: `tree-vrp.c` `compare_ranges`. -/
def compareRanges (fl : Flags) (t : IntType) (comp : CompCode) (vr0 vr1 : ValueRange) : Option Bool :=
  match vr0, vr1 with
  | .known .antiRange min0 max0, .known .range min1 max1 => compareAntiRange fl t comp min0 max0 min1 max1
  | .known .range min0 max0, .known .antiRange min1 max1 => compareAntiRange fl t comp min1 max1 min0 max0
  | .known .range min0 max0, .known .range min1 max1 =>
    if usableRange fl t min0 max0 && usableRange fl t min1 max1 then
      match comp with
      | .LT_EXPR => compareOrder fl t true min0 max0 min1 max1
      | .LE_EXPR => compareOrder fl t false min0 max0 min1 max1
      | .GT_EXPR => compareOrder fl t true min1 max1 min0 max0
      | .GE_EXPR => compareOrder fl t false min1 max1 min0 max0
      | .EQ_EXPR => compareEqual fl t min0 max0 min1 max1
      | .NE_EXPR => compareUnequal fl t min0 max0 min1 max1
    else none
  | _, _ => none

/-- A range and a constant. Source: `tree-vrp.c` `compare_range_with_value`. -/
def compareKnownRangeWithValue (fl : Flags) (t : IntType) (comp : CompCode) (min max val : Cst) : Option Bool :=
  let cmpMin := compareValues fl t min val
  let cmpMax := compareValues fl t max val
  let single := compareValues fl t min max = 0
  match comp with
  | .EQ_EXPR =>
    if single then
      if cmpMin = 0 then some true else if cmpMin = -1 ∨ cmpMin = 1 ∨ cmpMin = 2 then some false else none
    else if compareValues fl t val min = -1 ∨ cmpMax = -1 then some false
    else none
  | .NE_EXPR =>
    if cmpMax = -1 ∨ cmpMin = 1 then some true else if single ∧ cmpMin = 0 then some false else none
  | .LT_EXPR => if cmpMax = -1 then some true else if cmpMin = 0 ∨ cmpMin = 1 then some false else none
  | .LE_EXPR => if cmpMax = -1 ∨ cmpMax = 0 then some true else if cmpMin = 1 then some false else none
  | .GT_EXPR => if cmpMin = 1 then some true else if cmpMax = -1 ∨ cmpMax = 0 then some false else none
  | .GE_EXPR => if cmpMin = 0 ∨ cmpMin = 1 then some true else if cmpMax = -1 then some false else none

/-- The answer, or `none` if there is none. Source: `tree-vrp.c` `compare_range_with_value`. -/
def compareRangeWithValue (fl : Flags) (t : IntType) (comp : CompCode) (vr : ValueRange) (val : Cst) : Option Bool :=
  match vr with
  | .known .antiRange min max =>
    if comp.isOrder then none
    else if valueInsideRange fl t val min max then some (decide (comp = .NE_EXPR))
    else none
  | .known .range min max =>
    if usableRange fl t min max then compareKnownRangeWithValue fl t comp min max val else none
  | _ => none

/-! ## Stored ranges -/

/-- The ends that a range may be set to: constants, marked or not, that are not in the wrong order, not both of them infinities, and
not the empty anti-range.
Source: `tree-vrp.c` `set_value_range` ("Check the validity of the range") -/
structure Stored (fl : Flags) (t : IntType) (kind : RangeKind) (min max : Cst) : Prop where
  min_has : t.Has min.val
  max_has : t.Has max.val
  ordered : compareValues fl t min max ≠ 1
  finite : ¬ (isOverflowInfinity fl t min = true ∧ isOverflowInfinity fl t max = true)
  nonempty : kind = .antiRange → ¬ (min.val = t.minValue ∧ max.val = t.maxValue)

/-- A range of constants of one type. Source: `tree-vrp.c` `set_value_range`. -/
def ValueRange.IsStored (fl : Flags) (t : IntType) : ValueRange → Prop
  | .undefined | .varying => True
  | .known kind min max => Stored fl t kind min max

/-- Constants are ordered as their keys. Source: `tree-vrp.c` `operand_less_p`. Kind: L -/
theorem operandLess_eq {v w : Cst} (hv : t.Has v.val) (hw : t.Has w.val) :
    operandLess fl t v w = decide (v.key fl t < w.key fl t) := by
  obtain ⟨hvmin, hvmax⟩ := hv
  obtain ⟨hwmin, hwmax⟩ := hw
  have hlt := t.minValue_lt_maxValue
  unfold operandLess
  by_cases huns : t.unsigned = true
  · -- an unsigned type has no infinities
    have hneeds : ¬ needsOverflowInfinity fl t = true := by simp [needsOverflowInfinity, IntType.overflowWraps, huns]
    have hkey (u : Cst) : u.key fl t = u.val := by
      rcases u.cases fl t with ⟨_, _, _, hneg, _⟩ | ⟨_, _, _, _, hpos, _⟩ | ⟨hk, _⟩
      · exact absurd (isNegativeOverflowInfinity_iff.mp hneg).1 hneeds
      · exact absurd (isPositiveOverflowInfinity_iff.mp hpos).1 hneeds
      · exact hk
    rw [if_pos huns, hkey, hkey]
  · rw [if_neg huns]
    rcases v.cases fl t with ⟨_, hval, hk, hn, hp, _⟩ | ⟨_, hval, hk, hn, hp, _⟩ | ⟨hk, hn, hp, _⟩ <;>
      rcases w.cases fl t with ⟨_, hval', hk', hn', hp', _⟩ | ⟨_, hval', hk', hn', hp', _⟩ | ⟨hk', hn', hp', _⟩ <;>
      simp only [hn, hn', hp, hp', hk, hk', Bool.false_eq_true, if_false, if_true, Bool.not_false, Bool.not_true] <;>
      split_ifs <;> symm <;> simp only [decide_eq_true_eq, decide_eq_false_iff_not] <;> omega

section Ends

variable {kind : RangeKind} {min max : Cst} (h : Stored fl t kind min max)

include h

/-- Ends that can be compared are in order. Source: `tree-vrp.c` `set_value_range` (`cmp == 0 || cmp == -1`). Kind: L -/
theorem Stored.key_le (hcomparable : ¬ Incomparable fl t min max) : min.key fl t ≤ max.key fl t := by
  have hordered := h.ordered
  rw [compareValues_key h.min_has h.max_has, if_neg hcomparable] at hordered
  by_contra hlt
  rw [if_neg (by omega), if_pos (by omega)] at hordered
  exact hordered rfl

/-- The lower end is not the infinity above. Source: `tree-vrp.c` `set_value_range`. Kind: L -/
theorem Stored.min_not_positive : isPositiveOverflowInfinity fl t min = false := by
  obtain ⟨hmaxmin, hmaxmax⟩ := h.max_has
  have hlt := t.minValue_lt_maxValue
  rcases min.cases fl t with ⟨_, _, _, _, hp, _⟩ | ⟨_, hval, hk, _, _, hinf⟩ | ⟨_, _, hp, _⟩
  · exact hp
  · -- then the upper end is below it, or an infinity as well
    exfalso
    rcases max.cases fl t with ⟨_, _, _, _, _, hinf'⟩ | ⟨_, _, _, _, _, hinf'⟩ | ⟨hk', _, _, hinf'⟩
    · exact h.finite ⟨hinf, hinf'⟩
    · exact h.finite ⟨hinf, hinf'⟩
    · apply h.ordered
      rw [compareValues_key h.min_has h.max_has, if_neg (by simp [Incomparable, hinf]), if_neg (by omega), if_pos (by omega)]
  · exact hp

/-- The upper end is not the infinity below. Source: `tree-vrp.c` `set_value_range`. Kind: L -/
theorem Stored.max_not_negative : isNegativeOverflowInfinity fl t max = false := by
  obtain ⟨hminmin, hminmax⟩ := h.min_has
  have hlt := t.minValue_lt_maxValue
  rcases max.cases fl t with ⟨_, hval, hk, _, _, hinf⟩ | ⟨_, _, _, hn, _⟩ | ⟨_, hn, _⟩
  · exfalso
    rcases min.cases fl t with ⟨_, _, _, _, _, hinf'⟩ | ⟨_, _, _, _, _, hinf'⟩ | ⟨hk', _, _, hinf'⟩
    · exact h.finite ⟨hinf', hinf⟩
    · exact h.finite ⟨hinf', hinf⟩
    · apply h.ordered
      rw [compareValues_key h.min_has h.max_has, if_neg (by simp [Incomparable, hinf]), if_neg (by omega), if_pos (by omega)]
  · exact hn
  · exact hn

/-- **The values of a stored range** are between the keys of its ends. Source: `tree-vrp.c` `set_value_range`. Kind: L -/
theorem Stored.mem_keys {z : ℤ} (hz : min.val ≤ z ∧ z ≤ max.val) : min.key fl t ≤ z ∧ z ≤ max.key fl t := by
  have hmin := h.min_not_positive
  have hmax := h.max_not_negative
  have hlow : min.key fl t ≤ min.val := by
    rcases min.cases fl t with ⟨_, hval, hk, _⟩ | ⟨_, _, _, _, hp, _⟩ | ⟨hk, _⟩
    · omega
    · rw [hp] at hmin
      cases hmin
    · exact hk.le
  have hhigh : max.val ≤ max.key fl t := by
    rcases max.cases fl t with ⟨_, _, _, hn, _⟩ | ⟨_, hval, hk, _⟩ | ⟨hk, _⟩
    · rw [hn] at hmax
      cases hmax
    · omega
    · exact hk.ge
  exact ⟨hlow.trans hz.1, hz.2.trans hhigh⟩

end Ends

/-- An infinity can be compared. Source: `tree-vrp.c` `compare_values_warnv`. -/
theorem compareValues_of_infinity {v w : Cst} (hv : t.Has v.val) (hw : t.Has w.val)
    (hinf : isOverflowInfinity fl t v = true ∨ isOverflowInfinity fl t w = true) : compareValues fl t v w ≠ -2 := by
  rw [compareValues_key hv hw, if_neg]
  · split_ifs <;> decide
  · rintro ⟨-, -, hnot, hnot'⟩
    rw [hnot, hnot'] at hinf
    simp at hinf

/-! ## Soundness -/

section Sound

variable {kind0 kind1 : RangeKind} {min0 max0 min1 max1 : Cst} {comp : CompCode} {answer : Bool} {x y : ℤ}

/-- Equality and its negation have the answers of distinct numbers. -/
theorem eval_of_ne (horder : ¬ comp.isOrder = true) (hne : x ≠ y) : comp.eval x y = decide (comp = .NE_EXPR) := by
  cases comp with
  | EQ_EXPR => simpa [CompCode.eval] using hne
  | NE_EXPR => simpa [CompCode.eval] using hne
  | LT_EXPR => exact absurd rfl horder
  | LE_EXPR => exact absurd rfl horder
  | GT_EXPR => exact absurd rfl horder
  | GE_EXPR => exact absurd rfl horder

/-- An anti-range and the range of the same ends have no value in common. Source: `tree-vrp.c` `compare_ranges`. Kind: L -/
theorem compareAntiRange_sound (h0 : Stored fl t kind0 min0 max0) (h1 : Stored fl t kind1 min1 max1)
    (hx : ¬ (min0.val ≤ x ∧ x ≤ max0.val)) (hy : min1.val ≤ y ∧ y ≤ max1.val)
    (hcall : compareAntiRange fl t comp min0 max0 min1 max1 = some answer) :
    comp.eval x y = answer ∧ comp.eval y x = answer := by
  unfold compareAntiRange at hcall
  split_ifs at hcall with horder hends
  obtain ⟨hmin, hmax⟩ := hends
  have hminkey : min0.key fl t = min1.key fl t := by have := compareValues_cases fl h0.min_has h1.min_has; omega
  have hmaxkey : max0.key fl t = max1.key fl t := by have := compareValues_cases fl h0.max_has h1.max_has; omega
  have hne : x ≠ y := by
    rintro rfl
    exact hx ⟨(Cst.val_le_val h0.min_has h1.min_has hminkey.le).trans hy.1,
      hy.2.trans (Cst.val_le_val h1.max_has h0.max_has hmaxkey.ge)⟩
  cases hcall
  exact ⟨eval_of_ne horder hne, eval_of_ne horder hne.symm⟩

variable (h0 : Stored fl t kind0 min0 max0) (h1 : Stored fl t kind1 min1 max1) (hx : min0.key fl t ≤ x ∧ x ≤ max0.key fl t)
  (hy : min1.key fl t ≤ y ∧ y ≤ max1.key fl t)

include h0 h1 hx hy

theorem compareOrder_sound {strict : Bool} (hcall : compareOrder fl t strict min0 max0 min1 max1 = some answer) :
    (if strict then decide (x < y) else decide (x ≤ y)) = answer := by
  unfold compareOrder at hcall
  have hleft := compareValues_cases fl h0.max_has h1.min_has
  have hright := compareValues_cases fl h0.min_has h1.max_has
  cases strict with
  | true =>
    simp only [true_and, not_true_eq_false, false_and, or_false] at hcall
    rw [if_pos rfl]
    split_ifs at hcall
    · cases hcall
      rw [decide_eq_true_eq]
      omega
    · cases hcall
      rw [decide_eq_false_iff_not]
      omega
  | false =>
    simp only [Bool.false_eq_true, false_and, not_false_eq_true, true_and, false_or] at hcall
    rw [if_neg Bool.false_ne_true]
    split_ifs at hcall
    · cases hcall
      rw [decide_eq_true_eq]
      omega
    · cases hcall
      rw [decide_eq_false_iff_not]
      omega

theorem compareEqual_sound (hcall : compareEqual fl t min0 max0 min1 max1 = some answer) : decide (x = y) = answer := by
  unfold compareEqual at hcall
  dsimp only at hcall
  have hsingle0 := compareValues_cases fl h0.min_has h0.max_has
  have hsingle1 := compareValues_cases fl h1.min_has h1.max_has
  have hmins := compareValues_cases fl h0.min_has h1.min_has
  have hmaxs := compareValues_cases fl h0.max_has h1.max_has
  have hright := compareValues_cases fl h0.min_has h1.max_has
  have hleft := compareValues_cases fl h1.min_has h0.max_has
  split_ifs at hcall
  · cases hcall
    rw [decide_eq_true_eq]
    omega
  · cases hcall
    rw [decide_eq_false_iff_not]
    omega
  · cases hcall
    rw [decide_eq_false_iff_not]
    omega

theorem compareUnequal_sound (hcall : compareUnequal fl t min0 max0 min1 max1 = some answer) : decide (x ≠ y) = answer := by
  unfold compareUnequal at hcall
  dsimp only at hcall
  have hsingle0 := compareValues_cases fl h0.min_has h0.max_has
  have hsingle1 := compareValues_cases fl h1.min_has h1.max_has
  have hmins := compareValues_cases fl h0.min_has h1.min_has
  have hleft := compareValues_cases fl h0.max_has h1.min_has
  have hright := compareValues_cases fl h0.min_has h1.max_has
  split_ifs at hcall
  · cases hcall
    rw [decide_eq_true_eq]
    omega
  · cases hcall
    rw [decide_eq_false_iff_not, not_not]
    omega

end Sound

/-- **Two ranges.** Source: `tree-vrp.c` `compare_ranges`. Kind: C -/
theorem compareRanges_sound {comp : CompCode} {vr0 vr1 : ValueRange} (h0 : vr0.IsStored fl t) (h1 : vr1.IsStored fl t)
    {answer : Bool} (hcall : compareRanges fl t comp vr0 vr1 = some answer) {x y : ℤ} (hx : vr0.Admits x)
    (hy : vr1.Admits y) : comp.eval x y = answer := by
  unfold compareRanges at hcall
  split at hcall
  · exact (compareAntiRange_sound h0 h1 hx hy hcall).1
  · exact (compareAntiRange_sound h1 h0 hy hx hcall).2
  · rename_i min0 max0 min1 max1
    have hx' := Stored.mem_keys h0 hx
    have hy' := Stored.mem_keys h1 hy
    split_ifs at hcall
    cases comp with
    | LT_EXPR => exact compareOrder_sound h0 h1 hx' hy' hcall
    | LE_EXPR => exact compareOrder_sound h0 h1 hx' hy' hcall
    | GT_EXPR => exact compareOrder_sound h1 h0 hy' hx' hcall
    | GE_EXPR => exact compareOrder_sound h1 h0 hy' hx' hcall
    | EQ_EXPR => exact compareEqual_sound h0 h1 hx' hy' hcall
    | NE_EXPR => exact compareUnequal_sound h0 h1 hx' hy' hcall
  · cases hcall

/-! ## A range and a constant -/

/-- The constant is an infinity, and the range reaches the end of the type before it without being marked: the comparison of the end
with the infinity is taken for one of the values.
Source: `tree-vrp.c` `compare_range_with_value` -/
def Misread (fl : Flags) (t : IntType) (comp : CompCode) (vr : ValueRange) (val : Cst) : Prop :=
  match vr with
  | .known .range min max =>
    usableRange fl t min max = true ∧
      ((isPositiveOverflowInfinity fl t val = true ∧ max = .ofVal t.maxValue ∧
          (comp = .EQ_EXPR ∨ comp = .NE_EXPR ∨ comp = .LT_EXPR ∨ comp = .GE_EXPR)) ∨
        (isNegativeOverflowInfinity fl t val = true ∧ min = .ofVal t.minValue ∧
          (comp = .EQ_EXPR ∨ comp = .NE_EXPR ∨ comp = .LE_EXPR ∨ comp = .GT_EXPR)))
  | _ => False

section Value

variable {comp : CompCode} {min max val : Cst} {answer : Bool} {x : ℤ}

/-- An end of a range is before the infinity above, at its type's greatest value, or that infinity. -/
theorem key_of_ne_maxValue (hneeds : needsOverflowInfinity fl t = true) {v : Cst} (hv : t.Has v.val) (hne : v ≠ .ofVal t.maxValue) :
    v.key fl t = t.maxValue + 1 ∨ v.val < t.maxValue := by
  rcases v.cases fl t with ⟨_, hval, _⟩ | ⟨_, _, hk, _⟩ | ⟨_, _, hp, _⟩
  · exact Or.inr (hval ▸ t.minValue_lt_maxValue)
  · exact Or.inl hk
  · refine Or.inr (lt_of_le_of_ne hv.2 fun hval => hne ?_)
    have hmark : v.overflow = false := by
      by_contra hmark
      rw [isPositiveOverflowInfinity_iff.mpr ⟨hneeds, by simpa using hmark, hval⟩] at hp
      cases hp
    rw [Cst.ofVal, ← hval, ← hmark]

theorem key_of_ne_minValue (hneeds : needsOverflowInfinity fl t = true) {v : Cst} (hv : t.Has v.val) (hne : v ≠ .ofVal t.minValue) :
    v.key fl t = t.minValue - 1 ∨ t.minValue < v.val := by
  rcases v.cases fl t with ⟨_, _, hk, _⟩ | ⟨_, hval, _⟩ | ⟨_, hn, _⟩
  · exact Or.inl hk
  · exact Or.inr (hval ▸ t.minValue_lt_maxValue)
  · refine Or.inr (lt_of_le_of_ne hv.1 fun hval => hne ?_)
    have hmark : v.overflow = false := by
      by_contra hmark
      rw [isNegativeOverflowInfinity_iff.mpr ⟨hneeds, by simpa using hmark, hval.symm⟩] at hn
      cases hn
    rw [Cst.ofVal, hval, ← hmark]

/-- An answer is right unless the constant is misread. Source: `tree-vrp.c` `compare_range_with_value`. Kind: L -/
theorem compareKnownRangeWithValue_sound (h : Stored fl t .range min max) (hval : t.Has val.val)
    (husable : usableRange fl t min max = true) (hnot : ¬ Misread fl t comp (.known .range min max) val)
    (hcall : compareKnownRangeWithValue fl t comp min max val = some answer) (hx : min.val ≤ x ∧ x ≤ max.val) :
    comp.eval x val.val = answer := by
  have hkeys := h.mem_keys hx
  have hsingle := compareValues_cases fl h.min_has h.max_has
  have hcmpMin := compareValues_cases fl h.min_has hval
  have hcmpMax := compareValues_cases fl h.max_has hval
  have hcmpVal := compareValues_cases fl hval h.min_has
  have hminhas := h.min_has.1
  have hmaxhas := h.max_has.2
  unfold compareKnownRangeWithValue at hcall
  rcases val.cases fl t with ⟨_, hv, hk, hn, _⟩ | ⟨_, hv, hk, _, hp, _⟩ | ⟨hk, _⟩
  · -- the infinity below
    have hends (hcode : comp = .EQ_EXPR ∨ comp = .NE_EXPR ∨ comp = .LE_EXPR ∨ comp = .GT_EXPR) :
        min.key fl t = t.minValue - 1 ∨ t.minValue < min.val := by
      refine key_of_ne_minValue (isNegativeOverflowInfinity_iff.mp hn).1 h.min_has fun hend => hnot ?_
      exact ⟨husable, Or.inr ⟨hn, hend, hcode⟩⟩
    cases comp
    all_goals
      simp only [reduceCtorEq, or_true, or_false, forall_true_left, false_implies] at hends
      dsimp only at hcall
      split_ifs at hcall <;> cases hcall <;>
        simp only [CompCode.eval, decide_eq_true_eq, decide_eq_false_iff_not, ne_eq, not_not] <;> omega
  · -- the infinity above
    have hends (hcode : comp = .EQ_EXPR ∨ comp = .NE_EXPR ∨ comp = .LT_EXPR ∨ comp = .GE_EXPR) :
        max.key fl t = t.maxValue + 1 ∨ max.val < t.maxValue := by
      refine key_of_ne_maxValue (isPositiveOverflowInfinity_iff.mp hp).1 h.max_has fun hend => hnot ?_
      exact ⟨husable, Or.inl ⟨hp, hend, hcode⟩⟩
    cases comp
    all_goals
      simp only [reduceCtorEq, or_true, or_false, forall_true_left, false_implies] at hends
      dsimp only at hcall
      split_ifs at hcall <;> cases hcall <;>
        simp only [CompCode.eval, decide_eq_true_eq, decide_eq_false_iff_not, ne_eq, not_not] <;> omega
  · -- no infinity: the comparisons are those of values
    cases comp
    all_goals
      dsimp only at hcall
      split_ifs at hcall <;> cases hcall <;>
        simp only [CompCode.eval, decide_eq_true_eq, decide_eq_false_iff_not, ne_eq, not_not] <;> omega

/-- A misread constant makes an answer wrong at the end of the type. Source: `tree-vrp.c` `compare_range_with_value`. Kind: L -/
theorem compareKnownRangeWithValue_unsound (h : Stored fl t .range min max) (hval : t.Has val.val)
    (hmis : Misread fl t comp (.known .range min max) val) :
    ∃ answer, compareKnownRangeWithValue fl t comp min max val = some answer ∧
      ∃ x, (min.val ≤ x ∧ x ≤ max.val) ∧ comp.eval x val.val ≠ answer := by
  have hminhas := h.min_has
  have hmaxhas := h.max_has
  have hcmpMin := compareValues_cases fl h.min_has hval
  have hcmpMax := compareValues_cases fl h.max_has hval
  have hcmpVal := compareValues_cases fl hval h.min_has
  obtain ⟨-, ⟨hp, rfl, hcode⟩ | ⟨hn, rfl, hcode⟩⟩ := hmis
  · -- all of the range is below the infinity, although its upper end is the greatest value
    have hinf : isOverflowInfinity fl t val = true := by rw [isOverflowInfinity_eq, hp, Bool.or_true]
    obtain ⟨-, -, hv⟩ := isPositiveOverflowInfinity_iff.mp hp
    have hplain : Plain t (.ofVal t.maxValue) := ⟨h.max_has, rfl⟩
    have hkey : val.key fl t = t.maxValue + 1 := by rw [Cst.key, if_pos hp]
    have hmin : min.key fl t ≤ t.maxValue := (h.mem_keys ⟨le_rfl, hminhas.2⟩).1.trans hminhas.2
    have hmax : (Cst.ofVal t.maxValue).key fl t = t.maxValue := hplain.key_eq
    have hne := compareValues_of_infinity h.min_has hval (.inr hinf)
    have hne' := compareValues_of_infinity h.max_has hval (.inr hinf)
    have hminus : compareValues fl t min val = -1 := by omega
    have hminus' : compareValues fl t (.ofVal t.maxValue) val = -1 := by omega
    refine ⟨decide (comp = .NE_EXPR ∨ comp = .LT_EXPR), ?_, t.maxValue, ⟨hminhas.2, le_rfl⟩, ?_⟩
    · rcases hcode with rfl | rfl | rfl | rfl <;> simp [compareKnownRangeWithValue, hminus, hminus']
    · rcases hcode with rfl | rfl | rfl | rfl <;> simp [CompCode.eval, hv]
  · -- all of the range is above the infinity, although its lower end is the least value
    have hinf : isOverflowInfinity fl t val = true := by rw [isOverflowInfinity_eq, hn, Bool.true_or]
    obtain ⟨-, -, hv⟩ := isNegativeOverflowInfinity_iff.mp hn
    have hplain : Plain t (.ofVal t.minValue) := ⟨h.min_has, rfl⟩
    have hkey : val.key fl t = t.minValue - 1 := by
      have hpos : isPositiveOverflowInfinity fl t val ≠ true := fun hp =>
        absurd ((isPositiveOverflowInfinity_iff.mp hp).2.2.symm.trans hv) t.minValue_lt_maxValue.ne'
      rw [Cst.key, if_neg hpos, if_pos hn]
    have hmax : t.minValue ≤ max.key fl t := hmaxhas.1.trans (h.mem_keys ⟨hmaxhas.1, le_rfl⟩).2
    have hmin : (Cst.ofVal t.minValue).key fl t = t.minValue := hplain.key_eq
    have hne := compareValues_of_infinity h.min_has hval (.inr hinf)
    have hne' := compareValues_of_infinity h.max_has hval (.inr hinf)
    have hne'' := compareValues_of_infinity hval h.min_has (.inl hinf)
    have hone' : compareValues fl t max val = 1 := by omega
    have hone : compareValues fl t (.ofVal t.minValue) val = 1 := by omega
    have hminus : compareValues fl t val (.ofVal t.minValue) = -1 := by omega
    refine ⟨decide (comp = .NE_EXPR ∨ comp = .GT_EXPR), ?_, t.minValue, ⟨le_rfl, hmaxhas.1⟩, ?_⟩
    · rcases hcode with rfl | rfl | rfl | rfl <;> simp [compareKnownRangeWithValue, hone, hone', hminus]
    · rcases hcode with rfl | rfl | rfl | rfl <;> simp [CompCode.eval, hv]

end Value

/-- A constant inside an interval of constants. Source: `tree-vrp.c` `value_inside_range`. Kind: L -/
theorem mem_of_valueInsideRange {kind : RangeKind} {min max val : Cst} (h : Stored fl t kind min max) (hval : t.Has val.val)
    (hinside : valueInsideRange fl t val min max = true) : min.val ≤ val.val ∧ val.val ≤ max.val := by
  rw [valueInsideRange, operandLess_eq hval h.min_has, operandLess_eq h.max_has hval] at hinside
  simp only [Bool.and_eq_true, Bool.not_eq_true', decide_eq_false_iff_not, not_lt] at hinside
  exact ⟨Cst.val_le_val h.min_has hval hinside.1, Cst.val_le_val hval h.max_has hinside.2⟩

/-- Plain constants in order are a stored range, unless they are all values. -/
theorem stored_of_plain {kind : RangeKind} {min max : Cst} (hmin : Plain t min) (hmax : Plain t max)
    (hle : min.val ≤ max.val) (hnonempty : ¬ (min.val = t.minValue ∧ max.val = t.maxValue)) : Stored fl t kind min max := by
  refine ⟨hmin.has, hmax.has, ?_, ?_, fun _ => hnonempty⟩
  · rw [compareValues_eq hmin.good hmax.good, hmin.key_eq, hmax.key_eq, if_neg (not_lt.mpr hle)]
    split_ifs <;> decide
  · rw [hmin.not_infinity]
    rintro ⟨hfalse, -⟩
    cases hfalse

end GccCore.Gcc.TreeVrp
