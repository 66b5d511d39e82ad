import GccCore.Gcc.TreeVrp.Compare
import GccCore.Gcc.TreeVrp.Ranges
import Mathlib.Tactic.Linarith
import Mathlib.Tactic.Push

/-!
# Anti-ranges of binary operations

Two anti-ranges `~[a, b]` and `~[c, d]` are given up for most operations. `MIN_EXPR`, `MAX_EXPR`, `MULT_EXPR` with
undefined overflow and the truth operations instead compute with the ends as if they were those of ranges, and
keep the kind. Nothing keeps the results out of the interval that comes out.

* **The condition** (`AntiCondition`): for which ends the stored anti-range is right all the same. The ends may be marked; a mark
  that is no infinity makes the code give up.
* **Exactness** (`extract_antiRange_admits_iff`): the stored range admits every defined result if and only if the
  condition holds.
* **A failure** (`min_of_antiRanges`): `~[5, 5]` and `~[10, 10]`.
-/

namespace GccCore.Gcc.TreeVrp

/-! ## Soundness and its condition -/

/-- Every defined result on two anti-ranges is admitted by the stored range.
Source: `tree-vrp.c` `extract_range_from_binary_expr` -/
def AntiSound (fl : Flags) (t t1 : IntType) (code : TreeCode) (a b c d : Cst) : Prop :=
  ∃ vr, extractRangeFromBinaryExpr fl t t1 code (.known .antiRange a b) (.known .antiRange c d) = some vr ∧
    ∀ x y, t.Has x → t1.Has y → ¬ (a.val ≤ x ∧ x ≤ b.val) → ¬ (c.val ≤ y ∧ y ≤ d.val) →
      Defined fl t code x y → vr.Admits (t.wrap (code.eval x y))

/-- The code gives up because of a mark, or the lower ends agree, or the operand with the smaller one is always below it. A marked
lower end remains an infinity only if the smaller lower end is the least value.
Source: `tree-vrp.c` `extract_range_from_binary_expr` (`MIN_EXPR`) -/
def MinCondition (fl : Flags) (t : IntType) (a b c d : Cst) : Prop :=
  (b.overflow = true ∨ d.overflow = true) ∨
    ((a.overflow = true ∨ c.overflow = true) ∧ ¬ (needsOverflowInfinity fl t = true ∧ min a.val c.val = t.minValue)) ∨
    a.val = c.val ∨ (a.val < c.val ∧ b.val = t.maxValue) ∨ (c.val < a.val ∧ d.val = t.maxValue)

/-- The code gives up because of a mark: an upper end is an infinity, which becomes the one below; or a marked end gives a mark that
is no infinity; or the ends are infinities on both sides.
Source: `tree-vrp.c` `extract_range_from_binary_expr` (`MAX_EXPR`) -/
def MaxGivenUp (fl : Flags) (t : IntType) (a b c d : Cst) : Prop :=
  (isOverflowInfinity fl t b = true ∨ isOverflowInfinity fl t d = true) ∨
    ((b.overflow = true ∨ d.overflow = true) ∧ ¬ (needsOverflowInfinity fl t = true ∧ max b.val d.val = t.maxValue)) ∨
    ((a.overflow = true ∨ c.overflow = true) ∧ ¬ (isOverflowInfinity fl t a = true ∨ isOverflowInfinity fl t c = true)) ∨
    ((isOverflowInfinity fl t a = true ∨ isOverflowInfinity fl t c = true) ∧ max b.val d.val = t.maxValue)

/-- The code gives up because of a mark, or the upper ends agree, or the operand with the larger one is always above it.
Source: `tree-vrp.c` `extract_range_from_binary_expr` (`MAX_EXPR`) -/
def MaxCondition (fl : Flags) (t : IntType) (a b c d : Cst) : Prop :=
  MaxGivenUp fl t a b c d ∨
    b.val = d.val ∨ (d.val < b.val ∧ a.val = t.minValue) ∨ (b.val < d.val ∧ c.val = t.minValue)

section Ends

variable {fl : Flags} {t t1 : IntType} {code : TreeCode} {a b c d : Cst}

/-- Soundness for a result that is known. -/
theorem antiSound_iff {vr : ValueRange} (hcall : extractRangeFromBinaryExpr fl t t1 code
    (.known .antiRange a b) (.known .antiRange c d) = some vr) :
    AntiSound fl t t1 code a b c d ↔
      ∀ x y, t.Has x → t1.Has y → ¬ (a.val ≤ x ∧ x ≤ b.val) → ¬ (c.val ≤ y ∧ y ≤ d.val) →
        Defined fl t code x y → vr.Admits (t.wrap (code.eval x y)) := by
  refine ⟨?_, fun h => ⟨vr, hcall, h⟩⟩
  rintro ⟨vr', hcall', h⟩
  rw [hcall, Option.some.injEq] at hcall'
  rw [hcall']
  exact h

/-- What is given up is right. -/
theorem antiSound_of_varying (hcall : extractRangeFromBinaryExpr fl t t1 code
    (.known .antiRange a b) (.known .antiRange c d) = some .varying) : AntiSound fl t t1 code a b c d :=
  ⟨.varying, hcall, fun _ _ _ _ _ _ _ => trivial⟩

/-! ## The tail -/

/-- A constant at the bottom of the type, or an infinity; and one at the top.
Source: `tree-vrp.c` `extract_range_from_binary_expr` ("We punt if")
Kind: L -/
theorem Good.end_iff {v : Cst} (h : Good fl t v) :
    ((decide (v.val = t.minValue) || isOverflowInfinity fl t v) = true ↔ v.key fl t ≤ t.minValue ∨ t.maxValue < v.key fl t) ∧
      ((decide (v.val = t.maxValue) || isOverflowInfinity fl t v) = true ↔ t.maxValue ≤ v.key fl t ∨ v.key fl t < t.minValue) := by
  have hlt := t.minValue_lt_maxValue
  obtain ⟨hmin, hmax⟩ := h.has
  simp only [Bool.or_eq_true, decide_eq_true_eq]
  rcases v.cases fl t with ⟨_, hval, hk, _, _, hinf⟩ | ⟨_, hval, hk, _, _, hinf⟩ | ⟨hk, _, _, hinf⟩
  · simp only [hinf, or_true, true_iff]
    omega
  · simp only [hinf, or_true, true_iff]
    omega
  · simp only [hinf, Bool.false_eq_true, or_false]
    omega

/-- **The tail on good ends**: what is kept, by the keys of the ends.
Source: `tree-vrp.c` `extract_range_from_binary_expr` ("We punt if")
Kind: L -/
theorem finishRange_eq (kind : RangeKind) {m M : Cst} (hm : Good fl t m) (hM : Good fl t M) :
    finishRange fl t kind (some m) (some M) =
      if ((m.key fl t ≤ t.minValue ∨ t.maxValue < m.key fl t) ∧ (t.maxValue ≤ M.key fl t ∨ M.key fl t < t.minValue)) ∨
        M.key fl t < m.key fl t then .varying else .known kind m M := by
  unfold finishRange
  dsimp only
  have hbad : ¬ (Bad fl t m ∨ Bad fl t M) := by
    rintro (h | h)
    · exact hm.not_bad h
    · exact hM.not_bad h
  have hcmp : (compareValues fl t m M = -2 ∨ compareValues fl t m M = 1) ↔ M.key fl t < m.key fl t := by
    rw [compareValues_eq hm hM]
    split
    · omega
    · split <;> omega
  rw [if_neg hbad]
  simp only [Bool.and_eq_true, hm.end_iff, hM.end_iff, hcmp]
  by_cases hends : (m.key fl t ≤ t.minValue ∨ t.maxValue < m.key fl t) ∧
      (t.maxValue ≤ M.key fl t ∨ M.key fl t < t.minValue)
  · rw [if_pos hends, if_pos (Or.inl hends)]
  · rw [if_neg hends]
    by_cases hlt : M.key fl t < m.key fl t
    · rw [if_pos hlt, if_pos (Or.inr hlt)]
    · rw [if_neg hlt, if_neg (not_or.mpr ⟨hends, hlt⟩)]

/-- A bad end is given up. Source: `tree-vrp.c` `extract_range_from_binary_expr` (`TREE_OVERFLOW (min)`). Kind: L -/
theorem finishRange_of_bad (kind : RangeKind) {m M : Cst} (hbad : Bad fl t m ∨ Bad fl t M) :
    finishRange fl t kind (some m) (some M) = .varying := if_pos hbad

/-- Ends that crossed the type are given up. Source: `tree-vrp.c` `extract_range_from_binary_expr` ("We punt if"). Kind: L -/
theorem finishRange_of_crossed (kind : RangeKind) {m M : Cst} (hm : t.Has m.val) (hM : t.Has M.val)
    (hcrossed : isPositiveOverflowInfinity fl t m = true ∨ isNegativeOverflowInfinity fl t M = true) :
    finishRange fl t kind (some m) (some M) = .varying := by
  by_cases hbad : Bad fl t m ∨ Bad fl t M
  · exact finishRange_of_bad kind hbad
  · rw [not_or] at hbad
    have hlt := t.minValue_lt_maxValue
    obtain ⟨hmmin, hmmax⟩ := hm
    obtain ⟨hMmin, hMmax⟩ := hM
    rw [finishRange_eq kind ⟨⟨hmmin, hmmax⟩, hbad.1⟩ ⟨⟨hMmin, hMmax⟩, hbad.2⟩, if_pos]
    rcases hcrossed with h | h
    · have hkey : m.key fl t = t.maxValue + 1 := if_pos h
      omega
    · rcases M.cases fl t with ⟨_, _, hkey, _⟩ | ⟨_, _, _, hn, _⟩ | ⟨_, hn, _⟩
      · omega
      · simp [hn] at h
      · simp [hn] at h

/-- **The tail on the other ends**: the values decide. Source: `tree-vrp.c` `extract_range_from_binary_expr`. Kind: L -/
theorem finishRange_of_ends (kind : RangeKind) {m M : Cst} (hm : Good fl t m) (hM : Good fl t M)
    (hlow : isPositiveOverflowInfinity fl t m = false) (hhigh : isNegativeOverflowInfinity fl t M = false) :
    finishRange fl t kind (some m) (some M) =
      if (m.val = t.minValue ∧ M.val = t.maxValue) ∨ M.val < m.val then .varying else .known kind m M := by
  obtain ⟨hmmin, hmmax⟩ := hm.has
  obtain ⟨hMmin, hMmax⟩ := hM.has
  rw [finishRange_eq kind hm hM]
  congr 1
  apply propext
  rcases m.cases fl t with ⟨_, hval, hk, _⟩ | ⟨_, _, _, _, hp, _⟩ | ⟨hk, _⟩
  · rcases M.cases fl t with ⟨_, _, _, hn, _⟩ | ⟨_, hval', hk', _⟩ | ⟨hk', _⟩
    · simp [hn] at hhigh
    · omega
    · omega
  · simp [hp] at hlow
  · rcases M.cases fl t with ⟨_, _, _, hn, _⟩ | ⟨_, hval', hk', _⟩ | ⟨hk', _⟩
    · simp [hn] at hhigh
    · omega
    · omega

/-! ## Smaller and larger values -/

section MinMax

/-- The smaller or larger one of two ends; an infinity gives the one below.
Source: `tree-vrp.c` `vrp_int_const_binop` (`MIN_EXPR`, `MAX_EXPR`) -/
def minmaxEnd (fl : Flags) (t : IntType) (code : TreeCode) (u v : Cst) : Cst :=
  if isOverflowInfinity fl t u || isOverflowInfinity fl t v then negativeOverflowInfinity t
  else ⟨code.eval u.val v.val, u.overflow || v.overflow⟩

variable (hcode : code = .MIN_EXPR ∨ code = .MAX_EXPR)

include hcode

/-- Source: `tree-vrp.c` `vrp_int_const_binop` (`MIN_EXPR`, `MAX_EXPR`). Kind: L -/
theorem vrpIntConstBinop_minmax {u v : Cst} (hu : t.Has u.val) (hv : t.Has v.val) :
    vrpIntConstBinop fl t t code u v = some (some (minmaxEnd fl t code u v)) := by
  have hres : intConstBinop t code u v = some ⟨code.eval u.val v.val, u.overflow || v.overflow⟩ := by
    rw [← IntType.wrap_of_has (has_minmax hcode hu hv)]
    rcases hcode with rfl | rfl <;> rfl
  have hmark : (((u.overflow || v.overflow) && !u.overflow) && !v.overflow) = false := by
    cases u.overflow <;> cases v.overflow <;> rfl
  have hup : overflowsUp fl t code u v = false := by rcases hcode with rfl | rfl <;> rfl
  have hpunt : infinitiesPunt fl t t code u v = false := by rcases hcode with rfl | rfl <;> rfl
  have hwrapping : ∀ res, wrappingOverflow fl t code u v res = false := by
    intro res
    rcases hcode with rfl | rfl <;> simp [wrappingOverflow]
  unfold vrpIntConstBinop minmaxEnd
  rw [hres]
  dsimp only
  rw [hmark, hup, hpunt, hwrapping, Bool.false_or]
  cases hwraps : t.overflowWraps fl with
  | true =>
    have hneeds : needsOverflowInfinity fl t = false := by simp [needsOverflowInfinity, hwraps]
    simp [isOverflowInfinity, hneeds]
  | false =>
    simp only [Bool.false_eq_true, if_false]
    by_cases hinf : (isOverflowInfinity fl t u || isOverflowInfinity fl t v) = true
    · have hneeds : needsOverflowInfinity fl t = true := by
        by_contra hno
        simp [isOverflowInfinity, hno] at hinf
      rw [if_pos hinf, if_pos hinf, if_pos hneeds]
    · rw [if_neg hinf, if_neg hinf]

/-- The anti-range of the smaller or larger value is computed from ends of one side.
Source: `tree-vrp.c` `extract_range_from_binary_expr` (`MIN_EXPR`, `MAX_EXPR`)
Kind: L -/
theorem extract_minmax_antiRange (hab : Stored fl t .antiRange a b) (hcd : Stored fl t .antiRange c d) :
    extractRangeFromBinaryExpr fl t t code (.known .antiRange a b) (.known .antiRange c d) =
      some (finishRange fl t .antiRange (some (minmaxEnd fl t code a c)) (some (minmaxEnd fl t code b d))) := by
  have hm := @vrpIntConstBinop_minmax fl _ _ hcode _ _ hab.min_has hcd.min_has
  have hM := @vrpIntConstBinop_minmax fl _ _ hcode _ _ hab.max_has hcd.max_has
  rcases hcode with rfl | rfl <;>
    · simp only [extractRangeFromBinaryExpr, hm, hM]
      rfl

theorem minmaxEnd_has {u v : Cst} (hu : t.Has u.val) (hv : t.Has v.val) : t.Has (minmaxEnd fl t code u v).val := by
  unfold minmaxEnd
  split_ifs
  · exact ⟨le_rfl, t.minValue_lt_maxValue.le⟩
  · exact has_minmax hcode hu hv

omit hcode in
/-- What becomes of two ends. Source: `tree-vrp.c` `vrp_int_const_binop` (`MIN_EXPR`, `MAX_EXPR`). Kind: L -/
theorem minmaxEnd_cases (fl : Flags) (t : IntType) (code : TreeCode) (u v : Cst) :
    ((isOverflowInfinity fl t u = true ∨ isOverflowInfinity fl t v = true) ∧
        isNegativeOverflowInfinity fl t (minmaxEnd fl t code u v) = true ∧ (minmaxEnd fl t code u v).val = t.minValue) ∨
      (¬ (isOverflowInfinity fl t u = true ∨ isOverflowInfinity fl t v = true) ∧
        minmaxEnd fl t code u v = ⟨code.eval u.val v.val, u.overflow || v.overflow⟩) := by
  unfold minmaxEnd
  by_cases hinf : isOverflowInfinity fl t u = true ∨ isOverflowInfinity fl t v = true
  · left
    have hneeds : needsOverflowInfinity fl t = true := by
      by_contra hno
      simp [isOverflowInfinity, hno] at hinf
    rw [if_pos (by simpa using hinf)]
    exact ⟨hinf, isNegativeOverflowInfinity_iff.mpr ⟨hneeds, rfl, rfl⟩, rfl⟩
  · right
    rw [if_neg (by simpa using hinf)]
    exact ⟨hinf, rfl⟩

omit hcode in
/-- Source: `tree-vrp.c` `vrp_int_const_binop` (`MIN_EXPR`, `MAX_EXPR`). Kind: L -/
theorem minmaxEnd_of_unmarked {u v : Cst} (hu : Plain t u) (hv : Plain t v) :
    minmaxEnd fl t code u v = ⟨code.eval u.val v.val, false⟩ := by
  rw [minmaxEnd, hu.not_infinity, hv.not_infinity, hu.2, hv.2]
  rfl

omit hcode in
/-- A marked constant is bad, or an infinity. Source: `tree-vrp.c` `is_overflow_infinity`. Kind: L -/
theorem bad_or_infinity {v : Cst} (hmark : v.overflow = true) :
    Bad fl t v ∨ needsOverflowInfinity fl t = true ∧ (v.val = t.minValue ∨ v.val = t.maxValue) := by
  rw [or_iff_not_imp_left]
  intro hgood
  have hinf : isOverflowInfinity fl t v = true := by
    by_contra hno
    exact hgood ⟨hmark, Bool.eq_false_iff.mpr hno⟩
  rw [isOverflowInfinity_eq, Bool.or_eq_true, isNegativeOverflowInfinity_iff, isPositiveOverflowInfinity_iff] at hinf
  exact ⟨hinf.elim And.left And.left, hinf.imp (fun h => h.2.2) fun h => h.2.2⟩

omit hcode in
/-- **A mark on an end** makes the smaller end bad, or the infinity below. Source: `tree-vrp.c` `vrp_int_const_binop`. Kind: L -/
theorem minEnd_of_marked {u v : Cst} (hu : t.Has u.val) (hv : t.Has v.val) (hmark : u.overflow = true ∨ v.overflow = true) :
    Bad fl t (minmaxEnd fl t .MIN_EXPR u v) ∨ isNegativeOverflowInfinity fl t (minmaxEnd fl t .MIN_EXPR u v) = true := by
  rcases minmaxEnd_cases fl t .MIN_EXPR u v with ⟨-, hneg, -⟩ | ⟨hinf, heq⟩
  · exact .inr hneg
  · rw [heq]
    have hmark' : (u.overflow || v.overflow) = true := by simpa using hmark
    refine (bad_or_infinity hmark').imp_right fun ⟨hneeds, hval⟩ => ?_
    refine isNegativeOverflowInfinity_iff.mpr ⟨hneeds, hmark', hval.resolve_right fun hmax => hinf ?_⟩
    change min u.val v.val = t.maxValue at hmax
    simp only [isOverflowInfinity_eq, Bool.or_eq_true, isPositiveOverflowInfinity_iff]
    exact hmark.imp (fun h => .inr ⟨hneeds, h, by have := hu.2; omega⟩) fun h => .inr ⟨hneeds, h, by have := hv.2; omega⟩

omit hcode in
/-- **A mark on an end** that is no infinity makes the larger end bad, or the infinity above.
Source: `tree-vrp.c` `vrp_int_const_binop`
Kind: L -/
theorem maxEnd_of_marked {u v : Cst} (hu : t.Has u.val) (hv : t.Has v.val) (hmark : u.overflow = true ∨ v.overflow = true)
    (hinf : ¬ (isOverflowInfinity fl t u = true ∨ isOverflowInfinity fl t v = true)) :
    Bad fl t (minmaxEnd fl t .MAX_EXPR u v) ∨ isPositiveOverflowInfinity fl t (minmaxEnd fl t .MAX_EXPR u v) = true := by
  rw [((minmaxEnd_cases fl t .MAX_EXPR u v).resolve_left fun h => hinf h.1).2]
  have hmark' : (u.overflow || v.overflow) = true := by simpa using hmark
  refine (bad_or_infinity hmark').imp_right fun ⟨hneeds, hval⟩ => ?_
  refine isPositiveOverflowInfinity_iff.mpr ⟨hneeds, hmark', hval.resolve_left fun hmin => hinf ?_⟩
  change max u.val v.val = t.minValue at hmin
  simp only [isOverflowInfinity_eq, Bool.or_eq_true, isNegativeOverflowInfinity_iff]
  exact hmark.imp (fun h => .inl ⟨hneeds, h, by have := hu.1; omega⟩) fun h => .inl ⟨hneeds, h, by have := hv.1; omega⟩

end MinMax

/-- Ends that are infinities or unmarked are in order. Source: `tree-vrp.c` `set_value_range`. Kind: L -/
theorem Stored.le_of_not_bad {kind : RangeKind} (h : Stored fl t kind a b) (ha : ¬ Bad fl t a) (hb : ¬ Bad fl t b) :
    a.val ≤ b.val := by
  refine @Cst.val_le_val fl t _ _ h.min_has h.max_has (h.key_le ?_)
  rintro ⟨-, hmark | hmark, hnot, hnot'⟩
  · exact ha ⟨hmark, hnot⟩
  · exact hb ⟨hmark, hnot'⟩

/-- A lower end that is an infinity is the least value. Source: `tree-vrp.c` `set_value_range`. Kind: L -/
theorem Stored.min_of_infinity {kind : RangeKind} (h : Stored fl t kind a b) (hinf : isOverflowInfinity fl t a = true) :
    a.val = t.minValue := by
  rw [isOverflowInfinity_eq, h.min_not_positive, Bool.or_false] at hinf
  exact (isNegativeOverflowInfinity_iff.mp hinf).2.2

/-- An upper end that is an infinity is the greatest value. Source: `tree-vrp.c` `set_value_range`. Kind: L -/
theorem Stored.max_of_infinity {kind : RangeKind} (h : Stored fl t kind a b) (hinf : isOverflowInfinity fl t b = true) :
    b.val = t.maxValue := by
  rw [isOverflowInfinity_eq, h.max_not_negative, Bool.false_or] at hinf
  exact (isPositiveOverflowInfinity_iff.mp hinf).2.2

/-- Source: `tree-vrp.c` `is_overflow_infinity`. Kind: L -/
theorem good_of_negative {v : Cst} (hv : t.Has v.val) (hneg : isNegativeOverflowInfinity fl t v = true) :
    Good fl t v ∧ isPositiveOverflowInfinity fl t v = false := by
  rcases v.cases fl t with ⟨_, _, _, _, hp, hinf⟩ | ⟨_, _, _, hn, _⟩ | ⟨_, hn, _⟩
  · refine ⟨⟨hv, ?_⟩, hp⟩
    rintro ⟨-, hno⟩
    simp [hinf] at hno
  · simp [hn] at hneg
  · simp [hn] at hneg

/-- Source: `tree-vrp.c` `is_overflow_infinity`. Kind: L -/
theorem good_of_positive {v : Cst} (hv : t.Has v.val) (hpos : isPositiveOverflowInfinity fl t v = true) :
    Good fl t v ∧ isNegativeOverflowInfinity fl t v = false := by
  rcases v.cases fl t with ⟨_, _, _, _, hp, _⟩ | ⟨_, _, _, hn, _, hinf⟩ | ⟨_, _, hp, _⟩
  · simp [hp] at hpos
  · refine ⟨⟨hv, ?_⟩, hn⟩
    rintro ⟨-, hno⟩
    simp [hinf] at hno
  · simp [hp] at hpos

/-- An operation on values of the type that always has a meaning is judged by what it leaves out.
Source: `tree-vrp.c` `extract_range_from_binary_expr` -/
theorem admits_minmax_iff (hcode : code = .MIN_EXPR ∨ code = .MAX_EXPR) {m M : Cst} :
    (∀ x y, t.Has x → t.Has y → ¬ (a.val ≤ x ∧ x ≤ b.val) → ¬ (c.val ≤ y ∧ y ≤ d.val) →
        Defined fl t code x y → (ValueRange.known .antiRange m M).Admits (t.wrap (code.eval x y))) ↔
      ∀ x y, t.Has x → t.Has y → ¬ (a.val ≤ x ∧ x ≤ b.val) → ¬ (c.val ≤ y ∧ y ≤ d.val) →
        ¬ (m.val ≤ code.eval x y ∧ code.eval x y ≤ M.val) := by
  refine forall₄_congr fun x y hx hy => ?_
  have hdefined : Defined fl t code x y := by
    rcases hcode with rfl | rfl <;>
      exact ⟨by simp [TreeCode.divCode], by simp [TreeCode.CanOverflow, TreeCode.divCode], by simp, by simp⟩
  rw [IntType.wrap_of_has (has_minmax hcode hx hy), forall_prop_of_true hdefined]
  exact Iff.rfl

/-- What is stored for smaller values if no mark makes the code give up.
Source: `tree-vrp.c` `extract_range_from_binary_expr` (`MIN_EXPR`)
Kind: L -/
theorem extract_min_stored (hab : Stored fl t .antiRange a b) (hcd : Stored fl t .antiRange c d)
    (hupper : ¬ (b.overflow = true ∨ d.overflow = true))
    (hlower : a.overflow = true ∨ c.overflow = true → needsOverflowInfinity fl t = true ∧ min a.val c.val = t.minValue) :
    finishRange fl t .antiRange (some (minmaxEnd fl t .MIN_EXPR a c)) (some (minmaxEnd fl t .MIN_EXPR b d)) =
        .known .antiRange (minmaxEnd fl t .MIN_EXPR a c) (minmaxEnd fl t .MIN_EXPR b d) ∧
      (minmaxEnd fl t .MIN_EXPR a c).val = min a.val c.val ∧ (minmaxEnd fl t .MIN_EXPR b d).val = min b.val d.val ∧
      min a.val c.val ≤ min b.val d.val := by
  obtain ⟨ha1, ha2⟩ := hab.min_has
  obtain ⟨hb1, hb2⟩ := hab.max_has
  obtain ⟨hc1, hc2⟩ := hcd.min_has
  obtain ⟨hd1, hd2⟩ := hcd.max_has
  have hleave := hab.nonempty rfl
  have hleave' := hcd.nonempty rfl
  simp only [not_or, Bool.not_eq_true] at hupper
  have hb : Plain t b := ⟨hab.max_has, hupper.1⟩
  have hd : Plain t d := ⟨hcd.max_has, hupper.2⟩
  have hM : minmaxEnd fl t .MIN_EXPR b d = ⟨min b.val d.val, false⟩ := minmaxEnd_of_unmarked hb hd
  have hMplain : Plain t ⟨min b.val d.val, false⟩ := ⟨has_minmax (.inl rfl) hb.1 hd.1, rfl⟩
  have hmhas := @minmaxEnd_has fl t _ (.inl rfl) a c hab.min_has hcd.min_has
  have hm : (minmaxEnd fl t .MIN_EXPR a c).val = min a.val c.val ∧ (Good fl t (minmaxEnd fl t .MIN_EXPR a c) ∧
      isPositiveOverflowInfinity fl t (minmaxEnd fl t .MIN_EXPR a c) = false) ∧ min a.val c.val ≤ min b.val d.val := by
    by_cases hmark : a.overflow = true ∨ c.overflow = true
    · -- then the end is the infinity below
      obtain ⟨hneeds, hmin⟩ := hlower hmark
      have hneg : isNegativeOverflowInfinity fl t (minmaxEnd fl t .MIN_EXPR a c) = true := by
        rcases minmaxEnd_cases fl t .MIN_EXPR a c with ⟨-, hneg, -⟩ | ⟨-, heq⟩
        · exact hneg
        · rw [heq]
          exact isNegativeOverflowInfinity_iff.mpr ⟨hneeds, by simpa using hmark, hmin⟩
      have hval := (isNegativeOverflowInfinity_iff.mp hneg).2.2
      exact ⟨hval.trans hmin.symm, good_of_negative hmhas hneg, hmin.trans_le (le_min hb1 hd1)⟩
    · simp only [not_or, Bool.not_eq_true] at hmark
      have ha : Plain t a := ⟨hab.min_has, hmark.1⟩
      have hc : Plain t c := ⟨hcd.min_has, hmark.2⟩
      have heq : minmaxEnd fl t .MIN_EXPR a c = ⟨min a.val c.val, false⟩ := minmaxEnd_of_unmarked ha hc
      rw [heq] at hmhas ⊢
      have hplain : Plain t ⟨min a.val c.val, false⟩ := ⟨hmhas, rfl⟩
      exact ⟨rfl, ⟨hplain.good, hplain.not_positive_infinity⟩, min_le_min
        (hab.le_of_not_bad ha.good.not_bad hb.good.not_bad) (hcd.le_of_not_bad hc.good.not_bad hd.good.not_bad)⟩
  obtain ⟨hval, ⟨hgood, hpos⟩, horder⟩ := hm
  refine ⟨?_, hval, by rw [hM], horder⟩
  rw [finishRange_of_ends _ hgood (hM ▸ hMplain.good) hpos (hM ▸ hMplain.not_negative_infinity), if_neg]
  rw [hval, hM]
  dsimp only
  omega

/-- **Smaller values**: if the lower ends differ, a value at the smaller of them survives next to any larger one.
Source: `tree-vrp.c` `extract_range_from_binary_expr` (`MIN_EXPR`)
Kind: L -/
theorem antiSound_min_iff (hab : Stored fl t .antiRange a b) (hcd : Stored fl t .antiRange c d) :
    AntiSound fl t t .MIN_EXPR a b c d ↔ MinCondition fl t a b c d := by
  have hcall := @extract_minmax_antiRange fl t .MIN_EXPR a b c d (.inl rfl) hab hcd
  have hmhas : t.Has (minmaxEnd fl t .MIN_EXPR a c).val := minmaxEnd_has (.inl rfl) hab.min_has hcd.min_has
  have hMhas : t.Has (minmaxEnd fl t .MIN_EXPR b d).val := minmaxEnd_has (.inl rfl) hab.max_has hcd.max_has
  unfold MinCondition
  by_cases hupper : b.overflow = true ∨ d.overflow = true
  · refine iff_of_true (antiSound_of_varying (hcall.trans (congrArg some ?_))) (.inl hupper)
    rcases minEnd_of_marked hab.max_has hcd.max_has hupper with hbad | hneg
    · exact finishRange_of_bad _ (.inr hbad)
    · exact finishRange_of_crossed _ hmhas hMhas (.inr hneg)
  by_cases hlower : (a.overflow = true ∨ c.overflow = true) ∧
      ¬ (needsOverflowInfinity fl t = true ∧ min a.val c.val = t.minValue)
  · refine iff_of_true (antiSound_of_varying (hcall.trans (congrArg some ?_))) (.inr (.inl hlower))
    rcases minEnd_of_marked hab.min_has hcd.min_has hlower.1 with hbad | hneg
    · exact finishRange_of_bad _ (.inl hbad)
    · obtain ⟨hneeds, -, hval⟩ := isNegativeOverflowInfinity_iff.mp hneg
      refine absurd ⟨hneeds, ?_⟩ hlower.2
      rcases minmaxEnd_cases fl t .MIN_EXPR a c with ⟨hinf, -⟩ | ⟨-, heq⟩
      · have hamin := hab.min_has.1
        have hcmin := hcd.min_has.1
        have hbottom := hinf.imp hab.min_of_infinity hcd.min_of_infinity
        omega
      · rw [heq] at hval
        exact hval
  have hlower' : a.overflow = true ∨ c.overflow = true →
      needsOverflowInfinity fl t = true ∧ min a.val c.val = t.minValue := by
    intro hmark
    by_contra hno
    exact hlower ⟨hmark, hno⟩
  obtain ⟨hstored, hm, hM, horder⟩ := extract_min_stored hab hcd hupper hlower'
  rw [antiSound_iff hcall, hstored, admits_minmax_iff (.inl rfl), or_iff_right hupper, or_iff_right hlower, hm, hM]
  obtain ⟨ha1, ha2⟩ := hab.min_has
  obtain ⟨hb1, hb2⟩ := hab.max_has
  obtain ⟨hc1, hc2⟩ := hcd.min_has
  obtain ⟨hd1, hd2⟩ := hcd.max_has
  constructor
  · intro h
    by_contra hcond
    -- the value that is missed is the smaller lower end
    have hmiss : ∀ x y, t.Has x → t.Has y → ¬ (a.val ≤ x ∧ x ≤ b.val) → ¬ (c.val ≤ y ∧ y ≤ d.val) →
        ¬ (min a.val c.val ≤ min x y ∧ min x y ≤ min b.val d.val) := h
    unfold IntType.Has at hmiss
    rcases lt_trichotomy a.val c.val with hlt | heq | hgt
    · have := hmiss t.maxValue a.val
      omega
    · omega
    · have := hmiss c.val t.maxValue
      omega
  · intro hcond x y hx hy hxout hyout
    change ¬ (min a.val c.val ≤ min x y ∧ min x y ≤ min b.val d.val)
    unfold IntType.Has at hx hy
    omega

/-- Ends at the ends of the type are given up. Source: `tree-vrp.c` `extract_range_from_binary_expr` ("We punt if"). Kind: L -/
theorem finishRange_of_extremes (kind : RangeKind) {m M : Cst} (hm : m.val = t.minValue) (hM : M.val = t.maxValue) :
    finishRange fl t kind (some m) (some M) = .varying := by
  unfold finishRange
  dsimp only
  rw [hm, hM, decide_eq_true rfl, decide_eq_true rfl, Bool.true_or, Bool.true_or, Bool.true_and, if_pos rfl, ite_self]

/-- For larger values an end that is no infinity gives the larger value. Source: `tree-vrp.c` `vrp_int_const_binop`. -/
theorem maxEnd_eq {u v : Cst} (hinf : ¬ (isOverflowInfinity fl t u = true ∨ isOverflowInfinity fl t v = true)) :
    minmaxEnd fl t .MAX_EXPR u v = ⟨max u.val v.val, u.overflow || v.overflow⟩ :=
  ((minmaxEnd_cases fl t .MAX_EXPR u v).resolve_left fun h => hinf h.1).2

/-- **Larger values are given up** because of a mark. Source: `tree-vrp.c` `extract_range_from_binary_expr` (`MAX_EXPR`). Kind: L -/
theorem extract_max_varying (hab : Stored fl t .antiRange a b) (hcd : Stored fl t .antiRange c d)
    (hgiven : MaxGivenUp fl t a b c d) :
    finishRange fl t .antiRange (some (minmaxEnd fl t .MAX_EXPR a c)) (some (minmaxEnd fl t .MAX_EXPR b d)) = .varying := by
  have hmhas : t.Has (minmaxEnd fl t .MAX_EXPR a c).val := minmaxEnd_has (.inr rfl) hab.min_has hcd.min_has
  have hMhas : t.Has (minmaxEnd fl t .MAX_EXPR b d).val := minmaxEnd_has (.inr rfl) hab.max_has hcd.max_has
  by_cases hupper : isOverflowInfinity fl t b = true ∨ isOverflowInfinity fl t d = true
  · have hneg := ((minmaxEnd_cases fl t .MAX_EXPR b d).resolve_right fun h => h.1 hupper).2.1
    exact finishRange_of_crossed _ hmhas hMhas (.inr hneg)
  rcases hgiven with hinf | ⟨hmark, hno⟩ | ⟨hmark, hno⟩ | ⟨hinf, htop⟩
  · exact absurd hinf hupper
  · rcases maxEnd_of_marked hab.max_has hcd.max_has hmark hupper with hbad | hpos
    · exact finishRange_of_bad _ (.inr hbad)
    · obtain ⟨hneeds, -, hval⟩ := isPositiveOverflowInfinity_iff.mp hpos
      rw [maxEnd_eq hupper] at hval
      exact absurd ⟨hneeds, hval⟩ hno
  · rcases maxEnd_of_marked hab.min_has hcd.min_has hmark hno with hbad | hpos
    · exact finishRange_of_bad _ (.inl hbad)
    · exact finishRange_of_crossed _ hmhas hMhas (.inl hpos)
  · have hmin := ((minmaxEnd_cases fl t .MAX_EXPR a c).resolve_right fun h => h.1 hinf).2.2
    exact finishRange_of_extremes _ hmin (by rw [maxEnd_eq hupper]; exact htop)

/-- What is stored for larger values if no mark makes the code give up: an infinity below stands for itself.
Source: `tree-vrp.c` `extract_range_from_binary_expr` (`MAX_EXPR`)
Kind: L -/
theorem extract_max_stored (hab : Stored fl t .antiRange a b) (hcd : Stored fl t .antiRange c d)
    (hkept : ¬ MaxGivenUp fl t a b c d) :
    finishRange fl t .antiRange (some (minmaxEnd fl t .MAX_EXPR a c)) (some (minmaxEnd fl t .MAX_EXPR b d)) =
        .known .antiRange (minmaxEnd fl t .MAX_EXPR a c) (minmaxEnd fl t .MAX_EXPR b d) ∧
      ((minmaxEnd fl t .MAX_EXPR a c).val = max a.val c.val ∨
        ((minmaxEnd fl t .MAX_EXPR a c).val = t.minValue ∧ (a.val = t.minValue ∨ c.val = t.minValue))) ∧
      (minmaxEnd fl t .MAX_EXPR b d).val = max b.val d.val ∧
      (minmaxEnd fl t .MAX_EXPR a c).val ≤ max b.val d.val := by
  obtain ⟨hb1, hb2⟩ := hab.max_has
  obtain ⟨hd1, hd2⟩ := hcd.max_has
  have hleave := hab.nonempty rfl
  have hleave' := hcd.nonempty rfl
  unfold MaxGivenUp at hkept
  obtain ⟨hupper, hkept⟩ := not_or.mp hkept
  obtain ⟨hmarkhigh, hkept⟩ := not_or.mp hkept
  obtain ⟨hmarklow, hbelow⟩ := not_or.mp hkept
  rw [not_and, not_not] at hmarkhigh hmarklow
  rw [not_and] at hbelow
  have hM := maxEnd_eq hupper
  have hMhas : t.Has (minmaxEnd fl t .MAX_EXPR b d).val := minmaxEnd_has (.inr rfl) hab.max_has hcd.max_has
  have hMval : (minmaxEnd fl t .MAX_EXPR b d).val = max b.val d.val := congrArg Cst.val hM
  have hMend : Good fl t (minmaxEnd fl t .MAX_EXPR b d) ∧
      isNegativeOverflowInfinity fl t (minmaxEnd fl t .MAX_EXPR b d) = false := by
    by_cases hmark : b.overflow = true ∨ d.overflow = true
    · -- then the end is the infinity above
      obtain ⟨hneeds, htop⟩ := hmarkhigh hmark
      have hpos : isPositiveOverflowInfinity fl t (minmaxEnd fl t .MAX_EXPR b d) = true := by
        rw [hM]
        exact isPositiveOverflowInfinity_iff.mpr ⟨hneeds, by simpa using hmark, htop⟩
      exact good_of_positive hMhas hpos
    · have hplain : Plain t (minmaxEnd fl t .MAX_EXPR b d) := ⟨hMhas, by rw [hM]; simpa using hmark⟩
      exact ⟨hplain.good, hplain.not_negative_infinity⟩
  have hmhas : t.Has (minmaxEnd fl t .MAX_EXPR a c).val := minmaxEnd_has (.inr rfl) hab.min_has hcd.min_has
  rcases minmaxEnd_cases fl t .MAX_EXPR a c with ⟨hinf, hneg, hval⟩ | ⟨hinf, heq⟩
  · have hbottom := hinf.imp hab.min_of_infinity hcd.min_of_infinity
    have htop : max b.val d.val ≠ t.maxValue := hbelow hinf
    have hend := good_of_negative hmhas hneg
    refine ⟨?_, .inr ⟨hval, hbottom⟩, hMval, hval.trans_le (hb1.trans (le_max_left _ _))⟩
    rw [finishRange_of_ends _ hend.1 hMend.1 hend.2 hMend.2, if_neg]
    rw [hval, hMval]
    rintro (⟨-, htop'⟩ | hlt)
    · exact htop htop'
    · exact absurd (hb1.trans (le_max_left _ _)) (not_le.mpr hlt)
  · have hlow : ¬ (a.overflow = true ∨ c.overflow = true) := fun hmark => hinf (hmarklow hmark)
    have hplain : Plain t (minmaxEnd fl t .MAX_EXPR a c) := ⟨hmhas, by rw [heq]; simpa using hlow⟩
    have hval : (minmaxEnd fl t .MAX_EXPR a c).val = max a.val c.val := congrArg Cst.val heq
    obtain ⟨ha1, ha2⟩ := hab.min_has
    obtain ⟨hc1, hc2⟩ := hcd.min_has
    have horder : max a.val c.val ≤ max b.val d.val := by
      by_cases hmark : b.overflow = true ∨ d.overflow = true
      · rw [(hmarkhigh hmark).2]
        exact max_le ha2 hc2
      · rw [not_or] at hmark hlow
        exact max_le_max (hab.le_of_not_bad (fun h => hlow.1 h.1) fun h => hmark.1 h.1)
          (hcd.le_of_not_bad (fun h => hlow.2 h.1) fun h => hmark.2 h.1)
    refine ⟨?_, .inl hval, hMval, hval.trans_le horder⟩
    rw [finishRange_of_ends _ hplain.good hMend.1 hplain.not_positive_infinity hMend.2, if_neg]
    rw [hval, hMval]
    omega

/-- **Larger values**. Source: `tree-vrp.c` `extract_range_from_binary_expr` (`MAX_EXPR`). Kind: L -/
theorem antiSound_max_iff (hab : Stored fl t .antiRange a b) (hcd : Stored fl t .antiRange c d) :
    AntiSound fl t t .MAX_EXPR a b c d ↔ MaxCondition fl t a b c d := by
  have hcall := @extract_minmax_antiRange fl t .MAX_EXPR a b c d (.inr rfl) hab hcd
  unfold MaxCondition
  by_cases hgiven : MaxGivenUp fl t a b c d
  · exact iff_of_true (antiSound_of_varying (hcall.trans (congrArg some (extract_max_varying hab hcd hgiven)))) (.inl hgiven)
  obtain ⟨hstored, hm, hM, horder⟩ := extract_max_stored hab hcd hgiven
  rw [antiSound_iff hcall, hstored, admits_minmax_iff (.inr rfl), or_iff_right hgiven, hM]
  generalize (minmaxEnd fl t .MAX_EXPR a c).val = low at hm horder ⊢
  have hleave := hab.nonempty rfl
  have hleave' := hcd.nonempty rfl
  obtain ⟨ha1, ha2⟩ := hab.min_has
  obtain ⟨hb1, hb2⟩ := hab.max_has
  obtain ⟨hc1, hc2⟩ := hcd.min_has
  obtain ⟨hd1, hd2⟩ := hcd.max_has
  constructor
  · intro h
    by_contra hcond
    -- the value that is missed is the larger upper end
    have hmiss : ∀ x y, t.Has x → t.Has y → ¬ (a.val ≤ x ∧ x ≤ b.val) → ¬ (c.val ≤ y ∧ y ≤ d.val) →
        ¬ (low ≤ max x y ∧ max x y ≤ max b.val d.val) := h
    unfold IntType.Has at hmiss
    rcases lt_trichotomy b.val d.val with hlt | heq | hgt
    · have := hmiss d.val t.minValue
      omega
    · omega
    · have := hmiss t.minValue b.val
      omega
  · intro hcond x y hx hy hxout hyout
    change ¬ (low ≤ max x y ∧ max x y ≤ max b.val d.val)
    unfold IntType.Has at hx hy
    omega

/-! ## Truth values -/

/-- No truth value of the type is outside the interval. -/
def NoTruth (t : IntType) (a b : ℤ) : Prop := (a ≤ 0 ∧ 0 ≤ b) ∧ ((a ≤ 1 ∧ 1 ≤ b) ∨ t.maxValue < 1)

/-- One of the ends that are taken has a mark that is no infinity. Source: `tree-vrp.c` `extract_range_from_binary_expr`. -/
def TruthGivenUp (fl : Flags) (t : IntType) (code : TreeCode) (a b c d : Cst) : Prop :=
  Bad fl t (foldTruth code a c) ∨ Bad fl t (foldTruth code b d)

/-- Neither interval has zero, or the first ends in zero and excludes what the second does; marked ends may be in the wrong order. -/
def TruthAndCondition (fl : Flags) (t : IntType) (a b c d : Cst) : Prop :=
  TruthGivenUp fl t .TRUTH_AND_EXPR a b c d ∨ NoTruth t a.val b.val ∨ NoTruth t c.val d.val ∨
    (¬ (a.val ≤ 0 ∧ 0 ≤ b.val) ∧ ¬ (c.val ≤ 0 ∧ 0 ≤ d.val) ∧ ¬ (a.val = 0 ∧ 0 ≤ d.val) ∧ ¬ (b.val = 0 ∧ c.val ≤ 0)) ∨
    (a.val ≤ 0 ∧ b.val = 0 ∧ ((c.val ≤ 0 ∧ 0 ≤ d.val) ∨ (a.val < 0 ∧ 0 < c.val)))

/-- The second interval does not begin in one unless the first does, and if it ends in zero the first does not
begin above; marked ends may be in the wrong order. -/
def TruthOrCondition (fl : Flags) (t : IntType) (a b c d : Cst) : Prop :=
  TruthGivenUp fl t .TRUTH_OR_EXPR a b c d ∨ NoTruth t a.val b.val ∨ NoTruth t c.val d.val ∨
    (¬ (c.val = 1 ∧ 1 ≤ d.val ∧ ¬ (a.val = 1 ∧ 1 ≤ b.val)) ∧ ¬ (c.val = 1 ∧ d.val = 0 ∧ 1 ≤ b.val) ∧
      ¬ (d.val = 0 ∧ c.val ≤ 0 ∧ 1 ≤ b.val ∧ (a.val = 1 ∨ (2 ≤ a.val ∧ c.val < 0)) ∧
        ¬ (c.val = t.minValue ∧ c.val < 0 ∧ b.val = t.maxValue)))

/-- The results of truth operations that have a meaning are truth values of the type. -/
theorem has_truth (hcode : code = .TRUTH_AND_EXPR ∨ code = .TRUTH_OR_EXPR) {x y : ℤ} (hx : t.Has x)
    (hy : t.Has y) (hdef : Defined fl t code x y) : t.Has (code.eval x y) := by
  obtain ⟨hxt, hyt⟩ := hdef.truth hcode
  have hzero := t.has_zero
  rcases hcode with rfl | rfl <;> rcases hxt with rfl | rfl <;> rcases hyt with rfl | rfl <;>
    simp only [TreeCode.eval] <;> simp <;> assumption

/-- The fold is one of the two ends, by their values. Source: `fold-const.c` `fold_binary` (`TRUTH_AND_EXPR`, `TRUTH_OR_EXPR`). -/
theorem foldTruth_cases (hcode : code = .TRUTH_AND_EXPR ∨ code = .TRUTH_OR_EXPR) (u v : Cst) :
    (foldTruth code u v = u ∧ ¬ (u.val = 0 ↔ v.val = 0) ∧ (u.val = 0 ↔ code = .TRUTH_AND_EXPR)) ∨
      (foldTruth code u v = v ∧ ((u.val = 0 ↔ v.val = 0) ∨ ¬ (u.val = 0 ↔ code = .TRUTH_AND_EXPR))) := by
  rcases hcode with rfl | rfl <;> by_cases hu : u.val = 0 <;> by_cases hv : v.val = 0 <;> simp [foldTruth, hu, hv]

/-- Soundness of truth operations, as one of at most four results.
Source: `tree-vrp.c` `extract_range_from_binary_expr` ("Boolean expressions cannot be folded")
Kind: L -/
theorem antiSound_truth_iff (hcode : code = .TRUTH_AND_EXPR ∨ code = .TRUTH_OR_EXPR)
    (hab : Stored fl t .antiRange a b) (hcd : Stored fl t .antiRange c d) :
    AntiSound fl t t code a b c d ↔ TruthGivenUp fl t code a b c d ∨
      ((foldTruth code a c).val = t.minValue ∧ (foldTruth code b d).val = t.maxValue) ∨
        (foldTruth code b d).val < (foldTruth code a c).val ∨
        ∀ x y, (x = 0 ∨ x = 1) → (y = 0 ∨ y = 1) → t.Has x → t.Has y → ¬ (a.val ≤ x ∧ x ≤ b.val) →
          ¬ (c.val ≤ y ∧ y ≤ d.val) →
          ¬ ((foldTruth code a c).val ≤ code.eval x y ∧ code.eval x y ≤ (foldTruth code b d).val) := by
  have hcall : extractRangeFromBinaryExpr fl t t code (.known .antiRange a b) (.known .antiRange c d) =
      some (finishRange fl t .antiRange (some (foldTruth code a c)) (some (foldTruth code b d))) := by
    rcases hcode with rfl | rfl <;> rfl
  by_cases hgiven : TruthGivenUp fl t code a b c d
  · exact iff_of_true (antiSound_of_varying (hcall.trans (congrArg some (finishRange_of_bad _ hgiven)))) (.inl hgiven)
  obtain ⟨hbad, hbad'⟩ := not_or.mp hgiven
  have hlow : t.Has (foldTruth code a c).val ∧ isPositiveOverflowInfinity fl t (foldTruth code a c) = false := by
    rcases foldTruth_cases hcode a c with ⟨heq, -⟩ | ⟨heq, -⟩ <;> rw [heq]
    · exact ⟨hab.min_has, hab.min_not_positive⟩
    · exact ⟨hcd.min_has, hcd.min_not_positive⟩
  have hhigh : t.Has (foldTruth code b d).val ∧ isNegativeOverflowInfinity fl t (foldTruth code b d) = false := by
    rcases foldTruth_cases hcode b d with ⟨heq, -⟩ | ⟨heq, -⟩ <;> rw [heq]
    · exact ⟨hab.max_has, hab.max_not_negative⟩
    · exact ⟨hcd.max_has, hcd.max_not_negative⟩
  rw [antiSound_iff hcall, finishRange_of_ends _ ⟨hlow.1, hbad⟩ ⟨hhigh.1, hbad'⟩ hlow.2 hhigh.2, or_iff_right hgiven,
    ← or_assoc]
  split
  case isTrue hvarying => exact ⟨fun _ => Or.inl hvarying, fun _ _ _ _ _ _ _ _ => trivial⟩
  case isFalse hkept =>
    rw [or_iff_right hkept]
    have hdefined : ∀ {x y : ℤ}, (x = 0 ∨ x = 1) → (y = 0 ∨ y = 1) → Defined fl t code x y := by
      intro x y hx hy
      rcases hcode with rfl | rfl <;>
        exact ⟨by simp [TreeCode.divCode], by simp [TreeCode.CanOverflow, TreeCode.divCode], by simp, fun _ => ⟨hx, hy⟩⟩
    constructor
    · intro h x y hx hy hxhas hyhas hxout hyout
      have hadm := h x y hxhas hyhas hxout hyout (hdefined hx hy)
      rw [IntType.wrap_of_has (has_truth hcode hxhas hyhas (hdefined hx hy))] at hadm
      exact hadm
    · intro h x y hxhas hyhas hxout hyout hdef
      obtain ⟨hx, hy⟩ := hdef.truth hcode
      rw [IntType.wrap_of_has (has_truth hcode hxhas hyhas hdef)]
      exact h x y hx hy hxhas hyhas hxout hyout

/-- Statements about two truth values are statements about four pairs. -/
theorem forall_truth_iff {p : ℤ → ℤ → Prop} :
    (∀ x y, (x = 0 ∨ x = 1) → (y = 0 ∨ y = 1) → p x y) ↔ p 0 0 ∧ p 0 1 ∧ p 1 0 ∧ p 1 1 := by
  constructor
  · intro h
    exact ⟨h 0 0 (by simp) (by simp), h 0 1 (by simp) (by simp), h 1 0 (by simp) (by simp),
      h 1 1 (by simp) (by simp)⟩
  · rintro ⟨h1, h2, h3, h4⟩ x y (rfl | rfl) (rfl | rfl) <;> assumption

/-- Ends of one operand that are both taken are in order. Source: `tree-vrp.c` `set_value_range`. Kind: L -/
theorem truth_ordered (hcode : code = .TRUTH_AND_EXPR ∨ code = .TRUTH_OR_EXPR) (hab : Stored fl t .antiRange a b)
    (hcd : Stored fl t .antiRange c d) (hgiven : ¬ TruthGivenUp fl t code a b c d) :
    (¬ (a.val = 0 ↔ c.val = 0) ∧ (a.val = 0 ↔ code = .TRUTH_AND_EXPR) →
        ¬ (b.val = 0 ↔ d.val = 0) ∧ (b.val = 0 ↔ code = .TRUTH_AND_EXPR) → a.val ≤ b.val) ∧
      ((a.val = 0 ↔ c.val = 0) ∨ ¬ (a.val = 0 ↔ code = .TRUTH_AND_EXPR) →
        (b.val = 0 ↔ d.val = 0) ∨ ¬ (b.val = 0 ↔ code = .TRUTH_AND_EXPR) → c.val ≤ d.val) := by
  obtain ⟨hbad, hbad'⟩ := not_or.mp hgiven
  refine ⟨fun hlow hhigh => ?_, fun hlow hhigh => ?_⟩
  · have ha := ((foldTruth_cases hcode a c).resolve_right (by tauto)).1
    have hb := ((foldTruth_cases hcode b d).resolve_right (by tauto)).1
    rw [ha] at hbad
    rw [hb] at hbad'
    exact hab.le_of_not_bad hbad hbad'
  · have hc := ((foldTruth_cases hcode a c).resolve_left (by tauto)).1
    have hd := ((foldTruth_cases hcode b d).resolve_left (by tauto)).1
    rw [hc] at hbad
    rw [hd] at hbad'
    exact hcd.le_of_not_bad hbad hbad'

/-- **Conjunction and disjunction**. Source: `tree-vrp.c` `extract_range_from_binary_expr` (`TRUTH_AND_EXPR`, `TRUTH_OR_EXPR`).
Kind: L -/
theorem antiSound_truths_iff (hab : Stored fl t .antiRange a b) (hcd : Stored fl t .antiRange c d) :
    (AntiSound fl t t .TRUTH_AND_EXPR a b c d ↔ TruthAndCondition fl t a b c d) ∧
      (AntiSound fl t t .TRUTH_OR_EXPR a b c d ↔ TruthOrCondition fl t a b c d) := by
  have hand := @truth_ordered fl t .TRUTH_AND_EXPR a b c d (.inl rfl) hab hcd
  have hor := @truth_ordered fl t .TRUTH_OR_EXPR a b c d (.inr rfl) hab hcd
  have hfold : ∀ u v : Cst, (foldTruth .TRUTH_AND_EXPR u v).val = (if u.val = 0 then 0 else v.val) ∧
      (foldTruth .TRUTH_OR_EXPR u v).val = if v.val = 0 then u.val else v.val := by
    intro u v
    by_cases hu : u.val = 0 <;> by_cases hv : v.val = 0 <;> simp [foldTruth, hu, hv]
  rw [antiSound_truth_iff (Or.inl rfl) hab hcd, antiSound_truth_iff (Or.inr rfl) hab hcd, forall_truth_iff, forall_truth_iff]
  unfold TruthAndCondition TruthOrCondition
  obtain ⟨⟨h1, h2⟩, ⟨h3, h4⟩, -, -, h6⟩ := hab
  obtain ⟨⟨h7, h8⟩, ⟨h9, h10⟩, -, -, h12⟩ := hcd
  replace h6 := h6 rfl
  replace h12 := h12 rfl
  obtain ⟨h13, h14⟩ := t.has_zero
  simp only [hfold]
  clear hfold
  simp only [iff_true] at hand
  simp only [reduceCtorEq, iff_false] at hor
  generalize TruthGivenUp fl t .TRUTH_AND_EXPR a b c d = given at *
  generalize TruthGivenUp fl t .TRUTH_OR_EXPR a b c d = given' at *
  unfold NoTruth IntType.Has
  simp only [TreeCode.eval]
  generalize t.minValue = lo at *
  generalize t.maxValue = hi at *
  generalize a.val = a at *
  generalize b.val = b at *
  generalize c.val = c at *
  generalize d.val = d at *
  have hone := lt_or_ge hi 1
  constructor
  · by_cases hgiven : given
    · exact iff_of_true (.inl hgiven) (.inl hgiven)
    have horder := hand hgiven
    clear hand hor
    rw [or_iff_right hgiven, or_iff_right hgiven]
    simp only [ne_eq, not_true_eq_false, and_false, false_and, if_false, one_ne_zero, not_false_eq_true, and_self, if_true, h13, h14,
      h13.trans zero_le_one, true_imp_iff, true_and]
    -- a type of one bit has one truth value only
    rcases hone with hone | hone
    · simp only [not_le.mpr hone, hone, false_imp_iff, and_true, or_true]
      split_ifs <;> omega
    · simp only [hone, not_lt.mpr hone, true_imp_iff, or_false]
      split_ifs
      · omega
      · omega
      · omega
      · simp only [imp_self, implies_true, true_and, and_true]
        omega
  · by_cases hgiven : given'
    · exact iff_of_true (.inl hgiven) (.inl hgiven)
    have horder := hor hgiven
    clear hand hor
    rw [or_iff_right hgiven, or_iff_right hgiven]
    simp only [ne_eq, not_true_eq_false, or_false, or_true, if_false, one_ne_zero, not_false_eq_true, or_self, if_true, h13, h14,
      h13.trans zero_le_one, and_self, true_imp_iff, true_and]
    rcases hone with hone | hone
    · simp only [not_le.mpr hone, hone, false_imp_iff, and_true, or_true]
      split_ifs <;> omega
    · simp only [hone, not_lt.mpr hone, true_imp_iff, or_false]
      split_ifs <;> omega

/-! ## Products -/

/-- The key of a product of ends: an infinity has the sign of the product, and the one below if the signs differ.
Source: `tree-vrp.c` `vrp_int_const_binop` (`MULT_EXPR`) -/
def mulKey (fl : Flags) (t : IntType) (u v : Cst) : ℤ :=
  if isOverflowInfinity fl t u || isOverflowInfinity fl t v then
    if u.val.sign = v.val.sign then t.maxValue + 1 else t.minValue - 1
  else t.sat (u.val * v.val)

/-- Source: `tree-vrp.c` `extract_range_from_binary_expr` ("Compute the 4 cross operations"). -/
def lowKey (fl : Flags) (t : IntType) (a b c d : Cst) : ℤ :=
  min (min (mulKey fl t a c) (mulKey fl t a d)) (min (mulKey fl t b c) (mulKey fl t b d))

/-- Source: `tree-vrp.c` `extract_range_from_binary_expr` ("Compute the 4 cross operations"). -/
def highKey (fl : Flags) (t : IntType) (a b c d : Cst) : ℤ :=
  max (max (mulKey fl t a c) (mulKey fl t a d)) (max (mulKey fl t b c) (mulKey fl t b d))

/-- The products of ends reach both ends of the type or all miss it on one side, so that nothing is learned.
Source: `tree-vrp.c` `extract_range_from_binary_expr` ("We punt if") -/
def ProductsGivenUp (fl : Flags) (t : IntType) (a b c d : Cst) : Prop :=
  (lowKey fl t a b c d ≤ t.minValue ∨ t.maxValue < lowKey fl t a b c d) ∧
    (t.maxValue ≤ highKey fl t a b c d ∨ highKey fl t a b c d < t.minValue)

/-- A product of ends whose mark is no infinity. Source: `tree-vrp.c` `extract_range_from_binary_expr` (`TREE_OVERFLOW (val[0])`). -/
def MarkedProduct (fl : Flags) (t : IntType) (u v : Cst) : Prop :=
  (u.overflow = true ∨ v.overflow = true) ∧ isOverflowInfinity fl t u = false ∧ isOverflowInfinity fl t v = false ∧
    t.wrap (u.val * v.val) ≠ t.minValue ∧ t.wrap (u.val * v.val) ≠ t.maxValue

/-- Source: `tree-vrp.c` `is_overflow_infinity`. -/
def SomeInfinity (fl : Flags) (t : IntType) (a b c d : Cst) : Prop :=
  isOverflowInfinity fl t a = true ∨ isOverflowInfinity fl t b = true ∨ isOverflowInfinity fl t c = true ∨
    isOverflowInfinity fl t d = true

/-- An end has a mark that is no infinity. Source: `tree-vrp.c` `is_overflow_infinity`. -/
def SomeBad (fl : Flags) (t : IntType) (a b c d : Cst) : Prop := Bad fl t a ∨ Bad fl t b ∨ Bad fl t c ∨ Bad fl t d

/-- The smallest product of ends. -/
def productLow (a b c d : ℤ) : ℤ := min (min (a * c) (a * d)) (min (b * c) (b * d))

/-- The largest product of ends. -/
def productHigh (a b c d : ℤ) : ℤ := max (max (a * c) (a * d)) (max (b * c) (b * d))

/-- Both intervals have zero and the products of their four pairs of outer neighbours, where these exist, lie outside the products of
the ends. -/
def ProductsMissed (t : IntType) (a b c d : ℤ) : Prop :=
  (a ≤ 0 ∧ 0 ≤ b) ∧ (c ≤ 0 ∧ 0 ≤ d) ∧
    (b = t.maxValue ∨ d = t.maxValue ∨ min (productHigh a b c d) t.maxValue < (b + 1) * (d + 1)) ∧
    (a = t.minValue ∨ c = t.minValue ∨ min (productHigh a b c d) t.maxValue < (a - 1) * (c - 1)) ∧
    (b = t.maxValue ∨ c = t.minValue ∨ (b + 1) * (c - 1) < max (productLow a b c d) t.minValue) ∧
    (a = t.minValue ∨ d = t.maxValue ∨ (a - 1) * (d + 1) < max (productLow a b c d) t.minValue)

/-- A product of values outside two intervals lies between two bounds. -/
def ProductHit (t : IntType) (a b c d low high : ℤ) : Prop :=
  ∃ x y, t.Has x ∧ t.Has y ∧ t.Has (x * y) ∧ ¬ (a ≤ x ∧ x ≤ b) ∧ ¬ (c ≤ y ∧ y ≤ d) ∧ low ≤ x * y ∧ x * y ≤ high

/-- The code gives up because of a mark; or all marks are infinities and nothing is learned; or, if there is none, the products that
are possible are missed. A type of one bit has one product only.
Source: `tree-vrp.c` `extract_range_from_binary_expr` (`MULT_EXPR`) -/
def MultCondition (fl : Flags) (t : IntType) (a b c d : Cst) : Prop :=
  (∃ u v, IsCorner a b c d u v ∧ MarkedProduct fl t u v) ∨
    (¬ SomeBad fl t a b c d ∧ (ProductsGivenUp fl t a b c d ∨
      (SomeInfinity fl t a b c d ∧ t.maxValue = 0 ∧ (a.val = 0 ∧ b.val = 0) ∧ c.val = 0 ∧ d.val = 0) ∨
      (¬ SomeInfinity fl t a b c d ∧ ProductsMissed t a.val b.val c.val d.val)))

/-- Undefined overflow does not wrap. Source: `flags.h` `TYPE_OVERFLOW_UNDEFINED`. Kind: L -/
theorem overflowWraps_of_undefined (hundef : t.overflowUndefined fl = true) :
    t.unsigned = false ∧ t.overflowWraps fl = false := by
  unfold IntType.overflowUndefined at hundef
  unfold IntType.overflowWraps
  simp only [Bool.and_eq_true, Bool.not_eq_true'] at hundef
  obtain ⟨⟨⟨hu, hw⟩, _⟩, _⟩ := hundef
  rw [hu, hw]
  exact ⟨rfl, rfl⟩

theorem IntType.sat_mono (t : IntType) : Monotone t.sat := by
  intro m n hmn
  exact max_le_max le_rfl (min_le_min le_rfl hmn)

/-- Where there are infinities, an overflow ends in one.
Source: `tree-vrp.c` `vrp_int_const_binop`
Kind: L -/
theorem vrpIntConstBinop_not_bad (hneeds : needsOverflowInfinity fl t = true) {x y r : Cst} (hx : Plain t x)
    (hy : Plain t y) (hcall : vrpIntConstBinop fl t t code x y = some (some r)) : ¬ Bad fl t r := by
  have hinf : ∀ v, v = positiveOverflowInfinity t ∨ v = negativeOverflowInfinity t → ¬ Bad fl t v := by
    rintro v (rfl | rfl) ⟨_, hno⟩
    · simp [isOverflowInfinity, hneeds, positiveOverflowInfinity] at hno
    · simp [isOverflowInfinity, hneeds, negativeOverflowInfinity] at hno
  unfold vrpIntConstBinop at hcall
  rcases hres : intConstBinop t code x y with _ | res
  · rw [hres] at hcall
    cases hcall
  · rw [hres] at hcall
    simp only [not_wraps_of_needs hneeds, hneeds, hx.not_infinity, hy.not_infinity, hx.unmarked, hy.unmarked, Bool.or_false,
      Bool.not_false, Bool.and_true, Bool.false_eq_true, if_false, if_true] at hcall
    split at hcall
    · split at hcall
      · cases hcall
      · split at hcall
        · cases hcall
          exact hinf _ (Or.inl rfl)
        · cases hcall
          exact hinf _ (Or.inr rfl)
    case isFalse hmark =>
      cases hcall
      exact fun hbad => hmark hbad.1

section Corners

variable (hneeds : needsOverflowInfinity fl t = true)

include hneeds

/-- **A product of ends** is never given up by itself: an overflow ends in an infinity, unless a mark was there before.
Source: `tree-vrp.c` `vrp_int_const_binop` (`MULT_EXPR`)
Kind: L -/
theorem vrpIntConstBinop_mult_eq (u v : Cst) :
    vrpIntConstBinop fl t t .MULT_EXPR u v = some (some
      (if ((forceFit t (u.val * v.val) (u.overflow || v.overflow)).overflow && !u.overflow && !v.overflow) ||
          isOverflowInfinity fl t u || isOverflowInfinity fl t v then
        if u.val.sign = v.val.sign then positiveOverflowInfinity t else negativeOverflowInfinity t
      else forceFit t (u.val * v.val) (u.overflow || v.overflow))) := by
  have hwraps := not_wraps_of_needs hneeds
  have hsize := IntType.sizetype_of_signed (unsigned_of_not_wraps hwraps)
  have hres : intConstBinop t .MULT_EXPR u v = some (forceFit t (u.val * v.val) (u.overflow || v.overflow)) := by
    unfold intConstBinop
    rw [t.stored_eq hsize, t.stored_eq hsize]
    rfl
  unfold vrpIntConstBinop
  rw [hres]
  dsimp only
  rw [hwraps, if_neg Bool.false_ne_true, hneeds]
  have hpunt : infinitiesPunt fl t t .MULT_EXPR u v = false := rfl
  have hup : overflowsUp fl t .MULT_EXPR u v = decide (u.val.sign = v.val.sign) := rfl
  rw [hpunt, hup]
  simp only [Bool.false_eq_true, if_false, decide_eq_true_eq, if_true]
  split_ifs <;> rfl

/-- Source: `tree-vrp.c` `negative_overflow_infinity`, `positive_overflow_infinity`. -/
theorem infinity_good :
    Good fl t (positiveOverflowInfinity t) ∧ (positiveOverflowInfinity t).key fl t = t.maxValue + 1 ∧
      Good fl t (negativeOverflowInfinity t) ∧ (negativeOverflowInfinity t).key fl t = t.minValue - 1 := by
  have hlt := t.minValue_lt_maxValue
  have hpos := @stands_positiveOverflowInfinity fl t hneeds (t.maxValue + 1) (by omega)
  have hneg := @stands_negativeOverflowInfinity fl t hneeds (t.minValue - 1) (by omega)
  refine ⟨hpos.good, hpos.key_eq.trans ?_, hneg.good, hneg.key_eq.trans ?_⟩ <;>
    · unfold IntType.sat
      omega

/-- A product is bad or good. Source: `tree-vrp.c` `vrp_int_const_binop` (`MULT_EXPR`). Kind: L -/
theorem mult_bad_or_good (u v : Cst) :
    ∃ r, vrpIntConstBinop fl t t .MULT_EXPR u v = some (some r) ∧ (Bad fl t r ∨ Good fl t r) := by
  obtain ⟨hpos, -, hneg, -⟩ := infinity_good hneeds
  refine ⟨_, vrpIntConstBinop_mult_eq hneeds u v, ?_⟩
  split_ifs
  · exact .inr hpos
  · exact .inr hneg
  · rw [or_iff_not_imp_left]
    exact fun hgood => ⟨t.has_wrap _, hgood⟩

/-- A mark that is no infinity makes a product bad. Source: `tree-vrp.c` `vrp_int_const_binop` (`MULT_EXPR`). Kind: L -/
theorem mult_of_marked {u v : Cst} (hmarked : MarkedProduct fl t u v) {r : Cst}
    (hcall : vrpIntConstBinop fl t t .MULT_EXPR u v = some (some r)) : Bad fl t r := by
  obtain ⟨hmark, hu, hv, hmin, hmax⟩ := hmarked
  have hmark' : (u.overflow || v.overflow) = true := by simpa using hmark
  rw [vrpIntConstBinop_mult_eq hneeds, hu, hv, hmark', if_neg] at hcall
  · cases hcall
    refine ⟨by simp [forceFit], ?_⟩
    have hval : (forceFit t (u.val * v.val) true).val = t.wrap (u.val * v.val) := rfl
    simp [isOverflowInfinity, hval, hmin, hmax]
  · rcases hmark with h | h <;> simp [h]

/-- **A product of good ends** has its key. Source: `tree-vrp.c` `vrp_int_const_binop` (`MULT_EXPR`). Kind: L -/
theorem mult_of_good (hbase : t.subrange = none) {u v : Cst} (hu : Good fl t u) (hv : Good fl t v) :
    ∃ r, vrpIntConstBinop fl t t .MULT_EXPR u v = some (some r) ∧ Good fl t r ∧ r.key fl t = mulKey fl t u v := by
  unfold mulKey
  by_cases hinf : (isOverflowInfinity fl t u || isOverflowInfinity fl t v) = true
  · obtain ⟨hpos, hposkey, hneg, hnegkey⟩ := infinity_good hneeds
    refine ⟨_, vrpIntConstBinop_mult_eq hneeds u v, ?_⟩
    rw [Bool.or_assoc, hinf, Bool.or_true, if_pos rfl, if_pos rfl]
    split_ifs
    · exact ⟨hpos, hposkey⟩
    · exact ⟨hneg, hnegkey⟩
  · have hplain : Plain t u ∧ Plain t v := by
      simp only [Bool.or_eq_true, not_or, Bool.not_eq_true] at hinf
      refine ⟨⟨hu.has, ?_⟩, hv.has, ?_⟩
      · by_contra hmark
        exact hu.not_bad ⟨by simpa using hmark, hinf.1⟩
      · by_contra hmark
        exact hv.not_bad ⟨by simpa using hmark, hinf.2⟩
    obtain ⟨r, hcall, hr⟩ := @vrpIntConstBinop_mult fl t u v hbase hplain.1 hplain.2
    have hstands := hr.resolve_left (vrpIntConstBinop_not_bad hneeds hplain.1 hplain.2 hcall)
    rw [if_neg hinf]
    exact ⟨r, hcall, hstands.good, hstands.key_eq⟩

end Corners

/-- The least of four values at the corners belongs to one, and no other is smaller. -/
theorem corner_min (f : Cst → Cst → ℤ) (a b c d : Cst) :
    (∃ u v, IsCorner a b c d u v ∧ min (min (f a c) (f a d)) (min (f b c) (f b d)) = f u v) ∧
      ∀ u v, IsCorner a b c d u v → min (min (f a c) (f a d)) (min (f b c) (f b d)) ≤ f u v := by
  refine ⟨?_, ?_⟩
  · rcases min_choice (min (f a c) (f a d)) (min (f b c) (f b d)) with h | h
    · rw [h]
      rcases min_choice (f a c) (f a d) with h | h
      · exact ⟨a, c, ⟨Or.inl rfl, Or.inl rfl⟩, h⟩
      · exact ⟨a, d, ⟨Or.inl rfl, Or.inr rfl⟩, h⟩
    · rw [h]
      rcases min_choice (f b c) (f b d) with h | h
      · exact ⟨b, c, ⟨Or.inr rfl, Or.inl rfl⟩, h⟩
      · exact ⟨b, d, ⟨Or.inr rfl, Or.inr rfl⟩, h⟩
  · rintro u v ⟨rfl | rfl, rfl | rfl⟩
    · exact le_trans (min_le_left _ _) (min_le_left _ _)
    · exact le_trans (min_le_left _ _) (min_le_right _ _)
    · exact le_trans (min_le_right _ _) (min_le_left _ _)
    · exact le_trans (min_le_right _ _) (min_le_right _ _)

/-- The greatest of four values at the corners belongs to one, and no other is larger. -/
theorem corner_max (f : Cst → Cst → ℤ) (a b c d : Cst) :
    (∃ u v, IsCorner a b c d u v ∧ max (max (f a c) (f a d)) (max (f b c) (f b d)) = f u v) ∧
      ∀ u v, IsCorner a b c d u v → f u v ≤ max (max (f a c) (f a d)) (max (f b c) (f b d)) := by
  have hswap := corner_min (fun u v => -f u v) a b c d
  simp only [min_neg_neg] at hswap
  obtain ⟨⟨u, v, huv, heq⟩, hleast⟩ := hswap
  refine ⟨⟨u, v, huv, by omega⟩, fun u v huv => ?_⟩
  have := hleast u v huv
  omega

section MultEnds

variable (hundef : t.overflowUndefined fl = true) (hbase : t.subrange = none)

include hundef hbase

/-- Source: `flags.h` `TYPE_OVERFLOW_UNDEFINED`, `tree-vrp.c` `needs_overflow_infinity`. -/
theorem needs_of_undefined : needsOverflowInfinity fl t = true :=
  needs_of_not_wraps hbase (overflowWraps_of_undefined hundef).2

omit hbase in
/-- Products of two anti-ranges are computed from the corners. Source: `tree-vrp.c` `extract_range_from_binary_expr`. -/
theorem extract_mult_antiRange : extractRangeFromBinaryExpr fl t t .MULT_EXPR (.known .antiRange a b) (.known .antiRange c d) =
    crossOperations fl t t .MULT_EXPR .antiRange a b c d := by
  simp [extractRangeFromBinaryExpr, hundef]

/-- **A marked product** makes the code give up.
Source: `tree-vrp.c` `extract_range_from_binary_expr` (`TREE_OVERFLOW (val[0]) && !is_overflow_infinity (val[0])`)
Kind: L -/
theorem extract_mult_of_marked (hmarked : ∃ u v, IsCorner a b c d u v ∧ MarkedProduct fl t u v) :
    extractRangeFromBinaryExpr fl t t .MULT_EXPR (.known .antiRange a b) (.known .antiRange c d) = some .varying := by
  have hneeds := needs_of_undefined hundef hbase
  choose R hR using fun u v : Cst => mult_bad_or_good hneeds u v
  obtain ⟨m, M, hcall, hends⟩ := crossOperations_spec .antiRange (fun u v (_ : IsCorner a b c d u v) => hR u v)
  obtain ⟨u, v, huv, hmark⟩ := hmarked
  rw [extract_mult_antiRange hundef, hcall]
  have hbad := mult_of_marked hneeds hmark (hR u v).1
  rcases hends with ⟨hm, -⟩ | ⟨-, -, hgood⟩
  · rw [finishRange_of_bad _ (.inl hm)]
  · exact absurd hbad (hgood u v huv).1.not_bad

variable (ha : Good fl t a) (hb : Good fl t b) (hc : Good fl t c) (hd : Good fl t d)

include ha hb hc hd

/-- The ends of the product of two anti-ranges have the least and the greatest key of a product of ends.
Source: `tree-vrp.c` `extract_range_from_binary_expr` (`MULT_EXPR`)
Kind: L -/
theorem extract_mult_ends :
    ∃ m M, extractRangeFromBinaryExpr fl t t .MULT_EXPR (.known .antiRange a b) (.known .antiRange c d) =
        some (finishRange fl t .antiRange (some m) (some M)) ∧ Good fl t m ∧ Good fl t M ∧
      m.key fl t = lowKey fl t a b c d ∧ M.key fl t = highKey fl t a b c d := by
  have hneeds := needs_of_undefined hundef hbase
  have hcorner : ∀ u v, IsCorner a b c d u v → ∃ r, vrpIntConstBinop fl t t .MULT_EXPR u v = some (some r) ∧
      Good fl t r ∧ r.key fl t = mulKey fl t u v := by
    rintro u v ⟨hu, hv⟩
    exact mult_of_good hneeds hbase (by rcases hu with rfl | rfl <;> assumption) (by rcases hv with rfl | rfl <;> assumption)
  choose! R hR using hcorner
  obtain ⟨m, M, hcall, hends⟩ := crossOperations_spec .antiRange
    (fun u v huv => ⟨(hR u v huv).1, Or.inr (hR u v huv).2.1⟩)
  obtain ⟨⟨u, v, huv, rfl⟩, ⟨u', v', huv', rfl⟩, hkeys⟩ := hends.resolve_left (by
    rintro ⟨_, u, v, huv, hbad⟩
    exact (hR u v huv).2.1.not_bad hbad)
  refine ⟨_, _, (extract_mult_antiRange hundef).trans hcall, (hkeys u v huv).1, (hkeys u' v' huv').1, ?_, ?_⟩
  · obtain ⟨⟨p, q, hpq, heq⟩, hleast⟩ := corner_min (mulKey fl t) a b c d
    apply le_antisymm
    · rw [lowKey, heq, ← (hR p q hpq).2.2]
      exact (hkeys p q hpq).2.1
    · rw [(hR u v huv).2.2]
      exact hleast u v huv
  · obtain ⟨⟨p, q, hpq, heq⟩, hgreatest⟩ := corner_max (mulKey fl t) a b c d
    apply le_antisymm
    · rw [(hR u' v' huv').2.2]
      exact hgreatest u' v' huv'
    · rw [highKey, heq, ← (hR p q hpq).2.2]
      exact (hkeys p q hpq).2.2

/-- What is stored for the product of two anti-ranges.
Source: `tree-vrp.c` `extract_range_from_binary_expr` (`MULT_EXPR`)
Kind: L -/
theorem antiSound_mult_iff_products :
    AntiSound fl t t .MULT_EXPR a b c d ↔
      ProductsGivenUp fl t a b c d ∨
        ∀ x y, t.Has x → t.Has y → t.Has (x * y) → ¬ (a.val ≤ x ∧ x ≤ b.val) →
          ¬ (c.val ≤ y ∧ y ≤ d.val) → ¬ (lowKey fl t a b c d ≤ x * y ∧ x * y ≤ highKey fl t a b c d) := by
  obtain ⟨_, hwraps⟩ := overflowWraps_of_undefined hundef
  obtain ⟨m, M, hcall, hm, hM, hmkey, hMkey⟩ := extract_mult_ends hundef hbase ha hb hc hd
  have hlt := t.minValue_lt_maxValue
  have hle : lowKey fl t a b c d ≤ highKey fl t a b c d := by
    unfold lowKey highKey
    omega
  have hmval := @Cst.val_eq fl t m hm.has
  have hMval := @Cst.val_eq fl t M hM.has
  rw [antiSound_iff hcall, finishRange_eq .antiRange hm hM]
  unfold ProductsGivenUp
  rw [← hmkey, ← hMkey] at hle ⊢
  by_cases hup : (m.key fl t ≤ t.minValue ∨ t.maxValue < m.key fl t) ∧ (t.maxValue ≤ M.key fl t ∨ M.key fl t < t.minValue)
  · rw [if_pos (.inl hup)]
    exact ⟨fun _ => Or.inl hup, fun _ _ _ _ _ _ _ _ => trivial⟩
  · rw [if_neg (by omega), or_iff_right hup]
    have hinside : ∀ z, t.Has z → ((m.val ≤ z ∧ z ≤ M.val) ↔ (m.key fl t ≤ z ∧ z ≤ M.key fl t)) := by
      intro z hz
      unfold IntType.Has at hz
      omega
    constructor
    · intro h x y hx hy hxy hxout hyout
      have hadm := h x y hx hy hxout hyout ⟨by simp [TreeCode.divCode], fun _ _ => hxy, by simp, by simp⟩
      have hwrap : t.wrap (TreeCode.MULT_EXPR.eval x y) = x * y := IntType.wrap_of_has hxy
      rw [hwrap] at hadm
      exact fun hin => hadm ((hinside _ hxy).mpr hin)
    · intro h x y hx hy hxout hyout hdef
      have hxy : t.Has (x * y) := hdef.overflow (by simp [TreeCode.CanOverflow]) hwraps
      have hwrap : t.wrap (TreeCode.MULT_EXPR.eval x y) = x * y := IntType.wrap_of_has hxy
      rw [hwrap]
      exact fun hin => h x y hx hy hxy hxout hyout ((hinside _ hxy).mp hin)

end MultEnds

/-- A negative value of a signed type is a product of a negative and a positive value. -/
theorem exists_mul_eq_of_neg (hu : t.unsigned = false) (hone : t.Has 1) {z : ℤ} (hz : t.Has z) (hneg : z < 0) :
    ∃ x y, t.Has x ∧ t.Has y ∧ x < 0 ∧ 0 < y ∧ x * y = z := by
  have hmax := IntType.maxValue_of_signed hu
  obtain ⟨hone1, hone2⟩ := hone
  obtain ⟨hz1, hz2⟩ := hz
  by_cases hmin : z = t.minValue
  · -- the least value has no opposite: half of it does
    have hpow : t.minValue = -2 ^ (t.prec - 1) := by
      unfold IntType.minValue
      rw [hu, if_neg Bool.false_ne_true]
    have hprec : t.prec - 1 = t.prec - 2 + 1 := by
      have hne : t.prec - 1 ≠ 0 := by
        intro h0
        rw [h0, pow_zero] at hpow
        omega
      omega
    rw [hprec, pow_succ] at hpow
    have hpos : (0 : ℤ) < 2 ^ (t.prec - 2) := by positivity
    refine ⟨-2, 2 ^ (t.prec - 2), ⟨by omega, by omega⟩, ⟨by omega, by omega⟩, by omega, hpos, ?_⟩
    omega
  · exact ⟨-1, -z, ⟨by omega, by omega⟩, ⟨by omega, by omega⟩, by omega, by omega, by ring⟩

/-! ### Infinities -/

section Infinite

variable (hu : t.unsigned = false)

include hu

/-- A signed type has negative values. -/
theorem IntType.minValue_neg : t.minValue < 0 := by
  have hmax := IntType.maxValue_of_signed hu
  have hlt := t.minValue_lt_maxValue
  omega

/-- A product with the infinity below. Source: `tree-vrp.c` `vrp_int_const_binop` (`sgn1 == sgn2`). Kind: L -/
theorem mulKey_of_negative {u : Cst} (hinf : isNegativeOverflowInfinity fl t u = true) (v : Cst) :
    mulKey fl t u v = if v.val < 0 then t.maxValue + 1 else t.minValue - 1 := by
  have hneg := IntType.minValue_neg hu
  have hval := (isNegativeOverflowInfinity_iff.mp hinf).2.2
  rw [mulKey, isOverflowInfinity_eq, hinf, Bool.true_or, Bool.true_or, if_pos rfl, hval, Int.sign_eq_neg_one_of_neg hneg]
  have hsign : (-1 = v.val.sign) ↔ v.val < 0 := by rw [eq_comm, Int.sign_eq_neg_one_iff_neg]
  simp only [hsign]

omit hu in
/-- A product with the infinity above, unless both are zero. Source: `tree-vrp.c` `vrp_int_const_binop` (`sgn1 == sgn2`). Kind: L -/
theorem mulKey_of_positive {u : Cst} (hinf : isPositiveOverflowInfinity fl t u = true) {v : Cst}
    (hv : v.val ≤ t.maxValue) (hpos : 0 < t.maxValue ∨ v.val ≠ 0) :
    mulKey fl t u v = if 0 < v.val then t.maxValue + 1 else t.minValue - 1 := by
  have hval := (isPositiveOverflowInfinity_iff.mp hinf).2.2
  obtain ⟨hzero, hmax⟩ := t.has_zero
  rw [mulKey, isOverflowInfinity_eq, hinf, Bool.or_true, Bool.true_or, if_pos rfl, hval]
  have hsign : t.maxValue.sign = v.val.sign ↔ 0 < v.val := by
    rcases hmax.lt_or_eq with hmax | hmax
    · rw [Int.sign_eq_one_of_pos hmax, eq_comm, Int.sign_eq_one_iff_pos]
    · rw [← hmax, Int.sign_zero, eq_comm, Int.sign_eq_zero_iff_zero]
      omega
  simp only [hsign]

omit hu in
theorem mulKey_comm (u v : Cst) : mulKey fl t u v = mulKey fl t v u := by
  unfold mulKey
  rw [Bool.or_comm, mul_comm]
  simp only [eq_comm]

omit hu in
/-- If two products are the infinity above, something is stored only if another one is a value, and it reaches up from there. -/
theorem kept_above {p q r s low high : ℤ} (hp : p = t.maxValue + 1) (hq : q = t.maxValue + 1)
    (hlow : low = min (min p q) (min r s)) (hhigh : high = max (max p q) (max r s))
    (hkept : ¬ ((low ≤ t.minValue ∨ t.maxValue < low) ∧ (t.maxValue ≤ high ∨ high < t.minValue))) :
    (r ≤ t.maxValue ∨ s ≤ t.maxValue) ∧ ∀ z, z ≤ t.maxValue → r ≤ z ∨ s ≤ z → low ≤ z ∧ z ≤ high := by
  refine ⟨by omega, fun z hz hle => ?_⟩
  omega

omit hu in
/-- If two products are the infinity below, something is stored only if another one is a value, and it reaches down from there. -/
theorem kept_below {p q r s low high : ℤ} (hp : p = t.minValue - 1) (hq : q = t.minValue - 1)
    (hlow : low = min (min p q) (min r s)) (hhigh : high = max (max p q) (max r s))
    (hkept : ¬ ((low ≤ t.minValue ∨ t.maxValue < low) ∧ (t.maxValue ≤ high ∨ high < t.minValue))) :
    (t.minValue ≤ r ∨ t.minValue ≤ s) ∧ ∀ z, t.minValue ≤ z → z ≤ r ∨ z ≤ s → low ≤ z ∧ z ≤ high := by
  refine ⟨by omega, fun z hz hle => ?_⟩
  omega

omit hu in
/-- Products on both sides of the type give nothing. -/
theorem not_kept_of_both {p q r s low high : ℤ} (hboth : p = t.maxValue + 1 ∧ q = t.minValue - 1 ∨ p = t.minValue - 1 ∧ q = t.maxValue + 1)
    (hlow : low = min (min p q) (min r s)) (hhigh : high = max (max p q) (max r s)) :
    (low ≤ t.minValue ∨ t.maxValue < low) ∧ (t.maxValue ≤ high ∨ high < t.minValue) := by
  omega

omit hu in
/-- Values are moved by saturation to no other side of a value. -/
theorem IntType.le_sat_iff {z w : ℤ} (hz : t.Has z) : z ≤ t.sat w ↔ z ≤ w := by
  obtain ⟨hz1, hz2⟩ := hz
  unfold IntType.sat
  omega

omit hu in
theorem IntType.sat_le_iff {z w : ℤ} (hz : t.Has z) : t.sat w ≤ z ↔ w ≤ z := by
  obtain ⟨hz1, hz2⟩ := hz
  unfold IntType.sat
  omega

omit hu in
theorem mulKey_of_finite {u v : Cst} (hu : isOverflowInfinity fl t u = false) (hv : isOverflowInfinity fl t v = false) :
    mulKey fl t u v = t.sat (u.val * v.val) := by
  rw [mulKey, hu, hv]
  rfl

/-- What is below a product of ends is below that of their values. Source: `tree-vrp.c` `vrp_int_const_binop` (`sgn1 == sgn2`). Kind: L -/
theorem le_mul_of_le_mulKey {u v : Cst} {z : ℤ} (huinf : isOverflowInfinity fl t u = false) (hz : t.Has z)
    (hle : z ≤ mulKey fl t u v) : z ≤ u.val * v.val := by
  have hneg := IntType.minValue_neg hu
  have hmax := IntType.maxValue_of_signed hu
  cases hvinf : isOverflowInfinity fl t v with
  | false =>
    rw [mulKey_of_finite huinf hvinf] at hle
    exact (IntType.le_sat_iff hz).mp hle
  | true =>
    rw [mulKey, huinf, hvinf, Bool.false_or, if_pos rfl] at hle
    by_cases hsign : u.val.sign = v.val.sign
    · -- the product of an infinity is beyond the type
      rw [isOverflowInfinity_eq, Bool.or_eq_true] at hvinf
      apply hz.2.trans
      rcases hvinf with hvinf | hvinf
      · rw [(isNegativeOverflowInfinity_iff.mp hvinf).2.2] at hsign ⊢
        rw [Int.sign_eq_neg_one_of_neg hneg, Int.sign_eq_neg_one_iff_neg] at hsign
        nlinarith
      · rw [(isPositiveOverflowInfinity_iff.mp hvinf).2.2] at hsign ⊢
        rcases t.has_zero.2.lt_or_eq with hpos | hzero
        · rw [Int.sign_eq_one_of_pos hpos, Int.sign_eq_one_iff_pos] at hsign
          nlinarith
        · rw [← hzero, mul_zero]
    · rw [if_neg hsign] at hle
      exact absurd hz.1 (by omega)

omit hu in
/-- What is above a positive product of ends is above that of their values.
Source: `tree-vrp.c` `vrp_int_const_binop` (`sgn1 == sgn2`)
Kind: L -/
theorem mul_le_of_mulKey_le {u v : Cst} {z : ℤ} (hz : t.Has z) (hpos : 0 < u.val * v.val) (hle : mulKey fl t u v ≤ z) :
    u.val * v.val ≤ z := by
  have hsign : u.val.sign = v.val.sign := by
    rcases mul_pos_iff.mp hpos with ⟨hu, hv⟩ | ⟨hu, hv⟩
    · rw [Int.sign_eq_one_of_pos hu, Int.sign_eq_one_of_pos hv]
    · rw [Int.sign_eq_neg_one_of_neg hu, Int.sign_eq_neg_one_of_neg hv]
  unfold mulKey at hle
  split_ifs at hle
  · exact absurd hz.2 (by omega)
  · exact (IntType.sat_le_iff hz).mp hle

omit hu in
theorem ProductHit.of_mul_eq {a b c d low high x y z : ℤ} (hxy : x * y = z) (hx : t.Has x) (hy : t.Has y) (hz : t.Has z)
    (hxout : ¬ (a ≤ x ∧ x ≤ b)) (hyout : ¬ (c ≤ y ∧ y ≤ d)) (hin : low ≤ z ∧ z ≤ high) : ProductHit t a b c d low high :=
  ⟨x, y, hx, hy, hxy ▸ hz, hxout, hyout, hxy ▸ hin⟩

omit hu in
/-- A product that is zero is hit by an operand that is zero. -/
theorem ProductHit.of_zero {a b c d low high x : ℤ} (hx : t.Has x) (hout : ¬ (a ≤ x ∧ x ≤ b)) (hzero : ¬ (c ≤ 0 ∧ 0 ≤ d))
    (hin : low ≤ 0 ∧ 0 ≤ high) : ProductHit t a b c d low high :=
  .of_mul_eq (mul_zero x) hx t.has_zero t.has_zero hout hzero hin

/-- **A first interval that begins at the infinity below** is hit, if something is stored.
Source: `tree-vrp.c` `extract_range_from_binary_expr` (`MULT_EXPR`)
Kind: L -/
theorem exists_hit_of_negative (ha : isNegativeOverflowInfinity fl t a = true) (hab : Stored fl t .antiRange a b)
    (hcd : Stored fl t .antiRange c d) (hle : c.val ≤ d.val) (hkept : ¬ ProductsGivenUp fl t a b c d) :
    ProductHit t a.val b.val c.val d.val (lowKey fl t a b c d) (highKey fl t a b c d) := by
  have hneg := IntType.minValue_neg hu
  have hmax := IntType.maxValue_of_signed hu
  have hlt := t.minValue_lt_maxValue
  have hval := (isNegativeOverflowInfinity_iff.mp ha).2.2
  have hbinf : isOverflowInfinity fl t b = false :=
    Bool.eq_false_iff.mpr fun hb => hab.finite ⟨by rw [isOverflowInfinity_eq, ha, Bool.true_or], hb⟩
  have hnext : t.Has (b.val + 1) := by
    obtain ⟨hb1, hb2⟩ := hab.max_has
    have hb := lt_of_le_of_ne hb2 fun heq => hab.nonempty rfl ⟨hval, heq⟩
    exact ⟨by omega, by omega⟩
  have hnextout : ¬ (a.val ≤ b.val + 1 ∧ b.val + 1 ≤ b.val) := by omega
  have hkac := mulKey_of_negative hu ha c
  have hkad := mulKey_of_negative hu ha d
  rcases le_or_gt 0 c.val with hc0 | hc0
  · -- the products with the infinity are the infinity below
    rw [if_neg (not_lt.mpr hc0)] at hkac
    rw [if_neg (not_lt.mpr (hc0.trans hle))] at hkad
    obtain ⟨hvalue, hin⟩ := kept_below hkac hkad rfl rfl hkept
    have hkbc := mulKey_of_finite hbinf (Bool.eq_false_iff.mpr fun h => absurd (hcd.min_of_infinity h) (by omega))
    replace hin : ∀ z, t.Has z → z ≤ b.val * c.val → lowKey fl t a b c d ≤ z ∧ z ≤ highKey fl t a b c d :=
      fun z hz hle => hin z hz.1 (.inl (hkbc ▸ (IntType.le_sat_iff hz).mpr hle))
    rcases le_or_gt 0 b.val with hb0 | hb0
    · rcases hc0.lt_or_eq with hcpos | hczero
      · exact .of_zero hnext hnextout (by omega) (hin 0 t.has_zero (mul_nonneg hb0 hc0))
      · obtain ⟨hn1, hn2⟩ := hnext
        exact .of_mul_eq (mul_neg_one (b.val + 1)) ⟨hn1, hn2⟩ ⟨by omega, by omega⟩ ⟨by omega, by omega⟩ hnextout (by omega)
          (hin _ ⟨by omega, by omega⟩ (by rw [← hczero, mul_zero]; omega))
    · rcases hc0.lt_or_eq with hcpos | hczero
      · have hbc := mul_neg_of_neg_of_pos hb0 hcpos
        have hbd : b.val * d.val ≤ b.val * c.val := mul_le_mul_of_nonpos_left hle hb0.le
        have hhas : t.Has (b.val * c.val) := by
          refine ⟨?_, hbc.le.trans t.has_zero.2⟩
          rcases hvalue with hvalue | hvalue
          · exact le_mul_of_le_mulKey hu hbinf ⟨le_rfl, hlt.le⟩ hvalue
          · exact (le_mul_of_le_mulKey hu hbinf ⟨le_rfl, hlt.le⟩ hvalue).trans hbd
        have hfits := hcd.min_has.2
        obtain ⟨y, x, hy, hx, hy0, hx0, hyx⟩ := exists_mul_eq_of_neg hu ⟨by omega, by omega⟩ hhas hbc
        exact .of_mul_eq ((mul_comm x y).trans hyx) hx hy hhas (by omega) (by omega) (hin _ hhas le_rfl)
      · exact .of_mul_eq (zero_mul (-1)) t.has_zero ⟨by omega, by omega⟩ t.has_zero (by omega) (by omega)
          (hin 0 t.has_zero (by rw [← hczero, mul_zero]))
  · rw [if_pos hc0] at hkac
    rcases le_or_gt 0 d.val with hd0 | hd0
    · rw [if_neg (not_lt.mpr hd0)] at hkad
      exact absurd (not_kept_of_both (.inl ⟨hkac, hkad⟩) rfl rfl) hkept
    · -- the products with the infinity are the infinity above
      rw [if_pos hd0] at hkad
      obtain ⟨hvalue, hin⟩ := kept_above hkac hkad rfl rfl hkept
      have hkbd := mulKey_of_finite hbinf (Bool.eq_false_iff.mpr fun h => absurd (hcd.max_of_infinity h) (by omega))
      replace hin : ∀ z, t.Has z → b.val * d.val ≤ z → lowKey fl t a b c d ≤ z ∧ z ≤ highKey fl t a b c d :=
        fun z hz hle => hin z hz.2 (.inr (hkbd ▸ (IntType.sat_le_iff hz).mpr hle))
      rcases le_or_gt 0 b.val with hb0 | hb0
      · exact .of_zero hnext hnextout (by omega) (hin 0 t.has_zero (mul_nonpos_of_nonneg_of_nonpos hb0 hd0.le))
      · have hbd := mul_pos_of_neg_of_neg hb0 hd0
        have hbc : b.val * d.val ≤ b.val * c.val := mul_le_mul_of_nonpos_left hle hb0.le
        have hhas : t.Has (b.val * d.val) := by
          refine ⟨hneg.le.trans hbd.le, ?_⟩
          rcases hvalue with hvalue | hvalue
          · exact hbc.trans (mul_le_of_mulKey_le ⟨hlt.le, le_rfl⟩ (hbd.trans_le hbc) hvalue)
          · exact mul_le_of_mulKey_le ⟨hlt.le, le_rfl⟩ hbd hvalue
        have hfits := hhas.2
        exact .of_mul_eq (one_mul _) ⟨by omega, by omega⟩ hhas hhas (by omega) (by omega) (hin _ hhas le_rfl)

/-- **A first interval that ends at the infinity above** is hit, if something is stored and the type has more than one bit.
Source: `tree-vrp.c` `extract_range_from_binary_expr` (`MULT_EXPR`)
Kind: L -/
theorem exists_hit_of_positive (hbits : 0 < t.maxValue) (hb : isPositiveOverflowInfinity fl t b = true)
    (hab : Stored fl t .antiRange a b) (hcd : Stored fl t .antiRange c d) (hle : c.val ≤ d.val)
    (hkept : ¬ ProductsGivenUp fl t a b c d) :
    ProductHit t a.val b.val c.val d.val (lowKey fl t a b c d) (highKey fl t a b c d) := by
  have hneg := IntType.minValue_neg hu
  have hmax := IntType.maxValue_of_signed hu
  have hlt := t.minValue_lt_maxValue
  have hval := (isPositiveOverflowInfinity_iff.mp hb).2.2
  have hainf : isOverflowInfinity fl t a = false :=
    Bool.eq_false_iff.mpr fun ha => hab.finite ⟨ha, by rw [isOverflowInfinity_eq, hb, Bool.or_true]⟩
  have hprev : t.Has (a.val - 1) := by
    obtain ⟨ha1, ha2⟩ := hab.min_has
    have ha := lt_of_le_of_ne ha1 fun heq => hab.nonempty rfl ⟨heq.symm, hval⟩
    exact ⟨by omega, by omega⟩
  have hprevout : ¬ (a.val ≤ a.val - 1 ∧ a.val - 1 ≤ b.val) := by omega
  have hkbc := @mulKey_of_positive fl t b hb c hcd.min_has.2 (.inl hbits)
  have hkbd := @mulKey_of_positive fl t b hb d hcd.max_has.2 (.inl hbits)
  have hlow : lowKey fl t a b c d = min (min (mulKey fl t b c) (mulKey fl t b d)) (min (mulKey fl t a c) (mulKey fl t a d)) :=
    min_comm _ _
  have hhigh : highKey fl t a b c d = max (max (mulKey fl t b c) (mulKey fl t b d)) (max (mulKey fl t a c) (mulKey fl t a d)) :=
    max_comm _ _
  rcases le_or_gt c.val 0 with hc0 | hc0
  · rw [if_neg (not_lt.mpr hc0)] at hkbc
    rcases le_or_gt d.val 0 with hd0 | hd0
    · -- the products with the infinity are the infinity below
      rw [if_neg (not_lt.mpr hd0)] at hkbd
      obtain ⟨hvalue, hin⟩ := kept_below hkbc hkbd hlow hhigh hkept
      clear hkept hlow hhigh
      have hkad := mulKey_of_finite hainf (Bool.eq_false_iff.mpr fun h => absurd (hcd.max_of_infinity h) (by omega))
      replace hin : ∀ z, t.Has z → z ≤ a.val * d.val → lowKey fl t a b c d ≤ z ∧ z ≤ highKey fl t a b c d :=
        fun z hz hle => hin z hz.1 (.inr (hkad ▸ (IntType.le_sat_iff hz).mpr hle))
      rcases hd0.lt_or_eq with hdneg | hdzero
      · rcases le_or_gt a.val 0 with ha0 | ha0
        · exact .of_zero hprev hprevout (by omega) (hin 0 t.has_zero (mul_nonneg_of_nonpos_of_nonpos ha0 hd0))
        · have had := mul_neg_of_pos_of_neg ha0 hdneg
          have hac : a.val * c.val ≤ a.val * d.val := mul_le_mul_of_nonneg_left hle ha0.le
          have hhas : t.Has (a.val * d.val) := by
            refine ⟨?_, had.le.trans t.has_zero.2⟩
            rcases hvalue with hvalue | hvalue
            · exact (le_mul_of_le_mulKey hu hainf ⟨le_rfl, hlt.le⟩ hvalue).trans hac
            · exact le_mul_of_le_mulKey hu hainf ⟨le_rfl, hlt.le⟩ hvalue
          obtain ⟨x, y, hx, hy, hx0, hy0, hxy⟩ := exists_mul_eq_of_neg hu ⟨by omega, by omega⟩ hhas had
          exact .of_mul_eq hxy hx hy hhas (by omega) (by omega) (hin _ hhas le_rfl)
      · obtain ⟨hp1, hp2⟩ := hprev
        exact .of_mul_eq (mul_one (min (a.val - 1) (-1))) ⟨by omega, by omega⟩ ⟨by omega, by omega⟩ ⟨by omega, by omega⟩
          (by omega) (by omega) (hin _ ⟨by omega, by omega⟩ (by rw [hdzero, mul_zero]; omega))
    · rw [if_pos hd0] at hkbd
      exact absurd (not_kept_of_both (.inr ⟨hkbc, hkbd⟩) hlow hhigh) hkept
  · -- the products with the infinity are the infinity above
    rw [if_pos hc0] at hkbc
    rw [if_pos (hc0.trans_le hle)] at hkbd
    obtain ⟨hvalue, hin⟩ := kept_above hkbc hkbd hlow hhigh hkept
    clear hkept hlow hhigh
    have hkac := mulKey_of_finite hainf (Bool.eq_false_iff.mpr fun h => absurd (hcd.min_of_infinity h) (by omega))
    replace hin : ∀ z, t.Has z → a.val * c.val ≤ z → lowKey fl t a b c d ≤ z ∧ z ≤ highKey fl t a b c d :=
      fun z hz hle => hin z hz.2 (.inl (hkac ▸ (IntType.sat_le_iff hz).mpr hle))
    rcases le_or_gt a.val 0 with ha0 | ha0
    · exact .of_zero hprev hprevout (by omega) (hin 0 t.has_zero (mul_nonpos_of_nonpos_of_nonneg ha0 hc0.le))
    · have hac := mul_pos ha0 hc0
      have had : a.val * c.val ≤ a.val * d.val := mul_le_mul_of_nonneg_left hle ha0.le
      have hhas : t.Has (a.val * c.val) := by
        refine ⟨hneg.le.trans hac.le, ?_⟩
        rcases hvalue with hvalue | hvalue
        · exact mul_le_of_mulKey_le ⟨hlt.le, le_rfl⟩ hac hvalue
        · exact had.trans (mul_le_of_mulKey_le ⟨hlt.le, le_rfl⟩ (hac.trans_le had) hvalue)
      have hfits := hhas.2
      have hprod : (-1) * -(a.val * c.val) = a.val * c.val := by rw [neg_mul_neg, one_mul]
      exact .of_mul_eq hprod ⟨by omega, by omega⟩ ⟨by omega, by omega⟩ hhas (by omega) (by omega) (hin _ hhas le_rfl)

/-- A type of one bit stores nothing for a first interval that ends at the infinity above, unless all values are zero.
Source: `tree-vrp.c` `extract_range_from_binary_expr` (`MULT_EXPR`) -/
theorem productsGivenUp_of_bit (hbit : t.maxValue = 0) (hb : isPositiveOverflowInfinity fl t b = true)
    (hab : Stored fl t .antiRange a b) (hcd : Stored fl t .antiRange c d) (hle : c.val ≤ d.val)
    (hzero : ¬ ((a.val = 0 ∧ b.val = 0) ∧ c.val = 0 ∧ d.val = 0)) : ProductsGivenUp fl t a b c d := by
  have hmax := IntType.maxValue_of_signed hu
  have hval := (isPositiveOverflowInfinity_iff.mp hb).2.2
  have hleave := hab.nonempty rfl
  have hleave' := hcd.nonempty rfl
  obtain ⟨ha1, ha2⟩ := hab.min_has
  obtain ⟨hc1, hc2⟩ := hcd.min_has
  obtain ⟨hd1, hd2⟩ := hcd.max_has
  have hazero : a.val = 0 := by omega
  have hdneg : d.val < 0 := by omega
  have hainf : isOverflowInfinity fl t a = false :=
    Bool.eq_false_iff.mpr fun ha => hab.finite ⟨ha, by rw [isOverflowInfinity_eq, hb, Bool.or_true]⟩
  have hdinf : isOverflowInfinity fl t d = false :=
    Bool.eq_false_iff.mpr fun h => absurd (hcd.max_of_infinity h) (by omega)
  have hkad : mulKey fl t a d = 0 := by
    rw [mulKey_of_finite hainf hdinf, hazero, zero_mul, IntType.sat]
    omega
  have hkbd := @mulKey_of_positive fl t b hb d hd2 (.inr hdneg.ne)
  rw [if_neg (by omega)] at hkbd
  unfold ProductsGivenUp lowKey highKey
  omega

omit hu in
/-- The order of the operands does not matter. -/
theorem ProductHit.symm {a b c d low high : ℤ} : ProductHit t a b c d low high → ProductHit t c d a b low high := by
  rintro ⟨x, y, hx, hy, hxy, hxout, hyout, hin⟩
  rw [mul_comm] at hxy hin
  exact ⟨y, x, hy, hx, hxy, hyout, hxout, hin⟩

omit hu in
/-- The order of the operands does not matter. Source: `tree-vrp.c` `extract_range_from_binary_expr` (`MULT_EXPR`). -/
theorem keys_comm (fl : Flags) (t : IntType) (a b c d : Cst) :
    lowKey fl t a b c d = lowKey fl t c d a b ∧ highKey fl t a b c d = highKey fl t c d a b := by
  unfold lowKey highKey
  rw [mulKey_comm c a, mulKey_comm c b, mulKey_comm d a, mulKey_comm d b]
  exact ⟨min_min_min_comm _ _ _ _, max_max_max_comm _ _ _ _⟩

end Infinite

section Mult

variable (hundef : t.overflowUndefined fl = true) (hbase : t.subrange = none) (hab : Stored fl t .antiRange a b)
  (hcd : Stored fl t .antiRange c d) (ha : Good fl t a) (hb : Good fl t b) (hc : Good fl t c) (hd : Good fl t d)

include hundef hbase hab hcd ha hb hc hd

/-- **Products of intervals one of which ends in an infinity** are right only where nothing is stored, or in a type of one bit.
Source: `tree-vrp.c` `extract_range_from_binary_expr` (`MULT_EXPR`)
Kind: L -/
theorem antiSound_mult_infinite_iff (hinf : SomeInfinity fl t a b c d) :
    AntiSound fl t t .MULT_EXPR a b c d ↔ ProductsGivenUp fl t a b c d ∨
      (t.maxValue = 0 ∧ (a.val = 0 ∧ b.val = 0) ∧ c.val = 0 ∧ d.val = 0) := by
  obtain ⟨hu, -⟩ := overflowWraps_of_undefined hundef
  rw [antiSound_mult_iff_products hundef hbase ha hb hc hd]
  by_cases hup : ProductsGivenUp fl t a b c d
  · exact iff_of_true (.inl hup) (.inl hup)
  rw [or_iff_right hup, or_iff_right hup]
  have hle := hab.le_of_not_bad ha.not_bad hb.not_bad
  have hle' := hcd.le_of_not_bad hc.not_bad hd.not_bad
  have hmax := IntType.maxValue_of_signed hu
  constructor
  · intro hmiss
    by_contra hzero
    -- an infinity of the second operand is one of the first in the other order
    have hhit : ∀ {a b c d : Cst}, Stored fl t .antiRange a b → Stored fl t .antiRange c d → c.val ≤ d.val →
        isOverflowInfinity fl t a = true ∨ isOverflowInfinity fl t b = true → ¬ ProductsGivenUp fl t a b c d →
        ¬ (t.maxValue = 0 ∧ (a.val = 0 ∧ b.val = 0) ∧ c.val = 0 ∧ d.val = 0) →
        ProductHit t a.val b.val c.val d.val (lowKey fl t a b c d) (highKey fl t a b c d) := by
      intro a b c d hab hcd hle hinf hup hzero
      rw [isOverflowInfinity_eq, isOverflowInfinity_eq, hab.min_not_positive, hab.max_not_negative, Bool.or_false,
        Bool.false_or] at hinf
      rcases hinf with hinf | hinf
      · exact exists_hit_of_negative hu hinf hab hcd hle hup
      · by_cases hbit : t.maxValue = 0
        · exact absurd (productsGivenUp_of_bit hu hbit hinf hab hcd hle fun h => hzero ⟨hbit, h⟩) hup
        · exact exists_hit_of_positive hu (by have := t.has_zero.2; omega) hinf hab hcd hle hup
    obtain ⟨x, y, hx, hy, hxy, hxout, hyout, hin⟩ :
        ProductHit t a.val b.val c.val d.val (lowKey fl t a b c d) (highKey fl t a b c d) := by
      rcases or_assoc.mpr hinf with hinf | hinf
      · exact hhit hab hcd hle' hinf hup hzero
      · unfold ProductsGivenUp at hup
        rw [(keys_comm fl t a b c d).1, (keys_comm fl t a b c d).2] at hup ⊢
        exact (hhit hcd hab hle hinf hup (by tauto)).symm
    exact hmiss x y hx hy hxy hxout hyout hin
  · -- both operands are -1, and their product is no value
    rintro ⟨hbit, ⟨ha0, hb0⟩, hc0, hd0⟩ x y ⟨hx1, hx2⟩ ⟨hy1, hy2⟩ hxy hxout hyout -
    obtain rfl : x = -1 := by omega
    obtain rfl : y = -1 := by omega
    have := hxy.2
    omega

end Mult

/-! ### Values -/

section Values

/-- Without infinities the keys are those of the products. Source: `tree-vrp.c` `vrp_int_const_binop` (`MULT_EXPR`). Kind: L -/
theorem keys_of_plain (hab : IsConstRange t a b) (hcd : IsConstRange t c d) :
    lowKey fl t a b c d = t.sat (productLow a.val b.val c.val d.val) ∧
      highKey fl t a b c d = t.sat (productHigh a.val b.val c.val d.val) := by
  have hkey {u v : Cst} (hu : Plain t u) (hv : Plain t v) := @mulKey_of_finite fl t u v hu.not_infinity hv.not_infinity
  unfold lowKey highKey productLow productHigh
  rw [hkey hab.min_plain hcd.min_plain, hkey hab.min_plain hcd.max_plain, hkey hab.max_plain hcd.min_plain,
    hkey hab.max_plain hcd.max_plain, t.sat_mono.map_min, t.sat_mono.map_min, t.sat_mono.map_min, t.sat_mono.map_max,
    t.sat_mono.map_max, t.sat_mono.map_max]
  exact ⟨rfl, rfl⟩

/-- Products of ends of an interval that has zero are on both sides of zero. -/
theorem products_around_zero {a b : ℤ} (c d : ℤ) (h : a ≤ 0 ∧ 0 ≤ b) : productLow a b c d ≤ 0 ∧ 0 ≤ productHigh a b c d := by
  unfold productLow productHigh
  rcases le_total 0 c with hc | hc
  · have hlow := mul_nonpos_of_nonpos_of_nonneg h.1 hc
    have hhigh := mul_nonneg h.2 hc
    omega
  · have hlow := mul_nonpos_of_nonneg_of_nonpos h.2 hc
    have hhigh := mul_nonneg_of_nonpos_of_nonpos h.1 hc
    omega

/-- The order of the operands does not matter. -/
theorem products_comm (a b c d : ℤ) : productLow a b c d = productLow c d a b ∧ productHigh a b c d = productHigh c d a b := by
  unfold productLow productHigh
  rw [mul_comm a c, mul_comm a d, mul_comm b c, mul_comm b d]
  omega

/-- An interval that is not the whole type leaves a value out. -/
theorem IntType.exists_outside {a b : ℤ} (ha : t.Has a) (hb : t.Has b) (h : ¬ (a = t.minValue ∧ b = t.maxValue)) :
    ∃ x, t.Has x ∧ ¬ (a ≤ x ∧ x ≤ b) := by
  unfold IntType.Has at *
  rcases not_and_or.mp h with h | h
  · exact ⟨a - 1, by omega, by omega⟩
  · exact ⟨b + 1, by omega, by omega⟩

/-- The ends of an interval without zero have one sign. -/
theorem ends_one_sign {a b p q : ℤ} (hle : a ≤ b) (h0 : ¬ (a ≤ 0 ∧ 0 ≤ b)) (hp : p = a ∨ p = b) (hq : q = a ∨ q = b) :
    (0 < a ∧ 0 < p ∧ 0 < q) ∨ (b < 0 ∧ p < 0 ∧ q < 0) := by
  omega

/-- The products of ends of two intervals have one sign if neither interval has zero. -/
theorem exists_product_hit {low high : ℤ} (hu : t.unsigned = false) (hab : IsConstRange t a b) (hcd : IsConstRange t c d)
    (hleave : ¬ (a.val = t.minValue ∧ b.val = t.maxValue)) (hleave' : ¬ (c.val = t.minValue ∧ d.val = t.maxValue))
    (hlow : productLow a.val b.val c.val d.val = low) (hhigh : productHigh a.val b.val c.val d.val = high)
    (hkept : ¬ ((low ≤ t.minValue ∧ t.maxValue ≤ high) ∨ t.maxValue < low ∨ high < t.minValue)) (hle : low ≤ high)
    (hzero : ¬ ((a.val ≤ 0 ∧ 0 ≤ b.val) ∧ (c.val ≤ 0 ∧ 0 ≤ d.val))) :
    ProductHit t a.val b.val c.val d.val low high := by
  -- zero is hit by an operand that is zero
  have hzeros {a b c d : Cst} (hab : IsConstRange t a b) (hleave : ¬ (a.val = t.minValue ∧ b.val = t.maxValue))
      (hab0 : a.val ≤ 0 ∧ 0 ≤ b.val) (hcd0 : ¬ (c.val ≤ 0 ∧ 0 ≤ d.val)) : ProductHit t a.val b.val c.val d.val
        (productLow a.val b.val c.val d.val) (productHigh a.val b.val c.val d.val) := by
    obtain ⟨x, hx, hxout⟩ := IntType.exists_outside hab.min_plain.has hab.max_plain.has hleave
    exact .of_zero hx hxout hcd0 (products_around_zero _ _ hab0)
  by_cases hab0 : a.val ≤ 0 ∧ 0 ≤ b.val
  · rw [← hlow, ← hhigh]
    exact hzeros hab hleave hab0 fun h => hzero ⟨hab0, h⟩
  by_cases hcd0 : c.val ≤ 0 ∧ 0 ≤ d.val
  · rw [← hlow, ← hhigh, (products_comm _ _ _ _).1, (products_comm _ _ _ _).2]
    exact (hzeros hcd hleave' hcd0 hab0).symm
  -- all products have one sign: factors of the other signs have the same product
  obtain ⟨p, q, hpq, hleast⟩ := (corner_min (fun u v => u.val * v.val) a b c d).1
  obtain ⟨p', q', hpq', hgreatest⟩ := (corner_max (fun u v => u.val * v.val) a b c d).1
  have hlow' : low = p.val * q.val := hlow.symm.trans hleast
  have hhigh' : high = p'.val * q'.val := hhigh.symm.trans hgreatest
  have hmax := IntType.maxValue_of_signed hu
  obtain ⟨hzero1, hzero2⟩ := t.has_zero
  have hlowmax : low ≤ t.maxValue := by omega
  have hhighmin : t.minValue ≤ high := by omega
  have hafits := hab.min_plain.has.2
  have hcfits := hcd.min_plain.has.2
  have hp := ends_one_sign hab.min_le_max hab0 (hpq.1.imp (congrArg _) (congrArg _)) (hpq'.1.imp (congrArg _) (congrArg _))
  have hq := ends_one_sign hcd.min_le_max hcd0 (hpq.2.imp (congrArg _) (congrArg _)) (hpq'.2.imp (congrArg _) (congrArg _))
  clear hkept hzero hleave hleave' hab0 hcd0 hzeros hlow hhigh hleast hgreatest
  rcases hp with ⟨ha0, hp0, hp0'⟩ | ⟨hb0, hp0, hp0'⟩
  · rcases hq with ⟨hc0, hq0, hq0'⟩ | ⟨hd0, hq0, hq0'⟩
    · have hpos : 0 < low := hlow' ▸ mul_pos hp0 hq0
      have hprod : (-1) * -low = low := by rw [neg_mul_neg, one_mul]
      exact .of_mul_eq hprod ⟨by omega, by omega⟩ ⟨by omega, by omega⟩ ⟨by omega, by omega⟩ (by omega) (by omega) ⟨le_rfl, hle⟩
    · have hneg : high < 0 := hhigh' ▸ mul_neg_of_pos_of_neg hp0' hq0'
      have hhas : t.Has high := ⟨by omega, by omega⟩
      obtain ⟨x, y, hx, hy, hx0, hy0, hxy⟩ := exists_mul_eq_of_neg hu ⟨by omega, by omega⟩ hhas hneg
      exact .of_mul_eq hxy hx hy hhas (by omega) (by omega) ⟨hle, le_rfl⟩
  · rcases hq with ⟨hc0, hq0, hq0'⟩ | ⟨hd0, hq0, hq0'⟩
    · have hneg : high < 0 := hhigh' ▸ mul_neg_of_neg_of_pos hp0' hq0'
      have hhas : t.Has high := ⟨by omega, by omega⟩
      obtain ⟨y, x, hy, hx, hy0, hx0, hyx⟩ := exists_mul_eq_of_neg hu ⟨by omega, by omega⟩ hhas hneg
      exact .of_mul_eq ((mul_comm x y).trans hyx) hx hy hhas (by omega) (by omega) ⟨hle, le_rfl⟩
    · have hpos : 0 < low := hlow' ▸ mul_pos_of_neg_of_neg hp0 hq0
      have hhas : t.Has low := ⟨by omega, by omega⟩
      exact .of_mul_eq (one_mul low) ⟨by omega, by omega⟩ hhas hhas (by omega) (by omega) ⟨le_rfl, hle⟩

/-- **Products of values**: the outer neighbours of two intervals around zero have the products nearest to zero.
Source: `tree-vrp.c` `extract_range_from_binary_expr` (`MULT_EXPR`)
Kind: L -/
theorem antiSound_mult_plain_iff (hundef : t.overflowUndefined fl = true) (hbase : t.subrange = none) (hab : IsConstRange t a b)
    (hcd : IsConstRange t c d) (hleave : ¬ (a.val = t.minValue ∧ b.val = t.maxValue))
    (hleave' : ¬ (c.val = t.minValue ∧ d.val = t.maxValue)) :
    AntiSound fl t t .MULT_EXPR a b c d ↔ ProductsGivenUp fl t a b c d ∨ ProductsMissed t a.val b.val c.val d.val := by
  obtain ⟨hlowkey, hhighkey⟩ := @keys_of_plain fl t a b c d hab hcd
  rw [antiSound_mult_iff_products hundef hbase hab.min_plain.good hab.max_plain.good hcd.min_plain.good hcd.max_plain.good]
  by_cases hgiven : ProductsGivenUp fl t a b c d
  · exact iff_of_true (.inl hgiven) (.inl hgiven)
  rw [or_iff_right hgiven, or_iff_right hgiven]
  unfold ProductsGivenUp at hgiven
  rw [hlowkey, hhighkey] at hgiven ⊢
  have hle : productLow a.val b.val c.val d.val ≤ productHigh a.val b.val c.val d.val := by
    unfold productLow productHigh
    omega
  have hzeros := products_around_zero (a := a.val) (b := b.val) c.val d.val
  generalize hlow : productLow a.val b.val c.val d.val = low at *
  generalize hhigh : productHigh a.val b.val c.val d.val = high at *
  have hinside : ∀ z, t.Has z → ((t.sat low ≤ z ∧ z ≤ t.sat high) ↔ (low ≤ z ∧ z ≤ high)) := by
    rintro z ⟨hz1, hz2⟩
    unfold IntType.sat at hgiven ⊢
    omega
  have hup : ¬ ((low ≤ t.minValue ∧ t.maxValue ≤ high) ∨ t.maxValue < low ∨ high < t.minValue) := by
    unfold IntType.sat at hgiven
    omega
  refine (forall₅_congr fun x y _ _ hxy =>
    imp_congr_right fun _ => imp_congr_right fun _ => not_congr (hinside (x * y) hxy)).trans ?_
  clear hinside hgiven
  obtain ⟨hu, _⟩ := overflowWraps_of_undefined hundef
  obtain ⟨ha1, ha2⟩ := hab.min_plain.has
  obtain ⟨hb1, hb2⟩ := hab.max_plain.has
  obtain ⟨hc1, hc2⟩ := hcd.min_plain.has
  obtain ⟨hd1, hd2⟩ := hcd.max_plain.has
  obtain ⟨hzero1, hzero2⟩ := t.has_zero
  constructor
  · intro h
    by_cases hzero : (a.val ≤ 0 ∧ 0 ≤ b.val) ∧ (c.val ≤ 0 ∧ 0 ≤ d.val)
    · obtain ⟨hab0, hcd0⟩ := hzero
      obtain ⟨hlow0, hhigh0⟩ := hzeros hab0
      refine ⟨hab0, hcd0, ?_, ?_, ?_, ?_⟩
      · by_contra hcond
        push Not at hcond
        have hpos : 0 < (b.val + 1) * (d.val + 1) := mul_pos (by omega) (by omega)
        exact h (b.val + 1) (d.val + 1) ⟨by omega, by omega⟩ ⟨by omega, by omega⟩ ⟨by omega, by omega⟩
          (by omega) (by omega) ⟨by omega, by omega⟩
      · by_contra hcond
        push Not at hcond
        have hpos : 0 < (a.val - 1) * (c.val - 1) := mul_pos_of_neg_of_neg (by omega) (by omega)
        exact h (a.val - 1) (c.val - 1) ⟨by omega, by omega⟩ ⟨by omega, by omega⟩ ⟨by omega, by omega⟩
          (by omega) (by omega) ⟨by omega, by omega⟩
      · by_contra hcond
        push Not at hcond
        have hneg : (b.val + 1) * (c.val - 1) < 0 := mul_neg_of_pos_of_neg (by omega) (by omega)
        exact h (b.val + 1) (c.val - 1) ⟨by omega, by omega⟩ ⟨by omega, by omega⟩ ⟨by omega, by omega⟩
          (by omega) (by omega) ⟨by omega, by omega⟩
      · by_contra hcond
        push Not at hcond
        have hneg : (a.val - 1) * (d.val + 1) < 0 := mul_neg_of_neg_of_pos (by omega) (by omega)
        exact h (a.val - 1) (d.val + 1) ⟨by omega, by omega⟩ ⟨by omega, by omega⟩ ⟨by omega, by omega⟩
          (by omega) (by omega) ⟨by omega, by omega⟩
    · obtain ⟨x, y, hx, hy, hxy, hxout, hyout, hin⟩ := exists_product_hit hu hab hcd hleave hleave' hlow hhigh hup hle hzero
      exact absurd hin (h x y hx hy hxy hxout hyout)
  · rintro ⟨hab0, hcd0, h1, h2, h3, h4⟩ x y ⟨hx1, hx2⟩ ⟨hy1, hy2⟩ ⟨hxy1, hxy2⟩ hxout hyout hin
    rcases lt_or_ge x a.val with hxa | hxa
    · rcases lt_or_ge y c.val with hyc | hyc
      · have hle : (a.val - 1) * (c.val - 1) ≤ x * y :=
          mul_le_mul_of_nonpos_of_nonpos (by omega) (by omega) (by omega) (by omega)
        omega
      · have hyd : d.val + 1 ≤ y := by omega
        have hle : x * y ≤ (a.val - 1) * (d.val + 1) := by
          calc x * y ≤ (a.val - 1) * y := mul_le_mul_of_nonneg_right (by omega) (by omega)
            _ ≤ (a.val - 1) * (d.val + 1) := mul_le_mul_of_nonpos_left hyd (by omega)
        omega
    · have hxb : b.val + 1 ≤ x := by omega
      rcases lt_or_ge y c.val with hyc | hyc
      · have hle : x * y ≤ (b.val + 1) * (c.val - 1) := by
          calc x * y ≤ x * (c.val - 1) := mul_le_mul_of_nonneg_left (by omega) (by omega)
            _ ≤ (b.val + 1) * (c.val - 1) := mul_le_mul_of_nonpos_right hxb (by omega)
        omega
      · have hyd : d.val + 1 ≤ y := by omega
        have hle : (b.val + 1) * (d.val + 1) ≤ x * y := mul_le_mul hxb hyd (by omega) (by omega)
        omega

end Values

/-- **Products**: a marked product is given up; of the others, infinities and values are told apart.
Source: `tree-vrp.c` `extract_range_from_binary_expr` (`MULT_EXPR`)
Kind: C -/
theorem antiSound_mult_iff (hundef : t.overflowUndefined fl = true) (hbase : t.subrange = none)
    (hab : Stored fl t .antiRange a b) (hcd : Stored fl t .antiRange c d) :
    (MultCondition fl t a b c d → AntiSound fl t t .MULT_EXPR a b c d) ∧
      (¬ SomeBad fl t a b c d → AntiSound fl t t .MULT_EXPR a b c d → MultCondition fl t a b c d) := by
  have hvalues (hbad : ¬ SomeBad fl t a b c d) : AntiSound fl t t .MULT_EXPR a b c d ↔ ProductsGivenUp fl t a b c d ∨
      (SomeInfinity fl t a b c d ∧ t.maxValue = 0 ∧ (a.val = 0 ∧ b.val = 0) ∧ c.val = 0 ∧ d.val = 0) ∨
      (¬ SomeInfinity fl t a b c d ∧ ProductsMissed t a.val b.val c.val d.val) := by
    simp only [SomeBad, not_or] at hbad
    obtain ⟨ha, hb, hc, hd⟩ := hbad
    by_cases hinf : SomeInfinity fl t a b c d
    · rw [antiSound_mult_infinite_iff hundef hbase hab hcd ⟨hab.min_has, ha⟩ ⟨hab.max_has, hb⟩ ⟨hcd.min_has, hc⟩
        ⟨hcd.max_has, hd⟩ hinf]
      tauto
    · have hplain {v : Cst} (hv : t.Has v.val) (hgood : ¬ Bad fl t v) (hno : ¬ isOverflowInfinity fl t v = true) : Plain t v := by
        refine ⟨hv, ?_⟩
        by_contra hmark
        exact hgood ⟨by simpa using hmark, Bool.eq_false_iff.mpr hno⟩
      have hno := hinf
      simp only [SomeInfinity, not_or] at hno
      rw [antiSound_mult_plain_iff hundef hbase
        ⟨hplain hab.min_has ha hno.1, hplain hab.max_has hb hno.2.1, hab.le_of_not_bad ha hb⟩
        ⟨hplain hcd.min_has hc hno.2.2.1, hplain hcd.max_has hd hno.2.2.2, hcd.le_of_not_bad hc hd⟩
        (hab.nonempty rfl) (hcd.nonempty rfl)]
      tauto
  refine ⟨?_, fun hbad hsound => .inr ⟨hbad, (hvalues hbad).mp hsound⟩⟩
  rintro (hmarked | ⟨hbad, hcond⟩)
  · exact antiSound_of_varying (extract_mult_of_marked hundef hbase hmarked)
  · exact (hvalues hbad).mpr hcond

/-! ## All codes -/

/-- When an operation on two anti-ranges is right.
Source: `tree-vrp.c` `extract_range_from_binary_expr` ("For these operations ... nothing can be claimed") -/
def AntiCondition (fl : Flags) (t : IntType) (code : TreeCode) (a b c d : Cst) : Prop :=
  match code with
  | .MIN_EXPR => MinCondition fl t a b c d
  | .MAX_EXPR => MaxCondition fl t a b c d
  | .MULT_EXPR => t.overflowUndefined fl = true → MultCondition fl t a b c d
  | .TRUTH_AND_EXPR => TruthAndCondition fl t a b c d
  | .TRUTH_OR_EXPR => TruthOrCondition fl t a b c d
  | _ => True

end Ends

end GccCore.Gcc.TreeVrp
