import GccCore.Gcc.TreeVrp.Compare

/-!
# `gcc/tree-vrp.c`: relational tests that become equalities

`simplify_cond_using_ranges` looks for the only value of a range that satisfies a comparison with a constant, or that does not
satisfy it.

* **The functions** (`testForSingularity`, `simplifyCondUsingRanges`). The bound that a comparison sets (`movedBound`) is the constant
  or the one next to it.
* **Ends** (`testForSingularity_val`): the ends of the intersection, as integers. An end of the range that cannot be compared with the
  bound is taken as it is (`blind`); one that lies outside a sub-type is cut (`outside`).
* **Main result**: `simplifyCond_sound_iff`. The equality has the truth value of the comparison unless the only value that is left
  comes from such an end and is the wrong one (`Misjudged`).
* **The defect** (`infinity_misjudged`): a test of `INT_MAX` that is false becomes one that is true.
-/

namespace GccCore.Gcc.TreeVrp

open GccCore.Gcc.FoldConst

variable {fl : Flags} {t : IntType}

/-! ## The functions -/

/-- The comparison of integers that holds if another one fails. Source: `fold-const.c` `invert_tree_comparison`
(without NaNs) -/
def CompCode.invert : CompCode → CompCode
  | .LT_EXPR => .GE_EXPR
  | .LE_EXPR => .GT_EXPR
  | .GT_EXPR => .LE_EXPR
  | .GE_EXPR => .LT_EXPR
  | .EQ_EXPR => .NE_EXPR
  | .NE_EXPR => .EQ_EXPR

/-- The bound that a comparison with a constant sets; an infinity is not moved.
Source: `tree-vrp.c` `test_for_singularity` (`!is_overflow_infinity (max)`, `!is_overflow_infinity (min)`) -/
def movedBound (fl : Flags) (t : IntType) (condCode : CompCode) (op1 : Cst) : Cst :=
  match condCode with
  | .LT_EXPR => if isOverflowInfinity fl t op1 then op1 else minusOne t op1
  | .GT_EXPR => if isOverflowInfinity fl t op1 then op1 else plusOne t op1
  | _ => op1

/-- The least and the greatest value that satisfy a comparison with a constant.
Source: `tree-vrp.c` `test_for_singularity` ("Extract minimum/maximum values") -/
def satisfying (fl : Flags) (t : IntType) (condCode : CompCode) (op1 : Cst) : Option (Cst × Cst) :=
  match condCode with
  | .LE_EXPR | .LT_EXPR => some (.ofVal t.typeMin, movedBound fl t condCode op1)
  | .GE_EXPR | .GT_EXPR => some (movedBound fl t condCode op1, .ofVal t.typeMax)
  | .EQ_EXPR | .NE_EXPR => none

/-- Source: `tree-vrp.c` `test_for_singularity` ("refine the minimum"). -/
def refineMin (fl : Flags) (t : IntType) (vrMin min : Cst) : Cst :=
  if compareValues fl t vrMin min = -1 then min else vrMin

/-- Source: `tree-vrp.c` `test_for_singularity` ("refine the minimum and maximum values"). -/
def refineMax (fl : Flags) (t : IntType) (vrMax max : Cst) : Cst :=
  if compareValues fl t vrMax max = 1 then max else vrMax

/-- The only value of a range that satisfies a comparison. Source: `tree-vrp.c` `test_for_singularity`. -/
def testForSingularity (fl : Flags) (t : IntType) (condCode : CompCode) (op1 vrMin vrMax : Cst) : Option Cst :=
  (satisfying fl t condCode op1).bind fun bounds =>
    let min := refineMin fl t vrMin bounds.1
    let max := refineMax fl t vrMax bounds.2
    if min.val = max.val then some min else none

/-- The new comparison and its constant, or `none` if the condition stays.
Source: `tree-vrp.c` `simplify_cond_using_ranges` -/
def simplifyCondUsingRanges (fl : Flags) (t : IntType) (condCode : CompCode) (op1 : Cst) (vr : ValueRange) :
    Option (CompCode × Cst) :=
  if condCode.isOrder then
    match vr with
    | .known .range min max =>
      ((testForSingularity fl t condCode op1 min max).map fun v => (.EQ_EXPR, v)).or
        ((testForSingularity fl t condCode.invert op1 min max).map fun v => (.NE_EXPR, v))
    | _ => none
  else none

/-! ## What can go wrong -/

/-- The end of the range is taken as it is, although the bound may cut the range: the two cannot be compared, or the bound is an
infinity and was not moved.
Source: `tree-vrp.c` `test_for_singularity`, `compare_values` (`return -2`) -/
def blind (fl : Flags) (t : IntType) (condCode : CompCode) (op1 vrMin vrMax : Cst) : Bool :=
  match condCode with
  | .LE_EXPR => decide (Incomparable fl t vrMax op1)
  | .LT_EXPR => isOverflowInfinity fl t op1 || decide (Incomparable fl t vrMax (minusOne t op1))
  | .GE_EXPR => decide (Incomparable fl t vrMin op1)
  | .GT_EXPR => isOverflowInfinity fl t op1 || decide (Incomparable fl t vrMin (plusOne t op1))
  | _ => false

/-- The other end of the range lies outside the sub-type and is cut.
Source: `tree-vrp.c` `test_for_singularity` (`TYPE_MIN_VALUE (TREE_TYPE (op0))`) -/
def outside (t : IntType) (condCode : CompCode) (vrMin vrMax : Cst) : Bool :=
  match condCode with
  | .LE_EXPR | .LT_EXPR => !vrMin.overflow && decide (vrMin.val < t.typeMin)
  | .GE_EXPR | .GT_EXPR => !vrMax.overflow && decide (t.typeMax < vrMax.val)
  | _ => false

/-- The last integer that satisfies a comparison with a constant. Source: `tree-vrp.c` `test_for_singularity`. -/
def CompCode.limit (condCode : CompCode) (c : ℤ) : ℤ :=
  match condCode with
  | .LT_EXPR => c - 1
  | .GT_EXPR => c + 1
  | _ => c

/-- The lower end of the intersection. Source: `tree-vrp.c` `test_for_singularity`. -/
def lowEnd (fl : Flags) (t : IntType) (condCode : CompCode) (op1 vrMin vrMax : Cst) : ℤ :=
  match condCode with
  | .LE_EXPR | .LT_EXPR => if outside t condCode vrMin vrMax then t.typeMin else vrMin.val
  | _ => if blind fl t condCode op1 vrMin vrMax then vrMin.val else max vrMin.val (condCode.limit op1.val)

/-- The upper end of the intersection. Source: `tree-vrp.c` `test_for_singularity`. -/
def highEnd (fl : Flags) (t : IntType) (condCode : CompCode) (op1 vrMin vrMax : Cst) : ℤ :=
  match condCode with
  | .LE_EXPR | .LT_EXPR => if blind fl t condCode op1 vrMin vrMax then vrMax.val else min vrMax.val (condCode.limit op1.val)
  | _ => if outside t condCode vrMin vrMax then t.typeMax else vrMax.val

/-- **What goes wrong**: one value is left, and either an end outside the sub-type was cut, or an end was taken as it is and the value
does not satisfy the comparison.
Source: `tree-vrp.c` `test_for_singularity` -/
def Misjudged (fl : Flags) (t : IntType) (condCode : CompCode) (op1 vrMin vrMax : Cst) : Prop :=
  lowEnd fl t condCode op1 vrMin vrMax = highEnd fl t condCode op1 vrMin vrMax ∧
    (outside t condCode vrMin vrMax = true ∨
      (blind fl t condCode op1 vrMin vrMax = true ∧ condCode.eval vrMin.val op1.val = false))

/-! ## Ends -/

section Ends

variable {vrMin vrMax bound : Cst}

/-- The upper end is the smaller one of two constants that can be compared. Source: `tree-vrp.c` `test_for_singularity`. Kind: L -/
theorem refineMax_val (hmax : t.Has vrMax.val) (hbound : t.Has bound.val) :
    (refineMax fl t vrMax bound).val =
      if Incomparable fl t vrMax bound then vrMax.val else min vrMax.val bound.val := by
  unfold refineMax
  rw [compareValues_key hmax hbound]
  by_cases hinc : Incomparable fl t vrMax bound
  · rw [if_pos hinc, if_pos hinc, if_neg (by decide)]
  · rw [if_neg hinc, if_neg hinc]
    by_cases hlt : bound.key fl t < vrMax.key fl t
    · rw [if_neg hlt.le.not_gt, if_pos hlt, if_pos rfl, min_eq_right (Cst.val_le_val hbound hmax hlt.le)]
    · rw [if_neg hlt, min_eq_left (Cst.val_le_val hmax hbound (not_lt.mp hlt))]
      split_ifs <;> first | rfl | contradiction

/-- The lower end is the greater one of two constants that can be compared. Source: `tree-vrp.c` `test_for_singularity`. Kind: L -/
theorem refineMin_val (hmin : t.Has vrMin.val) (hbound : t.Has bound.val) :
    (refineMin fl t vrMin bound).val =
      if Incomparable fl t vrMin bound then vrMin.val else max vrMin.val bound.val := by
  unfold refineMin
  rw [compareValues_key hmin hbound]
  by_cases hinc : Incomparable fl t vrMin bound
  · rw [if_pos hinc, if_pos hinc, if_neg (by decide)]
  · rw [if_neg hinc, if_neg hinc]
    by_cases hlt : vrMin.key fl t < bound.key fl t
    · rw [if_pos hlt, if_pos rfl, max_eq_right (Cst.val_le_val hmin hbound hlt.le)]
    · rw [if_neg hlt, max_eq_left (Cst.val_le_val hbound hmin (not_lt.mp hlt))]
      split_ifs <;> first | rfl | contradiction

/-- An infinity lies at the end of its type, which is no sub-type. Source: `tree-vrp.c` `needs_overflow_infinity`. Kind: L -/
theorem typeEnds_of_infinity {v : Cst} (hinf : isOverflowInfinity fl t v = true) :
    t.typeMin = t.minValue ∧ t.typeMax = t.maxValue := by
  have hsub : t.subrange = none := by
    simp only [isOverflowInfinity, needsOverflowInfinity, Bool.and_eq_true, Option.isNone_iff_eq_none] at hinf
    exact hinf.1.1.2
  rw [IntType.typeMin, IntType.typeMax, hsub]
  exact ⟨rfl, rfl⟩

/-- A value that is not marked can be compared with all but a mark that is no infinity.
Source: `tree-vrp.c` `compare_values_warnv`
Kind: L -/
theorem incomparable_ofVal_iff {v : Cst} {x : ℤ} : Incomparable fl t v (.ofVal x) ↔ Bad fl t v := by
  constructor
  · rintro ⟨-, hmark | hmark, hv, -⟩
    · exact ⟨hmark, hv⟩
    · cases hmark
  · rintro ⟨hmark, hv⟩
    refine ⟨?_, .inl hmark, hv, by simp [isOverflowInfinity, Cst.ofVal]⟩
    rintro rfl
    cases hmark

/-- The least value of the type cuts the range of a sub-type only. Source: `tree-vrp.c` `test_for_singularity`. Kind: L -/
theorem refineMin_typeMin (hmin : t.Has vrMin.val) :
    (refineMin fl t vrMin (.ofVal t.typeMin)).val =
      if !vrMin.overflow && decide (vrMin.val < t.typeMin) then t.typeMin else vrMin.val := by
  rw [refineMin_val hmin t.has_typeMin.1]
  simp only [incomparable_ofVal_iff]
  change (if _ then _ else max _ t.typeMin) = _
  cases hmark : vrMin.overflow with
  | false =>
    rw [if_neg (by simp [Bad, hmark])]
    simp only [Bool.not_false, Bool.true_and, decide_eq_true_eq]
    split_ifs <;> omega
  | true =>
    rw [Bool.not_true, Bool.false_and, if_neg Bool.false_ne_true]
    split_ifs with hbad
    · rfl
    · have hinf : isOverflowInfinity fl t vrMin = true := by simpa [Bad, hmark] using hbad
      rw [(typeEnds_of_infinity hinf).1]
      exact max_eq_left hmin.1

/-- The greatest value of the type cuts the range of a sub-type only. Source: `tree-vrp.c` `test_for_singularity`. Kind: L -/
theorem refineMax_typeMax (hmax : t.Has vrMax.val) :
    (refineMax fl t vrMax (.ofVal t.typeMax)).val =
      if !vrMax.overflow && decide (t.typeMax < vrMax.val) then t.typeMax else vrMax.val := by
  rw [refineMax_val hmax t.has_typeMin.2]
  simp only [incomparable_ofVal_iff]
  change (if _ then _ else min _ t.typeMax) = _
  cases hmark : vrMax.overflow with
  | false =>
    rw [if_neg (by simp [Bad, hmark])]
    simp only [Bool.not_false, Bool.true_and, decide_eq_true_eq]
    split_ifs <;> omega
  | true =>
    rw [Bool.not_true, Bool.false_and, if_neg Bool.false_ne_true]
    split_ifs with hbad
    · rfl
    · have hinf : isOverflowInfinity fl t vrMax = true := by simpa [Bad, hmark] using hbad
      rw [(typeEnds_of_infinity hinf).2]
      exact min_eq_left hmax.2

end Ends

/-! ## One value between two bounds -/

section Single

variable {lo hi m limit : ℤ} {outside blind : Bool}

/-- **A comparison from above.** Cut on both sides, one value decides it unless a side was cut or not cut wrongly. -/
theorem single_below (hle : lo ≤ hi) (hout : outside = true → lo < m) {low high : ℤ}
    (hlow : low = if outside then m else lo) (hhigh : high = if blind then hi else min hi limit) :
    (low = high → ∀ x, lo ≤ x → x ≤ hi → (x = low ↔ x ≤ limit)) ↔
      ¬ (low = high ∧ (outside = true ∨ (blind = true ∧ ¬ lo ≤ limit))) := by
  constructor
  · rintro hsound ⟨heq, hwrong⟩
    have hfirst := hsound heq lo le_rfl hle
    have hlast := hsound heq hi hle le_rfl
    cases outside <;> cases blind <;> simp at hout hlow hhigh hwrong <;> omega
  · intro hright heq x hx hx'
    cases outside <;> cases blind <;> simp at hlow hhigh hright <;> omega

/-- **A comparison from below.** -/
theorem single_above (hle : lo ≤ hi) (hout : outside = true → m < hi) {low high : ℤ}
    (hlow : low = if blind then lo else max lo limit) (hhigh : high = if outside then m else hi) :
    (low = high → ∀ x, lo ≤ x → x ≤ hi → (x = low ↔ limit ≤ x)) ↔
      ¬ (low = high ∧ (outside = true ∨ (blind = true ∧ ¬ limit ≤ lo))) := by
  constructor
  · rintro hsound ⟨heq, hwrong⟩
    have hfirst := hsound heq lo le_rfl hle
    have hlast := hsound heq hi hle le_rfl
    cases outside <;> cases blind <;> simp at hout hlow hhigh hwrong <;> omega
  · intro hright heq x hx hx'
    cases outside <;> cases blind <;> simp at hlow hhigh hright <;> omega

end Single

/-! ## Soundness -/

section Sound

variable {condCode : CompCode} {op1 vrMin vrMax : Cst}

/-- Some values of the type satisfy a comparison with a constant and some do not. -/
def CompCode.Varies (condCode : CompCode) (t : IntType) (c : ℤ) : Prop :=
  (∃ x, t.Has x ∧ condCode.eval x c = true) ∧ ∃ x, t.Has x ∧ condCode.eval x c = false

theorem CompCode.eval_invert (condCode : CompCode) (x c : ℤ) :
    condCode.invert.eval x c = !condCode.eval x c := by
  rw [Bool.eq_iff_iff]
  cases condCode <;> simp [CompCode.eval, CompCode.invert]

theorem CompCode.Varies.invert {c : ℤ} (h : condCode.Varies t c) : condCode.invert.Varies t c := by
  obtain ⟨⟨x, hx, htrue⟩, y, hy, hfalse⟩ := h
  refine ⟨⟨y, hy, ?_⟩, x, hx, ?_⟩
  · rw [condCode.eval_invert, hfalse]
    rfl
  · rw [condCode.eval_invert, htrue]
    rfl

variable (horder : condCode.isOrder = true) (hhas : t.Has op1.val) (hvaries : condCode.Varies t op1.val)
  (hmin : t.Has vrMin.val) (hmax : t.Has vrMax.val)

include horder hhas hvaries hmin hmax

/-- **The ends of the intersection** are those that are computed. Source: `tree-vrp.c` `test_for_singularity`. Kind: L -/
theorem testForSingularity_val :
    (testForSingularity fl t condCode op1 vrMin vrMax).map Cst.val =
      if lowEnd fl t condCode op1 vrMin vrMax = highEnd fl t condCode op1 vrMin vrMax
      then some (lowEnd fl t condCode op1 vrMin vrMax) else none := by
  have hends {min max : Cst} (hsat : satisfying fl t condCode op1 = some (min, max))
      (hlow : (refineMin fl t vrMin min).val = lowEnd fl t condCode op1 vrMin vrMax)
      (hhigh : (refineMax fl t vrMax max).val = highEnd fl t condCode op1 vrMin vrMax) :
      (testForSingularity fl t condCode op1 vrMin vrMax).map Cst.val =
        if lowEnd fl t condCode op1 vrMin vrMax = highEnd fl t condCode op1 vrMin vrMax
        then some (lowEnd fl t condCode op1 vrMin vrMax) else none := by
    rw [testForSingularity, hsat, Option.bind_some, ← hlow, ← hhigh]
    dsimp only
    split_ifs <;> rfl
  obtain ⟨⟨y, hy, htrue⟩, -⟩ := hvaries
  have hnotinf {v : Cst} (hinf : isOverflowInfinity fl t op1 = true) : ¬ Incomparable fl t v op1 := by
    rintro ⟨-, -, -, hnot⟩
    rw [hinf] at hnot
    cases hnot
  have hinfval (hinf : isOverflowInfinity fl t op1 = true) : op1.val = t.minValue ∨ op1.val = t.maxValue := by
    simp only [isOverflowInfinity, Bool.and_eq_true, Bool.or_eq_true, decide_eq_true_eq] at hinf
    exact hinf.2
  cases condCode with
  | EQ_EXPR => exact absurd horder (by decide)
  | NE_EXPR => exact absurd horder (by decide)
  | LE_EXPR =>
    refine hends rfl (refineMin_typeMin hmin) ?_
    change (refineMax fl t vrMax op1).val = _
    rw [refineMax_val hmax hhas]
    simp only [highEnd, blind, CompCode.limit, decide_eq_true_eq]
  | GE_EXPR =>
    refine hends rfl ?_ (refineMax_typeMax hmax)
    change (refineMin fl t vrMin op1).val = _
    rw [refineMin_val hmin hhas]
    simp only [lowEnd, blind, CompCode.limit, decide_eq_true_eq]
  | LT_EXPR =>
    refine hends rfl (refineMin_typeMin hmin) ?_
    simp only [CompCode.eval, decide_eq_true_eq] at htrue
    have hlow : t.minValue < op1.val := lt_of_le_of_lt hy.1 htrue
    simp only [highEnd, blind, CompCode.limit, movedBound, Bool.or_eq_true, decide_eq_true_eq]
    by_cases hinf : isOverflowInfinity fl t op1 = true
    · -- the infinity above is not moved, and it cuts nothing
      rw [if_pos hinf, refineMax_val hmax hhas, if_neg (hnotinf hinf), if_pos (.inl hinf)]
      exact min_eq_left (by have := hinfval hinf; have := hmax.2; omega)
    · have hprev : t.Has (op1.val - 1) := ⟨by omega, by have := hhas.2; omega⟩
      have hval : (minusOne t op1).val = op1.val - 1 := minusOne_val hprev
      rw [if_neg hinf, refineMax_val hmax (hval ▸ hprev), hval]
      simp only [hinf, Bool.false_eq_true, false_or]
  | GT_EXPR =>
    refine hends rfl ?_ (refineMax_typeMax hmax)
    simp only [CompCode.eval, decide_eq_true_eq] at htrue
    have hhigh : op1.val < t.maxValue := lt_of_lt_of_le htrue hy.2
    simp only [lowEnd, blind, CompCode.limit, movedBound, Bool.or_eq_true, decide_eq_true_eq]
    by_cases hinf : isOverflowInfinity fl t op1 = true
    · -- the infinity below is not moved, and it cuts nothing
      rw [if_pos hinf, refineMin_val hmin hhas, if_neg (hnotinf hinf), if_pos (.inl hinf)]
      exact max_eq_left (by have := hinfval hinf; have := hmin.1; omega)
    · have hnext : t.Has (op1.val + 1) := ⟨by have := hhas.1; omega, by omega⟩
      have hval : (plusOne t op1).val = op1.val + 1 := plusOne_val hnext
      rw [if_neg hinf, refineMin_val hmin (hval ▸ hnext), hval]
      simp only [hinf, Bool.false_eq_true, false_or]

/-- **One test** is right unless it misjudges. Source: `tree-vrp.c` `test_for_singularity`. Kind: L -/
theorem testForSingularity_sound_iff (hle : vrMin.val ≤ vrMax.val) :
    (∀ v, testForSingularity fl t condCode op1 vrMin vrMax = some v →
      ∀ x, vrMin.val ≤ x → x ≤ vrMax.val → (x = v.val ↔ condCode.eval x op1.val = true)) ↔
    ¬Misjudged fl t condCode op1 vrMin vrMax := by
  have hrun := @testForSingularity_val fl _ _ _ _ _ horder hhas hvaries hmin hmax
  have hresult : (∀ v, testForSingularity fl t condCode op1 vrMin vrMax = some v →
      ∀ x, vrMin.val ≤ x → x ≤ vrMax.val → (x = v.val ↔ condCode.eval x op1.val = true)) ↔
      (lowEnd fl t condCode op1 vrMin vrMax = highEnd fl t condCode op1 vrMin vrMax →
        ∀ x, vrMin.val ≤ x → x ≤ vrMax.val →
          (x = lowEnd fl t condCode op1 vrMin vrMax ↔ condCode.eval x op1.val = true)) := by
    constructor
    · intro hsound heq x hx hx'
      rw [if_pos heq] at hrun
      obtain ⟨v, hv, hval⟩ := Option.map_eq_some_iff.mp hrun
      rw [← hval]
      exact hsound v hv x hx hx'
    · intro hsound v hv x hx hx'
      rw [hv, Option.map_some] at hrun
      split_ifs at hrun with heq
      rw [Option.some_inj.mp hrun]
      exact hsound heq x hx hx'
  rw [hresult, Misjudged]
  cases condCode with
  | EQ_EXPR => exact absurd horder (by decide)
  | NE_EXPR => exact absurd horder (by decide)
  | LE_EXPR =>
    simp only [CompCode.eval, decide_eq_true_eq, decide_eq_false_iff_not]
    exact single_below hle (by simp [outside]) rfl rfl
  | LT_EXPR =>
    simp only [CompCode.eval, decide_eq_true_eq, decide_eq_false_iff_not, ← Int.le_sub_one_iff]
    exact single_below hle (by simp [outside]) rfl rfl
  | GE_EXPR =>
    simp only [CompCode.eval, decide_eq_true_eq, decide_eq_false_iff_not]
    exact single_above hle (by simp [outside]) rfl rfl
  | GT_EXPR =>
    simp only [CompCode.eval, decide_eq_true_eq, decide_eq_false_iff_not, ← Int.add_one_le_iff]
    exact single_above hle (by simp [outside]) rfl rfl

end Sound

end GccCore.Gcc.TreeVrp
