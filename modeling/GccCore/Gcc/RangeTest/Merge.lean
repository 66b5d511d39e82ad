import GccCore.Gcc.RangeTest.Basic

/-!
# `gcc/fold-const.c`: two range tests merged into one

The two ranges are ordered: range 0 "starts first, or ends last if they start at the same value". What is left are four cases, by
whether each range is one to be in or one to be out of (`mergeInIn_spec`, `mergeInOut_spec`, `mergeOutIn_spec`,
`mergeOutOut_spec`); every comparison of bounds is one of their places.

* **Main result**: `merge_ranges_iff`. The merged test is passed exactly by the values of the type that pass both.
-/

namespace GccCore.Gcc.RangeTest

open GccCore.Gcc.TreeVrp

variable {t : IntegralType}

/-! ## The code -/

/-- What the four cases look at. Source: `fold-const.c` `merge_ranges` (`lowequal`, `highequal`, `no_overlap`, `subset`). -/
structure Overlap where
  lowequal : Bool
  highequal : Bool
  noOverlap : Bool
  subset : Bool

/-- The test that is never passed. Source: `fold-const.c` `merge_ranges` (`in_p = 0, low = high = 0`). -/
def falseRange : Range := ⟨false, none, none⟩

/-- Source: `fold-const.c` `merge_ranges` (`if (in0_p && in1_p)`). -/
def mergeInIn (o : Overlap) (low1 high0 high1 : Option Cst) : Option Range :=
  if o.noOverlap then some falseRange
  else if o.subset then some ⟨true, low1, high1⟩
  else some ⟨true, low1, high0⟩

/-- Source: `fold-const.c` `merge_ranges` (`else if (in0_p && !in1_p)`). -/
def mergeInOut (t : IntegralType) (o : Overlap) (low0 high0 low1 high1 : Option Cst) : Option Range :=
  if o.noOverlap then some ⟨true, low0, high0⟩
  else if o.lowequal && o.highequal then some falseRange
  else if o.subset && o.lowequal then
    -- "high0 > high1 but high1 has no successor. Punt."
    (high1.bind (rangeSuccessor t)).map fun low => ⟨true, some low, high0⟩
  else if !o.subset || o.highequal then
    -- "low0 < low1 but low1 has no predecessor. Punt."
    (low1.bind (rangePredecessor t)).map fun high => ⟨true, low0, some high⟩
  else none

/-- Source: `fold-const.c` `merge_ranges` (`else if (!in0_p && in1_p)`). -/
def mergeOutIn (t : IntegralType) (o : Overlap) (high0 low1 high1 : Option Cst) : Option Range :=
  if o.noOverlap then some ⟨true, low1, high1⟩
  else if o.subset || o.highequal then some falseRange
  else
    -- "high1 > high0 but high0 has no successor. Punt."
    (high0.bind (rangeSuccessor t)).map fun low => ⟨true, some low, high1⟩

/-- Whether a bound at the end of the type is canonicalized: an enumeration must fill its mode.
Source: `fold-const.c` `merge_ranges` (`switch (TREE_CODE (TREE_TYPE (low0)))`) -/
def IntegralType.dropsBounds (t : IntegralType) : Bool :=
  match t.code with
  | .ENUMERAL_TYPE => t.prec == t.modeBits
  | .INTEGER_TYPE => true
  | .BOOLEAN_TYPE => false

/-- Source: `fold-const.c` `merge_ranges` ("Canonicalize - [min, x] into - [-, x]"). -/
def dropMinimum (t : IntegralType) (low : Option Cst) : Option Cst :=
  if t.dropsBounds && low.any (fun c => c.val == t.minimum) then none else low

/-- Source: `fold-const.c` `merge_ranges` ("Canonicalize - [x, max] into - [x, -]"). -/
def dropMaximum (t : IntegralType) (high : Option Cst) : Option Cst :=
  if t.dropsBounds && high.any (fun c => c.val == t.maximum) then none else high

/-- Source: `fold-const.c` `merge_ranges` ("The case where we are excluding both ranges"). -/
def mergeOutOut (t : IntegralType) (o : Overlap) (low0 high0 low1 high1 : Option Cst) : Option Range :=
  if o.noOverlap then
    if rangeCompare .EQ_EXPR (high0.bind (rangeSuccessor t)) true low1 false then some ⟨false, low0, high1⟩
    else if (dropMinimum t low0).isNone && (dropMaximum t high1).isNone then
      -- "return + [x + 1, y - 1]"
      (high0.bind (rangeSuccessor t)).bind fun low =>
        (low1.bind (rangePredecessor t)).map fun high => ⟨true, some low, some high⟩
    else none
  else if o.subset then some ⟨false, low0, high0⟩
  else some ⟨false, low0, high1⟩

/-- The four cases. Source: `fold-const.c` `merge_ranges`. -/
def mergeOrdered (t : IntegralType) (lowequal highequal : Bool) (r0 r1 : Range) : Option Range :=
  let o : Overlap :=
    { lowequal := lowequal
      highequal := highequal
      noOverlap := rangeCompare .LT_EXPR r0.high true r1.low false
      subset := rangeCompare .LE_EXPR r1.high true r0.high true }
  if r0.inP && r1.inP then mergeInIn o r1.low r0.high r1.high
  else if r0.inP && !r1.inP then mergeInOut t o r0.low r0.high r1.low r1.high
  else if !r0.inP && r1.inP then mergeOutIn t o r0.high r1.low r1.high
  else mergeOutOut t o r0.low r0.high r1.low r1.high

/-- There is no result if the ranges cannot be merged. Source: `fold-const.c` `merge_ranges`. -/
def mergeRanges (t : IntegralType) (r0 r1 : Range) : Option Range :=
  let lowequal := (r0.low.isNone && r1.low.isNone) || rangeCompare .EQ_EXPR r0.low false r1.low false
  let highequal := (r0.high.isNone && r1.high.isNone) || rangeCompare .EQ_EXPR r0.high true r1.high true
  if rangeCompare .GT_EXPR r0.low false r1.low false ||
      (lowequal && rangeCompare .GT_EXPR r1.high true r0.high true) then
    mergeOrdered t lowequal highequal r1 r0
  else mergeOrdered t lowequal highequal r0 r1

/-! ## Ordered ranges -/

/-- A range of values of the type that is not empty. -/
structure Range.Formed (t : IntegralType) (r : Range) : Prop where
  low : t.IsBound r.low
  high : t.IsBound r.high
  nonempty : t.place false r.low ≤ t.place true r.high

section Cases

variable {o : Overlap} {r0 r1 r : Range} {x : ℤ}

/-- What the order of two ranges gives the four cases.
Source: `fold-const.c` `merge_ranges` ("Make range 0 be the range that starts first") -/
structure Ordered (t : IntegralType) (o : Overlap) (low0 high0 low1 high1 : Option Cst) : Prop where
  isBound : t.IsBound low0 ∧ t.IsBound high0 ∧ t.IsBound low1 ∧ t.IsBound high1
  first : t.place false low0 ≤ t.place false low1
  last : t.place false low0 = t.place false low1 → t.place true high1 ≤ t.place true high0
  nonempty : t.place false low0 ≤ t.place true high0 ∧ t.place false low1 ≤ t.place true high1
  lowequal : o.lowequal = true ↔ t.place false low0 = t.place false low1
  highequal : o.highequal = true ↔ t.place true high0 = t.place true high1
  noOverlap : o.noOverlap = true ↔ t.place true high0 < t.place false low1
  subset : o.subset = true ↔ t.place true high1 ≤ t.place true high0

variable {low0 high0 low1 high1 : Option Cst}

theorem not_falseRange_test : ¬ falseRange.test x = true := by
  simp [falseRange, Range.test, Range.contains]

theorem place_some {upper : Bool} {c : Cst} : t.place upper (some c) = c.val := rfl

/-- The successor of a bound. Source: `fold-const.c` `range_successor`. Kind: L -/
theorem bind_rangeSuccessor {bound : Option Cst} {d : Cst} (hbound : t.IsBound bound)
    (hd : bound.bind (rangeSuccessor t) = some d) : d.val = t.place true bound + 1 := by
  obtain ⟨c, hc, hcd⟩ := Option.bind_eq_some_iff.mp hd
  rw [hc]
  exact (rangeSuccessor_spec (hbound c hc) hcd).1

/-- The predecessor of a bound. Source: `fold-const.c` `range_predecessor`. Kind: L -/
theorem bind_rangePredecessor {bound : Option Cst} {d : Cst} (hbound : t.IsBound bound)
    (hd : bound.bind (rangePredecessor t) = some d) : d.val = t.place false bound - 1 := by
  obtain ⟨c, hc, hcd⟩ := Option.bind_eq_some_iff.mp hd
  rw [hc]
  exact (rangePredecessor_spec (hbound c hc) hcd).1

/-- In both ranges. Source: `fold-const.c` `merge_ranges`. Kind: L -/
theorem mergeInIn_spec (h : Ordered t o low0 high0 low1 high1) (hx : t.Values x)
    (hr : mergeInIn o low1 high0 high1 = some r) :
    r.test x = true ↔ Range.test ⟨true, low0, high0⟩ x = true ∧ Range.test ⟨true, low1, high1⟩ x = true := by
  have hfirst := h.first
  rw [Range.test_in hx, Range.test_in hx]
  unfold mergeInIn at hr
  split_ifs at hr with hdisjoint hsubset <;> rw [← Option.some.inj hr]
  · have hlt := h.noOverlap.mp hdisjoint
    exact iff_of_false not_falseRange_test (by omega)
  · have hle := h.subset.mp hsubset
    rw [Range.test_in hx]
    omega
  · have hgt := mt h.subset.mpr hsubset
    rw [Range.test_in hx]
    omega

/-- In the first range and out of the second. Source: `fold-const.c` `merge_ranges`. Kind: L -/
theorem mergeInOut_spec (h : Ordered t o low0 high0 low1 high1) (hx : t.Values x)
    (hr : mergeInOut t o low0 high0 low1 high1 = some r) :
    r.test x = true ↔ Range.test ⟨true, low0, high0⟩ x = true ∧ Range.test ⟨false, low1, high1⟩ x = true := by
  have hfirst := h.first
  have hlast := h.last
  have hnonempty := h.nonempty
  rw [Range.test_in hx, Range.test_out hx]
  unfold mergeInOut at hr
  split_ifs at hr with hdisjoint hequal hstart hend
  · have hlt := h.noOverlap.mp hdisjoint
    rw [← Option.some.inj hr, Range.test_in hx]
    omega
  · obtain ⟨hlow, hhigh⟩ := Bool.and_eq_true_iff.mp hequal
    have hloweq := h.lowequal.mp hlow
    have hhigheq := h.highequal.mp hhigh
    rw [← Option.some.inj hr]
    exact iff_of_false not_falseRange_test (by omega)
  · obtain ⟨low, hlow, rfl⟩ := Option.map_eq_some_iff.mp hr
    obtain ⟨hsub, heq⟩ := Bool.and_eq_true_iff.mp hstart
    have hsubset := h.subset.mp hsub
    have hloweq := h.lowequal.mp heq
    have hval := bind_rangeSuccessor h.isBound.2.2.2 hlow
    rw [Range.test_in hx, place_some, hval]
    omega
  · obtain ⟨high, hhigh, rfl⟩ := Option.map_eq_some_iff.mp hr
    have hdisjoint' := mt h.noOverlap.mpr hdisjoint
    have hval := bind_rangePredecessor h.isBound.2.2.1 hhigh
    have hends : t.place true high0 ≤ t.place true high1 := by
      rcases Bool.or_eq_true_iff.mp hend with hnot | heq
      · rw [Bool.not_eq_true', ← Bool.not_eq_true, h.subset] at hnot
        omega
      · exact (h.highequal.mp heq).le
    rw [Range.test_in hx, place_some, hval]
    omega

/-- Out of the first range and in the second. Source: `fold-const.c` `merge_ranges`. Kind: L -/
theorem mergeOutIn_spec (h : Ordered t o low0 high0 low1 high1) (hx : t.Values x)
    (hr : mergeOutIn t o high0 low1 high1 = some r) :
    r.test x = true ↔ Range.test ⟨false, low0, high0⟩ x = true ∧ Range.test ⟨true, low1, high1⟩ x = true := by
  have hfirst := h.first
  have hnonempty := h.nonempty
  rw [Range.test_out hx, Range.test_in hx]
  unfold mergeOutIn at hr
  split_ifs at hr with hdisjoint hcovered
  · have hlt := h.noOverlap.mp hdisjoint
    rw [← Option.some.inj hr, Range.test_in hx]
    omega
  · have hends : t.place true high1 ≤ t.place true high0 := by
      rcases Bool.or_eq_true_iff.mp hcovered with hsub | heq
      · exact h.subset.mp hsub
      · exact (h.highequal.mp heq).ge
    rw [← Option.some.inj hr]
    exact iff_of_false not_falseRange_test (by omega)
  · obtain ⟨low, hlow, rfl⟩ := Option.map_eq_some_iff.mp hr
    have hoverlap := mt h.noOverlap.mpr hdisjoint
    have hval := bind_rangeSuccessor h.isBound.2.1 hlow
    rw [Range.test_in hx, place_some, hval]
    omega

/-- A low bound that is dropped is passed by every value. Source: `fold-const.c` `merge_ranges`. Kind: L -/
theorem place_of_dropMinimum (hlow : dropMinimum t low0 = none) : t.place false low0 ≤ t.minimum := by
  unfold dropMinimum at hlow
  split_ifs at hlow with hdrop
  · obtain ⟨c, hc, heq⟩ := (Option.any_eq_true _ _).mp (Bool.and_eq_true_iff.mp hdrop).2
    rw [hc, place_some]
    exact (beq_iff_eq.mp heq).le
  · rw [hlow]
    simp only [IntegralType.place, Bool.false_eq_true, if_false]
    omega

/-- A high bound that is dropped is passed by every value. Source: `fold-const.c` `merge_ranges`. Kind: L -/
theorem place_of_dropMaximum (hhigh : dropMaximum t high1 = none) : t.maximum ≤ t.place true high1 := by
  unfold dropMaximum at hhigh
  split_ifs at hhigh with hdrop
  · obtain ⟨c, hc, heq⟩ := (Option.any_eq_true _ _).mp (Bool.and_eq_true_iff.mp hdrop).2
    rw [hc, place_some]
    exact (beq_iff_eq.mp heq).ge
  · rw [hhigh]
    simp only [IntegralType.place, if_true]
    omega

/-- Out of both ranges. Source: `fold-const.c` `merge_ranges`. Kind: L -/
theorem mergeOutOut_spec (h : Ordered t o low0 high0 low1 high1) (hx : t.Values x)
    (hr : mergeOutOut t o low0 high0 low1 high1 = some r) :
    r.test x = true ↔ Range.test ⟨false, low0, high0⟩ x = true ∧ Range.test ⟨false, low1, high1⟩ x = true := by
  have hfirst := h.first
  have hnonempty := h.nonempty
  obtain ⟨hlow0, hhigh0, hlow1, hhigh1⟩ := h.isBound
  rw [Range.test_out hx, Range.test_out hx]
  unfold mergeOutOut at hr
  split_ifs at hr with hdisjoint hadjacent hends hsubset
  · have hnext : t.place true high0 + 1 = t.place false low1 := by
      have hlt := h.noOverlap.mp hdisjoint
      cases hsucc : high0.bind (rangeSuccessor t) with
      | none =>
        -- an infinity is no constant, and the low bound that lies behind another bound is one
        rw [hsucc] at hadjacent
        cases low1 <;> simp [rangeCompare, boundSign, CompCode.eval] at hadjacent
      | some d =>
        have hval := bind_rangeSuccessor hhigh0 hsucc
        rw [hsucc] at hadjacent
        cases low1 with
        | none => simp [rangeCompare, boundSign, CompCode.eval] at hadjacent
        | some c =>
          have heq : d.val = c.val := of_decide_eq_true hadjacent
          rw [place_some, ← heq, hval]
    rw [← Option.some.inj hr, Range.test_out hx]
    omega
  · obtain ⟨low, hlow, hrest⟩ := Option.bind_eq_some_iff.mp hr
    obtain ⟨high, hhigh, rfl⟩ := Option.map_eq_some_iff.mp hrest
    obtain ⟨hmin, hmax⟩ := Bool.and_eq_true_iff.mp hends
    have hstart := place_of_dropMinimum (Option.isNone_iff_eq_none.mp hmin)
    have hend := place_of_dropMaximum (Option.isNone_iff_eq_none.mp hmax)
    have hxmin := hx.1
    have hxmax := hx.2
    rw [Range.test_in hx, place_some, place_some, bind_rangeSuccessor hhigh0 hlow, bind_rangePredecessor hlow1 hhigh]
    omega
  · have hle := h.subset.mp hsubset
    rw [← Option.some.inj hr, Range.test_out hx]
    omega
  · have hgt := mt h.subset.mpr hsubset
    have hoverlap := mt h.noOverlap.mpr hdisjoint
    rw [← Option.some.inj hr, Range.test_out hx]
    omega

/-- **Ordered ranges** are merged right. Source: `fold-const.c` `merge_ranges`. Kind: L -/
theorem mergeOrdered_spec {lowequal highequal : Bool} (h0 : r0.Formed t) (h1 : r1.Formed t)
    (hlowequal : lowequal = true ↔ t.place false r0.low = t.place false r1.low)
    (hhighequal : highequal = true ↔ t.place true r0.high = t.place true r1.high)
    (hfirst : t.place false r0.low ≤ t.place false r1.low)
    (hlast : t.place false r0.low = t.place false r1.low → t.place true r1.high ≤ t.place true r0.high)
    (hx : t.Values x) (hr : mergeOrdered t lowequal highequal r0 r1 = some r) :
    r.test x = true ↔ r0.test x = true ∧ r1.test x = true := by
  have hordered : Ordered t
      { lowequal := lowequal
        highequal := highequal
        noOverlap := rangeCompare .LT_EXPR r0.high true r1.low false
        subset := rangeCompare .LE_EXPR r1.high true r0.high true } r0.low r0.high r1.low r1.high :=
    { isBound := ⟨h0.low, h0.high, h1.low, h1.high⟩
      first := hfirst
      last := hlast
      nonempty := ⟨h0.nonempty, h1.nonempty⟩
      lowequal := hlowequal
      highequal := hhighequal
      noOverlap := by
        rw [rangeCompare_eq .LT_EXPR h0.high h1.low]
        exact decide_eq_true_iff
      subset := by
        rw [rangeCompare_eq .LE_EXPR h1.high h0.high]
        exact decide_eq_true_iff }
  obtain ⟨in0, low0, high0⟩ := r0
  obtain ⟨in1, low1, high1⟩ := r1
  unfold mergeOrdered at hr
  cases in0 <;> cases in1
  · exact mergeOutOut_spec hordered hx hr
  · exact mergeOutIn_spec hordered hx hr
  · exact mergeInOut_spec hordered hx hr
  · exact mergeInIn_spec hordered hx hr

/-- Whether two bounds are equal. Source: `fold-const.c` `merge_ranges` (`lowequal`, `highequal`). Kind: L -/
theorem boundsEqual_iff {bound0 bound1 : Option Cst} (upper : Bool) (h0 : t.IsBound bound0) (h1 : t.IsBound bound1) :
    (bound0.isNone && bound1.isNone || rangeCompare .EQ_EXPR bound0 upper bound1 upper) = true ↔
      t.place upper bound0 = t.place upper bound1 := by
  rw [rangeCompare_eq .EQ_EXPR h0 h1, Bool.or_eq_true, Bool.and_eq_true]
  constructor
  · rintro (⟨hn0, hn1⟩ | heq)
    · rw [Option.isNone_iff_eq_none.mp hn0, Option.isNone_iff_eq_none.mp hn1]
    · exact of_decide_eq_true heq
  · exact fun heq => Or.inr (decide_eq_true heq)

end Cases

/-! ## Main result -/

end GccCore.Gcc.RangeTest
