import GccCore.Gcc.TreeVrp.Compare
import Mathlib.Data.Finset.Basic

/-!
# `gcc/tree-vrp.c`: the meet of two value ranges

Where paths join, a variable has the values of either range. `vrp_meet` stores a range for them in its first argument, and
intersects the sets of names that the variable is known to be equal to.

* **Value ranges with equivalences** (`ValueRangeT`) and what holds of all of them (`ValueRangeT.Valid`).
* **The function** (`vrpMeet`) and its fallback to the values that are not zero (`giveUp`).
* **Main result**: `vrpMeet_upper`. The meet admits the values of both and keeps no name that one of them has not. By
  `vrpMeet_valid` it is a range that may be stored.
-/

namespace GccCore.Gcc.TreeVrp

open GccCore.Gcc.FoldConst

variable {fl : Flags} {t : IntType}

/-! ## Value ranges -/

/-- A range and the names that are equal to the variable, or no set of names.
Source: `tree-vrp.h` `value_range_t` (`equiv` is a bitmap or `NULL`) -/
structure ValueRangeT where
  range : ValueRange
  equiv : Option (Finset ℕ)
  deriving DecidableEq

/-- No set is the empty set. Source: `tree-vrp.c` `set_value_range` (`equiv == NULL || bitmap_empty_p (equiv)`). -/
def ValueRangeT.equivalences (vr : ValueRangeT) : Finset ℕ := vr.equiv.getD ∅

/-- What is checked of a value range when it is set. Source: `tree-vrp.c` `set_value_range`. -/
structure ValueRangeT.Valid (fl : Flags) (t : IntType) (vr : ValueRangeT) : Prop where
  stored : vr.range.IsStored fl t
  equiv_empty : vr.range = .undefined ∨ vr.range = .varying → vr.equivalences = ∅

/-! ## The functions -/

/-- Source: `tree-vrp.c` `set_value_range_to_varying`. -/
def setValueRangeToVarying (vr : ValueRangeT) : ValueRangeT := ⟨.varying, vr.equiv.map fun _ => ∅⟩

/-- A set of names is copied into the set that is there, or into a new one.
Source: `tree-vrp.c` `copy_value_range`, `set_value_range` (`equiv != vr->equiv`) -/
def copyValueRange (target source : ValueRangeT) : ValueRangeT :=
  ⟨source.range,
    match target.equiv, source.equiv with
    | _, some s => some s
    | some _, none => some ∅
    | none, none => none⟩

/-- The intersection of two sets of names. Source: `tree-vrp.c` `vrp_meet` ("The resulting set of equivalences"). -/
def meetEquiv : Option (Finset ℕ) → Option (Finset ℕ) → Option (Finset ℕ)
  | some s, some s' => some (s ∩ s')
  | some _, none => some ∅
  | none, _ => none

/-- Whether two intervals meet. Source: `tree-vrp.c` `value_ranges_intersect_p`. -/
def valueRangesIntersect (fl : Flags) (t : IntType) (min0 max0 min1 max1 : Cst) : Bool :=
  !operandLess fl t max0 min1 && !operandLess fl t max1 min0

/-- Whether zero is no value of a range. Source: `tree-vrp.c` `vrp_meet` (the condition at `give_up`). -/
def excludesZero (fl : Flags) (t : IntType) : ValueRange → Bool
  | .known .range min max => !rangeIncludesZero fl t min max
  | .known .antiRange min max => rangeIncludesZero fl t min max
  | _ => false

/-- The values that are not zero, or all. Source: `tree-vrp.c` `vrp_meet` (`give_up`). -/
def giveUp (fl : Flags) (t : IntType) (vr0 vr1 : ValueRangeT) : ValueRangeT :=
  if excludesZero fl t vr0.range && excludesZero fl t vr1.range then
    ⟨.known .antiRange (.ofVal 0) (.ofVal 0), vr0.equiv.map fun _ => ∅⟩
  else setValueRangeToVarying vr0

/-- The lower of two lower ends. Source: `tree-vrp.c` `vrp_meet` ("The lower limit of the new range"). -/
def meetMin (fl : Flags) (t : IntType) (min0 min1 : Cst) : Option Cst :=
  let cmp := compareValues fl t min0 min1
  if cmp = 0 ∨ cmp = 1 then some min1 else if cmp = -1 then some min0 else none

/-- The upper of two upper ends. Source: `tree-vrp.c` `vrp_meet` ("the upper limit of the new range"). -/
def meetMax (fl : Flags) (t : IntType) (max0 max1 : Cst) : Option Cst :=
  let cmp := compareValues fl t max0 max1
  if cmp = 0 ∨ cmp = -1 then some max1 else if cmp = 1 then some max0 else none

/-- Whether a range says nothing. Source: `tree-vrp.c` `vrp_meet` ("Check for useless ranges"). -/
def uselessRange (fl : Flags) (t : IntType) (min max : Cst) : Bool :=
  (decide (min.val = t.minValue) || isOverflowInfinity fl t min) &&
    (decide (max.val = t.maxValue) || isOverflowInfinity fl t max)

/-- The new value of `*vr0`. Source: `tree-vrp.c` `vrp_meet`. -/
def vrpMeet (fl : Flags) (t : IntType) (vr0 vr1 : ValueRangeT) : ValueRangeT :=
  match vr0.range, vr1.range with
  | .undefined, _ => copyValueRange vr0 vr1
  | _, .undefined => vr0
  | .varying, _ => vr0
  | _, .varying => setValueRangeToVarying vr0
  | .known .range min0 max0, .known .range min1 max1 =>
    match meetMin fl t min0 min1, meetMax fl t max0 max1 with
    | some min, some max =>
      if uselessRange fl t min max then giveUp fl t vr0 vr1
      else ⟨.known .range min max, meetEquiv vr0.equiv vr1.equiv⟩
    | _, _ => giveUp fl t vr0 vr1
  | .known .antiRange min0 max0, .known .antiRange min1 max1 =>
    if compareValues fl t min0 min1 = 0 ∧ compareValues fl t max0 max1 = 0 ∧ compareValues fl t min0 max0 = 0 then
      ⟨vr0.range, meetEquiv vr0.equiv vr1.equiv⟩
    else giveUp fl t vr0 vr1
  | .known kind0 min0 max0, .known kind1 min1 max1 =>
    if !valueRangesIntersect fl t min0 max0 min1 max1 then
      ⟨if kind1 = .antiRange then vr1.range else .known kind0 min0 max0, meetEquiv vr0.equiv vr1.equiv⟩
    else giveUp fl t vr0 vr1

/-! ## The parts -/

section Parts

variable {kind kind0 kind1 : RangeKind} {min max min0 max0 min1 max1 : Cst} {z : ℤ}

/-- The test for zero is one on the keys. Source: `tree-vrp.c` `range_includes_zero_p`. Kind: L -/
theorem rangeIncludesZero_iff (h : Stored fl t kind min max) :
    rangeIncludesZero fl t min max = true ↔ min.key fl t ≤ 0 ∧ 0 ≤ max.key fl t := by
  have hkey : (Cst.ofVal 0).key fl t = 0 := (plain_zero t).key_eq
  unfold rangeIncludesZero
  rw [operandLess_eq t.has_zero h.min_has, operandLess_eq h.max_has t.has_zero, hkey]
  simp

/-- A range that excludes zero does not admit it. Source: `tree-vrp.c` `vrp_meet` (`give_up`). Kind: L -/
theorem ne_zero_of_excludesZero {vr : ValueRange} (h : vr.IsStored fl t) (hex : excludesZero fl t vr = true)
    (hz : vr.Admits z) : z ≠ 0 := by
  rintro rfl
  cases vr with
  | undefined => exact hz
  | varying => cases hex
  | known kind min max =>
    cases kind with
    | range =>
      have hkeys := (rangeIncludesZero_iff h).mpr (Stored.mem_keys h hz)
      simp [excludesZero, hkeys] at hex
    | antiRange =>
      exact hz (mem_of_valueInsideRange h t.has_zero hex)

/-- Intervals that do not meet have no value in common. Source: `tree-vrp.c` `value_ranges_intersect_p`. Kind: L -/
theorem not_mem_of_not_intersect (h0 : Stored fl t kind0 min0 max0) (h1 : Stored fl t kind1 min1 max1)
    (hapart : valueRangesIntersect fl t min0 max0 min1 max1 = false) (hz : min0.val ≤ z ∧ z ≤ max0.val) :
    ¬ (min1.val ≤ z ∧ z ≤ max1.val) := by
  intro hz1
  have hkeys0 := h0.mem_keys hz
  have hkeys1 := h1.mem_keys hz1
  unfold valueRangesIntersect at hapart
  rw [operandLess_eq h0.max_has h1.min_has, operandLess_eq h1.max_has h0.min_has, Bool.and_eq_false_iff] at hapart
  simp only [Bool.not_eq_false', decide_eq_true_eq] at hapart
  omega

/-- The end that a comparison picks lies on the side `σ` of both, and it is the first one unless it is beyond that one.
Source: `tree-vrp.c` `vrp_meet` ("Compute the convex hull")
Kind: L -/
theorem pick_spec {e0 e1 e : Cst} {σ : ℤ} (hσ : σ = 1 ∨ σ = -1) (h0 : t.Has e0.val) (h1 : t.Has e1.val)
    (he : (if compareValues fl t e0 e1 = 0 ∨ compareValues fl t e0 e1 = σ then some e1
      else if compareValues fl t e0 e1 = -σ then some e0 else none) = some e) :
    t.Has e.val ∧ (e = e0 ∨ σ * e.key fl t < σ * e0.key fl t) ∧ σ * e.key fl t ≤ σ * e1.key fl t ∧
      ¬ Incomparable fl t e0 e1 ∧ (e = e0 ∨ e = e1) := by
  have hcmp := compareValues_cases fl h0 h1
  have hzero := @compareValues_zero_iff fl t _ _ h0 h1
  have hcomparable : ¬ Incomparable fl t e0 e1 := by
    intro hinc
    rw [compareValues_key h0 h1, if_pos hinc, if_neg (by omega), if_neg (by omega)] at he
    cases he
  split_ifs at he with hle
  · cases he
    rcases hle with heq | hone
    · exact ⟨h1, .inl (hzero.mp heq).symm, le_rfl, hcomparable, .inr rfl⟩
    · refine ⟨h1, .inr ?_, le_rfl, hcomparable, .inr rfl⟩
      rcases hσ with rfl | rfl <;> omega
  · cases he
    refine ⟨h0, .inl rfl, ?_, hcomparable, .inl rfl⟩
    rcases hσ with rfl | rfl <;> omega

/-- The lower end of the hull is below both ends. Source: `tree-vrp.c` `vrp_meet` ("Compute the convex hull"). Kind: L -/
theorem meetMin_spec (h0 : t.Has min0.val) (h1 : t.Has min1.val) (hmin : meetMin fl t min0 min1 = some min) :
    t.Has min.val ∧ (min = min0 ∨ min.key fl t < min0.key fl t) ∧ min.key fl t ≤ min1.key fl t ∧
      ¬ Incomparable fl t min0 min1 ∧ (min = min0 ∨ min = min1) := by
  simpa using pick_spec (.inl rfl) h0 h1 hmin

/-- The upper end of the hull is above both ends. Source: `tree-vrp.c` `vrp_meet` ("Compute the convex hull"). Kind: L -/
theorem meetMax_spec (h0 : t.Has max0.val) (h1 : t.Has max1.val) (hmax : meetMax fl t max0 max1 = some max) :
    t.Has max.val ∧ (max = max0 ∨ max0.key fl t < max.key fl t) ∧ max1.key fl t ≤ max.key fl t ∧
      ¬ Incomparable fl t max0 max1 ∧ (max = max0 ∨ max = max1) := by
  simpa using pick_spec (.inr rfl) h0 h1 hmax

/-- **The ends of the hull are in order**: an end that cannot be compared with the other end of its range is an end of both ranges.
Source: `tree-vrp.c` `vrp_meet` ("Compute the convex hull"), `set_value_range`
Kind: L -/
theorem hull_ordered (h0 : Stored fl t kind0 min0 max0) (h1 : Stored fl t kind1 min1 max1)
    (hmin : meetMin fl t min0 min1 = some min) (hmax : meetMax fl t max0 max1 = some max) : compareValues fl t min max ≠ 1 := by
  obtain ⟨hminhas, hminle0, hminle1, hmincmp, hmineq⟩ := meetMin_spec h0.min_has h1.min_has hmin
  obtain ⟨hmaxhas, hmaxle0, hmaxle1, hmaxcmp, hmaxeq⟩ := meetMax_spec h0.max_has h1.max_has hmax
  have hminkey : min.key fl t ≤ min0.key fl t := hminle0.elim (fun h => h ▸ le_rfl) le_of_lt
  have hmaxkey : max0.key fl t ≤ max.key fl t := hmaxle0.elim (fun h => h ▸ le_rfl) le_of_lt
  intro hone
  have hcmp := compareValues_cases fl hminhas hmaxhas
  have hne : min ≠ max := by
    rintro rfl
    omega
  have hcomparable : ¬ Incomparable fl t min max := by
    intro hinc
    rw [compareValues_key hminhas hmaxhas, if_pos hinc] at hone
    cases hone
  -- neither range has ends that can be compared, so no end is an infinity
  have hinc0 : Incomparable fl t min0 max0 := by
    by_contra hcomparable0
    have := h0.key_le hcomparable0
    omega
  have hinc1 : Incomparable fl t min1 max1 := by
    by_contra hcomparable1
    have := h1.key_le hcomparable1
    omega
  obtain ⟨-, hmark, hminfin0, hmaxfin0⟩ := hinc0
  obtain ⟨-, -, hminfin1, hmaxfin1⟩ := hinc1
  have hminfin : isOverflowInfinity fl t min = false := by
    rcases hmineq with rfl | rfl
    · exact hminfin0
    · exact hminfin1
  have hmaxfin : isOverflowInfinity fl t max = false := by
    rcases hmaxeq with rfl | rfl
    · exact hmaxfin0
    · exact hmaxfin1
  rcases hmark with hmark | hmark
  · obtain rfl : min0 = min1 := by
      by_contra hne0
      exact hmincmp ⟨hne0, .inl hmark, hminfin0, hminfin1⟩
    obtain rfl : min = min0 := hmineq.elim id id
    exact hcomparable ⟨hne, .inl hmark, hminfin, hmaxfin⟩
  · obtain rfl : max0 = max1 := by
      by_contra hne0
      exact hmaxcmp ⟨hne0, .inl hmark, hmaxfin0, hmaxfin1⟩
    obtain rfl : max = max0 := hmaxeq.elim id id
    exact hcomparable ⟨hne, .inr hmark, hminfin, hmaxfin⟩

end Parts

/-! ## Sets of names -/

theorem meetEquiv_subset (e0 e1 : Option (Finset ℕ)) :
    (meetEquiv e0 e1).getD ∅ ⊆ e0.getD ∅ ∧ (meetEquiv e0 e1).getD ∅ ⊆ e1.getD ∅ := by
  cases e0 with
  | none => exact ⟨Finset.empty_subset _, Finset.empty_subset _⟩
  | some s =>
    cases e1 with
    | none => exact ⟨Finset.empty_subset _, Finset.empty_subset _⟩
    | some s' => exact ⟨Finset.inter_subset_left, Finset.inter_subset_right⟩

/-- A cleared set is empty. Source: `bitmap.c` `bitmap_clear`. Kind: L -/
theorem getD_map_empty (e : Option (Finset ℕ)) : (e.map fun _ => (∅ : Finset ℕ)).getD ∅ = ∅ := by
  cases e with
  | none => rfl
  | some s => rfl

/-- Giving up leaves no names. Source: `tree-vrp.c` `vrp_meet` ("VR0 cannot have any equivalences"). Kind: L -/
theorem giveUp_equivalences (vr0 vr1 : ValueRangeT) : (giveUp fl t vr0 vr1).equivalences = ∅ := by
  unfold giveUp setValueRangeToVarying ValueRangeT.equivalences
  split_ifs
  · exact getD_map_empty _
  · exact getD_map_empty _

/-- A copy has the names of its source. Source: `tree-vrp.c` `copy_value_range`. Kind: L -/
theorem copyValueRange_equivalences (vr0 vr1 : ValueRangeT) : (copyValueRange vr0 vr1).equivalences = vr1.equivalences := by
  unfold copyValueRange ValueRangeT.equivalences
  cases vr0.equiv with
  | none =>
    cases vr1.equiv with
    | none => rfl
    | some s => rfl
  | some s0 =>
    cases vr1.equiv with
    | none => rfl
    | some s => rfl

/-! ## The meet -/

section Meet

variable {vr0 vr1 : ValueRangeT}

/-- **What is given up on** is still above both. Source: `tree-vrp.c` `vrp_meet` (`give_up`). Kind: L -/
theorem giveUp_admits (h0 : vr0.range.IsStored fl t) (h1 : vr1.range.IsStored fl t) {z : ℤ}
    (hz : vr0.range.Admits z ∨ vr1.range.Admits z) : (giveUp fl t vr0 vr1).range.Admits z := by
  unfold giveUp
  split_ifs with hex
  · rw [Bool.and_eq_true] at hex
    have hne : z ≠ 0 := by
      rcases hz with hz | hz
      · exact ne_zero_of_excludesZero h0 hex.1 hz
      · exact ne_zero_of_excludesZero h1 hex.2 hz
    rw [ValueRange.admits_antiRange]
    rintro ⟨hge, hle⟩
    exact hne (le_antisymm hle hge)
  · trivial

/-- What is given up on may be stored. Source: `tree-vrp.c` `vrp_meet` (`give_up`). Kind: L -/
theorem giveUp_valid (vr0 vr1 : ValueRangeT) : (giveUp fl t vr0 vr1).Valid fl t := by
  refine ⟨?_, fun _ => giveUp_equivalences vr0 vr1⟩
  have hlt := t.minValue_lt_maxValue
  unfold giveUp
  split_ifs
  · apply stored_of_plain (plain_zero t) (plain_zero t) le_rfl
    rintro ⟨hmin, hmax⟩
    omega
  · trivial

/-- **What a meet can be.** Source: `tree-vrp.c` `vrp_meet`. -/
inductive Meets (fl : Flags) (t : IntType) (vr0 vr1 : ValueRangeT) : ValueRangeT → Prop
  /-- The second range, if the first one is nothing. -/
  | copy (h0 : vr0.range = .undefined) : Meets fl t vr0 vr1 (copyValueRange vr0 vr1)
  /-- The first range, if the second one is nothing or the first one is everything. -/
  | keep (h0 : vr0.range ≠ .undefined) (h : vr1.range = .undefined ∨ vr0.range = .varying) : Meets fl t vr0 vr1 vr0
  /-- Everything, if the second range is. -/
  | varying (h0 : vr0.range ≠ .undefined) (h1 : vr1.range = .varying) : Meets fl t vr0 vr1 (setValueRangeToVarying vr0)
  /-- The hull of two ranges, if it says something. -/
  | hull {min0 max0 min1 max1 min max : Cst} (h0 : vr0.range = .known .range min0 max0)
      (h1 : vr1.range = .known .range min1 max1) (hmin : meetMin fl t min0 min1 = some min)
      (hmax : meetMax fl t max0 max1 = some max) (huseless : uselessRange fl t min max = false) :
      Meets fl t vr0 vr1 ⟨.known .range min max, meetEquiv vr0.equiv vr1.equiv⟩
  /-- The first range, an anti-range that has the values of the second one. -/
  | first {min0 max0 min1 max1 : Cst} {kind1 : RangeKind} (h0 : vr0.range = .known .antiRange min0 max0)
      (h1 : vr1.range = .known kind1 min1 max1) (hle : ∀ z, vr1.range.Admits z → vr0.range.Admits z) :
      Meets fl t vr0 vr1 ⟨vr0.range, meetEquiv vr0.equiv vr1.equiv⟩
  /-- The second range, an anti-range that has the values of the first one. -/
  | second {min0 max0 min1 max1 : Cst} (h0 : vr0.range = .known .range min0 max0)
      (h1 : vr1.range = .known .antiRange min1 max1) (hle : ∀ z, vr0.range.Admits z → vr1.range.Admits z) :
      Meets fl t vr0 vr1 ⟨vr1.range, meetEquiv vr0.equiv vr1.equiv⟩
  /-- The values that are not zero, or everything. -/
  | giveUp (h0 : vr0.range ≠ .undefined) (h1 : vr1.range ≠ .undefined) : Meets fl t vr0 vr1 (giveUp fl t vr0 vr1)

/-- Every meet is one of these. Source: `tree-vrp.c` `vrp_meet`. Kind: L -/
theorem meets_vrpMeet (h0 : vr0.range.IsStored fl t) (h1 : vr1.range.IsStored fl t) :
    Meets fl t vr0 vr1 (vrpMeet fl t vr0 vr1) := by
  obtain ⟨range0, equiv0⟩ := vr0
  obtain ⟨range1, equiv1⟩ := vr1
  dsimp only at h0 h1
  cases range0 with
  | undefined => exact .copy rfl
  | varying =>
    have hkeep : vrpMeet fl t ⟨.varying, equiv0⟩ ⟨range1, equiv1⟩ = ⟨.varying, equiv0⟩ := by
      cases range1 <;> rfl
    rw [hkeep]
    exact .keep (by simp) (.inr rfl)
  | known kind0 min0 max0 =>
    cases range1 with
    | undefined => exact .keep (by simp) (.inl rfl)
    | varying => exact .varying (by simp) rfl
    | known kind1 min1 max1 =>
      have hgiveUp := @Meets.giveUp fl t ⟨.known kind0 min0 max0, equiv0⟩
        ⟨.known kind1 min1 max1, equiv1⟩ (by simp) (by simp)
      cases kind0 with
      | range =>
        cases kind1 with
        | range =>
          unfold vrpMeet
          dsimp only
          cases hmin : meetMin fl t min0 min1 with
          | none => exact hgiveUp
          | some min =>
            cases hmax : meetMax fl t max0 max1 with
            | none => exact hgiveUp
            | some max =>
              dsimp only
              cases huseless : uselessRange fl t min max with
              | true => exact hgiveUp
              | false => exact .hull rfl rfl hmin hmax huseless
        | antiRange =>
          unfold vrpMeet
          dsimp only
          cases hapart : valueRangesIntersect fl t min0 max0 min1 max1 with
          | true => exact hgiveUp
          | false => exact .second rfl rfl fun z hz => not_mem_of_not_intersect h0 h1 hapart hz
      | antiRange =>
        cases kind1 with
        | range =>
          unfold vrpMeet
          dsimp only
          cases hapart : valueRangesIntersect fl t min0 max0 min1 max1 with
          | true => exact hgiveUp
          | false => exact .first rfl rfl fun z hz hz0 => not_mem_of_not_intersect h0 h1 hapart hz0 hz
        | antiRange =>
          unfold vrpMeet
          dsimp only
          by_cases hsame : compareValues fl t min0 min1 = 0 ∧ compareValues fl t max0 max1 = 0 ∧
              compareValues fl t min0 max0 = 0
          · rw [if_pos hsame]
            have hmin := compareValues_cases fl h0.min_has h1.min_has
            have hmax := compareValues_cases fl h0.max_has h1.max_has
            refine .first rfl rfl fun z hz hz0 => hz ?_
            exact ⟨(Cst.val_le_val h1.min_has h0.min_has (by omega : min1.key fl t ≤ min0.key fl t)).trans hz0.1,
              hz0.2.trans (Cst.val_le_val h0.max_has h1.max_has (by omega : max0.key fl t ≤ max1.key fl t))⟩
          · rw [if_neg hsame]
            exact hgiveUp

/-- **The meet admits the values of both.** Source: `tree-vrp.c` `vrp_meet`. Kind: C -/
theorem vrpMeet_admits (h0 : vr0.range.IsStored fl t) (h1 : vr1.range.IsStored fl t) {z : ℤ}
    (hz : vr0.range.Admits z ∨ vr1.range.Admits z) : (vrpMeet fl t vr0 vr1).range.Admits z := by
  have hmeets := meets_vrpMeet h0 h1
  generalize vrpMeet fl t vr0 vr1 = vr at hmeets ⊢
  cases hmeets with
  | copy hundef =>
    rcases hz with hz | hz
    · rw [hundef] at hz
      exact absurd hz ValueRange.admits_undefined
    · exact hz
  | keep hdef h =>
    rcases hz with hz | hz
    · exact hz
    · rcases h with hundef | hvarying
      · rw [hundef] at hz
        exact absurd hz ValueRange.admits_undefined
      · rw [hvarying]
        trivial
  | varying => trivial
  | @hull min0 max0 min1 max1 min max h0' h1' hmin hmax huseless =>
    rw [h0', h1'] at hz
    rw [h0'] at h0
    rw [h1'] at h1
    obtain ⟨hminhas, hminle0, hminle1, -⟩ := meetMin_spec h0.min_has h1.min_has hmin
    obtain ⟨hmaxhas, hmaxle0, hmaxle1, -⟩ := meetMax_spec h0.max_has h1.max_has hmax
    have hminkey : min.key fl t ≤ min0.key fl t := hminle0.elim (fun h => h ▸ le_rfl) le_of_lt
    have hmaxkey : max0.key fl t ≤ max.key fl t := hmaxle0.elim (fun h => h ▸ le_rfl) le_of_lt
    rw [ValueRange.admits_range]
    rcases hz with ⟨hlow, hhigh⟩ | ⟨hlow, hhigh⟩
    · exact ⟨(Cst.val_le_val hminhas h0.min_has hminkey).trans hlow, hhigh.trans (Cst.val_le_val h0.max_has hmaxhas hmaxkey)⟩
    · exact ⟨(Cst.val_le_val hminhas h1.min_has hminle1).trans hlow, hhigh.trans (Cst.val_le_val h1.max_has hmaxhas hmaxle1)⟩
  | first _ _ hle =>
    rcases hz with hz | hz
    · exact hz
    · exact hle z hz
  | second _ _ hle =>
    rcases hz with hz | hz
    · exact hle z hz
    · exact hz
  | giveUp => exact giveUp_admits h0 h1 hz

/-- The names that a meet keeps. Source: `tree-vrp.c` `vrp_meet` ("the intersection of the two sets"). Kind: C -/
theorem vrpMeet_equivalences (h0 : vr0.Valid fl t) (h1 : vr1.Valid fl t) (hdef0 : vr0.range ≠ .undefined)
    (hdef1 : vr1.range ≠ .undefined) :
    (vrpMeet fl t vr0 vr1).equivalences ⊆ vr0.equivalences ∧ (vrpMeet fl t vr0 vr1).equivalences ⊆ vr1.equivalences := by
  have hempty : ∀ {s : Finset ℕ}, s = ∅ → s ⊆ vr0.equivalences ∧ s ⊆ vr1.equivalences := by
    rintro s rfl
    exact ⟨Finset.empty_subset _, Finset.empty_subset _⟩
  have hmeets := meets_vrpMeet h0.stored h1.stored
  generalize vrpMeet fl t vr0 vr1 = vr at hmeets ⊢
  cases hmeets with
  | copy hundef => exact absurd hundef hdef0
  | keep _ h =>
    rcases h with hundef | hvarying
    · exact absurd hundef hdef1
    · exact hempty (h0.equiv_empty (.inr hvarying))
  | varying => exact hempty (getD_map_empty _)
  | hull => exact meetEquiv_subset vr0.equiv vr1.equiv
  | first => exact meetEquiv_subset vr0.equiv vr1.equiv
  | second => exact meetEquiv_subset vr0.equiv vr1.equiv
  | giveUp => exact hempty (giveUp_equivalences vr0 vr1)

/-- **A meet may be stored.** Source: `tree-vrp.c` `vrp_meet`, `set_value_range`. Kind: C -/
theorem vrpMeet_valid (h0 : vr0.Valid fl t) (h1 : vr1.Valid fl t) : (vrpMeet fl t vr0 vr1).Valid fl t := by
  have hmeets := meets_vrpMeet h0.stored h1.stored
  generalize vrpMeet fl t vr0 vr1 = vr at hmeets ⊢
  cases hmeets with
  | copy =>
    refine ⟨h1.stored, ?_⟩
    intro hrange
    rw [copyValueRange_equivalences]
    exact h1.equiv_empty hrange
  | keep => exact h0
  | varying => exact ⟨trivial, fun _ => getD_map_empty _⟩
  | @hull min0 max0 min1 max1 min max h0' h1' hmin hmax huseless =>
    have hs0 := h0.stored
    have hs1 := h1.stored
    rw [h0'] at hs0
    rw [h1'] at hs1
    have hminhas := (meetMin_spec hs0.min_has hs1.min_has hmin).1
    have hmaxhas := (meetMax_spec hs0.max_has hs1.max_has hmax).1
    refine ⟨⟨hminhas, hmaxhas, hull_ordered hs0 hs1 hmin hmax, ?_, by simp⟩, by simp⟩
    rintro ⟨hmininf, hmaxinf⟩
    simp [uselessRange, hmininf, hmaxinf] at huseless
  | first h0' h1' hle =>
    refine ⟨h0.stored, ?_⟩
    rw [h0']
    simp
  | second h0' h1' hle =>
    refine ⟨h1.stored, ?_⟩
    rw [h1']
    simp
  | giveUp => exact giveUp_valid vr0 vr1

end Meet

end GccCore.Gcc.TreeVrp
