import GccCore.Gcc.TreeVrp.Constants
import GccCore.Gcc.TreeVrp.Binary

/-!
# `gcc/tree-vrp.c`: canonical ranges

A pair of constants in the wrong order stands for the values from the first one upwards, past the end of the type, to the
second one. `set_and_canonicalize_value_range` stores it as the complementary kind of range.

* **The values that are meant** (`IntType.Arc`, `IntType.Meant`): counted from the first constant modulo the width of the type.
* **Main result**: `setAndCanonicalizeValueRange_admits`. No value is dropped. By `setAndCanonicalizeValueRange_exact` none is
  added either, unless the result is every value.
-/

namespace GccCore.Gcc.TreeVrp

open GccCore.Gcc.FoldConst

variable {t : IntType}

/-! ## The values that are meant -/

/-- The values from `lo` upwards to `hi`, past the greatest value to the least one if need be.
Source: `tree-vrp.c` `set_and_canonicalize_value_range` ("a wrapping range with MAX < MIN") -/
def IntType.Arc (t : IntType) (lo hi z : ℤ) : Prop := (z - lo) % 2 ^ t.prec ≤ (hi - lo) % 2 ^ t.prec

/-- The values that a kind of range and two constants in any order mean.
Source: `tree-vrp.c` `set_and_canonicalize_value_range` ("Likewise for wrapping anti-ranges") -/
def IntType.Meant (t : IntType) (kind : RangeKind) (lo hi z : ℤ) : Prop :=
  match kind with
  | .range => t.Arc lo hi z
  | .antiRange => ¬ t.Arc lo hi z

instance (t : IntType) (kind : RangeKind) (lo hi z : ℤ) : Decidable (t.Meant kind lo hi z) :=
  match kind with
  | .range => inferInstanceAs (Decidable (_ ≤ _))
  | .antiRange => inferInstanceAs (Decidable (¬ _ ≤ _))

/-- The distance of two values, counted upwards. -/
theorem IntType.sub_emod {x y : ℤ} (hx : t.Has x) (hy : t.Has y) :
    (x - y) % 2 ^ t.prec = if y ≤ x then x - y else x - y + 2 ^ t.prec := by
  have hpow := t.two_pow_prec
  have hwidth : t.maxValue - t.minValue = 2 ^ t.prec - 1 := by
    unfold IntType.minValue IntType.maxValue
    cases t.unsigned
    · simp only [Bool.false_eq_true, if_false]
      omega
    · simp only [if_true]
      omega
  obtain ⟨hx1, hx2⟩ := hx
  obtain ⟨hy1, hy2⟩ := hy
  split_ifs with hle
  · exact Int.emod_eq_of_lt (by omega) (by omega)
  · rw [← Int.add_emod_right, Int.emod_eq_of_lt (by omega) (by omega)]

/-- Constants in order mean an interval. -/
theorem IntType.arc_iff_of_le {lo hi z : ℤ} (hlo : t.Has lo) (hhi : t.Has hi) (hz : t.Has z) (hle : lo ≤ hi) :
    t.Arc lo hi z ↔ lo ≤ z ∧ z ≤ hi := by
  have hzmin := hz.1
  have hhimax := hhi.2
  have hlomin := hlo.1
  have hpos : (0 : ℤ) < 2 ^ t.prec := by positivity
  have hwide := Int.emod_nonneg (hi - lo) hpos.ne'
  have hlt := Int.emod_lt_of_pos (hi - z) hpos
  rw [IntType.sub_emod hhi hz] at hlt
  unfold IntType.Arc
  rw [IntType.sub_emod hz hlo, IntType.sub_emod hhi hlo, if_pos hle]
  split_ifs at hlt ⊢ <;> omega

/-- Constants in the wrong order mean all but what is strictly between them. -/
theorem IntType.arc_iff_of_lt {lo hi z : ℤ} (hlo : t.Has lo) (hhi : t.Has hi) (hz : t.Has z) (hlt : hi < lo) :
    t.Arc lo hi z ↔ ¬ (hi + 1 ≤ z ∧ z ≤ lo - 1) := by
  have hpos : (0 : ℤ) < 2 ^ t.prec := by positivity
  have hup := Int.emod_lt_of_pos (z - lo) hpos
  have hdown := Int.emod_lt_of_pos (z - hi) hpos
  rw [IntType.sub_emod hz hlo] at hup
  rw [IntType.sub_emod hz hhi] at hdown
  unfold IntType.Arc
  rw [IntType.sub_emod hz hlo, IntType.sub_emod hhi hlo, if_neg (not_le.mpr hlt)]
  split_ifs at hup hdown ⊢ <;> omega

/-! ## Bounds moved by one -/

theorem plusOne_val {v : Cst} (h : t.Has (v.val + 1)) : (plusOne t v).val = v.val + 1 := by
  unfold plusOne forceFit
  dsimp only
  rw [IntType.wrap_congr ((t.stored_modEq v.val).add_right 1), IntType.wrap_of_has h]

theorem minusOne_val {v : Cst} (h : t.Has (v.val - 1)) : (minusOne t v).val = v.val - 1 := by
  unfold minusOne forceFit
  dsimp only
  rw [IntType.wrap_congr ((t.stored_modEq v.val).sub_right 1), IntType.wrap_of_has h]

/-! ## Canonical ranges -/

/-- **An anti-range made canonical** admits the same values, unless it is empty.
Source: `tree-vrp.c` `set_and_canonicalize_value_range`
Kind: L -/
theorem canonicalAntiRange_exact {min max : Cst} (hmin : t.Has min.val) (hmax : t.Has max.val) :
    canonicalAntiRange t min max = .varying ∨
      ∀ z, t.Has z → ((canonicalAntiRange t min max).Admits z ↔ ¬ (min.val ≤ z ∧ z ≤ max.val)) := by
  obtain ⟨hminlow, hminhigh⟩ := hmin
  obtain ⟨hmaxlow, hmaxhigh⟩ := hmax
  unfold canonicalAntiRange
  by_cases hboth : min.val = t.minValue ∧ max.val = t.maxValue
  · rw [if_pos hboth]
    exact .inl rfl
  · rw [if_neg hboth]
    right
    intro z hz
    obtain ⟨hzlow, hzhigh⟩ := hz
    by_cases hlow : min.val = t.minValue ∧ ¬ (t.unsigned = true ∧ max.val = 0)
    · rw [if_pos hlow]
      have hne : max.val ≠ t.maxValue := fun h => hboth ⟨hlow.1, h⟩
      have hnext : (plusOne t max).val = max.val + 1 := plusOne_val ⟨by omega, by omega⟩
      rw [ValueRange.admits_range, hnext, show (Cst.ofVal t.maxValue).val = t.maxValue from rfl]
      omega
    · rw [if_neg hlow]
      by_cases hhigh : max.val = t.maxValue
      · rw [if_pos hhigh]
        have hne : min.val ≠ t.minValue := fun h => hboth ⟨h, hhigh⟩
        have hprev : (minusOne t min).val = min.val - 1 := minusOne_val ⟨by omega, by omega⟩
        rw [ValueRange.admits_range, hprev, show (Cst.ofVal t.minValue).val = t.minValue from rfl]
        omega
      · rw [if_neg hhigh]
        exact Iff.rfl

/-- **A canonical range is exact**, unless it is every value. Source: `tree-vrp.c` `set_and_canonicalize_value_range`. Kind: C -/
theorem setAndCanonicalizeValueRange_exact (kind : RangeKind) {min max : Cst} (hmin : t.Has min.val) (hmax : t.Has max.val) :
    setAndCanonicalizeValueRange t kind min max = .varying ∨
      ∀ z, t.Has z → ((setAndCanonicalizeValueRange t kind min max).Admits z ↔ t.Meant kind min.val max.val z) := by
  unfold setAndCanonicalizeValueRange
  by_cases hswapped : max.val < min.val
  · rw [if_pos hswapped]
    have hlo : (plusOne t max).val = max.val + 1 := plusOne_val ⟨by linarith [hmax.1], by linarith [hmin.2]⟩
    have hhi : (minusOne t min).val = min.val - 1 := minusOne_val ⟨by linarith [hmax.1], by linarith [hmin.2]⟩
    have hhasLo : t.Has (plusOne t max).val := by
      rw [hlo]
      exact ⟨by linarith [hmax.1], by linarith [hmin.2]⟩
    have hhasHi : t.Has (minusOne t min).val := by
      rw [hhi]
      exact ⟨by linarith [hmax.1], by linarith [hmin.2]⟩
    have harc : ∀ z, t.Has z →
        (t.Arc min.val max.val z ↔ ¬ ((plusOne t max).val ≤ z ∧ z ≤ (minusOne t min).val)) := by
      intro z hz
      rw [hlo, hhi]
      exact IntType.arc_iff_of_lt hmin hmax hz hswapped
    dsimp only
    split_ifs with hempty hkind
    · exact .inl rfl
    · subst hkind
      rcases canonicalAntiRange_exact hhasLo hhasHi with hvarying | hexact
      · exact .inl hvarying
      · right
        intro z hz
        rw [hexact z hz]
        exact (harc z hz).symm
    · have hanti : kind = .antiRange := by
        cases kind with
        | range => exact absurd rfl hkind
        | antiRange => rfl
      subst hanti
      right
      intro z hz
      unfold IntType.Meant
      rw [harc z hz, not_not]
      exact Iff.rfl
  · rw [if_neg hswapped]
    have harc : ∀ z, t.Has z → (t.Arc min.val max.val z ↔ min.val ≤ z ∧ z ≤ max.val) := by
      intro z hz
      exact IntType.arc_iff_of_le hmin hmax hz (not_lt.mp hswapped)
    cases kind with
    | antiRange =>
      rw [if_pos rfl]
      rcases canonicalAntiRange_exact hmin hmax with hvarying | hexact
      · exact .inl hvarying
      · right
        intro z hz
        unfold IntType.Meant
        rw [hexact z hz, harc z hz]
    | range =>
      rw [if_neg (by decide)]
      right
      intro z hz
      exact (harc z hz).symm

/-- What a canonical range admits. Source: `tree-vrp.c` `set_and_canonicalize_value_range`. Kind: C -/
theorem admits_of_meant {kind : RangeKind} {min max : Cst} (hmin : t.Has min.val) (hmax : t.Has max.val) {z : ℤ}
    (hz : t.Has z) (hmeant : t.Meant kind min.val max.val z) : (setAndCanonicalizeValueRange t kind min max).Admits z := by
  rcases setAndCanonicalizeValueRange_exact kind hmin hmax with hvarying | hexact
  · rw [hvarying]
    trivial
  · exact (hexact z hz).mpr hmeant

/-- Signed bytes. -/
def signedByte : IntType := .ofWidth 7 false

end GccCore.Gcc.TreeVrp
