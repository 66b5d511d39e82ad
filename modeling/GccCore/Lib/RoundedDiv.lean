import GccCore.Lib.Corners
import Mathlib.Algebra.Order.Floor.Ring
import Mathlib.Data.Int.ConditionallyCompleteOrder
import Mathlib.Data.Rat.Floor
import Mathlib.Tactic.FieldSimp
import Mathlib.Tactic.Linarith
import Mathlib.Tactic.Positivity

/-!
# Rounded division

Integer division as a rational quotient followed by a rounding.

* **Roundings** (`IsRounding`): monotone, and the identity on the integers; down, up and to zero.
* **The integer divisions** (`floor_div_eq`, `ceil_div_eq`, `truncate_div_eq`).
* **Bounds**: over a box whose divisors have one sign the corners bound the quotients
  (`IsRounding.bounded_div`), and a quotient is no larger than its dividend (`IsRounding.abs_div_le`).
-/

namespace GccCore.Lib.RoundedDiv

open GccCore.Lib.Corners

/-- A rounding of the rationals to the integers. -/
structure IsRounding (r : ℚ → ℤ) : Prop where
  mono : Monotone r
  intCast : ∀ n : ℤ, r n = n

/-- Rounding to zero. -/
def truncate (q : ℚ) : ℤ := if 0 ≤ q then ⌊q⌋ else ⌈q⌉

theorem isRounding_floor : IsRounding (fun q => ⌊q⌋) :=
  ⟨Int.floor_mono, Int.floor_intCast⟩

theorem isRounding_ceil : IsRounding (fun q => ⌈q⌉) :=
  ⟨Int.ceil_mono, Int.ceil_intCast⟩

theorem isRounding_truncate : IsRounding truncate := by
  refine ⟨?_, ?_⟩
  · intro p q hpq
    unfold truncate
    by_cases hp : 0 ≤ p
    · rw [if_pos hp, if_pos (le_trans hp hpq)]
      exact Int.floor_mono hpq
    · rw [if_neg hp]
      by_cases hq : 0 ≤ q
      · rw [if_pos hq]
        have hup : ⌈p⌉ ≤ 0 := Int.ceil_le.mpr (by push_cast; linarith)
        have hdown : 0 ≤ ⌊q⌋ := Int.le_floor.mpr (by push_cast; exact hq)
        exact le_trans hup hdown
      · rw [if_neg hq]
        exact Int.ceil_mono hpq
  · intro n
    unfold truncate
    split
    · exact Int.floor_intCast n
    · exact Int.ceil_intCast n

/-! ## The integer divisions -/

theorem floor_div_eq (n d : ℤ) : ⌊(n : ℚ) / d⌋ = n.fdiv d := by
  have hnat : ∀ (n : ℤ) (k : ℕ), ⌊(n : ℚ) / (k : ℤ)⌋ = n.fdiv k := by
    intro n k
    rw [Int.fdiv_eq_ediv_of_nonneg n (Int.natCast_nonneg k), Int.cast_natCast]
    exact Rat.floor_intCast_div_natCast n k
  rcases Int.eq_nat_or_neg d with ⟨k, rfl | rfl⟩
  · exact hnat n k
  · have hflip := hnat (-n) k
    rw [← Int.neg_fdiv_neg n (-(k : ℤ)), neg_neg, ← hflip]
    push_cast
    rw [div_neg, neg_div]

theorem ceil_div_eq (n d : ℤ) : ⌈(n : ℚ) / d⌉ = -(-n).fdiv d := by
  rw [← floor_div_eq, ← Int.ceil_neg]
  push_cast
  rw [neg_div, neg_neg]

theorem truncate_div_eq (n d : ℤ) : truncate ((n : ℚ) / d) = n.tdiv d := by
  have hnat : ∀ m k : ℕ, ⌊((m : ℤ) : ℚ) / ((k : ℤ) : ℚ)⌋ = ((m / k : ℕ) : ℤ) := by
    intro m k
    rw [floor_div_eq, Int.fdiv_eq_ediv_of_nonneg _ (Int.natCast_nonneg k)]
    rfl
  have hpos : ∀ m k : ℕ, truncate (((m : ℤ) : ℚ) / ((k : ℤ) : ℚ)) = ((m / k : ℕ) : ℤ) := by
    intro m k
    unfold truncate
    rw [if_pos (by positivity)]
    exact hnat m k
  have hneg : ∀ m k : ℕ, truncate (-(((m : ℤ) : ℚ) / ((k : ℤ) : ℚ))) = -((m / k : ℕ) : ℤ) := by
    intro m k
    unfold truncate
    by_cases hz : ((m : ℤ) : ℚ) / ((k : ℤ) : ℚ) = 0
    · have hfloor := hnat m k
      rw [hz, Int.floor_zero] at hfloor
      rw [hz, neg_zero, if_pos le_rfl, Int.floor_zero, ← hfloor, neg_zero]
    · have hlt : 0 < ((m : ℤ) : ℚ) / ((k : ℤ) : ℚ) := lt_of_le_of_ne (by positivity) (Ne.symm hz)
      rw [if_neg (by linarith), Int.ceil_neg, hnat]
  rcases Int.eq_nat_or_neg n with ⟨m, rfl | rfl⟩ <;> rcases Int.eq_nat_or_neg d with ⟨k, rfl | rfl⟩
  · exact hpos m k
  · rw [Int.tdiv_neg, Int.cast_neg, div_neg]
    exact hneg m k
  · rw [Int.neg_tdiv, Int.cast_neg, neg_div]
    exact hneg m k
  · rw [Int.neg_tdiv, Int.tdiv_neg, neg_neg, Int.cast_neg, Int.cast_neg, neg_div_neg_eq]
    exact hpos m k

/-! ## Bounds -/

section Bounds

variable {r : ℚ → ℤ}

/-- Division by numbers of one sign goes one way in the divisor. -/
theorem oneWay_div_right (u : ℤ) {c d : ℤ} (hsign : 0 < c ∨ d < 0) :
    OneWay (fun v : ℤ => (u : ℚ) / v) (Set.Icc c d) := by
  have hinv : AntitoneOn (fun v : ℤ => ((v : ℚ))⁻¹) (Set.Icc c d) := by
    intro v hv w hw hvw
    have hvw' : (v : ℚ) ≤ w := by exact_mod_cast hvw
    rcases hsign with hc | hd
    · have hv0 : (0 : ℚ) < v := by exact_mod_cast lt_of_lt_of_le hc hv.1
      exact inv_anti₀ hv0 hvw'
    · have hw0 : (w : ℚ) < 0 := by exact_mod_cast lt_of_le_of_lt hw.2 hd
      exact (inv_le_inv_of_neg hw0 (lt_of_le_of_lt hvw' hw0)).mpr hvw'
  rcases le_total 0 u with hu | hu
  · right
    intro v hv w hw hvw
    have hu' : (0 : ℚ) ≤ u := by exact_mod_cast hu
    simp only [div_eq_mul_inv]
    exact mul_le_mul_of_nonneg_left (hinv hv hw hvw) hu'
  · left
    intro v hv w hw hvw
    have hu' : (u : ℚ) ≤ 0 := by exact_mod_cast hu
    simp only [div_eq_mul_inv]
    exact mul_le_mul_of_nonpos_left (hinv hv hw hvw) hu'

/-- Division goes one way in the dividend. -/
theorem oneWay_div_left (v : ℤ) (s : Set ℤ) : OneWay (fun u : ℤ => (u : ℚ) / v) s := by
  rcases le_total 0 v with hv | hv
  · left
    intro u _ w _ huw
    have hv' : (0 : ℚ) ≤ v := by exact_mod_cast hv
    exact div_le_div_of_nonneg_right (by exact_mod_cast huw) hv'
  · right
    intro u _ w _ huw
    have hv' : (v : ℚ) ≤ 0 := by exact_mod_cast hv
    exact div_le_div_of_nonpos_of_le hv' (by exact_mod_cast huw)

/-- **The corners bound the rounded quotients** over divisors of one sign. -/
theorem IsRounding.bounded_div (hr : IsRounding r) {a b c d x y : ℤ} (hx : x ∈ Set.Icc a b)
    (hy : y ∈ Set.Icc c d) (hsign : 0 < c ∨ d < 0) :
    Bounded (fun u v : ℤ => r ((u : ℚ) / v)) a b c d (r ((x : ℚ) / y)) := by
  have hbox : Bounded (fun u v : ℤ => (u : ℚ) / v) a b c d ((x : ℚ) / y) :=
    bounded_of_oneWay hx hy (oneWay_div_left y _) (fun u _ => oneWay_div_right u hsign)
  exact hbox.comp hr.mono

/-- A quotient by a positive number lies between zero and its dividend. -/
theorem IsRounding.div_between (hr : IsRounding r) (x : ℤ) {y : ℤ} (hy : 0 < y) :
    min 0 x ≤ r ((x : ℚ) / y) ∧ r ((x : ℚ) / y) ≤ max 0 x := by
  have hy' : (1 : ℚ) ≤ y := by exact_mod_cast hy
  refine ⟨?_, ?_⟩
  · rw [← hr.intCast (min 0 x)]
    apply hr.mono
    rw [le_div_iff₀ (by linarith)]
    rcases le_total 0 x with hx | hx
    · rw [min_eq_left hx]
      push_cast
      have : (0 : ℚ) ≤ x := by exact_mod_cast hx
      linarith
    · rw [min_eq_right hx]
      have : (x : ℚ) ≤ 0 := by exact_mod_cast hx
      nlinarith
  · rw [← hr.intCast (max 0 x)]
    apply hr.mono
    rw [div_le_iff₀ (by linarith)]
    rcases le_total 0 x with hx | hx
    · rw [max_eq_right hx]
      have : (0 : ℚ) ≤ x := by exact_mod_cast hx
      nlinarith
    · rw [max_eq_left hx]
      push_cast
      have : (x : ℚ) ≤ 0 := by exact_mod_cast hx
      linarith

/-- A quotient is not larger than its dividend. -/
theorem IsRounding.abs_div_le (hr : IsRounding r) (x : ℤ) {y : ℤ} (hy : y ≠ 0) :
    -|x| ≤ r ((x : ℚ) / y) ∧ r ((x : ℚ) / y) ≤ |x| := by
  have hlow : min 0 x ≥ -|x| ∧ max 0 x ≤ |x| :=
    ⟨le_min (neg_nonpos.mpr (abs_nonneg x)) (neg_abs_le x), max_le (abs_nonneg x) (le_abs_self x)⟩
  rcases lt_or_gt_of_ne hy with hneg | hpos
  · have hflip : (x : ℚ) / y = ((-x : ℤ) : ℚ) / ((-y : ℤ) : ℚ) := by
      push_cast
      rw [neg_div_neg_eq]
    have hlow' : min 0 (-x) ≥ -|x| ∧ max 0 (-x) ≤ |x| :=
      ⟨le_min (neg_nonpos.mpr (abs_nonneg x)) (neg_le_neg (le_abs_self x)),
        max_le (abs_nonneg x) (neg_le_abs x)⟩
    obtain ⟨h1, h2⟩ := hr.div_between (-x) (neg_pos.mpr hneg)
    rw [hflip]
    exact ⟨le_trans hlow'.1 h1, le_trans h2 hlow'.2⟩
  · obtain ⟨h1, h2⟩ := hr.div_between x hpos
    exact ⟨le_trans hlow.1 h1, le_trans h2 hlow.2⟩

end Bounds

end GccCore.Lib.RoundedDiv
