import GccCore.Lib.RoundedDiv
import Mathlib.Algebra.Order.Field.Power
import Mathlib.Data.Nat.Bitwise
import Mathlib.Data.Nat.Log
import Mathlib.Data.Rat.Floor
import Mathlib.Tactic.Linarith
import Mathlib.Tactic.Positivity
import Mathlib.Tactic.Ring

/-!
# Numbers that are scaled by a power of two

* **Scaled numbers** (`scaled`): a natural number times a power of two, with its integral part (`floor_scaled_neg`).
* **Signs** (`signed`): a truncated number has the truncated magnitude, and so has one that is rounded (`roundHalfAway_signed`).
* **Sticky quotients** (`stickyDiv`): a quotient by a power of two whose last bit is set if it is not exact. It has the integral part
  of the exact quotient at every position above the last bit (`stickyDiv_div`).
-/

namespace GccCore.Lib.Scaled

open GccCore.Lib.RoundedDiv

/-! ## Scaled numbers -/

def scaled (m : ℕ) (e : ℤ) : ℚ := m * 2 ^ e

section Scaled

variable {m n S : ℕ} {e : ℤ}

theorem scaled_nonneg : 0 ≤ scaled m e := by
  unfold scaled
  positivity

@[simp]
theorem scaled_zero : scaled 0 e = 0 := by
  unfold scaled
  rw [Nat.cast_zero, zero_mul]

/-- A power of two moves between the number and the scale. -/
theorem scaled_mul_two_pow (m n : ℕ) (e : ℤ) : scaled (m * 2 ^ n) e = scaled m (e + n) := by
  unfold scaled
  rw [zpow_add₀ two_ne_zero, zpow_natCast]
  push_cast
  ring

theorem scaled_add (m n : ℕ) (e : ℤ) : scaled (m + n) e = scaled m e + scaled n e := by
  unfold scaled
  push_cast
  ring

theorem scaled_two_pow (n : ℕ) (e : ℤ) : scaled (2 ^ n) e = 2 ^ (n + e) := by
  unfold scaled
  rw [zpow_add₀ two_ne_zero, zpow_natCast]
  push_cast
  rfl

theorem scaled_natCast (m n : ℕ) : scaled m n = ((m * 2 ^ n : ℕ) : ℚ) := by
  unfold scaled
  rw [zpow_natCast]
  push_cast
  rfl

theorem scaled_lt_scaled (h : m < n) : scaled m e < scaled n e := by
  have hcast : (m : ℚ) < n := by exact_mod_cast h
  exact mul_lt_mul_of_pos_right hcast (by positivity)

theorem scaled_le_scaled (h : m ≤ n) : scaled m e ≤ scaled n e := by
  have hcast : (m : ℚ) ≤ n := by exact_mod_cast h
  exact mul_le_mul_of_nonneg_right hcast (by positivity)

theorem scaled_inj : scaled m e = scaled n e ↔ m = n := by
  constructor
  · intro heq
    rcases lt_trichotomy m n with hlt | rfl | hgt
    · exact absurd heq (scaled_lt_scaled hlt).ne
    · rfl
    · exact absurd heq (scaled_lt_scaled hgt).ne'
  · rintro rfl
    rfl

/-- **The integral part** of a number that is scaled down. -/
theorem floor_scaled_neg (m n : ℕ) : ⌊scaled m (-n)⌋ = ((m / 2 ^ n : ℕ) : ℤ) := by
  have hdiv : scaled m (-n) = ((m : ℤ) : ℚ) / ((2 ^ n : ℕ) : ℚ) := by
    unfold scaled
    rw [zpow_neg, zpow_natCast, div_eq_mul_inv]
    push_cast
    rfl
  rw [hdiv, Rat.floor_intCast_div_natCast]
  norm_cast

/-- A number can be scaled up to a given number of bits. -/
theorem exists_shift (hm : m ≠ 0) (hlt : m < 2 ^ S) : ∃ s < S, 2 ^ (S - 1) ≤ m * 2 ^ s ∧ m * 2 ^ s < 2 ^ S := by
  have hlog : Nat.log 2 m < S := Nat.log_lt_of_lt_pow hm hlt
  have hge := Nat.pow_log_le_self 2 hm
  have hlt' := Nat.lt_pow_succ_log_self one_lt_two m
  refine ⟨S - 1 - Nat.log 2 m, by omega, ?_, ?_⟩
  · calc 2 ^ (S - 1) = 2 ^ Nat.log 2 m * 2 ^ (S - 1 - Nat.log 2 m) := by rw [← pow_add]; congr 1; omega
      _ ≤ m * 2 ^ (S - 1 - Nat.log 2 m) := Nat.mul_le_mul_right _ hge
  · calc m * 2 ^ (S - 1 - Nat.log 2 m) < 2 ^ (Nat.log 2 m + 1) * 2 ^ (S - 1 - Nat.log 2 m) :=
          Nat.mul_lt_mul_of_pos_right hlt' (by positivity)
      _ = 2 ^ S := by rw [← pow_add]; congr 1; omega

end Scaled

/-! ## Signs -/

/-- A number with a sign. -/
def signed (sign : Bool) (q : ℚ) : ℚ := if sign then -q else q

/-- The nearest integer, where halves are rounded away from zero. -/
def roundHalfAway (q : ℚ) : ℤ := if 0 ≤ q then ⌊q + 1 / 2⌋ else -⌊-q + 1 / 2⌋

section Signs

variable {q : ℚ} {sign : Bool}

@[simp]
theorem signed_zero : signed sign 0 = 0 := by
  unfold signed
  rw [neg_zero, ite_self]

@[simp]
theorem abs_signed (sign : Bool) (q : ℚ) : |signed sign q| = |q| := by
  unfold signed
  split_ifs
  · exact abs_neg q
  · rfl

theorem signed_intCast (sign : Bool) (n : ℤ) : signed sign n = ((if sign then -n else n : ℤ) : ℚ) := by
  unfold signed
  split_ifs
  · push_cast
    rfl
  · rfl

theorem signed_inj {p q : ℚ} : signed sign p = signed sign q ↔ p = q := by
  unfold signed
  split_ifs
  · exact neg_inj
  · exact Iff.rfl

theorem floor_signed (sign : Bool) (q : ℚ) : ⌊signed sign q⌋ = if sign then -⌈q⌉ else ⌊q⌋ := by
  unfold signed
  split_ifs
  · exact Int.floor_neg
  · rfl

theorem ceil_signed (sign : Bool) (q : ℚ) : ⌈signed sign q⌉ = if sign then -⌊q⌋ else ⌈q⌉ := by
  unfold signed
  split_ifs
  · exact Int.ceil_neg
  · rfl

variable (hq : 0 ≤ q)

include hq

theorem truncate_signed : truncate (signed sign q) = if sign then -⌊q⌋ else ⌊q⌋ := by
  unfold truncate signed
  cases sign with
  | false => rw [if_neg Bool.false_ne_true, if_neg Bool.false_ne_true, if_pos hq]
  | true =>
    rw [if_pos rfl, if_pos rfl]
    split_ifs with hneg
    · obtain rfl : q = 0 := le_antisymm (by linarith) hq
      simp
    · exact Int.ceil_neg

theorem roundHalfAway_signed : roundHalfAway (signed sign q) = if sign then -⌊q + 1 / 2⌋ else ⌊q + 1 / 2⌋ := by
  unfold roundHalfAway signed
  cases sign with
  | false => rw [if_neg Bool.false_ne_true, if_neg Bool.false_ne_true, if_pos hq]
  | true =>
    rw [if_pos rfl, if_pos rfl]
    split_ifs with hneg
    · obtain rfl : q = 0 := le_antisymm (by linarith) hq
      norm_num
    · rw [neg_neg]

end Signs

/-! ## Sticky quotients -/

/-- A quotient whose last bit is set if it is not exact. -/
def stickyDiv (m n : ℕ) : ℕ := if m % 2 ^ n = 0 then m / 2 ^ n else m / 2 ^ n ||| 1

section Sticky

variable {m n j S : ℕ}

theorem stickyDiv_of_dvd (h : 2 ^ n ∣ m) : stickyDiv m n = m / 2 ^ n := if_pos (Nat.mod_eq_zero_of_dvd h)

theorem or_toNat_eq_stickyDiv {q : ℕ} {sticky : Bool} (hq : q = m / 2 ^ n) (hsticky : sticky = true ↔ m % 2 ^ n ≠ 0) :
    q ||| sticky.toNat = stickyDiv m n := by
  unfold stickyDiv
  split_ifs with hzero
  · rw [eq_false_of_ne_true fun h => hsticky.mp h hzero, Bool.toNat_false, Nat.or_zero, hq]
  · rw [hsticky.mpr hzero, Bool.toNat_true, hq]

/-- A quotient is exact if it is so after each of two steps. -/
theorem mod_two_pow_succ_ne_zero_iff : m % 2 ^ (n + 1) ≠ 0 ↔ m % 2 ^ n ≠ 0 ∨ m / 2 ^ n % 2 ≠ 0 := by
  have hpos : 0 < 2 ^ n := by positivity
  rw [pow_succ, Nat.mod_mul, ne_eq, Nat.add_eq_zero_iff, mul_eq_zero, not_and_or, not_or]
  exact or_congr Iff.rfl ⟨fun h => h.2, fun h => ⟨hpos.ne', h⟩⟩

/-- An exact quotient has the value of the dividend. -/
theorem scaled_stickyDiv_of_dvd (h : 2 ^ n ∣ m) (e : ℤ) : scaled (stickyDiv m n) (e + n) = scaled m e := by
  rw [stickyDiv_of_dvd h, ← scaled_mul_two_pow, Nat.div_mul_cancel h]

theorem div_le_stickyDiv : m / 2 ^ n ≤ stickyDiv m n := by
  unfold stickyDiv
  split_ifs
  · exact le_rfl
  · exact Nat.left_le_or

/-- **The bits above the last one** are those of the exact quotient. -/
theorem stickyDiv_div (hj : 0 < j) : stickyDiv m n / 2 ^ j = m / 2 ^ (n + j) := by
  rw [pow_add, ← Nat.div_div_eq_div_mul]
  unfold stickyDiv
  split_ifs
  · rfl
  · apply Nat.eq_of_testBit_eq
    intro i
    rw [Nat.testBit_div_two_pow, Nat.testBit_div_two_pow, Nat.testBit_or]
    have hone : Nat.testBit 1 (i + j) = false := Nat.testBit_lt_two_pow (Nat.one_lt_two_pow (by omega))
    rw [hone, Bool.or_false]

/-- A sticky quotient has the integral part of the exact one. -/
theorem floor_scaled_stickyDiv (hj : 0 < j) : ⌊scaled (stickyDiv m n) (-j)⌋ = ⌊scaled m (-(n + j : ℕ))⌋ := by
  rw [floor_scaled_neg, floor_scaled_neg, stickyDiv_div hj]

/-- The integral part, whose last bit is set if there is a fraction. -/
def truncateSticky (q : ℚ) : ℕ := ⌊q⌋₊ ||| if (⌊q⌋₊ : ℚ) = q then 0 else 1

theorem truncateSticky_natCast (m : ℕ) : truncateSticky m = m := by
  unfold truncateSticky
  rw [Nat.floor_natCast, if_pos rfl, Nat.or_zero]

theorem truncateSticky_scaled_neg (m n : ℕ) : truncateSticky (scaled m (-n)) = stickyDiv m n := by
  have hfloor : ⌊scaled m (-n)⌋₊ = m / 2 ^ n := by
    have hint := floor_scaled_neg m n
    rw [← Int.natCast_floor_eq_floor scaled_nonneg] at hint
    exact_mod_cast hint
  have hexact : ((m / 2 ^ n : ℕ) : ℚ) = scaled m (-n) ↔ m % 2 ^ n = 0 := by
    have hint : ((m / 2 ^ n : ℕ) : ℚ) = scaled (m / 2 ^ n * 2 ^ n) (-n) := by
      rw [scaled_mul_two_pow, neg_add_cancel]
      unfold scaled
      rw [zpow_zero, mul_one]
    have hsplit := Nat.div_add_mod m (2 ^ n)
    rw [hint, scaled_inj, mul_comm]
    omega
  unfold truncateSticky stickyDiv
  rw [hfloor]
  by_cases hzero : m % 2 ^ n = 0
  · rw [if_pos hzero, if_pos (hexact.mpr hzero), Nat.or_zero]
  · rw [if_neg hzero, if_neg fun h => hzero (hexact.mp h)]

/-- **The number of bits** is that of the rational number. -/
theorem two_pow_le_truncateSticky_iff {q : ℚ} {k : ℕ} (hq : 0 ≤ q) (hk : 0 < k) : 2 ^ k ≤ truncateSticky q ↔ (2 ^ k : ℚ) ≤ q := by
  have hcast : (2 ^ k : ℚ) = ((2 ^ k : ℕ) : ℚ) := by
    push_cast
    rfl
  rw [hcast, ← Nat.le_floor_iff hq]
  unfold truncateSticky
  constructor
  · intro hle
    by_contra hlt
    have hor : ⌊q⌋₊ ||| (if (⌊q⌋₊ : ℚ) = q then 0 else 1) < 2 ^ k := by
      refine Nat.or_lt_two_pow (not_le.mp hlt) ?_
      split_ifs
      · positivity
      · exact Nat.one_lt_two_pow hk.ne'
    omega
  · exact fun hle => hle.trans Nat.left_le_or

end Sticky

end GccCore.Lib.Scaled
