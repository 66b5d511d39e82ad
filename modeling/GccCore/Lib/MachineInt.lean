import Mathlib.Data.BitVec
import Mathlib.Data.Int.ModEq
import Mathlib.Tactic.Linarith
import Mathlib.Tactic.Positivity
import Mathlib.Tactic.Ring

/-!
# Integers of a fixed number of bits, signed or unsigned

* **Values** (`valueIn`) of bit patterns, and the range of them (`inType`).
* **Round trips** (`valueIn_ofInt`) and **uniqueness** modulo the width (`eq_of_inType`).
-/

namespace GccCore.Lib.MachineInt

/-- The value of a bit pattern in a type. -/
def valueIn {p : ℕ} (unsigned : Bool) (x : BitVec p) : ℤ := if unsigned then x.toNat else x.toInt

/-- The values of the type. -/
def inType (p : ℕ) (unsigned : Bool) (z : ℤ) : Prop :=
  if unsigned then 0 ≤ z ∧ z < 2 ^ p else -2 ^ (p - 1) ≤ z ∧ z < 2 ^ (p - 1)

/-- The least value of the type. -/
def typeMin (p : ℕ) (unsigned : Bool) : ℤ := if unsigned then 0 else -2 ^ (p - 1)

/-- The greatest value of the type. -/
def typeMax (p : ℕ) (unsigned : Bool) : ℤ := if unsigned then 2 ^ p - 1 else 2 ^ (p - 1) - 1

section Values

variable {p : ℕ} {unsigned : Bool}

theorem inType_iff {z : ℤ} : inType p unsigned z ↔ typeMin p unsigned ≤ z ∧ z ≤ typeMax p unsigned := by
  unfold inType typeMin typeMax
  split_ifs <;> rw [Int.le_sub_one_iff]

theorem two_pow_pred (hp : 0 < p) : (2 : ℤ) ^ p = 2 * 2 ^ (p - 1) := by
  obtain ⟨n, rfl⟩ : ∃ n, p = n + 1 := ⟨p - 1, by omega⟩
  rw [Nat.add_sub_cancel, pow_succ, mul_comm]

theorem inType_valueIn (unsigned : Bool) (x : BitVec p) : inType p unsigned (valueIn unsigned x) := by
  have hlt := x.isLt
  unfold inType valueIn
  cases unsigned with
  | true =>
    rw [if_pos rfl, if_pos rfl]
    constructor
    · omega
    · exact_mod_cast hlt
  | false =>
    rw [if_neg Bool.false_ne_true, if_neg Bool.false_ne_true]
    exact ⟨BitVec.le_toInt x, BitVec.toInt_lt⟩

theorem typeMin_le_typeMax : typeMin p unsigned ≤ typeMax p unsigned := by
  have hin := inType_iff.mp (inType_valueIn unsigned (0#p))
  exact hin.1.trans hin.2

/-- The value is the bit pattern modulo the width. -/
theorem valueIn_modEq (unsigned : Bool) (x : BitVec p) : valueIn unsigned x ≡ x.toNat [ZMOD 2 ^ p] := by
  unfold valueIn
  cases unsigned with
  | true => rfl
  | false =>
    rw [if_neg Bool.false_ne_true, BitVec.toInt_eq_toNat_bmod]
    have h := @Int.bmod_emod (x.toNat : ℤ) (2 ^ p)
    push_cast at h
    exact h

/-- Two values of a type with the same bits are the same. -/
theorem eq_of_inType {y z : ℤ} (hy : inType p unsigned y) (hz : inType p unsigned z) (h : y ≡ z [ZMOD 2 ^ p])
    (hp : 0 < p) : y = z := by
  have htwo := two_pow_pred hp
  obtain ⟨m, hm⟩ := (Int.modEq_iff_dvd.mp h)
  have hpos : (0 : ℤ) < 2 ^ (p - 1) := by positivity
  have hm0 : m = 0 := by
    unfold inType at hy hz
    cases unsigned with
    | true =>
      rw [if_pos rfl] at hy hz
      nlinarith
    | false =>
      rw [if_neg Bool.false_ne_true] at hy hz
      nlinarith
  rw [hm0, mul_zero] at hm
  omega

/-- The bits of an integer. -/
theorem toNat_ofInt_modEq (z : ℤ) : ((BitVec.ofInt p z).toNat : ℤ) ≡ z [ZMOD 2 ^ p] := by
  rw [BitVec.toNat_ofInt, Int.toNat_of_nonneg (Int.emod_nonneg _ (by positivity))]
  push_cast
  exact Int.mod_modEq _ _

/-- An integer of the type is kept. -/
theorem valueIn_ofInt (hp : 0 < p) {z : ℤ} (hz : inType p unsigned z) : valueIn unsigned (BitVec.ofInt p z) = z := by
  apply eq_of_inType (inType_valueIn unsigned _) hz _ hp
  exact (valueIn_modEq unsigned _).trans (toNat_ofInt_modEq z)

/-- The bits of a difference. -/
theorem ofInt_sub (x y : ℤ) : BitVec.ofInt p (x - y) = BitVec.ofInt p x - BitVec.ofInt p y := by
  rw [Int.sub_eq_add_neg, BitVec.ofInt_add, BitVec.ofInt_neg, BitVec.sub_eq_add_neg]

/-- The unsigned value of the bits of an integer. -/
theorem valueIn_true_ofInt (z : ℤ) : valueIn true (BitVec.ofInt p z) = z % 2 ^ p := by
  unfold valueIn
  rw [if_pos rfl, BitVec.toNat_ofInt, Int.toNat_of_nonneg (Int.emod_nonneg _ (by positivity))]
  push_cast
  rfl

/-- Congruent integers have the same bits. -/
theorem ofInt_eq_of_modEq {y z : ℤ} (h : y ≡ z [ZMOD 2 ^ p]) : BitVec.ofInt p y = BitVec.ofInt p z := by
  apply BitVec.eq_of_toNat_eq
  have hy : ((BitVec.ofInt p y).toNat : ℤ) = y % 2 ^ p := valueIn_true_ofInt y
  have hz : ((BitVec.ofInt p z).toNat : ℤ) = z % 2 ^ p := valueIn_true_ofInt z
  have heq : ((BitVec.ofInt p y).toNat : ℤ) = (BitVec.ofInt p z).toNat := by
    rw [hy, hz]
    exact h
  exact_mod_cast heq

/-- Two values of a type differ by less than the width. -/
theorem sub_lt_of_inType (hp : 0 < p) {y z : ℤ} (hy : inType p unsigned y) (hz : inType p unsigned z) : y - z < 2 ^ p := by
  have htwo := two_pow_pred hp
  unfold inType at hy hz
  split at hy
  · rw [if_pos ‹_›] at hz
    linarith [hy.2, hz.1]
  · rw [if_neg ‹_›] at hz
    linarith [hy.2, hz.1]

/-- A wider type has the values of a narrower one. -/
theorem inType_mono {q : ℕ} (hpq : p ≤ q) {z : ℤ} (hz : inType p unsigned z) : inType q unsigned z := by
  have hpow : (2 : ℤ) ^ p ≤ 2 ^ q := pow_le_pow_right₀ (by norm_num) hpq
  have hpow' : (2 : ℤ) ^ (p - 1) ≤ 2 ^ (q - 1) := pow_le_pow_right₀ (by norm_num) (by omega)
  unfold inType at hz ⊢
  cases unsigned with
  | true =>
    rw [if_pos rfl] at hz ⊢
    exact ⟨hz.1, by linarith [hz.2]⟩
  | false =>
    rw [if_neg Bool.false_ne_true] at hz ⊢
    exact ⟨by linarith [hz.1], by linarith [hz.2]⟩

/-- What lies between two values of a type is one. -/
theorem inType_of_le {y z w : ℤ} (hy : inType p unsigned y) (hw : inType p unsigned w) (hyz : y ≤ z) (hzw : z ≤ w) :
    inType p unsigned z := by
  unfold inType at *
  split at hy
  · rw [if_pos ‹_›] at hw ⊢
    exact ⟨le_trans hy.1 hyz, lt_of_le_of_lt hzw hw.2⟩
  · rw [if_neg ‹_›] at hw ⊢
    exact ⟨le_trans hy.1 hyz, lt_of_le_of_lt hzw hw.2⟩

/-- A predecessor that is below did not wrap. -/
theorem valueIn_ofInt_pred (hp : 0 < p) {z : ℤ} (hz : inType p unsigned z)
    (hlt : valueIn unsigned (BitVec.ofInt p (z - 1)) < z) : valueIn unsigned (BitVec.ofInt p (z - 1)) = z - 1 := by
  have hin := inType_valueIn unsigned (BitVec.ofInt p (z - 1))
  exact valueIn_ofInt hp (inType_of_le hin hz (by omega) (by omega))

/-- A successor that is above did not wrap. -/
theorem valueIn_ofInt_succ (hp : 0 < p) {z : ℤ} (hz : inType p unsigned z)
    (hlt : z < valueIn unsigned (BitVec.ofInt p (z + 1))) : valueIn unsigned (BitVec.ofInt p (z + 1)) = z + 1 := by
  have hin := inType_valueIn unsigned (BitVec.ofInt p (z + 1))
  exact valueIn_ofInt hp (inType_of_le hz hin (by omega) (by omega))

end Values

end GccCore.Lib.MachineInt
