import GccCore.Lib.Digits
import Mathlib.Data.BitVec
import Mathlib.Data.Nat.Bitwise

/-!
# Arrays of machine words as numbers

An array has its least significant word first. Words beyond its end are zero.

* **Numbers** (`Words.toNat`): an array is the number that its words write (`Words.toNat_inj`, `Words.toNat_lt`).
* **Bits** (`Words.testBit_toNat`): a bit of the number is a bit of one word.
* **Single words**: tests of a bit (`and_bit_ne_zero_iff`) and of some low bits (`and_lowMask_ne_zero_iff`).
-/

namespace GccCore.Lib.WordArray

open GccCore.Lib.Digits

/-- `k` words of `l` bits. -/
structure Words (l k : ℕ) where
  data : Vector (BitVec l) k
  deriving DecidableEq

variable {l k : ℕ}

/-- A word, zero beyond the end. -/
def Words.word (a : Words l k) (i : ℕ) : BitVec l := if h : i < k then a.data[i] else 0

/-- The array of some words. -/
def Words.ofFn (f : ℕ → BitVec l) : Words l k := ⟨Vector.ofFn fun i => f i⟩

/-- The number that an array writes. -/
def Words.toNat (a : Words l k) : ℕ := val (2 ^ l) (fun i => (a.word i).toNat) k

section Basic

variable {a b : Words l k} {f : ℕ → BitVec l} {i : ℕ}

@[simp]
theorem Words.word_ofFn (hi : i < k) : (Words.ofFn f : Words l k).word i = f i := by
  unfold Words.word Words.ofFn
  rw [dif_pos hi, Vector.getElem_ofFn]

theorem Words.word_of_le (hi : k ≤ i) : a.word i = 0 := dif_neg (not_lt.mpr hi)

/-- Arrays with the same words are the same. -/
theorem Words.ext_word (h : ∀ i < k, a.word i = b.word i) : a = b := by
  obtain ⟨a⟩ := a
  obtain ⟨b⟩ := b
  congr 1
  apply Vector.ext
  intro i hi
  have hword := h i hi
  unfold Words.word at hword
  rwa [dif_pos hi, dif_pos hi] at hword

theorem Words.toNat_lt (a : Words l k) : a.toNat < 2 ^ (l * k) := by
  rw [pow_mul]
  exact val_lt fun t _ => (a.word t).isLt

/-- The number of an array that is given by its words. -/
theorem Words.toNat_ofFn : (Words.ofFn f : Words l k).toNat = val (2 ^ l) (fun i => (f i).toNat) k :=
  val_congr fun i hi => by rw [Words.word_ofFn hi]

end Basic

/-! ## Bits -/

section Bits

variable (hl : 0 < l)

include hl

/-- The bits of the number that some words write. -/
theorem testBit_val (f : ℕ → BitVec l) (n m : ℕ) :
    (val (2 ^ l) (fun i => (f i).toNat) n).testBit m = (decide (m < l * n) && (f (m / l)).getLsbD (m % l)) := by
  induction n with
  | zero => simp [val]
  | succ n ih =>
    have hlt : val (2 ^ l) (fun i => (f i).toNat) n < 2 ^ (l * n) := by
      rw [pow_mul]
      exact val_lt fun t _ => (f t).isLt
    rw [val_succ, ← pow_mul, add_comm, mul_comm (f n).toNat, Nat.testBit_two_pow_mul_add _ hlt]
    split_ifs with hm
    · rw [ih, decide_eq_true hm, decide_eq_true (by rw [mul_add]; omega)]
    · by_cases hm' : m < l * (n + 1)
      · have hdiv : m / l = n := by
          rw [Nat.div_eq_iff hl]
          rw [mul_add, mul_one] at hm'
          have hcomm : l * n = n * l := mul_comm l n
          omega
        have hmod : m - l * n = m % l := by
          have hsplit := Nat.div_add_mod m l
          rw [hdiv] at hsplit
          omega
        rw [decide_eq_true hm', Bool.true_and, hdiv, hmod, BitVec.testBit_toNat]
      · rw [decide_eq_false hm', Bool.false_and]
        refine BitVec.getLsbD_of_ge _ _ ?_
        rw [mul_add, mul_one] at hm'
        omega

/-- **A bit of the number** is a bit of a word. -/
theorem Words.testBit_toNat (a : Words l k) (m : ℕ) : a.toNat.testBit m = (a.word (m / l)).getLsbD (m % l) := by
  rw [Words.toNat, testBit_val hl]
  by_cases hm : m < l * k
  · rw [decide_eq_true hm, Bool.true_and]
  · have hword : k ≤ m / l := (Nat.le_div_iff_mul_le hl).mpr (by rw [mul_comm]; omega)
    rw [decide_eq_false hm, Bool.false_and, Words.word_of_le hword]
    exact BitVec.getLsbD_zero.symm

theorem Words.testBit_block (a : Words l k) {i j : ℕ} (hj : j < l) : a.toNat.testBit (l * i + j) = (a.word i).getLsbD j := by
  rw [Words.testBit_toNat hl, Nat.mul_add_div hl, Nat.div_eq_of_lt hj, Nat.add_zero, Nat.mul_add_mod, Nat.mod_eq_of_lt hj]

/-- **A number is that of an array if it has the bits of its words.** -/
theorem Words.toNat_eq_of_bits {a : Words l k} {x : ℕ} (hx : x < 2 ^ (l * k))
    (h : ∀ i < k, ∀ j < l, (a.word i).getLsbD j = x.testBit (l * i + j)) : a.toNat = x := by
  apply Nat.eq_of_testBit_eq
  intro m
  rw [Words.testBit_toNat hl]
  by_cases hm : m < l * k
  · have hi : m / l < k := Nat.div_lt_of_lt_mul hm
    rw [h _ hi _ (Nat.mod_lt m hl), Nat.div_add_mod]
  · have hword : k ≤ m / l := (Nat.le_div_iff_mul_le hl).mpr (by rw [mul_comm]; omega)
    rw [Words.word_of_le hword, Nat.testBit_lt_two_pow (lt_of_lt_of_le hx (Nat.pow_le_pow_right two_pos (not_lt.mp hm)))]
    exact BitVec.getLsbD_zero

/-- Arrays that write the same number are the same. -/
theorem Words.toNat_inj {a b : Words l k} (h : a.toNat = b.toNat) : a = b := by
  refine Words.ext_word fun i _ => BitVec.eq_of_getLsbD_eq fun j hj => ?_
  have hbit := congrArg (fun n => n.testBit (l * i + j)) h
  rwa [Words.testBit_block hl a hj, Words.testBit_block hl b hj] at hbit

end Bits

/-! ## Single words -/

section Single

variable {w : BitVec l} {m n : ℕ}

/-- A word is not zero if it has a bit. -/
theorem ne_zero_iff_exists_bit : w ≠ 0 ↔ ∃ j < l, w.getLsbD j = true := by
  constructor
  · intro hne
    by_contra hnone
    refine hne (BitVec.eq_of_getLsbD_eq fun j hj => ?_)
    have hbit : w.getLsbD j = false := Bool.not_eq_true _ ▸ fun hset => hnone ⟨j, hj, hset⟩
    rw [hbit]
    exact BitVec.getLsbD_zero.symm
  · rintro ⟨j, -, hset⟩ rfl
    exact Bool.false_ne_true (BitVec.getLsbD_zero.symm.trans hset)

theorem getLsbD_bit (hm : m < l) (j : ℕ) : ((1 : BitVec l) <<< m).getLsbD j = decide (j = m) := by
  have htwo : (1 : BitVec l) <<< m = BitVec.twoPow l m := (BitVec.twoPow_eq ..).symm
  rw [htwo, BitVec.getLsbD_twoPow, decide_eq_true hm, Bool.true_and]
  exact decide_eq_decide.mpr eq_comm

/-- **The test of a bit.** -/
theorem and_bit_ne_zero_iff (hm : m < l) : w &&& (1 : BitVec l) <<< m ≠ 0 ↔ w.getLsbD m = true := by
  rw [ne_zero_iff_exists_bit]
  simp only [BitVec.getLsbD_and, getLsbD_bit hm, Bool.and_eq_true, decide_eq_true_eq]
  exact ⟨fun ⟨_, _, hset, hj⟩ => hj ▸ hset, fun hset => ⟨m, hm, hset, rfl⟩⟩

/-- The mask of the low bits. -/
theorem getLsbD_lowMask (hn : n < l) (j : ℕ) : ((1 : BitVec l) <<< n - 1).getLsbD j = decide (j < n) := by
  have hpow : 2 ^ n < 2 ^ l := Nat.pow_lt_pow_right one_lt_two hn
  have hone : 1 < 2 ^ l := lt_of_le_of_lt Nat.one_le_two_pow hpow
  have hval1 : (1 : BitVec l).toNat = 1 := Nat.mod_eq_of_lt hone
  have hshift : ((1 : BitVec l) <<< n).toNat = 2 ^ n := by
    rw [BitVec.toNat_shiftLeft, hval1, Nat.shiftLeft_eq, one_mul, Nat.mod_eq_of_lt hpow]
  have hval : ((1 : BitVec l) <<< n - 1).toNat = 2 ^ n - 1 := by
    have hle : (1 : BitVec l) ≤ (1 : BitVec l) <<< n := by
      rw [BitVec.le_def, hshift, hval1]
      exact Nat.one_le_two_pow
    rw [BitVec.toNat_sub_of_le hle, hshift, hval1]
  rw [← BitVec.testBit_toNat, hval, Nat.testBit_two_pow_sub_one]

/-- **The test of the low bits.** -/
theorem and_lowMask_ne_zero_iff (hn : n < l) : w &&& ((1 : BitVec l) <<< n - 1) ≠ 0 ↔ ∃ j < n, w.getLsbD j = true := by
  rw [ne_zero_iff_exists_bit]
  simp only [BitVec.getLsbD_and, getLsbD_lowMask hn, Bool.and_eq_true, decide_eq_true_eq]
  exact ⟨fun ⟨j, _, hset, hj⟩ => ⟨j, hj, hset⟩, fun ⟨j, hj, hset⟩ => ⟨j, hj.trans hn, hset, hj⟩⟩

end Single

/-- A number has a bit below a position exactly if it is not divisible. -/
theorem mod_two_pow_ne_zero_iff (x n : ℕ) : x % 2 ^ n ≠ 0 ↔ ∃ m < n, x.testBit m = true := by
  constructor
  · intro hne
    obtain ⟨m, hm⟩ := Nat.exists_testBit_of_ne_zero hne
    rw [Nat.testBit_mod_two_pow, Bool.and_eq_true, decide_eq_true_iff] at hm
    exact ⟨m, hm⟩
  · rintro ⟨m, hmn, hset⟩ hzero
    have hbit : (x % 2 ^ n).testBit m = true := by
      rw [Nat.testBit_mod_two_pow, decide_eq_true hmn, hset]
      rfl
    rw [hzero, Nat.zero_testBit] at hbit
    exact Bool.false_ne_true hbit

end GccCore.Lib.WordArray
