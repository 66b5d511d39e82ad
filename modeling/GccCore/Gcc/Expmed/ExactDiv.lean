import Mathlib.Algebra.Order.Ring.Int
import Mathlib.Data.Int.ModEq
import Mathlib.Tactic.LinearCombination

/-!
# `gcc/expmed.c`: exact division by a constant

The dividend is shifted by the zeros at the end of the divisor and multiplied with the inverse of what is left of the divisor,
modulo two to the size of the mode.

* **Newton's iteration** (`invertMod2n_spec`): the inverse of an odd number modulo `2 ^ n`.
* **`EXACT_DIV_EXPR`** (`exactDivExpr_spec`) is right where the shifted dividend is the shifted divisor times the quotient.
* **`expand_divmod`** (`exactDiv_iff`): the constant of an unsigned divisor with its top bit set is negative, and an even one is
  shifted arithmetically. There only the dividend zero, and powers of two, are divided right.
-/

namespace GccCore.Gcc.Expmed

/-! ## The code -/

section Code

variable {H n : ℕ}

/-- Each step doubles the bits that are right; `nbit` starts at 3. Source: `expmed.c` `invert_mod2n` (`while`). -/
def invertLoop (x mask : BitVec H) (n : ℕ) (y : BitVec H) (nbit : ℕ) (hpos : 0 < nbit) : BitVec H :=
  if nbit < n then invertLoop x mask n (y * (2#H - x * y) &&& mask) (nbit * 2) (by omega) else y
termination_by n - nbit

/-- The low `n` bits. Source: `expmed.c` `invert_mod2n` (`mask`), `machmode.h` `GET_MODE_MASK`. -/
def modeMask (H n : ℕ) : BitVec H := if n = H then ~~~0#H else 1#H <<< n - 1#H

/-- Source: `expmed.c` `invert_mod2n`. -/
def invertMod2n (x : BitVec H) (n : ℕ) : BitVec H :=
  let mask := modeMask H n
  invertLoop x mask n x 3 (by decide)

/-- Of a number that is not zero. Source: `toplev.c` `floor_log2`. -/
def floorLog2 (x : BitVec H) : ℕ := x.toNat.log2

/-- Source: `expmed.c` `EXACT_POWER_OF_2_OR_ZERO_P`. -/
def exactPowerOf2OrZeroP (x : BitVec H) : Bool := x &&& (x - 1#H) == 0#H

/-- Shifts to the right. Source: `expmed.c` `expand_shift` (`RSHIFT_EXPR`). -/
def expandShiftRight (unsignedp : Bool) (x : BitVec n) (amount : ℕ) : BitVec n :=
  if unsignedp then x >>> amount else x.sshiftRight amount

/-- The case of an exact division by a constant with the value `d`. Source: `expmed.c` `expand_divmod` (`EXACT_DIV_EXPR`). -/
def exactDivExpr (unsignedp : Bool) (op0 : BitVec n) (d : BitVec H) : BitVec n :=
  let preShift := floorLog2 (d &&& -d)
  let ml := invertMod2n (d.sshiftRight preShift) n
  expandShiftRight unsignedp op0 preShift * ml.setWidth n

/-- The quotient for an exact division in a mode of `n` bits that the machine divides in. A constant is held sign-extended in a
word of `H` bits.
Source: `expmed.c` `expand_divmod` -/
def expandExactDiv (H : ℕ) (unsignedp : Bool) (op0 op1 : BitVec n) : BitVec n :=
  let intval := op1.signExtend H
  let extOp1 := if unsignedp then intval &&& modeMask H n else intval
  let op1IsPow2 := exactPowerOf2OrZeroP extOp1 || (!unsignedp && exactPowerOf2OrZeroP (-extOp1))
  if intval = 1#H then op0
  else if !unsignedp ∧ intval = -1#H then -op0
  else if unsignedp ∧ op1IsPow2 then expandShiftRight true op0 (floorLog2 (intval &&& modeMask H n))
  else exactDivExpr unsignedp op0 intval

end Code

/-! ## Residues -/

section Residues

variable {H n : ℕ}

theorem ofInt_eq_iff {a b : ℤ} : BitVec.ofInt n a = BitVec.ofInt n b ↔ a ≡ b [ZMOD 2 ^ n] := by
  have hpos : (0 : ℤ) < ((2 ^ n : ℕ) : ℤ) := by exact_mod_cast Nat.two_pow_pos n
  rw [← BitVec.toNat_inj, BitVec.toNat_ofInt, BitVec.toNat_ofInt, Int.ModEq]
  have ha := Int.emod_nonneg a hpos.ne'
  have hb := Int.emod_nonneg b hpos.ne'
  push_cast at ha hb ⊢
  exact ⟨fun h => by rw [← Int.toNat_of_nonneg ha, h, Int.toNat_of_nonneg hb], fun h => by rw [h]⟩

/-- The number that the bits stand for. Source: `expmed.c` `expand_divmod` (`unsignedp`). -/
def value (unsignedp : Bool) (x : BitVec n) : ℤ := if unsignedp then x.toNat else x.toInt

@[simp] theorem ofInt_value (u : Bool) (x : BitVec n) : BitVec.ofInt n (value u x) = x := by
  cases u
  · exact BitVec.ofInt_toInt
  · rw [value, if_pos rfl, BitVec.ofInt_natCast, BitVec.ofNat_toNat, BitVec.setWidth_eq]

theorem toInt_modEq (x : BitVec H) : x.toInt ≡ x.toNat [ZMOD 2 ^ H] := by
  rw [← ofInt_eq_iff, BitVec.ofInt_toInt, BitVec.ofInt_natCast, BitVec.ofNat_toNat, BitVec.setWidth_eq]

theorem value_shift (u : Bool) (x : BitVec n) (k : ℕ) : value u (expandShiftRight u x k) = value u x / 2 ^ k := by
  cases u
  · rw [value, expandShiftRight, value]
    simp only [Bool.false_eq_true, if_false]
    rw [BitVec.toInt_sshiftRight, Int.shiftRight_eq_div_pow, Nat.cast_pow, Nat.cast_ofNat]
  · rw [value, expandShiftRight, value]
    simp only [if_true]
    rw [BitVec.toNat_ushiftRight, Nat.shiftRight_eq_div_pow, Int.natCast_div, Nat.cast_pow, Nat.cast_ofNat]

end Residues

/-! ## Newton's iteration -/

section Newton

variable {H n : ℕ}

/-- The mask keeps a number modulo `2 ^ n`. Source: `expmed.c` `invert_mod2n` (`mask`). Kind: L -/
theorem and_mask (hn : n ≤ H) (z : BitVec H) :
    (z &&& modeMask H n).toNat = z.toNat % 2 ^ n := by
  unfold modeMask
  split_ifs with heq
  · subst heq
    rw [BitVec.toNat_and, BitVec.toNat_not, BitVec.toNat_zero, Nat.sub_zero, Nat.and_two_pow_sub_one_eq_mod]
  · have hlt : n < H := by omega
    have hpow : 2 ^ n < 2 ^ H := Nat.pow_lt_pow_right (by decide) hlt
    have hmask : (1#H <<< n - 1#H).toNat = 2 ^ n - 1 := by
      have hone : (1#H).toNat = 1 := Nat.mod_eq_of_lt (Nat.one_lt_two_pow (by omega))
      rw [BitVec.toNat_sub, BitVec.toNat_shiftLeft, hone, Nat.one_shiftLeft, Nat.mod_eq_of_lt hpow, ← Nat.sub_add_comm (by omega),
        Nat.add_sub_assoc (Nat.two_pow_pos n), Nat.add_mod_left, Nat.mod_eq_of_lt (by omega)]
    rw [BitVec.toNat_and, hmask, Nat.and_two_pow_sub_one_eq_mod]

/-- What a step computes. Source: `expmed.c` `invert_mod2n`. Kind: L -/
theorem step_modEq (hn : n ≤ H) (x y : BitVec H) :
    ((y * (2#H - x * y) &&& modeMask H n).toNat : ℤ) ≡ y.toNat * (2 - x.toNat * y.toNat)
      [ZMOD 2 ^ n] := by
  have hdvd : (2 : ℤ) ^ n ∣ 2 ^ H := pow_dvd_pow 2 hn
  have hvalue : y * (2#H - x * y) = BitVec.ofInt H (y.toNat * (2 - x.toNat * y.toNat)) := by
    rw [BitVec.ofInt_mul, Int.sub_eq_add_neg, BitVec.ofInt_add, BitVec.ofInt_neg, BitVec.ofInt_mul, BitVec.ofInt_natCast, BitVec.ofInt_natCast, BitVec.ofNat_toNat,
      BitVec.ofNat_toNat, BitVec.setWidth_eq, BitVec.setWidth_eq, BitVec.sub_eq_add_neg]
    rfl
  rw [and_mask hn, Int.natCast_mod, Nat.cast_pow, Nat.cast_ofNat]
  refine (Int.mod_modEq _ _).trans (Int.ModEq.of_dvd hdvd ?_)
  rw [← ofInt_eq_iff, ← hvalue, BitVec.ofInt_natCast, BitVec.ofNat_toNat, BitVec.setWidth_eq]

/-- **One step** doubles the bits that are right. Source: `expmed.c` `invert_mod2n` (comment). Kind: L -/
theorem newton_step {x y z : ℤ} {k : ℕ} (h : 2 ^ min k n ∣ 1 - x * y) (hz : z ≡ y * (2 - x * y) [ZMOD 2 ^ n]) :
    2 ^ min (k * 2) n ∣ 1 - x * z := by
  obtain ⟨c, hc⟩ := h
  obtain ⟨e, he⟩ := hz.dvd
  have hsquare : (2 : ℤ) ^ min (k * 2) n ∣ 2 ^ min k n * 2 ^ min k n := by
    rw [← pow_add]
    exact pow_dvd_pow 2 (by omega)
  have hmod : (2 : ℤ) ^ min (k * 2) n ∣ 2 ^ n := pow_dvd_pow 2 (Nat.min_le_right _ _)
  have hsplit : 1 - x * z = 2 ^ min k n * 2 ^ min k n * (c * c) + 2 ^ n * (x * e) := by
    linear_combination (1 - x * y + 2 ^ min k n * c) * hc + x * he
  rw [hsplit]
  exact Int.dvd_add (Dvd.dvd.mul_right hsquare _) (Dvd.dvd.mul_right hmod _)

/-- **The loop**, by the number of bits that are right. Source: `expmed.c` `invert_mod2n` (`while`). Kind: L -/
theorem invertLoop_spec (hn : n ≤ H) (x y : BitVec H) (nbit : ℕ) (hpos : 0 < nbit)
    (h : (2 : ℤ) ^ min nbit n ∣ 1 - x.toNat * y.toNat) :
    (2 : ℤ) ^ n ∣ 1 - x.toNat * (invertLoop x (modeMask H n) n y nbit hpos).toNat := by
  induction hk : n - nbit using Nat.strong_induction_on generalizing y nbit with
  | h k ih =>
    rw [invertLoop]
    split_ifs with hlt
    · exact ih (n - nbit * 2) (by omega) _ _ _ (newton_step h (step_modEq hn x y)) rfl
    · rwa [Nat.min_eq_right (Nat.le_of_not_lt hlt)] at h

/-- **`invert_mod2n`** is the inverse of an odd number. Source: `expmed.c` `invert_mod2n`. Kind: L -/
theorem invertMod2n_spec (hn : n ≤ H) {x : BitVec H} (hodd : x.toNat % 2 = 1) :
    (x.toNat : ℤ) * (invertMod2n x n).toNat ≡ 1 [ZMOD 2 ^ n] := by
  refine Int.modEq_iff_dvd.mpr (invertLoop_spec hn x x 3 _ (dvd_trans (pow_dvd_pow 2 (Nat.min_le_left _ _)) ?_))
  -- the square of an odd number is one modulo eight
  have hsquare : (x.toNat : ℤ) * x.toNat % 8 = 1 := by
    obtain ⟨k, hk⟩ : ∃ k : ℤ, (x.toNat : ℤ) = 2 * k + 1 := ⟨(x.toNat : ℤ) / 2, by omega⟩
    obtain ⟨j, hj⟩ := Int.even_mul_succ_self k
    rw [hk, show (2 * k + 1) * (2 * k + 1) = 1 + 8 * j by linear_combination 4 * hj]
    exact Int.add_mul_emod_self_left 1 8 j
  change (8 : ℤ) ∣ _
  omega

end Newton

/-! ## The zeros at the end -/

section EndingZeros

variable {H n : ℕ}

/-- The lowest bit that is set. Source: `expmed.c` `expand_divmod` (`d & -d`). Kind: L -/
theorem and_neg_self {d : BitVec H} {t : ℕ} (hlow : ∀ j < t, d.getLsbD j = false) (ht : d.getLsbD t = true) :
    d &&& -d = BitVec.twoPow H t := by
  refine BitVec.eq_of_getLsbD_eq fun i hi => ?_
  rw [BitVec.getLsbD_and, BitVec.getLsbD_neg, BitVec.getLsbD_twoPow, decide_eq_true hi,
    decide_eq_true (BitVec.lt_of_getLsbD ht), Bool.true_and, Bool.true_and]
  rcases Nat.lt_trichotomy t i with hlt | rfl | hlt
  · have hex : ∃ j < i, d.getLsbD j = true := ⟨t, hlt, ht⟩
    rw [decide_eq_true hex, decide_eq_false hlt.ne]
    cases d.getLsbD i <;> rfl
  · have hnone : ¬ ∃ j < t, d.getLsbD j = true := fun ⟨j, hj, hset⟩ => by simp [hlow j hj] at hset
    rw [decide_eq_false hnone, ht, decide_eq_true rfl]
    rfl
  · rw [hlow i hlt, decide_eq_false hlt.ne', Bool.false_and]

/-- **A divisor is a power of two times an odd number**, and the code finds the power.
Source: `expmed.c` `expand_divmod` (`pre_shift`)
Kind: L -/
theorem preShift_spec {d : BitVec H} (hd : d ≠ 0#H) :
    ∃ t < H, floorLog2 (d &&& -d) = t ∧ ∃ m : ℤ, d.toInt = 2 ^ t * m ∧ m % 2 = 1 ∧ (d.sshiftRight t).toInt = m := by
  have hex : ∃ t, d.getLsbD t = true := by
    by_contra hnone
    push Not at hnone
    exact hd (BitVec.eq_of_getLsbD_eq fun i _ => by simpa using hnone i)
  have ht := Nat.find_spec hex
  have hlow : ∀ j < Nat.find hex, d.getLsbD j = false := fun j hj => by simpa using Nat.find_min hex hj
  generalize Nat.find hex = t at ht hlow
  have hlt : t < H := BitVec.lt_of_getLsbD ht
  have hpow : 2 ^ t < 2 ^ H := Nat.pow_lt_pow_right (by decide) hlt
  -- the bits below the lowest one, and that one
  have hmod : d.toNat % 2 ^ t = 0 := by
    refine Nat.eq_of_testBit_eq fun j => ?_
    rw [Nat.testBit_mod_two_pow, Nat.zero_testBit]
    by_cases hj : j < t
    · rw [← BitVec.getLsbD, hlow j hj, Bool.and_false]
    · rw [decide_eq_false hj, Bool.false_and]
  have hodd : d.toNat / 2 ^ t % 2 = 1 := by
    rw [BitVec.getLsbD, Nat.testBit_eq_decide_div_mod_eq] at ht
    exact of_decide_eq_true ht
  have hnat : (d.toNat : ℤ) = 2 ^ t * (d.toNat / 2 ^ t : ℕ) := by
    exact_mod_cast (Nat.mul_div_cancel' (Nat.dvd_of_mod_eq_zero hmod)).symm
  have hhigh : (2 : ℤ) ^ H = 2 ^ t * 2 ^ (H - t - 1) * 2 := by
    rw [← pow_add, ← pow_succ]
    congr 1
    omega
  obtain ⟨m, hm, hmodd⟩ : ∃ m : ℤ, d.toInt = 2 ^ t * m ∧ m % 2 = 1 := by
    rw [BitVec.toInt_eq_toNat_cond]
    split_ifs
    · exact ⟨_, hnat, by exact_mod_cast hodd⟩
    · refine ⟨(d.toNat / 2 ^ t : ℕ) - 2 ^ (H - t - 1) * 2, ?_, ?_⟩
      · rw [mul_sub, ← hnat, ← mul_assoc, ← hhigh]
        push_cast
        rfl
      · rw [Int.sub_mul_emod_self_right]
        exact_mod_cast hodd
  refine ⟨t, hlt, ?_, m, hm, hmodd, ?_⟩
  · rw [floorLog2, and_neg_self hlow ht, BitVec.toNat_twoPow, Nat.mod_eq_of_lt hpow, Nat.log2_two_pow]
  · rw [BitVec.toInt_sshiftRight, Int.shiftRight_eq_div_pow, hm, Nat.cast_pow, Nat.cast_ofNat,
      Int.mul_ediv_cancel_left _ (pow_ne_zero t two_ne_zero)]

end EndingZeros

/-! ## Exact divisions -/

section Division

variable {H n : ℕ}

/-- **`EXACT_DIV_EXPR`.** The inverse is that of the shifted constant; the shifted dividend need only be congruent to a multiple.
Source: `expmed.c` `expand_divmod` (`EXACT_DIV_EXPR`)
Kind: L -/
theorem exactDivExpr_spec (hn : n ≤ H) (u : Bool) (op0 : BitVec n) {d : BitVec H} {t : ℕ} {m : ℤ} (hlt : t < H)
    (ht : floorLog2 (d &&& -d) = t) (hm : (d.sshiftRight t).toInt = m) (hodd : m % 2 = 1) :
    ∃ ml : ℤ, m * ml ≡ 1 [ZMOD 2 ^ n] ∧ exactDivExpr u op0 d = BitVec.ofInt n (value u op0 / 2 ^ t * ml) := by
  have hword : (d.sshiftRight t).toNat % 2 = 1 := by
    have hparity := (toInt_modEq (d.sshiftRight t)).of_dvd (dvd_pow_self 2 (Nat.ne_zero_of_lt hlt))
    rw [Int.ModEq, hm, hodd] at hparity
    omega
  refine ⟨(invertMod2n (d.sshiftRight t) n).toNat, ?_, ?_⟩
  · rw [← hm]
    exact ((toInt_modEq _).of_dvd (pow_dvd_pow 2 hn)).mul_right _ |>.trans (invertMod2n_spec hn hword)
  · rw [exactDivExpr, ht, BitVec.ofInt_mul, ← value_shift, ofInt_value, BitVec.ofInt_natCast, BitVec.ofNat_toNat]

/-- The quotient is right where the shifted dividend is that of the constant times the quotient.
Source: `expmed.c` `expand_divmod` (`EXACT_DIV_EXPR`)
Kind: L -/
theorem eq_ofInt_iff {m ml a q : ℤ} (hml : m * ml ≡ 1 [ZMOD 2 ^ n]) :
    BitVec.ofInt n (a * ml) = BitVec.ofInt n q ↔ a ≡ m * q [ZMOD 2 ^ n] := by
  rw [ofInt_eq_iff]
  have hq : m * q * ml ≡ q [ZMOD 2 ^ n] := by
    have h := hml.mul_right q
    rwa [one_mul, mul_right_comm] at h
  refine ⟨fun h => ?_, fun h => (h.mul_right ml).trans hq⟩
  calc a = a * 1 := (mul_one a).symm
    _ ≡ a * (m * ml) [ZMOD 2 ^ n] := hml.symm.mul_left a
    _ = m * (a * ml) := by rw [mul_left_comm]
    _ ≡ m * q [ZMOD 2 ^ n] := h.mul_left m

/-- The constant of a divisor. Source: `rtl.h` `INTVAL`. Kind: L -/
theorem toInt_intval (hn : n ≤ H) (op1 : BitVec n) : (op1.signExtend H).toInt = op1.toInt := BitVec.toInt_signExtend_of_le hn

/-- The masked constant is the divisor, unsigned. Source: `expmed.c` `expand_divmod` (`ext_op1`). Kind: L -/
theorem masked_eq (hn : n ≤ H) (op1 : BitVec n) : op1.signExtend H &&& modeMask H n = op1.setWidth H := by
  have hdvd : (2 : ℤ) ^ n ∣ 2 ^ H := pow_dvd_pow 2 hn
  have hpow : 2 ^ n ≤ 2 ^ H := Nat.pow_le_pow_right (by decide) hn
  refine BitVec.eq_of_toNat_eq ?_
  rw [and_mask hn, BitVec.toNat_setWidth, Nat.mod_eq_of_lt (op1.isLt.trans_le hpow)]
  have hmod : ((op1.signExtend H).toNat : ℤ) ≡ op1.toNat [ZMOD 2 ^ n] :=
    ((toInt_modEq (op1.signExtend H)).of_dvd hdvd).symm.trans (by rw [toInt_intval hn]; exact toInt_modEq op1)
  have hnat : (op1.signExtend H).toNat ≡ op1.toNat [MOD 2 ^ n] := (Int.natCast_modEq_iff (n := 2 ^ n)).mp (by exact_mod_cast hmod)
  exact Eq.trans hnat (Nat.mod_eq_of_lt op1.isLt)

theorem value_modEq (u : Bool) (x : BitVec n) : value u x ≡ x.toInt [ZMOD 2 ^ n] := by
  rw [← ofInt_eq_iff, ofInt_value, BitVec.ofInt_toInt]

theorem exactPowerOf2OrZeroP_iff {x : BitVec n} (hx : x ≠ 0#n) : exactPowerOf2OrZeroP x = true ↔ ∃ k, x.toNat = 2 ^ k := by
  have hpos : x.toNat ≠ 0 := fun h => hx (BitVec.eq_of_toNat_eq h)
  have hlt := x.isLt
  have hone : (1#n).toNat = 1 := Nat.mod_eq_of_lt (by omega)
  have hpred : (x - 1#n).toNat = x.toNat - 1 := by
    rw [BitVec.toNat_sub_of_le (by rw [BitVec.le_def, hone]; omega), hone]
  rw [exactPowerOf2OrZeroP, beq_iff_eq, ← BitVec.toNat_inj, BitVec.toNat_and, hpred]
  exact Nat.and_sub_one_eq_zero_iff_isPowerOfTwo hpos

/-- The divisors for which the constant is right: signed ones, those without the top bit, odd ones, and powers of two; zero is
always divided right.
Source: `expmed.c` `expand_divmod` (`EXACT_DIV_EXPR`) -/
def DividesRight (u : Bool) (op0 op1 : BitVec n) : Prop :=
  u = false ∨ op1.msb = false ∨ op1.getLsbD 0 = true ∨ exactPowerOf2OrZeroP op1 = true ∨ op0 = 0#n

section Exact

variable {u : Bool} {op0 op1 : BitVec n} {q m : ℤ} {t : ℕ}

/-- An odd constant has no zeros at the end. -/
theorem lsb_iff (hn : 0 < n) (hm : op1.toInt = 2 ^ t * m) (hodd : m % 2 = 1) : op1.getLsbD 0 = true ↔ t = 0 := by
  have hparity := (toInt_modEq op1).of_dvd (dvd_pow_self 2 hn.ne')
  rw [BitVec.getLsbD, Nat.testBit_zero, decide_eq_true_iff]
  rw [Int.ModEq, hm] at hparity
  cases t with
  | zero =>
    rw [pow_zero, one_mul, hodd] at hparity
    exact iff_of_true (by omega) rfl
  | succ t =>
    rw [pow_succ', mul_assoc, Int.mul_emod_right] at hparity
    exact iff_of_false (by omega) (Nat.succ_ne_zero t)

/-- **The shifted dividend** of a divisor whose constant is right. Source: `expmed.c` `expand_divmod` (`t1`). Kind: L -/
theorem shifted_modEq (hn : 0 < n) (h0 : op1 ≠ 0#n) (hq : value u op0 = value u op1 * q) (hm : op1.toInt = 2 ^ t * m)
    (hodd : m % 2 = 1) (h : u = false ∨ op1.msb = false ∨ op1.getLsbD 0 = true ∨ op0 = 0#n) :
    value u op0 / 2 ^ t ≡ m * q [ZMOD 2 ^ n] := by
  have hpow : (2 : ℤ) ^ t ≠ 0 := pow_ne_zero t two_ne_zero
  have hsame (hv : value u op1 = op1.toInt) : value u op0 / 2 ^ t ≡ m * q [ZMOD 2 ^ n] := by
    rw [hq, hv, hm, mul_assoc, Int.mul_ediv_cancel_left _ hpow]
  obtain rfl | hmsb | hlsb | rfl := h
  · exact hsame rfl
  · refine hsame ?_
    cases u
    · rfl
    · exact (BitVec.toInt_eq_toNat_of_msb hmsb).symm
  · obtain rfl := (lsb_iff hn hm hodd).mp hlsb
    rw [pow_zero, one_mul] at hm
    rw [pow_zero, Int.ediv_one, hq, ← hm]
    exact (value_modEq u op1).mul_right q
  · have hzero : value u (0#n) = 0 := by cases u <;> simp [value]
    have hne : value u op1 ≠ 0 := by
      intro hv
      refine h0 ?_
      rw [← ofInt_value u op1, hv, ← hzero, ofInt_value]
    rw [hzero] at hq ⊢
    obtain rfl := (mul_eq_zero.mp hq.symm).resolve_left hne
    rw [Int.zero_ediv, mul_zero]

/-- **An unsigned even divisor with its top bit set** only divides itself, and its constant is not shifted like the dividend.
Source: `expmed.c` `expand_divmod` (`d >> pre_shift`)
Kind: L -/
theorem not_shifted_modEq (h0 : op1 ≠ 0#n) (hop0 : op0 ≠ 0#n) (hmsb : op1.msb = true)
    (hq : value true op0 = value true op1 * q) (hm : op1.toInt = 2 ^ t * m) (ht : t ≠ 0) :
    ¬ value true op0 / 2 ^ t ≡ m * q [ZMOD 2 ^ n] := by
  have hbig := BitVec.toNat_ge_of_msb_true hmsb
  have hlt := op0.isLt
  have hne : op0.toNat ≠ 0 := fun h => hop0 (BitVec.eq_of_toNat_eq h)
  have hnat : (op0.toNat : ℤ) = op1.toNat * q := hq
  have hlow : t < n := by
    by_contra hge
    refine h0 ?_
    rw [← BitVec.ofInt_toInt (x := op1), hm]
    exact ofInt_eq_iff.mpr (Int.modEq_zero_iff_dvd.mpr (Dvd.dvd.mul_right (pow_dvd_pow 2 (Nat.le_of_not_lt hge)) m))
  have htop : 2 ^ n = 2 * 2 ^ (n - 1) := by rw [← pow_succ', Nat.sub_add_cancel (by omega)]
  obtain rfl : q = 1 := by
    have hpos : 0 < q := by
      by_contra hle
      have := mul_nonpos_of_nonneg_of_nonpos (Int.natCast_nonneg op1.toNat) (not_lt.mp hle)
      omega
    by_contra hq1
    have := mul_le_mul_of_nonneg_left (show (2 : ℤ) ≤ q by omega) (Int.natCast_nonneg op1.toNat)
    omega
  rw [mul_one] at hnat ⊢
  have hint : (op1.toNat : ℤ) = 2 ^ t * (m + 2 ^ (n - t)) := by
    have hcond := BitVec.toInt_eq_msb_cond op1
    rw [if_pos hmsb, hm] at hcond
    rw [mul_add, ← pow_add, Nat.add_sub_cancel' hlow.le, hcond]
    push_cast
    exact (sub_add_cancel _ _).symm
  have hvalue : value true op0 = 2 ^ t * (m + 2 ^ (n - t)) := hnat.trans hint
  rw [hvalue, Int.mul_ediv_cancel_left _ (pow_ne_zero t two_ne_zero)]
  intro hmod
  have hdvd : (2 : ℤ) ^ n ∣ 2 ^ (n - t) := by
    have h := hmod.symm.dvd
    rwa [add_sub_cancel_left] at h
  have hle := (Nat.pow_dvd_pow_iff_le_right (x := 2) (by decide)).mp (by exact_mod_cast hdvd)
  omega

/-- **The case is right exactly where the shifted dividend is.** Source: `expmed.c` `expand_divmod` (`EXACT_DIV_EXPR`). Kind: L -/
theorem exactDivExpr_iff (hn : 0 < n) (hH : n ≤ H) (h0 : op1 ≠ 0#n) (hq : value u op0 = value u op1 * q) :
    exactDivExpr u op0 (op1.signExtend H) = BitVec.ofInt n q ↔
      u = false ∨ op1.msb = false ∨ op1.getLsbD 0 = true ∨ op0 = 0#n := by
  have hd : op1.signExtend H ≠ 0#H := by
    intro h
    have hzero := toInt_intval hH op1
    rw [h, BitVec.toInt_zero] at hzero
    exact h0 (by rw [← BitVec.ofInt_toInt (x := op1), ← hzero]; rfl)
  obtain ⟨t, hlt, ht, m, hm, hodd, hshift⟩ := preShift_spec hd
  rw [toInt_intval hH] at hm
  obtain ⟨ml, hml, hexact⟩ := exactDivExpr_spec hH u op0 hlt ht hshift hodd
  rw [hexact, eq_ofInt_iff hml]
  refine ⟨fun h => ?_, shifted_modEq hn h0 hq hm hodd⟩
  by_contra hnot
  simp only [not_or, Bool.not_eq_false] at hnot
  obtain ⟨rfl, hmsb, hlsb, hop0⟩ := hnot
  exact not_shifted_modEq h0 hop0 hmsb hq hm (fun ht0 => hlsb ((lsb_iff hn hm hodd).mpr ht0)) h

/-- A constant that is zero-extended is the same power of two. Source: `expmed.c` `expand_divmod` (`op1_is_pow2`). Kind: L -/
theorem exactPowerOf2OrZeroP_masked (hH : n ≤ H) (h0 : op1 ≠ 0#n) :
    exactPowerOf2OrZeroP (op1.signExtend H &&& modeMask H n) = exactPowerOf2OrZeroP op1 := by
  have hwide : (op1.setWidth H).toNat = op1.toNat := BitVec.toNat_setWidth_of_le hH
  have hne : op1.setWidth H ≠ 0#H := fun h => h0 (BitVec.eq_of_toNat_eq (by rw [← hwide, h]; rfl))
  rw [masked_eq hH, Bool.eq_iff_iff, exactPowerOf2OrZeroP_iff h0, exactPowerOf2OrZeroP_iff hne, hwide]

/-- An unsigned power of two is a shift. Source: `expmed.c` `expand_divmod` (`TRUNC_DIV_EXPR`). Kind: L -/
theorem expandShiftRight_pow2 (hH : n ≤ H) (h0 : op1 ≠ 0#n) (hpow2 : exactPowerOf2OrZeroP op1 = true)
    (hq : value true op0 = value true op1 * q) :
    expandShiftRight true op0 (floorLog2 (op1.signExtend H &&& modeMask H n)) = BitVec.ofInt n q := by
  obtain ⟨k, hk⟩ := (exactPowerOf2OrZeroP_iff h0).mp hpow2
  have hvalue : value true op1 = 2 ^ k := by
    rw [value, if_pos rfl, hk, Nat.cast_pow, Nat.cast_ofNat]
  rw [masked_eq hH, floorLog2, BitVec.toNat_setWidth_of_le hH, hk, Nat.log2_two_pow, ← ofInt_value true (expandShiftRight _ _ _),
    value_shift, hq, hvalue, Int.mul_ediv_cancel_left _ (pow_ne_zero k two_ne_zero)]

/-- **Exact divisions** are right exactly for these divisors. Source: `expmed.c` `expand_divmod`. Kind: L -/
theorem expandExactDiv_iff (hn : 0 < n) (hH : n ≤ H) (h0 : op1 ≠ 0#n) (hq : value u op0 = value u op1 * q) :
    expandExactDiv H u op0 op1 = BitVec.ofInt n q ↔ DividesRight u op0 op1 := by
  have hop0 : op0 = BitVec.ofInt n (op1.toInt * q) := by
    rw [← ofInt_value u op0, ofInt_eq_iff, hq]
    exact (value_modEq u op1).mul_right q
  -- a constant that the code compares with
  have hconst (c : ℤ) (h : op1.signExtend H = BitVec.ofInt H c) : op1.toInt ≡ c [ZMOD 2 ^ n] := by
    rw [← BitVec.ofInt_toInt (x := op1.signExtend H), ofInt_eq_iff, toInt_intval hH] at h
    exact h.of_dvd (pow_dvd_pow 2 hH)
  have hone (h1 : op1.signExtend H = 1#H) : op0 = BitVec.ofInt n q ∧ op1.getLsbD 0 = true := by
    have hmod := hconst 1 h1
    have hmul := hmod.mul_right q
    rw [one_mul] at hmul
    have hop1 : op1 = BitVec.ofInt n 1 := by
      rw [← BitVec.ofInt_toInt (x := op1)]
      exact ofInt_eq_iff.mpr hmod
    refine ⟨hop0.trans (ofInt_eq_iff.mpr hmul), ?_⟩
    rw [hop1, show BitVec.ofInt n 1 = 1#n from BitVec.ofInt_natCast n 1, BitVec.getLsbD_one, decide_eq_true hn]
    rfl
  cases u with
  | false =>
    refine iff_of_true ?_ (Or.inl rfl)
    simp only [expandExactDiv, Bool.false_eq_true, if_false, Bool.not_false, true_and, false_and]
    split_ifs with h1 h2
    · exact (hone h1).1
    · have hmul := ((hconst (-1) (by rw [h2, BitVec.ofInt_neg]; rfl)).mul_right q).neg
      rw [neg_one_mul, neg_neg] at hmul
      rw [hop0, ← BitVec.ofInt_neg]
      exact ofInt_eq_iff.mpr hmul
    · exact (exactDivExpr_iff hn hH h0 hq).mpr (Or.inl rfl)
  | true =>
    simp only [expandExactDiv, if_true, Bool.not_true, Bool.false_eq_true, false_and, if_false, Bool.false_and, Bool.or_false,
      true_and, exactPowerOf2OrZeroP_masked hH h0, DividesRight]
    split_ifs with h1 h3
    · exact iff_of_true (hone h1).1 (Or.inr (Or.inr (Or.inl (hone h1).2)))
    · exact iff_of_true (expandShiftRight_pow2 hH h0 h3 hq) (Or.inr (Or.inr (Or.inr (Or.inl h3))))
    · rw [exactDivExpr_iff hn hH h0 hq]
      simp only [h3, Bool.true_eq_false, Bool.false_eq_true, false_or]

end Exact

/-- **Inverses, and exact divisions by constants.** Source: `expmed.c` `invert_mod2n`, `expand_divmod` (`EXACT_DIV_EXPR`). Kind: P -/
theorem exactDiv_iff (hn : 0 < n) (hH : n ≤ H) :
    (∀ x : BitVec H, x.toNat % 2 = 1 → x.toNat * (invertMod2n x n).toNat % 2 ^ n = 1) ∧
      ∀ (u : Bool) (op0 op1 : BitVec n), op1 ≠ 0#n → value u op1 ∣ value u op0 →
        (expandExactDiv H u op0 op1 = BitVec.ofInt n (value u op0 / value u op1) ↔ DividesRight u op0 op1) := by
  refine ⟨fun x hx => ?_, fun u op0 op1 h0 hdvd => expandExactDiv_iff hn hH h0 (Int.mul_ediv_cancel' hdvd).symm⟩
  have h := invertMod2n_spec hH hx
  have hnat : x.toNat * (invertMod2n x n).toNat ≡ 1 [MOD 2 ^ n] := (Int.natCast_modEq_iff (n := 2 ^ n)).mp (by exact_mod_cast h)
  exact Eq.trans hnat (Nat.mod_eq_of_lt (Nat.one_lt_two_pow hn.ne'))

/-- Source: `expmed.c`. Kind: C -/
theorem exactDiv_iff_byte :
    (∀ x : BitVec 64, x.toNat % 2 = 1 → x.toNat * (invertMod2n x 8).toNat % 2 ^ 8 = 1) ∧
      ∀ (u : Bool) (op0 op1 : BitVec 8), op1 ≠ 0#8 → value u op1 ∣ value u op0 →
        (expandExactDiv 64 u op0 op1 = BitVec.ofInt 8 (value u op0 / value u op1) ↔ DividesRight u op0 op1) :=
  exactDiv_iff (by decide) (by decide)

/-- **130 divided by 130** in an unsigned byte is not one. Source: `expmed.c` `expand_divmod` (`EXACT_DIV_EXPR`). Kind: C -/
theorem expandExactDiv_byte : ¬ ∀ (n : ℕ), 0 < n → n ≤ 64 →
    (∀ x : BitVec 64, x.toNat % 2 = 1 → x.toNat * (invertMod2n x n).toNat % 2 ^ n = 1) ∧
      ∀ (u : Bool) (op0 op1 : BitVec n), op1 ≠ 0#n → value u op1 ∣ value u op0 →
        expandExactDiv 64 u op0 op1 = BitVec.ofInt n (value u op0 / value u op1) := by
  intro h
  have hq := (h 8 (by decide) (by decide)).2 true 130#8 130#8 (by decide) (dvd_refl _)
  have hright := (expandExactDiv_iff (by decide) (by decide) (by decide) (Int.mul_ediv_cancel' (dvd_refl _)).symm).mp hq
  exact absurd hright (by unfold DividesRight; decide)

end Division

end GccCore.Gcc.Expmed
