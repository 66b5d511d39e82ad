import GccCore.Gcc.FoldConst.Rounding
import GccCore.Lib.MachineInt

/-!
# `gcc/fold-const.c`: when sums and products of two-word integers overflow

What is stored is right modulo the width in every case; the flag is compared with the exact result, read with the
signedness of the call.

* **Addition** (`addDoubleWithSign_exact_iff`): the signed test is right. The unsigned one compares the upper pieces alone,
  and misses an overflow exactly if a carry meets an upper piece of the second operand that is all ones.
* **Multiplication** (`mulDoubleWithSign_exact`): both tests are right, and no sum of the inner loop leaves its word.
-/

namespace GccCore.Gcc.FoldConst

open GccCore.Lib.Digits GccCore.Lib.MachineInt

variable {h : ℕ}

/-! ## Values and types -/

/-- The values of a signedness are those of its type. -/
theorem DoubleWord.inType_value (hh : 0 < h) (u : Bool) (x : DoubleWord h) : inType (4 * h) u (x.value u) := by
  unfold inType DoubleWord.value
  cases u with
  | true =>
    rw [if_pos rfl, if_pos rfl]
    exact ⟨Int.natCast_nonneg _, by exact_mod_cast x.toNat_lt⟩
  | false =>
    rw [if_neg Bool.false_ne_true, if_neg Bool.false_ne_true]
    exact x.toInt_bounds hh

/-- A stored integer that is right modulo the width is right if the type has it. -/
theorem DoubleWord.value_eq_of_modEq (hh : 0 < h) {u : Bool} {x : DoubleWord h} {z : ℤ}
    (hmod : (x.toNat : ℤ) ≡ z [ZMOD 2 ^ (4 * h)]) (hz : inType (4 * h) u z) : x.value u = z := by
  refine eq_of_inType (x.inType_value hh u) hz ?_ (by omega)
  exact (x.value_modEq u).symm.trans hmod

/-! ## Addition -/

/-- The call stores the sum modulo the width, and its flag says whether the type does not have the exact sum.
Source: `fold-const.c` `add_double_with_sign` ("Return nonzero if the operation overflows according to UNSIGNED_P") -/
def AddExact (x y : DoubleWord h) (u : Bool) : Prop :=
  ((addDoubleWithSign x y u).1.toNat : ℤ) = (x.value u + y.value u) % 2 ^ (4 * h) ∧
    ((addDoubleWithSign x y u).2 = true ↔ ¬ inType (4 * h) u (x.value u + y.value u))

section Addition

variable (hh : 0 < h) (x y : DoubleWord h)

include hh

/-- The sum, as values. Source: `fold-const.c` `add_double_with_sign`. Kind: L -/
theorem addDoubleWithSign_value_modEq (u : Bool) :
    ((addDoubleWithSign x y u).1.toNat : ℤ) ≡ x.value u + y.value u [ZMOD 2 ^ (4 * h)] :=
  (addDoubleWithSign_modEq hh x y u).trans ((x.value_modEq u).add (y.value_modEq u))

/-- What is stored is always right. Source: `fold-const.c` `add_double_with_sign`. Kind: L -/
theorem addDoubleWithSign_emod (u : Bool) :
    ((addDoubleWithSign x y u).1.toNat : ℤ) = (x.value u + y.value u) % 2 ^ (4 * h) := by
  have hlt : ((addDoubleWithSign x y u).1.toNat : ℤ) < 2 ^ (4 * h) := by
    exact_mod_cast (addDoubleWithSign x y u).1.toNat_lt
  rw [← Int.emod_eq_of_lt (Int.natCast_nonneg _) hlt]
  exact addDoubleWithSign_value_modEq hh x y u

/-- The signed test: operands of one sign and a sum of the other one.
Source: `fold-const.c` (`#define OVERFLOW_SUM_SIGN(a, b, sum)`)
Kind: L -/
theorem overflowSumSign_iff (a b s : Word h) :
    overflowSumSign a b s = true ↔
      (a.msb = true ↔ b.msb = true) ∧ ¬ (a.msb = true ↔ s.msb = true) := by
  unfold overflowSumSign
  rw [BitVec.msb_and, BitVec.msb_xor, BitVec.msb_not, BitVec.msb_xor, decide_eq_true (by omega : 0 < 2 * h)]
  cases a.msb <;> cases b.msb <;> cases s.msb <;> decide

/-- **Signed sums**: the flag is right. Source: `fold-const.c` `add_double_with_sign`. Kind: P -/
theorem addDoubleWithSign_signed :
    (addDoubleWithSign x y false).2 = true ↔ ¬ inType (4 * h) false (x.value false + y.value false) := by
  have hmod := addDoubleWithSign_value_modEq hh x y false
  have hflag : (addDoubleWithSign x y false).2 =
      overflowSumSign x.high y.high (addDoubleWithSign x y false).1.high := rfl
  rw [hflag, overflowSumSign_iff hh]
  generalize (addDoubleWithSign x y false).1 = s at hmod
  have hx := x.toInt_bounds hh
  have hy := y.toInt_bounds hh
  have hs := s.toInt_bounds hh
  have hwidth : (2 : ℤ) ^ (4 * h) = 2 * 2 ^ (4 * h - 1) := by exact_mod_cast two_pow_width hh
  rw [x.msb_iff_toInt_neg, y.msb_iff_toInt_neg, s.msb_iff_toInt_neg]
  change (s.toNat : ℤ) ≡ x.toInt + y.toInt [ZMOD 2 ^ (4 * h)] at hmod
  change _ ↔ ¬ (-2 ^ (4 * h - 1) ≤ x.toInt + y.toInt ∧ x.toInt + y.toInt < 2 ^ (4 * h - 1))
  obtain ⟨k, hk⟩ := Int.modEq_iff_dvd.mp ((s.value_modEq false).symm.trans hmod)
  change x.toInt + y.toInt - s.toInt = _ at hk
  rw [hwidth] at hk
  generalize (2 : ℤ) ^ (4 * h - 1) = P at *
  -- the stored sum is the exact one, or one width away from it
  have hk1 : -1 ≤ k := by nlinarith
  have hk2 : k ≤ 1 := by nlinarith
  obtain rfl | rfl | rfl : k = -1 ∨ k = 0 ∨ k = 1 := by omega
  · constructor <;> omega
  · constructor <;> omega
  · constructor <;> omega

omit hh in
/-- An upper piece that is all ones. -/
theorem eq_neg_one_iff (a : Word h) : a = -1 ↔ a.toNat = 2 ^ (2 * h) - 1 := by
  have hneg : (-1 : Word h) = BitVec.allOnes (2 * h) := BitVec.neg_one_eq_allOnes
  rw [hneg, ← BitVec.toNat_inj, BitVec.toNat_allOnes]

omit hh in
/-- A test of the upper sum against its first operand, in numbers: it finds the overflow of `a + b + c` unless `b + c` has
overflowed itself. -/
theorem add_carry_mod_lt_iff {M a b c : ℕ} (ha : a < M) (hb : b < M) (hc : c ≤ 1) :
    (a + b + c) % M < a ↔ M ≤ a + b + c ∧ b + c < M := by
  rcases lt_or_ge (a + b + c) M with hlt | hge
  · rw [Nat.mod_eq_of_lt hlt]
    omega
  · have hsub : a + b + c - M < M := by omega
    rw [Nat.mod_eq_sub_mod hge, Nat.mod_eq_of_lt hsub]
    omega

/-- **Unsigned sums**: the flag misses the overflow of a carry into an upper piece that is all ones.
Source: `fold-const.c` `add_double_with_sign` (`(unsigned HOST_WIDE_INT) h < (unsigned HOST_WIDE_INT) h1`)
Kind: P -/
theorem addDoubleWithSign_unsigned :
    (addDoubleWithSign x y true).2 = true ↔
      2 ^ (4 * h) ≤ x.toNat + y.toNat ∧ ¬ (y.high = -1 ∧ 2 ^ (2 * h) ≤ x.low.toNat + y.low.toNat) := by
  have hxl := x.low.isLt
  have hyl := y.low.isLt
  have hxh := x.high.isLt
  have hyh := y.high.isLt
  have hpow : 2 ^ (4 * h) = 2 ^ (2 * h) * 2 ^ (2 * h) := by
    rw [← pow_add]
    congr 1
    omega
  have hcarry : (if x.low + y.low < x.low then 1 else 0 : Word h).toNat =
      if 2 ^ (2 * h) ≤ x.low.toNat + y.low.toNat then 1 else 0 := by
    rw [if_congr (add_lt_left_iff x.low y.low) rfl rfl]
    split_ifs
    · exact one_toNat hh
    · exact BitVec.toNat_zero
  have hflag : (addDoubleWithSign x y true).2 = true ↔ (x.high + y.high +
      (if x.low + y.low < x.low then 1 else 0 : Word h)).toNat < x.high.toNat := by
    simp only [addDoubleWithSign, if_true, decide_eq_true_iff, BitVec.lt_def]
  rw [hflag, BitVec.toNat_add, BitVec.toNat_add, Nat.mod_add_mod, hcarry, eq_neg_one_iff, DoubleWord.toNat,
    DoubleWord.toNat, hpow]
  generalize 2 ^ (2 * h) = M at *
  by_cases hlow : M ≤ x.low.toNat + y.low.toNat
  · rw [if_pos hlow, add_carry_mod_lt_iff hxh hyh le_rfl]
    constructor
    · rintro ⟨hsum, hroom⟩
      have hmul : M * M ≤ (x.high.toNat + y.high.toNat + 1) * M := Nat.mul_le_mul_right M hsum
      refine ⟨?_, by omega⟩
      linarith [add_mul (x.high.toNat + y.high.toNat) 1 M, add_mul x.high.toNat y.high.toNat M]
    · rintro ⟨hsum, hroom⟩
      refine ⟨?_, by omega⟩
      by_contra hlt
      have hmul : (x.high.toNat + y.high.toNat + 2) * M ≤ M * M := Nat.mul_le_mul_right M (by omega)
      linarith [add_mul (x.high.toNat + y.high.toNat) 2 M, add_mul x.high.toNat y.high.toNat M]
  · rw [if_neg hlow, add_carry_mod_lt_iff hxh hyh (by omega)]
    constructor
    · rintro ⟨hsum, -⟩
      have hmul : M * M ≤ (x.high.toNat + y.high.toNat) * M := Nat.mul_le_mul_right M hsum
      refine ⟨?_, by omega⟩
      linarith [add_mul x.high.toNat y.high.toNat M]
    · rintro ⟨hsum, -⟩
      refine ⟨?_, by omega⟩
      by_contra hlt
      have hmul : (x.high.toNat + y.high.toNat + 1) * M ≤ M * M := Nat.mul_le_mul_right M (by omega)
      linarith [add_mul (x.high.toNat + y.high.toNat) 1 M, add_mul x.high.toNat y.high.toNat M]

omit hh in
/-- A carry into an upper piece that is all ones leaves the width. -/
theorem le_add_of_carry (hones : y.high = -1) (hlow : 2 ^ (2 * h) ≤ x.low.toNat + y.low.toNat) :
    2 ^ (4 * h) ≤ x.toNat + y.toNat := by
  have hpow : 2 ^ (4 * h) = 2 ^ (2 * h) * 2 ^ (2 * h) := by
    rw [← pow_add]
    congr 1
    omega
  have hhigh := (eq_neg_one_iff _).mp hones
  have hpos : 0 < 2 ^ (2 * h) := by positivity
  rw [DoubleWord.toNat, DoubleWord.toNat, hpow, hhigh, Nat.sub_mul, one_mul]
  have hle : 2 ^ (2 * h) ≤ 2 ^ (2 * h) * 2 ^ (2 * h) := Nat.le_mul_of_pos_left _ hpos
  omega

/-- **When sums are exact**: always for signed operands; for unsigned ones unless the low pieces carry into an upper piece
of the second operand that is all ones.
Source: `fold-const.c` `add_double_with_sign`
Kind: P -/
theorem addDoubleWithSign_exact_iff (u : Bool) :
    AddExact x y u ↔ ¬ (u = true ∧ y.high = -1 ∧ 2 ^ (2 * h) ≤ x.low.toNat + y.low.toNat) := by
  unfold AddExact
  rw [and_iff_right (addDoubleWithSign_emod hh x y u)]
  cases u with
  | false => simp only [addDoubleWithSign_signed hh, Bool.false_eq_true, false_and, not_false_eq_true]
  | true =>
    have hout : ¬ inType (4 * h) true (x.value true + y.value true) ↔ 2 ^ (4 * h) ≤ x.toNat + y.toNat := by
      change ¬ (0 ≤ (x.toNat : ℤ) + y.toNat ∧ (x.toNat : ℤ) + y.toNat < 2 ^ (4 * h)) ↔ _
      have hcast : ((2 ^ (4 * h) : ℕ) : ℤ) = 2 ^ (4 * h) := by push_cast; rfl
      omega
    rw [addDoubleWithSign_unsigned hh, hout]
    simp only [true_and]
    constructor
    · rintro hflag ⟨hones, hlow⟩
      exact (hflag.mpr (le_add_of_carry x y hones hlow)).2 ⟨hones, hlow⟩
    · intro hno
      exact ⟨And.left, fun hle => ⟨hle, hno⟩⟩

end Addition

/-- One and one are exact in 128 bits. -/
theorem addDoubleWithSign_exact_one : AddExact (⟨1, 0⟩ : DoubleWord 32) ⟨1, 0⟩ true :=
  (addDoubleWithSign_exact_iff (by decide) _ _ true).mpr (by decide)

/-- `1 + (2 ^ 128 - 1)` is stored as 0 without the flag. Source: `fold-const.c` `add_double_with_sign`. Kind: C -/
theorem addDoubleWithSign_misses_carry :
    addDoubleWithSign (⟨1, 0⟩ : DoubleWord 32) ⟨-1, -1⟩ true = (⟨0, 0⟩, false) ∧
      ¬ AddExact (⟨1, 0⟩ : DoubleWord 32) ⟨-1, -1⟩ true := by
  refine ⟨by decide, fun hexact => ?_⟩
  have hno : ¬ inType (4 * 32) true ((⟨1, 0⟩ : DoubleWord 32).value true + (⟨-1, -1⟩ : DoubleWord 32).value true) := by
    unfold inType
    decide
  have hflag : (addDoubleWithSign (⟨1, 0⟩ : DoubleWord 32) ⟨-1, -1⟩ true).2 = false := by decide
  exact Bool.false_ne_true (hflag ▸ hexact.2.mpr hno)

/-! ## Multiplication -/

section Multiplication

variable (hh : 0 < h) (x y : DoubleWord h)

include hh

/-- **No sum of the inner loop leaves its word**: the carry, the product of two digits and the digit stored before.
Source: `fold-const.c` `mul_double_with_sign` ("Since prod[p] < 0xFFFF, this sum <= 0xFFFFFFFF")
Kind: L -/
theorem mulRow_sum_lt (i j : ℕ) :
    (mulRow (encode x) (encode y) i (mulRows (encode x) (encode y) i) j).1.toNat +
      (encode x i).toNat * (encode y j).toNat +
      ((mulRow (encode x) (encode y) i (mulRows (encode x) (encode y) i) j).2 (i + j)).toNat < 2 ^ (2 * h) := by
  obtain ⟨hdigits, -, -⟩ := mulRows_spec hh (digit_encode_lt hh x) (digit_encode_lt hh y) i
  have hrow := mulRow_spec hh (digit_encode_lt hh x) (digit_encode_lt hh y) hdigits i j
  rcases hres : mulRow (encode x) (encode y) i (mulRows (encode x) (encode y) i) j with ⟨carry, prod⟩
  rw [hres] at hrow
  obtain ⟨hcarry, hprod, -, -⟩ := hrow
  have hlt := mul_add_lt (digit_encode_lt hh x i) (digit_encode_lt hh y j) hcarry (hprod (i + j))
  rw [← two_pow_two_mul] at hlt
  unfold digit at hlt
  dsimp only
  omega

/-- The upper half of the digits. Source: `fold-const.c` `mul_double_with_sign` (`decode (prod + 4, ...)`). Kind: L -/
theorem topProduct_toNat :
    (decode fun k => mulRows (encode x) (encode y) 4 (k + 4)).toNat = x.toNat * y.toNat / 2 ^ (4 * h) := by
  obtain ⟨hd, -, hval⟩ := mulRows_spec hh (digit_encode_lt hh x) (digit_encode_lt hh y) 4
  rw [val_encode hh, val_encode hh, val_add, ← two_pow_four_mul] at hval
  have hlow : val (2 ^ h) (digit (mulRows (encode x) (encode y) 4)) 4 < 2 ^ (4 * h) := by
    rw [two_pow_four_mul]
    exact val_lt fun t _ => hd t
  rw [decode_toNat hh _ fun t _ => hd (t + 4), ← hval, Nat.add_mul_div_right _ _ (by positivity), Nat.div_eq_of_lt hlow,
    zero_add]
  refine val_congr fun t _ => ?_
  unfold digit
  rw [add_comm]

omit hh in
/-- Pieces without a bit. Source: `fold-const.c` (`toplow | tophigh`). Kind: L -/
theorem or_ne_zero_iff (t : DoubleWord h) : (t.low ||| t.high) != 0 ↔ t.toNat ≠ 0 := by
  have hpos : 0 < 2 ^ (2 * h) := by positivity
  rw [bne_iff_ne, not_iff_not]
  change t.low ||| t.high = 0#(2 * h) ↔ _
  rw [BitVec.or_eq_zero_iff, DoubleWord.toNat, Nat.add_eq_zero_iff, Nat.mul_eq_zero,
    or_iff_left hpos.ne', ← BitVec.toNat_inj, ← BitVec.toNat_inj, BitVec.toNat_zero]

/-- Pieces with all bits. Source: `fold-const.c` (`~ (toplow & tophigh)`). Kind: L -/
theorem not_and_ne_zero_iff (t : DoubleWord h) : ~~~(t.low &&& t.high) != 0 ↔ t.toInt ≠ -1 := by
  have hneg : (-1 : Word h) = BitVec.allOnes (2 * h) := BitVec.neg_one_eq_allOnes
  rw [bne_iff_ne, not_iff_not, ← and_eq_neg_one_iff hh, hneg]
  change ~~~(t.low &&& t.high) = 0#(2 * h) ↔ _
  rw [← BitVec.not_inj, BitVec.not_not, BitVec.not_zero]

/-- The upper half with the corrections for negative operands is the exact upper half, modulo the width.
Source: `fold-const.c` `mul_double_with_sign` ("Check for signed overflow by calculating the signed representation of the
top half of the result")
Kind: L -/
theorem signedTop_modEq {top top1 top2 v : DoubleWord h} (htop : top.toNat = x.toNat * y.toNat / 2 ^ (4 * h))
    (hv : v.toNat = x.toNat * y.toNat % 2 ^ (4 * h))
    (htop1 : top1 = if x.high.msb then (addDoubleWithSign (negDouble y).1 top false).1 else top)
    (htop2 : top2 = if y.high.msb then (addDoubleWithSign (negDouble x).1 top1 false).1 else top1) :
    ∃ t : ℤ, x.toInt * y.toInt = v.toNat + 2 ^ (4 * h) * t ∧ (top2.toNat : ℤ) ≡ t [ZMOD 2 ^ (4 * h)] := by
  have hsplit : (x.toNat : ℤ) * y.toNat = v.toNat + 2 ^ (4 * h) * top.toNat := by
    rw [htop, hv]
    exact_mod_cast (Nat.mod_add_div _ _).symm
  have hstep : ∀ z w w' : DoubleWord h, w' = (addDoubleWithSign (negDouble z).1 w false).1 →
      (w'.toNat : ℤ) ≡ w.toNat - z.toNat [ZMOD 2 ^ (4 * h)] := by
    rintro z w w' rfl
    have := (addDoubleWithSign_modEq hh (negDouble z).1 w false).trans ((negDouble_modEq z).add_right w.toNat)
    rwa [neg_add_eq_sub] at this
  unfold DoubleWord.toInt
  rcases hx : x.high.msb with _ | _ <;> rcases hy : y.high.msb with _ | _ <;>
    simp only [hx, hy, Bool.false_eq_true, if_false, if_true] at htop1 htop2 ⊢
  · exact ⟨top.toNat, hsplit, by rw [htop2, htop1]⟩
  · refine ⟨top.toNat - x.toNat, by linear_combination hsplit, ?_⟩
    rw [← htop1]
    exact hstep x top1 top2 htop2
  · refine ⟨top.toNat - y.toNat, by linear_combination hsplit, ?_⟩
    rw [htop2]
    exact hstep y top top1 htop1
  · refine ⟨top.toNat - y.toNat - x.toNat + 2 ^ (4 * h), by linear_combination hsplit, ?_⟩
    refine (hstep x top1 top2 htop2).trans (((hstep y top top1 htop1).sub_right x.toNat).trans ?_)
    exact Int.modEq_iff_dvd.mpr ⟨1, by ring⟩

omit hh in
/-- Zero has no bit. -/
theorem DoubleWord.toNat_eq_zero_iff (t : DoubleWord h) : t.toNat = 0 ↔ t.toInt = 0 := by
  have hlt : (t.toNat : ℤ) < 2 ^ (4 * h) := by exact_mod_cast t.toNat_lt
  unfold DoubleWord.toInt
  split_ifs with hmsb
  · constructor
    · intro hzero
      have hlow : t.toInt < 0 := t.msb_iff_toInt_neg.mp hmsb
      rw [DoubleWord.toInt, if_pos hmsb, hzero] at hlow
      have hz : t.high.toNat = 0 := by
        have hpos : 0 < 2 ^ (2 * h) := by positivity
        rw [DoubleWord.toNat] at hzero
        exact (Nat.mul_eq_zero.mp (Nat.add_eq_zero_iff.mp hzero).2).resolve_right hpos.ne'
      rw [BitVec.msb_eq_decide, hz] at hmsb
      exact absurd (of_decide_eq_true hmsb) (by simp)
    · intro heq
      omega
  · exact_mod_cast Iff.rfl

/-- **Signed products**: the flag is right. Source: `fold-const.c` `mul_double_with_sign`. Kind: P -/
theorem mulDoubleWithSign_signed :
    (mulDoubleWithSign x y false).2 = true ↔ ¬ inType (4 * h) false (x.value false * y.value false) := by
  have hv := mulDoubleWithSign_toNat hh x y false
  have htop := topProduct_toNat hh x y
  have hflag : ∃ top1 top2 : DoubleWord h,
      top1 = (if x.high.msb then (addDoubleWithSign (negDouble y).1
        (decode fun k => mulRows (encode x) (encode y) 4 (k + 4)) false).1
        else decode fun k => mulRows (encode x) (encode y) 4 (k + 4)) ∧
      top2 = (if y.high.msb then (addDoubleWithSign (negDouble x).1 top1 false).1 else top1) ∧
      (mulDoubleWithSign x y false).2 = ((if (mulDoubleWithSign x y false).1.high.msb then ~~~(top2.low &&& top2.high)
        else top2.low ||| top2.high) != 0) := ⟨_, _, rfl, rfl, rfl⟩
  obtain ⟨top1, top2, htop1, htop2, hflag⟩ := hflag
  rw [hflag]
  generalize (mulDoubleWithSign x y false).1 = v at hv
  obtain ⟨t, hP, ht⟩ := signedTop_modEq hh x y htop hv htop1 htop2
  change _ ↔ ¬ (-2 ^ (4 * h - 1) ≤ x.toInt * y.toInt ∧ x.toInt * y.toInt < 2 ^ (4 * h - 1))
  have hx := x.toInt_bounds hh
  have hy := y.toInt_bounds hh
  have hwidth : (2 : ℤ) ^ (4 * h) = 2 * 2 ^ (4 * h - 1) := by exact_mod_cast two_pow_width hh
  have hvlt : (v.toNat : ℤ) < 2 ^ (4 * h) := by exact_mod_cast v.toNat_lt
  have hmsb : v.high.msb = true ↔ (2 : ℤ) ^ (4 * h - 1) ≤ v.toNat := by
    rw [v.msb_iff hh]
    exact_mod_cast Iff.rfl
  have hQ : (8 : ℤ) ≤ 2 ^ (4 * h - 1) := by
    calc (8 : ℤ) = 2 ^ 3 := by norm_num
      _ ≤ 2 ^ (4 * h - 1) := pow_le_pow_right₀ (by norm_num) (by omega)
  -- the upper half is small enough to be determined by its bits
  have hbounds : -2 ^ (4 * h - 1) ≤ t ∧ t < 2 ^ (4 * h - 1) := by
    rw [hwidth] at hP hvlt
    generalize (2 : ℤ) ^ (4 * h - 1) = Q at *
    have habs : |x.toInt * y.toInt| ≤ Q * Q := by
      rw [abs_mul]
      exact mul_le_mul (abs_le.mpr ⟨hx.1, hx.2.le⟩) (abs_le.mpr ⟨hy.1, hy.2.le⟩) (abs_nonneg _) (by omega)
    obtain ⟨h1, h2⟩ := abs_le.mp habs
    constructor
    · nlinarith
    · nlinarith
  have hint : top2.toInt = t := top2.toInt_eq_of_modEq hh ht hbounds.1 hbounds.2
  rw [hwidth] at hP hvlt
  generalize (2 : ℤ) ^ (4 * h - 1) = Q at *
  by_cases hm : v.high.msb = true
  · rw [if_pos hm, not_and_ne_zero_iff hh, hint, hP]
    have hge := hmsb.mp hm
    constructor
    · rintro hne ⟨hlo, hhi⟩
      have h1 : -2 < t := by nlinarith
      have h2 : t < 0 := by nlinarith
      omega
    · rintro hout rfl
      exact hout ⟨by linarith, by linarith⟩
  · rw [if_neg hm, or_ne_zero_iff, Ne, DoubleWord.toNat_eq_zero_iff, hint, hP]
    have hlt := not_le.mp fun hc => hm (hmsb.mpr hc)
    constructor
    · rintro hne ⟨hlo, hhi⟩
      have h1 : -1 < t := by nlinarith
      have h2 : t < 1 := by nlinarith
      omega
    · rintro hout rfl
      exact hout ⟨by linarith, by linarith⟩

/-- **Unsigned products**: the flag is right. Source: `fold-const.c` `mul_double_with_sign` ("Unsigned overflow is
immediate"). Kind: P -/
theorem mulDoubleWithSign_unsigned :
    (mulDoubleWithSign x y true).2 = true ↔ ¬ inType (4 * h) true (x.value true * y.value true) := by
  have htop := topProduct_toNat hh x y
  have hflag : (mulDoubleWithSign x y true).2 =
      (((decode fun k => mulRows (encode x) (encode y) 4 (k + 4)).low |||
        (decode fun k => mulRows (encode x) (encode y) 4 (k + 4)).high) != 0) := rfl
  rw [hflag, or_ne_zero_iff, htop]
  change _ ↔ ¬ (0 ≤ (x.toNat : ℤ) * y.toNat ∧ (x.toNat : ℤ) * y.toNat < 2 ^ (4 * h))
  rw [Ne, Nat.div_eq_zero_iff_lt (by positivity), not_iff_not]
  constructor
  · intro hlt
    exact ⟨by positivity, by exact_mod_cast hlt⟩
  · rintro ⟨-, hlt⟩
    exact_mod_cast hlt

/-- **Products are exact**: what is stored is the product modulo the width, the flag says whether the type does not have
the product, and no sum of the loop leaves its word.
Source: `fold-const.c` `mul_double_with_sign`
Kind: P -/
theorem mulDoubleWithSign_exact (u : Bool) :
    ((mulDoubleWithSign x y u).1.toNat : ℤ) = (x.value u * y.value u) % 2 ^ (4 * h) ∧
      ((mulDoubleWithSign x y u).2 = true ↔ ¬ inType (4 * h) u (x.value u * y.value u)) ∧
      ∀ i < 4, ∀ j < 4, (mulRow (encode x) (encode y) i (mulRows (encode x) (encode y) i) j).1.toNat +
        (encode x i).toNat * (encode y j).toNat +
        ((mulRow (encode x) (encode y) i (mulRows (encode x) (encode y) i) j).2 (i + j)).toNat < 2 ^ (2 * h) := by
  refine ⟨?_, ?_, fun i _ j _ => mulRow_sum_lt hh x y i j⟩
  · have hlt : ((mulDoubleWithSign x y u).1.toNat : ℤ) < 2 ^ (4 * h) := by
      exact_mod_cast (mulDoubleWithSign x y u).1.toNat_lt
    rw [← Int.emod_eq_of_lt (Int.natCast_nonneg _) hlt]
    exact (mulDoubleWithSign_modEq hh x y u).trans ((x.value_modEq u).mul (y.value_modEq u))
  · cases u with
    | true => exact mulDoubleWithSign_unsigned hh x y
    | false => exact mulDoubleWithSign_signed hh x y

end Multiplication

/-- The least value times minus one overflows in 128 bits. -/
theorem mulDoubleWithSign_exact_min :
    (mulDoubleWithSign (⟨0, 1 <<< 63⟩ : DoubleWord 32) ⟨-1, -1⟩ false).2 = true ↔
      ¬ inType (4 * 32) false
        ((⟨0, 1 <<< 63⟩ : DoubleWord 32).value false * (⟨-1, -1⟩ : DoubleWord 32).value false) :=
  (mulDoubleWithSign_exact (by decide) ⟨0, 1 <<< 63⟩ ⟨-1, -1⟩ false).2.1

end GccCore.Gcc.FoldConst
