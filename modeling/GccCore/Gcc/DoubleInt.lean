import GccCore.Gcc.FoldConst.Rounding
import GccCore.Lib.MachineInt

/-!
# `gcc/double-int.c`: two-word integers as bit patterns

The pieces of a two-word integer stand for one bit pattern of twice the width. Each operation on the pieces is an operation
on bit patterns.

* **Shifts** (`bits_rshiftDouble`, `bits_lshiftDouble`) by less than the width.
* **Extension** (`bits_zext`, `bits_sext`) of the lowest bits, and **comparison** (`doubleIntCmp_eq`).
* **Arithmetic** (`bits_add`, `bits_neg`, `bits_mul`).
-/

set_option linter.unusedSectionVars false

namespace GccCore.Gcc.FoldConst

open GccCore.Lib.MachineInt

variable {h : ℕ}

/-! ## The code -/

/-- The pieces, shifted to the right. Source: `fold-const.c` `rshift_double`. -/
def rshiftPieces (x : DoubleWord h) (count : ℕ) : DoubleWord h :=
  if count ≥ 2 * (2 * h) then ⟨0, 0⟩
  else if count ≥ 2 * h then ⟨x.high >>> (count - 2 * h), 0⟩
  else ⟨x.low >>> count ||| x.high <<< (2 * h - count - 1) <<< 1, x.high >>> count⟩

/-- The pieces, shifted to the left. Source: `fold-const.c` `lshift_double`. -/
def lshiftPieces (x : DoubleWord h) (count : ℕ) : DoubleWord h :=
  if count ≥ 2 * (2 * h) then ⟨0, 0⟩
  else if count ≥ 2 * h then ⟨0, x.low <<< (count - 2 * h)⟩
  else ⟨x.low <<< count, x.high <<< count ||| x.low >>> (2 * h - count - 1) >>> 1⟩

/-- A shift to the right by `count`, of which `prec` bits are kept; `truncated` is the target's `SHIFT_COUNT_TRUNCATED`.
Source: `fold-const.c` `rshift_double` -/
def rshiftDouble (truncated : Bool) (x : DoubleWord h) (count prec : ℕ) (arith : Bool) : DoubleWord h :=
  let signmask : Word h := if arith then -(x.high >>> (2 * h - 1)) else 0
  let count := if truncated then count % prec else count
  let v := rshiftPieces x count
  -- all bits that are beyond the precision are extended
  if count ≥ prec then ⟨signmask, signmask⟩
  else if prec - count ≥ 2 * (2 * h) then v
  else if prec - count ≥ 2 * h then
    ⟨v.low, (v.high &&& ~~~((-1 : Word h) <<< (prec - count - 2 * h))) ||| signmask <<< (prec - count - 2 * h)⟩
  else ⟨(v.low &&& ~~~((-1 : Word h) <<< (prec - count))) ||| signmask <<< (prec - count), signmask⟩

/-- A shift to the left by `count`, or to the right if it is negative.
Source: `fold-const.c` `lshift_double` -/
def lshiftDouble (truncated : Bool) (x : DoubleWord h) (count : ℤ) (prec : ℕ) (arith : Bool) : DoubleWord h :=
  if count < 0 then rshiftDouble truncated x (-count).toNat prec arith
  else
    let count := if truncated then count.toNat % prec else count.toNat
    let v := lshiftPieces x count
    let signmask : Word h :=
      -((if prec > 2 * h then v.high >>> (prec - 2 * h - 1) else v.low >>> (prec - 1)) &&& 1)
    if prec ≥ 2 * (2 * h) then v
    else if prec ≥ 2 * h then
      ⟨v.low, (v.high &&& ~~~((-1 : Word h) <<< (prec - 2 * h))) ||| signmask <<< (prec - 2 * h)⟩
    else ⟨(v.low &&& ~~~((-1 : Word h) <<< prec)) ||| signmask <<< prec, signmask⟩

/-- Source: `double-int.c` `double_int_mask`. -/
def doubleIntMask (prec : ℕ) : DoubleWord h :=
  if prec > 2 * h then ⟨-1, (2 : Word h) <<< (prec - 2 * h - 1) - 1⟩ else ⟨(2 : Word h) <<< (prec - 1) - 1, 0⟩

/-- Source: `double-int.c` `double_int_zext`. -/
def doubleIntZext (cst : DoubleWord h) (prec : ℕ) : DoubleWord h :=
  ⟨cst.low &&& (doubleIntMask prec : DoubleWord h).low, cst.high &&& (doubleIntMask prec : DoubleWord h).high⟩

/-- Source: `double-int.c` `double_int_sext`. -/
def doubleIntSext (cst : DoubleWord h) (prec : ℕ) : DoubleWord h :=
  let mask : DoubleWord h := doubleIntMask prec
  let (snum, prec) := if prec ≤ 2 * h then (cst.low, prec) else (cst.high, prec - 2 * h)
  if snum >>> (prec - 1) &&& 1 = 1 then ⟨cst.low ||| ~~~mask.low, cst.high ||| ~~~mask.high⟩
  else ⟨cst.low &&& mask.low, cst.high &&& mask.high⟩

/-- Source: `double-int.c` `double_int_ext`. -/
def doubleIntExt (cst : DoubleWord h) (prec : ℕ) (uns : Bool) : DoubleWord h :=
  if uns then doubleIntZext cst prec else doubleIntSext cst prec

/-- Source: `double-int.c` `double_int_ucmp`, `double_int_scmp`. -/
def doubleIntCmp (a b : DoubleWord h) (uns : Bool) : ℤ :=
  if (if uns then a.high.ult b.high else a.high.slt b.high) then -1
  else if (if uns then b.high.ult a.high else b.high.slt a.high) then 1
  else if a.low.ult b.low then -1
  else if b.low.ult a.low then 1
  else 0

/-- Source: `double-int.c` `double_int_add`. -/
def doubleIntAdd (a b : DoubleWord h) : DoubleWord h := (addDouble a b).1

/-- Source: `double-int.c` `double_int_neg`. -/
def doubleIntNeg (a : DoubleWord h) : DoubleWord h := (negDouble a).1

/-- Source: `double-int.c` `double_int_mul`. -/
def doubleIntMul (a b : DoubleWord h) : DoubleWord h := (mulDouble a b).1

/-! ## Bit patterns -/

/-- The bit pattern of the pieces. -/
def DoubleWord.bits (x : DoubleWord h) : BitVec (4 * h) := BitVec.ofNat (4 * h) x.toNat

@[simp]
theorem DoubleWord.toNat_bits (x : DoubleWord h) : x.bits.toNat = x.toNat := by
  unfold DoubleWord.bits
  rw [BitVec.toNat_ofNat, Nat.mod_eq_of_lt x.toNat_lt]

theorem DoubleWord.bits_inj {x y : DoubleWord h} (heq : x.bits = y.bits) : x = y := by
  apply DoubleWord.ext_toNat
  rw [← x.toNat_bits, heq, y.toNat_bits]

/-- The pieces are the lower and the upper bits. -/
theorem DoubleWord.getLsbD_bits (x : DoubleWord h) (k : ℕ) :
    x.bits.getLsbD k = if k < 2 * h then x.low.getLsbD k else x.high.getLsbD (k - 2 * h) := by
  rw [← BitVec.testBit_toNat, x.toNat_bits, DoubleWord.toNat, add_comm, mul_comm,
    Nat.testBit_two_pow_mul_add _ x.low.isLt]
  rfl

/-- The sign bit is that of the upper piece. -/
theorem DoubleWord.msb_bits (hh : 0 < h) (x : DoubleWord h) : x.bits.msb = x.high.msb := by
  rw [BitVec.msb_eq_getLsbD_last, BitVec.msb_eq_getLsbD_last, x.getLsbD_bits, if_neg (by omega)]
  congr 1
  omega

/-- The two signed readings. -/
theorem DoubleWord.toInt_bits (hh : 0 < h) (x : DoubleWord h) : x.bits.toInt = x.toInt := by
  have hmsb : x.bits.msb = x.high.msb := x.msb_bits hh
  rw [BitVec.toInt_eq_msb_cond, hmsb, x.toNat_bits, DoubleWord.toInt]
  push_cast
  rfl

theorem getLsbD_neg_one (k : ℕ) : (-1 : Word h).getLsbD k = decide (k < 2 * h) := by
  have hones : (-1 : Word h) = BitVec.allOnes (2 * h) := BitVec.neg_one_eq_allOnes
  rw [hones, BitVec.getLsbD_allOnes]

/-- A mask of copies of the sign bit. Source: `fold-const.c` `rshift_double` (`signmask`). Kind: L -/
theorem getLsbD_signmask (hh : 0 < h) (x : Word h) {k : ℕ} (hk : k < 2 * h) :
    (-(x >>> (2 * h - 1))).getLsbD k = x.msb := by
  have hlt := x.isLt
  have htop : x.toNat / 2 ^ (2 * h - 1) = x.msb.toNat := by
    have hpow : 2 ^ (2 * h) = 2 * 2 ^ (2 * h - 1) := by
      rw [← pow_succ']
      congr 1
      omega
    rw [BitVec.msb_eq_decide]
    by_cases hge : 2 ^ (2 * h - 1) ≤ x.toNat
    · rw [decide_eq_true hge]
      exact (Nat.div_eq_iff (by positivity)).mpr ⟨by simpa using hge, by simp; omega⟩
    · rw [decide_eq_false hge]
      exact Nat.div_eq_of_lt (not_le.mp hge)
  have hshift : x >>> (2 * h - 1) = if x.msb then 1 else 0 := by
    apply BitVec.eq_of_toNat_eq
    rw [BitVec.toNat_ushiftRight, Nat.shiftRight_eq_div_pow, htop]
    cases x.msb with
    | true => exact (one_toNat hh).symm
    | false => exact BitVec.toNat_zero.symm
  rw [hshift]
  cases x.msb with
  | true =>
    rw [if_pos rfl, getLsbD_neg_one]
    exact decide_eq_true hk
  | false =>
    rw [if_neg Bool.false_ne_true]
    simp

/-- The bits from a place on are replaced. Source: `fold-const.c` `rshift_double` (`*hv |= signmask << ...`). Kind: L -/
theorem getLsbD_replace (y signmask : Word h) {b : Bool} (hsign : ∀ k < 2 * h, signmask.getLsbD k = b) (m : ℕ) {j : ℕ}
    (hj : j < 2 * h) :
    ((y &&& ~~~((-1 : Word h) <<< m)) ||| signmask <<< m).getLsbD j = if j < m then y.getLsbD j else b := by
  rw [BitVec.getLsbD_or, BitVec.getLsbD_and, BitVec.getLsbD_not, BitVec.getLsbD_shiftLeft, BitVec.getLsbD_shiftLeft,
    getLsbD_neg_one, decide_eq_true hj]
  by_cases hm : j < m
  · rw [decide_eq_true hm, if_pos hm]
    simp
  · rw [decide_eq_false hm, if_neg hm, decide_eq_true (by omega : j - m < 2 * h), hsign (j - m) (by omega)]
    simp

section Shifts

variable (hh : 0 < h) (truncated : Bool) (x : DoubleWord h)

include hh

theorem bits_rshiftPieces (count : ℕ) : (rshiftPieces x count).bits = x.bits >>> count := by
  apply BitVec.eq_of_getLsbD_eq
  intro k hk
  rw [BitVec.getLsbD_ushiftRight, x.getLsbD_bits, DoubleWord.getLsbD_bits]
  unfold rshiftPieces
  by_cases hall : count ≥ 2 * (2 * h)
  · rw [if_pos hall, if_neg (by omega : ¬ count + k < 2 * h), BitVec.getLsbD_of_ge x.high _ (by omega)]
    dsimp only
    split_ifs <;> exact BitVec.getLsbD_zero
  rw [if_neg hall]
  by_cases hge : count ≥ 2 * h
  · rw [if_pos hge, if_neg (by omega : ¬ count + k < 2 * h)]
    dsimp only
    split_ifs with hk'
    · rw [BitVec.getLsbD_ushiftRight]
      congr 1
      omega
    · rw [BitVec.getLsbD_of_ge x.high _ (by omega)]
      exact BitVec.getLsbD_zero
  · rw [if_neg hge]
    dsimp only
    by_cases hk' : k < 2 * h
    · rw [if_pos hk', BitVec.getLsbD_or, BitVec.getLsbD_ushiftRight, BitVec.getLsbD_shiftLeft, BitVec.getLsbD_shiftLeft]
      by_cases hcross : count + k < 2 * h
      · rw [if_pos hcross]
        rcases Nat.eq_zero_or_pos k with rfl | hpos
        · simp
        · rw [decide_eq_true (by omega : k - 1 < 2 * h - count - 1)]
          simp
      · rw [if_neg hcross, BitVec.getLsbD_of_ge x.low _ (by omega), decide_eq_true hk', decide_eq_false (by omega : ¬ k < 1),
          decide_eq_true (by omega : k - 1 < 2 * h), decide_eq_false (by omega : ¬ k - 1 < 2 * h - count - 1)]
        simp only [Bool.not_false, Bool.true_and, Bool.false_or]
        congr 1
        omega
    · rw [if_neg hk', if_neg (by omega), BitVec.getLsbD_ushiftRight]
      congr 1
      omega

/-- **A shift to the right, bit by bit**, at every precision and by every count.
Source: `fold-const.c` `rshift_double` ("Zero / sign extend all bits that are beyond the precision")
Kind: L -/
theorem getLsbD_rshiftDouble {prec count : ℕ} (hcount : truncated = true → count < prec) (arith : Bool) {k : ℕ}
    (hk : k < 4 * h) :
    (rshiftDouble truncated x count prec arith).bits.getLsbD k =
      if count + k < prec then x.bits.getLsbD (count + k) else arith && x.high.msb := by
  have hsign : ∀ k < 2 * h, (if arith then -(x.high >>> (2 * h - 1)) else 0 : Word h).getLsbD k =
      (arith && x.high.msb) := by
    intro k hk
    cases arith with
    | true => exact getLsbD_signmask hh x.high hk
    | false => exact BitVec.getLsbD_zero
  have hfixed : (if truncated then count % prec else count) = count := by
    split_ifs with ht
    · exact Nat.mod_eq_of_lt (hcount ht)
    · rfl
  rw [← BitVec.getLsbD_ushiftRight, ← bits_rshiftPieces hh x]
  unfold rshiftDouble
  dsimp only
  rw [hfixed]
  generalize (if arith then -(x.high >>> (2 * h - 1)) else 0 : Word h) = signmask at hsign
  generalize rshiftPieces x count = v
  by_cases hall : count ≥ prec
  · rw [if_pos hall, if_neg (by omega), DoubleWord.getLsbD_bits]
    dsimp only
    split_ifs <;> exact hsign _ (by omega)
  rw [if_neg hall]
  by_cases hnone : prec - count ≥ 2 * (2 * h)
  · rw [if_pos hnone, if_pos (by omega)]
  rw [if_neg hnone]
  by_cases hge : prec - count ≥ 2 * h
  · rw [if_pos hge, DoubleWord.getLsbD_bits, v.getLsbD_bits]
    dsimp only
    split_ifs with hk' hin hin
    · rfl
    · omega
    · rw [getLsbD_replace _ _ hsign _ (by omega), if_pos (by omega)]
    · rw [getLsbD_replace _ _ hsign _ (by omega), if_neg (by omega)]
  · rw [if_neg hge, DoubleWord.getLsbD_bits, v.getLsbD_bits]
    dsimp only
    split_ifs with hk' hin hin
    · rw [getLsbD_replace _ _ hsign _ hk', if_pos (by omega)]
    · rw [getLsbD_replace _ _ hsign _ hk', if_neg (by omega)]
    · omega
    · exact hsign _ (by omega)

/-- **A shift to the right** of the whole width. Source: `fold-const.c` `rshift_double`. Kind: L -/
theorem bits_rshiftDouble {count : ℕ} (hlt : count < 4 * h) (arith : Bool) :
    (rshiftDouble truncated x count (4 * h) arith).bits = if arith then x.bits.sshiftRight count else x.bits >>> count := by
  apply BitVec.eq_of_getLsbD_eq
  intro k hk
  rw [getLsbD_rshiftDouble hh truncated x (fun _ => hlt) arith hk]
  cases arith with
  | true =>
    rw [if_pos rfl, BitVec.getLsbD_sshiftRight, decide_eq_false (by omega), Bool.not_false, Bool.true_and,
      x.msb_bits hh, Bool.true_and]
  | false =>
    rw [if_neg Bool.false_ne_true, BitVec.getLsbD_ushiftRight, Bool.false_and]
    split_ifs with hin
    · rfl
    · rw [BitVec.getLsbD_of_ge _ _ (by omega)]

/-- **A shift to the left**. Source: `fold-const.c` `lshift_double`. Kind: L -/
theorem bits_lshiftPieces (count : ℕ) : (lshiftPieces x count).bits = x.bits <<< count := by
  apply BitVec.eq_of_getLsbD_eq
  intro k hk
  rw [BitVec.getLsbD_shiftLeft, x.getLsbD_bits, DoubleWord.getLsbD_bits, decide_eq_true hk]
  unfold lshiftPieces
  by_cases hall : count ≥ 2 * (2 * h)
  · rw [if_pos hall, decide_eq_true (by omega : k < count), Bool.not_true, Bool.and_false, Bool.false_and]
    dsimp only
    split_ifs <;> exact BitVec.getLsbD_zero
  rw [if_neg hall]
  by_cases hge : count ≥ 2 * h
  · rw [if_pos hge, if_pos (by omega : k - count < 2 * h)]
    dsimp only
    split_ifs with hk'
    · rw [decide_eq_true (by omega : k < count)]
      exact BitVec.getLsbD_zero
    · rw [BitVec.getLsbD_shiftLeft, decide_eq_true (by omega : k - 2 * h < 2 * h)]
      by_cases hlow : k < count
      · rw [decide_eq_true hlow, decide_eq_true (by omega : k - 2 * h < count - 2 * h)]
        rfl
      · rw [decide_eq_false hlow, decide_eq_false (by omega : ¬ k - 2 * h < count - 2 * h)]
        simp only [Bool.not_false, Bool.true_and]
        congr 1
        omega
  · rw [if_neg hge]
    dsimp only
    by_cases hk' : k < 2 * h
    · rw [if_pos hk', if_pos (by omega), BitVec.getLsbD_shiftLeft, decide_eq_true hk']
    · rw [if_neg hk', BitVec.getLsbD_or, BitVec.getLsbD_shiftLeft, BitVec.getLsbD_ushiftRight, BitVec.getLsbD_ushiftRight,
        decide_eq_true (by omega : k - 2 * h < 2 * h), decide_eq_false (by omega : ¬ k < count)]
      by_cases hcross : k - 2 * h < count
      · rw [decide_eq_true hcross, if_pos (by omega)]
        simp only [Bool.not_true, Bool.and_false, Bool.false_and, Bool.false_or, Bool.not_false, Bool.true_and]
        congr 1
        omega
      · rw [decide_eq_false hcross, if_neg (by omega), BitVec.getLsbD_of_ge x.low _ (by omega)]
        simp only [Bool.not_false, Bool.true_and, Bool.or_false]
        congr 1
        omega

/-- **Shifts by less than the width**, in both directions. Source: `fold-const.c` `lshift_double`. Kind: L -/
theorem bits_lshiftDouble {count : ℤ} (hgt : -(4 * h : ℤ) < count) (hlt : count < 4 * h) (arith : Bool) :
    (lshiftDouble truncated x count (4 * h) arith).bits =
      if count < 0 then (if arith then x.bits.sshiftRight (-count).toNat else x.bits >>> (-count).toNat)
      else x.bits <<< count.toNat := by
  unfold lshiftDouble
  by_cases hneg : count < 0
  · rw [if_pos hneg, if_pos hneg]
    exact bits_rshiftDouble hh truncated x (by omega) arith
  · rw [if_neg hneg, if_neg hneg]
    dsimp only
    rw [Nat.mod_eq_of_lt (by omega), ite_self, if_pos (by omega : 4 * h ≥ 2 * (2 * h))]
    exact bits_lshiftPieces hh x _

end Shifts

section Extension

variable (hh : 0 < h)

include hh

/-- A mask in one piece. Source: `double-int.c` `double_int_mask`. Kind: L -/
theorem getLsbD_maskPiece {p : ℕ} (hpos : 0 < p) (hle : p ≤ 2 * h) (k : ℕ) :
    ((2 : Word h) <<< (p - 1) - 1).getLsbD k = decide (k < p) := by
  have hone := one_toNat hh
  have hpow : 2 ≤ 2 ^ (2 * h) := by
    have := Nat.pow_le_pow_right (by decide : 0 < 2) (by omega : 1 ≤ 2 * h)
    omega
  have hshift : ((2 : Word h) <<< (p - 1)).toNat = 2 ^ p % 2 ^ (2 * h) := by
    rw [BitVec.toNat_shiftLeft, Nat.shiftLeft_eq]
    have htwo : (2 : Word h).toNat = 2 % 2 ^ (2 * h) := BitVec.toNat_ofNat 2 (2 * h)
    rw [htwo, Nat.mod_mul_mod, ← pow_succ', Nat.sub_add_cancel hpos]
  have hvalue : ((2 : Word h) <<< (p - 1) - 1).toNat = 2 ^ p - 1 := by
    have hpos' : 0 < 2 ^ p := by positivity
    rw [BitVec.toNat_sub, hshift, hone]
    rcases lt_or_eq_of_le hle with hlt | rfl
    · have hlt' : 2 ^ p < 2 ^ (2 * h) := Nat.pow_lt_pow_right (by decide) hlt
      rw [Nat.mod_eq_of_lt hlt', show 2 ^ (2 * h) - 1 + 2 ^ p = 2 ^ p - 1 + 2 ^ (2 * h) by omega, Nat.add_mod_right,
        Nat.mod_eq_of_lt (by omega)]
    · rw [Nat.mod_self, Nat.add_zero, Nat.mod_eq_of_lt (by omega)]
  rw [← BitVec.testBit_toNat, hvalue, Nat.testBit_two_pow_sub_one]

/-- **The mask of the lowest bits**. Source: `double-int.c` `double_int_mask`. Kind: L -/
theorem getLsbD_doubleIntMask {p : ℕ} (hpos : 0 < p) (hle : p ≤ 4 * h) (k : ℕ) :
    (doubleIntMask p : DoubleWord h).bits.getLsbD k = decide (k < p) := by
  rw [DoubleWord.getLsbD_bits]
  unfold doubleIntMask
  by_cases hwide : p > 2 * h
  · rw [if_pos hwide]
    dsimp only
    split_ifs with hk'
    · rw [getLsbD_neg_one]
      exact decide_eq_decide.mpr (by omega)
    · rw [getLsbD_maskPiece hh (by omega) (by omega)]
      exact decide_eq_decide.mpr (by omega)
  · rw [if_neg hwide]
    dsimp only
    split_ifs with hk'
    · exact getLsbD_maskPiece hh hpos (by omega) k
    · rw [decide_eq_false (by omega)]
      exact BitVec.getLsbD_zero

/-- The bits of the pieces taken one by one. -/
theorem bits_and (x y : DoubleWord h) : (⟨x.low &&& y.low, x.high &&& y.high⟩ : DoubleWord h).bits = x.bits &&& y.bits := by
  apply BitVec.eq_of_getLsbD_eq
  intro k _
  rw [BitVec.getLsbD_and, DoubleWord.getLsbD_bits, x.getLsbD_bits, y.getLsbD_bits]
  split_ifs
  · exact BitVec.getLsbD_and
  · exact BitVec.getLsbD_and

theorem bits_or (x y : DoubleWord h) : (⟨x.low ||| y.low, x.high ||| y.high⟩ : DoubleWord h).bits = x.bits ||| y.bits := by
  apply BitVec.eq_of_getLsbD_eq
  intro k _
  rw [BitVec.getLsbD_or, DoubleWord.getLsbD_bits, x.getLsbD_bits, y.getLsbD_bits]
  split_ifs
  · exact BitVec.getLsbD_or
  · exact BitVec.getLsbD_or

theorem bits_or_not (x y : DoubleWord h) :
    (⟨x.low ||| ~~~y.low, x.high ||| ~~~y.high⟩ : DoubleWord h).bits = x.bits ||| ~~~y.bits := by
  apply BitVec.eq_of_getLsbD_eq
  intro k hk
  rw [BitVec.getLsbD_or, BitVec.getLsbD_not, DoubleWord.getLsbD_bits, x.getLsbD_bits, y.getLsbD_bits, decide_eq_true hk]
  split_ifs with hk'
  · rw [BitVec.getLsbD_or, BitVec.getLsbD_not, decide_eq_true hk']
  · rw [BitVec.getLsbD_or, BitVec.getLsbD_not, decide_eq_true (by omega : k - 2 * h < 2 * h)]

/-- The test of one bit. Source: `double-int.c` `double_int_sext`. Kind: L -/
theorem and_one_eq_one_iff (x : Word h) (n : ℕ) : x >>> n &&& 1 = 1 ↔ x.getLsbD n = true := by
  have hbits : ∀ k < 2 * h, (x >>> n &&& 1).getLsbD k = (x.getLsbD n && decide (k = 0)) := by
    intro k hk
    have hone : (1 : Word h).getLsbD k = decide (k = 0) := by
      have h1 : (1 : Word h).getLsbD k = (decide (0 < 2 * h) && decide (k = 0)) := BitVec.getLsbD_one
      rw [h1, decide_eq_true (by omega : 0 < 2 * h), Bool.true_and]
    rw [BitVec.getLsbD_and, BitVec.getLsbD_ushiftRight, hone]
    by_cases hzero : k = 0
    · rw [hzero, Nat.add_zero]
    · rw [decide_eq_false hzero, Bool.and_false, Bool.and_false]
  have hone : (1 : Word h).getLsbD 0 = true := by
    have h1 : (1 : Word h).getLsbD 0 = (decide (0 < 2 * h) && decide (0 = 0)) := BitVec.getLsbD_one
    rw [h1, decide_eq_true (by omega : 0 < 2 * h)]
    rfl
  constructor
  · intro heq
    have hzero := hbits 0 (by omega)
    rw [heq, hone] at hzero
    simpa using hzero.symm
  · intro hset
    apply BitVec.eq_of_getLsbD_eq
    intro k hk
    rw [hbits k hk, hset, Bool.true_and]
    have h1 : (1 : Word h).getLsbD k = (decide (0 < 2 * h) && decide (k = 0)) := BitVec.getLsbD_one
    rw [h1, decide_eq_true (by omega : 0 < 2 * h), Bool.true_and]

/-- The lowest bits with zeros in front. Source: `double-int.c` `double_int_zext`. Kind: L -/
theorem bits_zext (x : DoubleWord h) {p : ℕ} (hpos : 0 < p) (hle : p ≤ 4 * h) :
    (doubleIntZext x p).bits = (x.bits.setWidth p).setWidth (4 * h) := by
  unfold doubleIntZext
  rw [bits_and hh]
  apply BitVec.eq_of_getLsbD_eq
  intro k hk
  rw [BitVec.getLsbD_and, getLsbD_doubleIntMask hh hpos hle k, BitVec.getLsbD_setWidth, BitVec.getLsbD_setWidth,
    decide_eq_true hk, Bool.true_and, Bool.and_comm]

/-- The lowest bits with copies of the sign bit in front. Source: `double-int.c` `double_int_sext`. Kind: L -/
theorem bits_sext (x : DoubleWord h) {p : ℕ} (hpos : 0 < p) (hle : p ≤ 4 * h) :
    (doubleIntSext x p).bits = (x.bits.setWidth p).signExtend (4 * h) := by
  have hsign : ((if p ≤ 2 * h then (x.low, p) else (x.high, p - 2 * h)).1 >>>
      ((if p ≤ 2 * h then (x.low, p) else (x.high, p - 2 * h)).2 - 1) &&& 1 = 1) ↔ (x.bits.setWidth p).msb = true := by
    rw [and_one_eq_one_iff hh, BitVec.msb_eq_getLsbD_last, BitVec.getLsbD_setWidth, decide_eq_true (by omega : p - 1 < p),
      Bool.true_and, x.getLsbD_bits]
    by_cases hnarrow : p ≤ 2 * h
    · rw [if_pos hnarrow, if_pos (by omega)]
    · rw [if_neg hnarrow, if_neg (by omega), show p - 1 - 2 * h = p - 2 * h - 1 by omega]
  unfold doubleIntSext
  dsimp only
  apply BitVec.eq_of_getLsbD_eq
  intro k hk
  have hmask := getLsbD_doubleIntMask hh hpos hle k
  rw [BitVec.getLsbD_signExtend, decide_eq_true hk, Bool.true_and, BitVec.getLsbD_setWidth]
  by_cases hset : (x.bits.setWidth p).msb = true
  · rw [if_pos (hsign.mpr hset), bits_or_not hh, BitVec.getLsbD_or, BitVec.getLsbD_not, hmask, decide_eq_true hk, hset]
    by_cases hin : k < p <;> simp [hin]
  · rw [if_neg (fun hc => hset (hsign.mp hc)), bits_and hh, BitVec.getLsbD_and, hmask, Bool.eq_false_iff.mpr hset]
    by_cases hin : k < p <;> simp [hin]

/-- **The value of the lowest bits**. Source: `double-int.c` `double_int_ext`. Kind: L -/
theorem valueIn_ext (x : DoubleWord h) {p : ℕ} (hpos : 0 < p) (hle : p ≤ 4 * h) (uns : Bool) :
    valueIn uns (doubleIntExt x p uns).bits = valueIn uns (x.bits.setWidth p) := by
  unfold doubleIntExt
  cases uns with
  | true =>
    rw [if_pos rfl, bits_zext hh x hpos hle]
    unfold valueIn
    rw [if_pos rfl, if_pos rfl, BitVec.toNat_setWidth, Nat.mod_eq_of_lt]
    exact lt_of_lt_of_le (x.bits.setWidth p).isLt (Nat.pow_le_pow_right (by decide) hle)
  | false =>
    have hin := inType_mono hle (inType_valueIn false (x.bits.setWidth p))
    rw [if_neg Bool.false_ne_true, bits_sext hh x hpos hle]
    exact valueIn_ofInt (by omega) hin

/-- A bit pattern is determined by its value. -/
theorem eq_of_valueIn {w : ℕ} {uns : Bool} {x y : BitVec w} (heq : valueIn uns x = valueIn uns y) : x = y := by
  apply BitVec.eq_of_toNat_eq
  have hmod : (x.toNat : ℤ) ≡ y.toNat [ZMOD 2 ^ w] :=
    (valueIn_modEq uns x).symm.trans (heq ▸ valueIn_modEq uns y)
  have hx := x.isLt
  have hy := y.isLt
  unfold Int.ModEq at hmod
  rw [Int.emod_eq_of_lt (by omega) (by exact_mod_cast hx), Int.emod_eq_of_lt (by omega) (by exact_mod_cast hy)] at hmod
  exact_mod_cast hmod

end Extension

/-! ## Comparison -/

section Comparison

variable (hh : 0 < h) (a b : DoubleWord h) (uns : Bool)

include hh

/-- The value, by the pieces. -/
theorem valueIn_bits (x : DoubleWord h) : valueIn uns x.bits = valueIn uns x.high * 2 ^ (2 * h) + x.low.toNat := by
  have hlow := x.low.isLt
  have hbase : ((2 ^ (2 * h) : ℕ) : ℤ) = 2 ^ (2 * h) := by push_cast; rfl
  have hfour : (2 : ℤ) ^ (4 * h) = 2 ^ (2 * h) * 2 ^ (2 * h) := by
    rw [← pow_add]
    congr 1
    omega
  have hpred : (2 : ℤ) ^ (4 * h - 1) = 2 ^ (2 * h - 1) * 2 ^ (2 * h) := by
    rw [← pow_add]
    congr 1
    omega
  have hin := inType_valueIn uns x.high
  apply eq_of_inType (inType_valueIn uns x.bits) _ _ (by omega : 0 < 4 * h)
  · unfold inType at hin ⊢
    cases uns with
    | true =>
      rw [if_pos rfl] at hin ⊢
      rw [hfour]
      constructor
      · have := hin.1
        positivity
      · nlinarith [hin.2]
    | false =>
      rw [if_neg Bool.false_ne_true] at hin ⊢
      rw [hpred]
      constructor
      · nlinarith [hin.1]
      · nlinarith [hin.2]
  · apply (valueIn_modEq uns x.bits).trans
    rw [x.toNat_bits, DoubleWord.toNat, add_comm]
    push_cast
    apply Int.ModEq.add_right
    rw [hfour]
    exact ((valueIn_modEq uns x.high).symm.mul_right' )

/-- **Comparisons** are those of the values. Source: `double-int.c` `double_int_cmp`. Kind: L -/
theorem doubleIntCmp_eq :
    doubleIntCmp a b uns = if valueIn uns a.bits < valueIn uns b.bits then -1
      else if valueIn uns b.bits < valueIn uns a.bits then 1 else 0 := by
  have hhigh : ∀ x y : Word h, (if uns then x.ult y else x.slt y) = decide (valueIn uns x < valueIn uns y) := by
    intro x y
    unfold valueIn
    cases uns with
    | true =>
      rw [if_pos rfl, if_pos rfl, if_pos rfl]
      unfold BitVec.ult
      exact decide_eq_decide.mpr (by omega)
    | false => rfl
  have hlow : ∀ x y : Word h, x.ult y = decide (x.toNat < y.toNat) := fun _ _ => rfl
  unfold doubleIntCmp
  rw [hhigh, hhigh, hlow, hlow, valueIn_bits hh, valueIn_bits hh]
  have hla := a.low.isLt
  have hlb := b.low.isLt
  have hbase : ((2 ^ (2 * h) : ℕ) : ℤ) = 2 ^ (2 * h) := by push_cast; rfl
  generalize (2 : ℤ) ^ (2 * h) = B at hbase
  generalize valueIn uns a.high = A
  generalize valueIn uns b.high = C
  have hmul : ∀ P Q : ℤ, P < Q → P * B + B ≤ Q * B := by
    intro P Q hlt
    have hpos : 0 < B := by omega
    nlinarith
  simp only [decide_eq_true_eq]
  rcases lt_trichotomy A C with hlt | rfl | hlt
  · have := hmul A C hlt
    rw [if_pos hlt, if_pos (by omega)]
  · rw [if_neg (lt_irrefl A), if_neg (lt_irrefl A)]
    split_ifs <;> first | rfl | omega
  · have := hmul C A hlt
    rw [if_neg (by omega), if_pos hlt, if_neg (by omega), if_pos (by omega)]

theorem doubleIntCmp_eq_one_iff : doubleIntCmp a b uns = 1 ↔ valueIn uns b.bits < valueIn uns a.bits := by
  rw [doubleIntCmp_eq hh]
  generalize valueIn uns a.bits = y
  generalize valueIn uns b.bits = z
  split_ifs <;> simp <;> omega

theorem doubleIntCmp_eq_neg_one_iff : doubleIntCmp a b uns = -1 ↔ valueIn uns a.bits < valueIn uns b.bits := by
  rw [doubleIntCmp_eq hh]
  generalize valueIn uns a.bits = y
  generalize valueIn uns b.bits = z
  split_ifs <;> simp <;> omega

end Comparison

/-! ## Arithmetic -/

section Arithmetic

variable (hh : 0 < h) (a b : DoubleWord h)

include hh

theorem bits_add : (doubleIntAdd a b).bits = a.bits + b.bits := by
  apply BitVec.eq_of_toNat_eq
  rw [BitVec.toNat_add, DoubleWord.toNat_bits, DoubleWord.toNat_bits, DoubleWord.toNat_bits]
  exact addDoubleWithSign_toNat hh a b false

theorem bits_neg : (doubleIntNeg a).bits = -a.bits := by
  apply BitVec.eq_of_toNat_eq
  rw [BitVec.toNat_neg, DoubleWord.toNat_bits, DoubleWord.toNat_bits]
  exact negDouble_toNat a

theorem bits_mul : (doubleIntMul a b).bits = a.bits * b.bits := by
  apply BitVec.eq_of_toNat_eq
  rw [BitVec.toNat_mul, DoubleWord.toNat_bits, DoubleWord.toNat_bits, DoubleWord.toNat_bits]
  exact mulDoubleWithSign_toNat hh a b false

end Arithmetic

end GccCore.Gcc.FoldConst
