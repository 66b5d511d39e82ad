import GccCore.Lib.WordPair

/-!
# `libcpp/expr.c`: preprocessing numbers

A preprocessing number is a `high` and a `low` part of `w` bits (`PART_PRECISION`), of which the operations use the low
`precision` bits. Unused high bits are zero (`Trimmed`).

* **The value** (`CppNum.toNat`, and `CppNum.toInt` for the signedness): what the helpers do to it (`toNat_numTrim`,
  `numPositive_iff`, `toNat_numNegate`, `numGreaterEq_unsigned`, `toNat_numLshift`).
-/

namespace GccCore.Cpp.Expr

open GccCore.Lib.WordPair

/-! ## The code -/

section Model

variable {w : ℕ}

/-- Source: `cpplib.h` `struct cpp_num`. -/
@[ext]
structure CppNum (w : ℕ) where
  high : BitVec w
  low : BitVec w
  /-- True if value should be treated as unsigned. -/
  unsignedp : Bool
  /-- True if the most recent calculation overflowed. -/
  overflow : Bool
  deriving DecidableEq

/-- Source: `expr.c` (`#define num_zerop`). -/
def numZerop (num : CppNum w) : Bool := num.low ||| num.high == 0

/-- Source: `expr.c` (`#define num_eq`). -/
def numEq (num1 num2 : CppNum w) : Bool := num1.low == num2.low && num1.high == num2.high

/-- Clears the unused high order bits. Source: `expr.c` `num_trim`. -/
def numTrim (num : CppNum w) (precision : ℕ) : CppNum w :=
  if precision > w then
    let precision := precision - w
    if precision < w then { num with high := num.high &&& (1#w <<< precision - 1#w) } else num
  else
    let num := if precision < w then { num with low := num.low &&& (1#w <<< precision - 1#w) } else num
    { num with high := 0 }

/-- Is a number that is presumed signed at least zero? Source: `expr.c` `num_positive`. -/
def numPositive (num : CppNum w) (precision : ℕ) : Bool :=
  if precision > w then
    let precision := precision - w
    num.high &&& 1#w <<< (precision - 1) == 0
  else num.low &&& 1#w <<< (precision - 1) == 0

/-- Source: `expr.c` `num_negate`. -/
def numNegate (num : CppNum w) (precision : ℕ) : CppNum w :=
  let copy := num
  let num := { num with high := ~~~num.high, low := ~~~num.low }
  let num := { num with low := num.low + 1#w }
  let num := if num.low = 0 then { num with high := num.high + 1#w } else num
  let num := numTrim num precision
  { num with overflow := !num.unsignedp && numEq num copy && !numZerop num }

/-- Source: `expr.c` `num_greater_eq`. -/
def numGreaterEq (pa pb : CppNum w) (precision : ℕ) : Bool :=
  let unsignedp := pa.unsignedp || pb.unsignedp
  -- numbers of different signs: the answer is the sign of `pa`
  if !unsignedp && numPositive pa precision != numPositive pb precision then numPositive pa precision
  else decide (pa.high > pb.high ∨ pa.high = pb.high ∧ pa.low ≥ pb.low)

/-- Source: `expr.c` `num_rshift`. -/
def numRshift (num : CppNum w) (precision n : ℕ) : CppNum w :=
  let signMask : BitVec w := if num.unsignedp || numPositive num precision then 0 else BitVec.allOnes w
  let num :=
    if n ≥ precision then { num with high := signMask, low := signMask }
    else
      -- sign-extend
      let num :=
        if precision < w then { num with high := signMask, low := num.low ||| signMask <<< precision }
        else if precision < 2 * w then { num with high := num.high ||| signMask <<< (precision - w) }
        else num
      let m := if n ≥ w then n - w else n
      let num := if n ≥ w then { num with low := num.high, high := signMask } else num
      if m ≠ 0 then
        { num with low := num.low >>> m ||| num.high <<< (w - m), high := num.high >>> m ||| signMask <<< (w - m) }
      else num
  { numTrim num precision with overflow := false }

/-- Source: `expr.c` `num_lshift`. -/
def numLshift (num : CppNum w) (precision n : ℕ) : CppNum w :=
  if n ≥ precision then
    { num with overflow := !num.unsignedp && !numZerop num, high := 0, low := 0 }
  else
    let orig := num
    let m := if n ≥ w then n - w else n
    let num := if n ≥ w then { num with high := num.low, low := 0 } else num
    let num := if m ≠ 0 then { num with high := num.high <<< m ||| num.low >>> (w - m), low := num.low <<< m } else num
    let num := numTrim num precision
    if num.unsignedp then { num with overflow := false }
    else { num with overflow := !numEq orig (numRshift num precision n) }

/-- The operators that `num_binary_op` is called with. Source: `expr.c` `num_binary_op`. -/
inductive BinaryOp
  | lshift
  | rshift
  | minus
  | plus
  | comma
  deriving DecidableEq

/-- The sum; also the difference, after `rhs` has been negated. Source: `expr.c` `num_binary_op` (`case CPP_PLUS`). -/
def numAdd (precision : ℕ) (lhs rhs : CppNum w) : CppNum w :=
  let low := lhs.low + rhs.low
  let high := lhs.high + rhs.high
  let result : CppNum w :=
    { low := low
      high := if low < lhs.low then high + 1#w else high
      unsignedp := lhs.unsignedp || rhs.unsignedp
      overflow := false }
  let result := numTrim result precision
  if !result.unsignedp then
    let lhsp := numPositive lhs precision
    { result with
      overflow := lhsp == numPositive rhs precision && lhsp != numPositive result precision }
  else result

/-- The value; what is said about a comma in an `#if` is left out. A shift count is a `size_t`, as wide as a part.
Source: `expr.c` `num_binary_op` -/
def numBinaryOp (precision : ℕ) (lhs rhs : CppNum w) : BinaryOp → CppNum w
  | .minus => numAdd precision lhs (numNegate rhs precision)
  | .plus => numAdd precision lhs rhs
  | .comma => rhs
  | op =>
    -- a negative shift is a positive shift the other way
    let back := !rhs.unsignedp && !numPositive rhs precision
    let rhs := if back then numNegate rhs precision else rhs
    let n := if rhs.high ≠ 0 then 2 ^ w - 1 else rhs.low.toNat
    if (op = .lshift) ↔ back = false then numLshift lhs precision n else numRshift lhs precision n

/-! ## Values -/

/-- The two parts as one number. Source: `cpplib.h` (`double integer`). -/
def CppNum.toNat (num : CppNum w) : ℕ := pair num.high num.low

/-- The unused high bits are zero. Source: `cpplib.h` ("any unused high bits ... are set to zero"). -/
def Trimmed (precision : ℕ) (num : CppNum w) : Prop := num.toNat < 2 ^ precision

/-- The number, in two's complement unless it is unsigned. Source: `cpplib.h` (`unsignedp`). -/
def CppNum.toInt (precision : ℕ) (num : CppNum w) : ℤ :=
  if num.unsignedp = true ∨ 2 * num.toNat < 2 ^ precision then num.toNat else num.toNat - 2 ^ precision

end Model

/-! ## The helpers -/

section Helpers

variable {w p n : ℕ} {num num' a b : CppNum w}

/-- The halves of the range. -/
theorem two_pow_half (hp : 0 < p) : 2 ^ p = 2 * 2 ^ (p - 1) := by rw [← pow_succ', Nat.sub_add_cancel hp]

theorem CppNum.toNat_lt (num : CppNum w) : num.toNat < 2 ^ (2 * w) := pair_lt num.high num.low

theorem high_ne_zero_iff (num : CppNum w) : num.high ≠ 0 ↔ 2 ^ w ≤ num.toNat := by
  have hdiv : num.toNat / 2 ^ w = num.high.toNat := pair_div num.high num.low
  have hzero : num.high = 0 ↔ num.high.toNat = 0 := by
    rw [← BitVec.toNat_inj]
    simp
  rw [ne_eq, hzero, ← hdiv, Nat.div_eq_zero_iff]
  have hpos := Nat.two_pow_pos w
  omega

theorem numEq_iff : numEq num num' = true ↔ num.toNat = num'.toNat := by
  rw [CppNum.toNat, CppNum.toNat, pair_inj, numEq, Bool.and_eq_true, beq_iff_eq, beq_iff_eq, and_comm]

theorem numZerop_iff : numZerop num = true ↔ num.toNat = 0 := by
  rw [CppNum.toNat, pair_eq_zero_iff, numZerop, beq_iff_eq]
  exact BitVec.or_eq_zero_iff.trans and_comm

@[simp] theorem unsignedp_numTrim : (numTrim num p).unsignedp = num.unsignedp := by
  unfold numTrim
  dsimp only
  split_ifs <;> rfl

@[simp] theorem overflow_numTrim : (numTrim num p).overflow = num.overflow := by
  unfold numTrim
  dsimp only
  split_ifs <;> rfl

/-- **Trimming** takes the number modulo the precision. Source: `expr.c` `num_trim`. Kind: L -/
theorem toNat_numTrim (num : CppNum w) (p : ℕ) : (numTrim num p).toNat = num.toNat % 2 ^ p := by
  unfold numTrim CppNum.toNat
  dsimp only
  split_ifs with hp hpw hpw
  · rw [pair_mask_high hpw, Nat.add_sub_cancel' (by omega)]
  · have hle : 2 ^ (2 * w) ≤ 2 ^ p := Nat.pow_le_pow_right (by omega) (by omega)
    exact (Nat.mod_eq_of_lt ((pair_lt _ _).trans_le hle)).symm
  · exact pair_mask_low hpw num.high num.low
  · obtain rfl : p = w := by omega
    exact pair_zero num.high num.low

/-- **The sign** is the highest bit. Source: `expr.c` `num_positive`. Kind: L -/
theorem numPositive_iff (hp : 0 < p) (hpw : p ≤ 2 * w) (h : Trimmed p num) :
    numPositive num p = true ↔ 2 * num.toNat < 2 ^ p := by
  have hhalf := two_pow_half hp
  unfold Trimmed CppNum.toNat at h
  unfold numPositive CppNum.toNat
  rw [hhalf] at h ⊢
  rw [Nat.mul_lt_mul_left (by omega)]
  split_ifs with hgt
  · dsimp only
    have hpow : 2 ^ (p - 1) = 2 ^ (p - w - 1) * 2 ^ w := by
      rw [← pow_add]
      congr 1
      omega
    have hdiv := pair_div num.high num.low
    have hlt : num.high.toNat < 2 ^ (p - w - 1 + 1) := by
      rw [← hdiv, Nat.div_lt_iff_lt_mul (Nat.two_pow_pos w), pow_succ', Nat.mul_assoc, ← hpow]
      exact h
    rw [beq_iff_eq, and_bit_eq_zero_iff (by omega) hlt, hpow, ← Nat.div_lt_iff_lt_mul (Nat.two_pow_pos w), hdiv]
  · have hle : 2 ^ (p - 1 + 1) ≤ 2 ^ w := Nat.pow_le_pow_right (by omega) (by omega)
    rw [← pow_succ'] at h
    have hlow : pair num.high num.low = num.low.toNat := by
      rw [← pair_mod num.high num.low, Nat.mod_eq_of_lt (h.trans_le hle)]
    rw [hlow] at h ⊢
    rw [beq_iff_eq, and_bit_eq_zero_iff (by omega) h]

theorem numPositive_eq (hp : 0 < p) (hpw : p ≤ 2 * w) (h : Trimmed p num) :
    numPositive num p = decide (2 * num.toNat < 2 ^ p) := by
  rw [Bool.eq_iff_iff, decide_eq_true_iff, numPositive_iff hp hpw h]

theorem unsignedp_numNegate : (numNegate num p).unsignedp = num.unsignedp := by
  unfold numNegate
  dsimp only
  rw [unsignedp_numTrim]
  split_ifs <;> rfl

/-- **The negative**, modulo the precision. Source: `expr.c` `num_negate`. Kind: L -/
theorem toNat_numNegate (hpw : p ≤ 2 * w) (h : Trimmed p num) : (numNegate num p).toNat = (2 ^ p - num.toNat) % 2 ^ p := by
  have hneg := pair_neg num.high num.low
  have hdvd : 2 ^ p ∣ 2 ^ (2 * w) := Nat.pow_dvd_pow 2 hpw
  have hle : 2 ^ p ≤ 2 ^ (2 * w) := Nat.le_of_dvd (Nat.two_pow_pos _) hdvd
  have htrim : (numNegate num p).toNat = (2 ^ (2 * w) - num.toNat) % 2 ^ (2 * w) % 2 ^ p := by
    unfold numNegate
    refine (toNat_numTrim _ p).trans ?_
    rw [CppNum.toNat, CppNum.toNat, ← hneg]
    dsimp only
    split_ifs <;> rfl
  unfold Trimmed at h
  obtain ⟨q, hq⟩ := hdvd
  rw [htrim, Nat.mod_mod_of_dvd _ (Nat.pow_dvd_pow 2 hpw)]
  have hsplit : 2 ^ (2 * w) - num.toNat = 2 ^ p - num.toNat + 2 ^ p * (q - 1) := by
    have hqpos : 0 < q := Nat.pos_of_ne_zero fun h0 => by simp [h0] at hq
    rw [Nat.mul_sub, ← hq, Nat.mul_one]
    omega
  rw [hsplit, Nat.add_mul_mod_self_left]

theorem trimmed_numNegate (hpw : p ≤ 2 * w) (h : Trimmed p num) : Trimmed p (numNegate num p) := by
  rw [Trimmed, toNat_numNegate hpw h]
  exact Nat.mod_lt _ (Nat.two_pow_pos p)

/-- Unsigned numbers are compared as numbers. Source: `expr.c` `num_greater_eq`. Kind: L -/
theorem numGreaterEq_unsigned (ha : a.unsignedp = true) : numGreaterEq a b p = true ↔ b.toNat ≤ a.toNat := by
  have hle : b.toNat ≤ a.toNat ↔ b.high < a.high ∨ a.high = b.high ∧ b.low ≤ a.low := pair_le_iff
  rw [hle]
  unfold numGreaterEq
  simp [ha]

/-- **Shifting to the left** by less than the precision: the shifted number, which is shifted back to see an overflow.
Source: `expr.c` `num_lshift`
Kind: L -/
theorem numLshift_eq (num : CppNum w) (hpw : p ≤ 2 * w) (hn : n < p) : ∃ r : CppNum w, r.toNat = num.toNat * 2 ^ n % 2 ^ p ∧
    r.unsignedp = num.unsignedp ∧
    numLshift num p n = { r with overflow := !num.unsignedp && !numEq num (numRshift r p n) } := by
  have hdvd : 2 ^ p ∣ 2 ^ (2 * w) := Nat.pow_dvd_pow 2 hpw
  -- a shift by less than a part
  have hrest : ∀ num' : CppNum w, ∀ m ≤ w, ∀ num'' : CppNum w,
      num'' = numTrim (if m ≠ 0 then { num' with high := num'.high <<< m ||| num'.low >>> (w - m), low := num'.low <<< m }
        else num') p → num''.toNat = num'.toNat * 2 ^ m % 2 ^ p ∧ num''.unsignedp = num'.unsignedp := by
    intro num' m hm num'' hnum''
    rw [hnum'', toNat_numTrim, unsignedp_numTrim]
    split_ifs with hne
    · rw [CppNum.toNat, pair_shiftLeft hm, Nat.mod_mod_of_dvd _ hdvd]
      exact ⟨rfl, rfl⟩
    · obtain rfl : m = 0 := not_not.mp hne
      rw [pow_zero, Nat.mul_one]
      exact ⟨rfl, rfl⟩
  have hfinal : ∀ r : CppNum w, r.unsignedp = num.unsignedp →
      (if r.unsignedp = true then { r with overflow := false } else { r with overflow := !numEq num (numRshift r p n) }) =
        { r with overflow := !num.unsignedp && !numEq num (numRshift r p n) } := by
    intro r hr
    rw [← hr]
    cases r.unsignedp <;> rfl
  unfold numLshift
  rw [if_neg (by omega)]
  dsimp only
  by_cases hnw : n ≥ w
  · have hword : (CppNum.mk num.low 0 num.unsignedp num.overflow).toNat = num.toNat * 2 ^ w % 2 ^ (2 * w) :=
      pair_shiftWord num.high num.low
    simp only [if_pos hnw]
    obtain ⟨hvalue, hflag⟩ := hrest ⟨num.low, 0, num.unsignedp, num.overflow⟩ (n - w) (by omega) _ rfl
    refine ⟨_, ?_, hflag, hfinal _ hflag⟩
    have hpow : 2 ^ n = 2 ^ w * 2 ^ (n - w) := by rw [← pow_add, Nat.add_sub_cancel' hnw]
    refine hvalue.trans ?_
    rw [hword, Nat.mul_mod, Nat.mod_mod_of_dvd _ hdvd, ← Nat.mul_mod, hpow, Nat.mul_assoc]
  · simp only [if_neg hnw]
    obtain ⟨hvalue, hflag⟩ := hrest num n (by omega) _ rfl
    exact ⟨_, hvalue, hflag, hfinal _ hflag⟩

/-- The value of a shifted number. Source: `expr.c` `num_lshift`. Kind: L -/
theorem toNat_numLshift (hpw : p ≤ 2 * w) (hn : n < p) : (numLshift num p n).toNat = num.toNat * 2 ^ n % 2 ^ p := by
  obtain ⟨r, hvalue, -, heq⟩ := numLshift_eq num hpw hn
  rw [heq]
  exact hvalue

/-- **Values** are congruent to the numbers. -/
theorem CppNum.toInt_emod (num : CppNum w) (p : ℕ) : num.toInt p % 2 ^ p = (num.toNat : ℤ) % 2 ^ p := by
  unfold CppNum.toInt
  split_ifs
  · rfl
  · rw [Int.sub_emod_right]

/-- The value of a number that is not unsigned. -/
theorem CppNum.toInt_signed (hs : num.unsignedp = false) :
    num.toInt p = if 2 * num.toNat < 2 ^ p then (num.toNat : ℤ) else num.toNat - 2 ^ p := by
  unfold CppNum.toInt
  simp [hs]

theorem CppNum.toInt_unsigned (hs : num.unsignedp = true) : num.toInt p = num.toNat := by
  unfold CppNum.toInt
  simp [hs]

/-- **The magnitude** that is multiplied or divided. Source: `expr.c` `num_mul`, `num_div_op` (`Prepare for unsigned ...`). Kind: L -/
theorem toNat_prepared (hp : 0 < p) (hpw : p ≤ 2 * w) {num : CppNum w} (h : Trimmed p num) (hs : num.unsignedp = false) :
    (if !numPositive num p then numNegate num p else num).toNat = (num.toInt p).natAbs ∧
      ((!numPositive num p) = true ↔ num.toInt p < 0) := by
  have hN : (2 : ℤ) ^ p = ((2 ^ p : ℕ) : ℤ) := by push_cast; rfl
  have hneg := toNat_numNegate hpw h
  rw [numPositive_eq hp hpw h, CppNum.toInt_signed hs, hN]
  unfold Trimmed at h
  by_cases hpos : 2 * num.toNat < 2 ^ p
  · simp [hpos]
  · have hlt : 2 ^ p - num.toNat < 2 ^ p := by omega
    rw [Nat.mod_eq_of_lt hlt] at hneg
    simp only [hpos, decide_false, Bool.not_false, if_true, if_false, hneg, true_iff]
    omega

/-- An integer is its magnitude with its sign. -/
theorem eq_signed_natAbs {z : ℤ} {neg : Bool} (hz : neg = true ↔ z < 0) : z = if neg = true then -(z.natAbs : ℤ) else z.natAbs := by
  split_ifs with h
  · rw [hz] at h
    omega
  · rw [hz] at h
    omega

/-- The range of signed numbers. -/
theorem CppNum.toInt_bounds (hp : 0 < p) (h : Trimmed p num) (hs : num.unsignedp = false) :
    -2 ^ (p - 1) ≤ num.toInt p ∧ num.toInt p < 2 ^ (p - 1) := by
  have hhalf := two_pow_half hp
  have hM : (2 : ℤ) ^ (p - 1) = ((2 ^ (p - 1) : ℕ) : ℤ) := by push_cast; rfl
  have hN : (2 : ℤ) ^ p = ((2 ^ p : ℕ) : ℤ) := by push_cast; rfl
  unfold Trimmed at h
  rw [CppNum.toInt_signed hs, hM, hN]
  split_ifs <;> omega

end Helpers

end GccCore.Cpp.Expr
