import GccCore.Cpp.Expr.Basic
import GccCore.Lib.MachineInt

/-!
# `libcpp/expr.c`: shifts in `#if`

* **To the right** (`toNat_numRshift`): the floor of the value, for every count.
* **To the left** (`toNat_numLshift_all`, `overflow_numLshift_iff`): the product with a power of two, and an overflow of a signed
  number is seen by shifting back.
* **Counts** (`numBinaryOp_eq_shift`): a negative one shifts the other way, and one that does not fit a part is as good as any other
  that is too large.
-/

namespace GccCore.Cpp.Expr

open GccCore.Lib.WordPair GccCore.Lib.MachineInt

variable {w p n m : ℕ} {num lhs rhs : CppNum w}

/-! ## To the right -/

section Right

/-- **Sign extension** of a number to the two parts. Source: `expr.c` `num_rshift` (`/* Sign-extend.  */`). Kind: L -/
theorem pair_signExtended (hpw : p ≤ 2 * w) (h : Trimmed p num) (neg : Bool) :
    pair (if p < w then signWord w neg else if p < 2 * w then num.high ||| signWord w neg <<< (p - w) else num.high)
      (if p < w then num.low ||| signWord w neg <<< p else num.low) = num.toNat + if neg = true then 2 ^ (2 * w) - 2 ^ p else 0 := by
  have hN : pair num.high num.low < 2 ^ p := h
  by_cases hlow : p < w
  · have hzero : pair num.high num.low = num.low.toNat := by
      rw [← pair_mod num.high num.low, Nat.mod_eq_of_lt (hN.trans (Nat.pow_lt_pow_right one_lt_two hlow))]
    rw [if_pos hlow, if_pos hlow, pair_extendLow hlow.le (hzero ▸ hN), CppNum.toNat, hzero]
  · rw [if_neg hlow, if_neg hlow]
    by_cases hhigh : p < 2 * w
    · have hhi : num.high.toNat < 2 ^ (p - w) := by
        rw [← pair_div num.high num.low, Nat.div_lt_iff_lt_mul (Nat.two_pow_pos w), ← pow_add, Nat.sub_add_cancel (by omega)]
        exact hN
      rw [if_pos hhigh, pair_extendHigh (by omega) hpw hhi, CppNum.toNat]
    · obtain rfl : p = 2 * w := by omega
      rw [if_neg hhigh, Nat.sub_self, ite_self, Nat.add_zero, CppNum.toNat]

/-- The sign that comes in at the top. Source: `expr.c` `num_rshift` (`sign_mask`). -/
def signBit (num : CppNum w) (p : ℕ) : Bool := !(num.unsignedp || numPositive num p)

/-- The value, by the sign bit. -/
theorem toInt_eq_signBit (hp : 0 < p) (hpw : p ≤ 2 * w) (h : Trimmed p num) :
    num.toInt p = num.toNat - if signBit num p = true then 2 ^ p else 0 := by
  rw [signBit, numPositive_eq hp hpw h, CppNum.toInt]
  cases num.unsignedp <;> by_cases hpos : 2 * num.toNat < 2 ^ p <;> simp [hpos]

theorem extends_toInt (hp : 0 < p) (hpw : p ≤ 2 * w) (h : Trimmed p num) :
    Extends (signBit num p) (num.toInt p)
      (if p < w then signWord w (signBit num p)
        else if p < 2 * w then num.high ||| signWord w (signBit num p) <<< (p - w) else num.high)
      (if p < w then num.low ||| signWord w (signBit num p) <<< p else num.low) := by
  have hle : 2 ^ p ≤ 2 ^ (2 * w) := Nat.pow_le_pow_right (by omega) hpw
  rw [Extends, pair_signExtended hpw h, toInt_eq_signBit hp hpw h]
  split_ifs
  · push_cast [Nat.cast_sub hle]
    ring
  · simp

/-- Trimming the two words of an integer takes it modulo the precision. -/
theorem toNat_numTrim_of_extends (num : CppNum w) (hpw : p ≤ 2 * w) {neg : Bool} {z : ℤ} (h : Extends neg z num.high num.low) :
    ((numTrim num p).toNat : ℤ) = z % 2 ^ p := by
  have hdvd : (2 : ℤ) ^ p ∣ 2 ^ (2 * w) := pow_dvd_pow 2 hpw
  rw [toNat_numTrim]
  push_cast
  rw [CppNum.toNat, h]
  split_ifs
  · exact Int.ModEq.of_dvd hdvd Int.add_modEq_right
  · rfl

/-- All that is left after a shift by the precision or more is the sign. Source: `expr.c` `num_rshift` (`n >= precision`). Kind: L -/
theorem extends_signWord (hp : 0 < p) (hpw : p ≤ 2 * w) (h : Trimmed p num) (hn : p ≤ n) :
    Extends (signBit num p) (num.toInt p / 2 ^ n) (signWord w (signBit num p)) (signWord w (signBit num p)) := by
  have hle : (2 : ℤ) ^ p ≤ 2 ^ n := pow_le_pow_right₀ (by decide) hn
  have hlt : (num.toNat : ℤ) < 2 ^ p := by exact_mod_cast h
  have hone : 1 ≤ 2 ^ w := Nat.one_le_two_pow
  rw [Extends, toInt_eq_signBit hp hpw h, pair, toNat_signWord]
  split_ifs with hneg
  · have hdiv : ((num.toNat : ℤ) - 2 ^ p) / 2 ^ n = -1 := by
      rw [Int.ediv_eq_iff_of_pos (by positivity)]
      constructor <;> omega
    rw [hdiv]
    push_cast [Nat.cast_sub hone]
    ring
  · rw [sub_zero, Int.ediv_eq_zero_of_lt (by omega) (by omega)]
    simp

/-- **Shifting to the right** gives the floor of the value, modulo the precision. Source: `expr.c` `num_rshift`. Kind: L -/
theorem toNat_numRshift (hp : 0 < p) (hpw : p ≤ 2 * w) (h : Trimmed p num) (n : ℕ) :
    ((numRshift num p n).toNat : ℤ) = num.toInt p / 2 ^ n % 2 ^ p := by
  have hmask : (if (num.unsignedp || numPositive num p) = true then (0 : BitVec w) else BitVec.allOnes w) =
      signWord w (signBit num p) := by
    rw [signWord, signBit]
    cases num.unsignedp || numPositive num p <;> rfl
  unfold numRshift
  rw [hmask]
  dsimp only
  by_cases hn : n ≥ p
  · rw [if_pos hn]
    exact toNat_numTrim_of_extends { num with high := _, low := _ } hpw (extends_signWord hp hpw h hn)
  rw [if_neg hn]
  -- the words that a shift by less than a part is applied to
  have hrest : ∀ (num' : CppNum w) (z : ℤ), Extends (signBit num p) z num'.high num'.low → ∀ m ≤ w,
      ((numTrim (if m ≠ 0 then { num' with
        low := num'.low >>> m ||| num'.high <<< (w - m),
        high := num'.high >>> m ||| signWord w (signBit num p) <<< (w - m) } else num') p).toNat : ℤ) = z / 2 ^ m % 2 ^ p := by
    intro num' z hz m hm
    refine toNat_numTrim_of_extends _ hpw (show Extends (signBit num p) _ _ _ from ?_)
    split_ifs with hne
    · exact hz.bits hm
    · rw [not_not.mp hne, pow_zero, Int.ediv_one]
      exact hz
  have hext := extends_toInt hp hpw h
  have hstart : ∀ num' : CppNum w,
      num' = (if p < w then { num with high := signWord w (signBit num p), low := num.low ||| signWord w (signBit num p) <<< p }
        else if p < 2 * w then { num with high := num.high ||| signWord w (signBit num p) <<< (p - w) } else num) →
      Extends (signBit num p) (num.toInt p) num'.high num'.low := by
    intro num' hnum'
    rw [hnum']
    split_ifs at hext ⊢ <;> exact hext
  by_cases hnw : n ≥ w
  · simp only [if_pos hnw]
    refine (hrest ⟨signWord w (signBit num p), _, _, _⟩ _ (hstart _ rfl).word (n - w) (by omega)).trans ?_
    rw [Int.ediv_ediv_of_nonneg (by positivity), ← pow_add, Nat.add_sub_cancel' hnw]
  · simp only [if_neg hnw]
    exact hrest _ _ (hstart _ rfl) n (by omega)

end Right

/-! ## To the left -/

section Left

/-- **Shifting to the left**, for every count. Source: `expr.c` `num_lshift`. Kind: L -/
theorem toNat_numLshift_all (hpw : p ≤ 2 * w) (n : ℕ) : ((numLshift num p n).toNat : ℤ) = num.toInt p * 2 ^ n % 2 ^ p := by
  rw [Int.mul_emod, CppNum.toInt_emod, ← Int.mul_emod]
  by_cases hn : n < p
  · rw [toNat_numLshift hpw hn]
    push_cast
    rfl
  · have hzero : (numLshift num p n).toNat = 0 := by
      rw [numLshift, if_pos (not_lt.mp hn)]
      exact pair_eq_zero_iff.mpr ⟨rfl, rfl⟩
    obtain ⟨d, rfl⟩ := Nat.exists_eq_add_of_le (not_lt.mp hn)
    rw [hzero, pow_add, mul_left_comm, Int.mul_emod_right, Nat.cast_zero]

/-- A product that wraps is not what shifting back gives. -/
theorem ediv_eq_iff_of_modEq {x r : ℤ} (hnp : n < p) (hmod : r ≡ x * 2 ^ n [ZMOD 2 ^ p]) (hr : inType p false r) :
    r / 2 ^ n = x ↔ inType p false (x * 2 ^ n) := by
  have hlt : (2 : ℤ) ^ n < 2 ^ p := pow_lt_pow_right₀ (by decide) hnp
  have hpos : (0 : ℤ) < 2 ^ n := by positivity
  constructor
  · rintro rfl
    -- the difference is a remainder by the smaller power, so it is zero
    have hdiv := Int.emod_add_mul_ediv r (2 ^ n)
    have hrem := Int.emod_nonneg r hpos.ne'
    have hrem' := Int.emod_lt_of_pos r hpos
    have hdvd : (2 : ℤ) ^ p ∣ r % 2 ^ n := by
      have hsub := hmod.symm.dvd
      rwa [show r - r / 2 ^ n * 2 ^ n = r % 2 ^ n by linarith] at hsub
    have hzero : r % 2 ^ n = 0 := Int.eq_zero_of_dvd_of_nonneg_of_lt hrem (by omega) hdvd
    rw [hzero, zero_add, mul_comm] at hdiv
    rwa [hdiv]
  · intro hin
    rw [eq_of_inType hr hin hmod (by omega), Int.mul_ediv_cancel _ hpos.ne']

/-- The floor of a quotient by a power of two is in the type. -/
theorem inType_ediv {z : ℤ} (hz : inType p false z) (n : ℕ) : inType p false (z / 2 ^ n) := by
  have hone : (1 : ℤ) ≤ 2 ^ n := one_le_pow₀ (by decide)
  have hmul : (2 : ℤ) ^ (p - 1) * 1 ≤ 2 ^ (p - 1) * 2 ^ n := mul_le_mul_of_nonneg_left hone (by positivity)
  obtain ⟨hlow, hhigh⟩ := hz
  constructor
  · rw [Int.le_ediv_iff_mul_le (by omega), neg_mul]
    omega
  · rw [Int.ediv_lt_iff_lt_mul (by omega)]
    omega

/-- What a signed number is shifted to is in range if it is, or if it is zero for a count from the precision on. -/
theorem not_inType_of_le {x : ℤ} (hp : 0 < p) (hn : p ≤ n) : ¬ inType p false (x * 2 ^ n) ↔ x ≠ 0 := by
  rw [not_iff_comm, not_not]
  constructor
  · rintro rfl
    rw [zero_mul]
    exact ⟨neg_nonpos.mpr (by positivity), by positivity⟩
  · rintro ⟨hlow, hhigh⟩
    by_contra hne
    have hpow : (2 : ℤ) ^ p = 2 * 2 ^ (p - 1) := two_pow_pred hp
    have hle : (2 : ℤ) ^ p ≤ 2 ^ n := pow_le_pow_right₀ (by decide) hn
    have hhalf : (0 : ℤ) < 2 ^ (p - 1) := by positivity
    obtain hneg | hpos := lt_or_gt_of_ne hne
    · have hmul : x * 2 ^ n ≤ -1 * 2 ^ n := mul_le_mul_of_nonneg_right (by omega) (by positivity)
      omega
    · have hmul : 1 * 2 ^ n ≤ x * 2 ^ n := mul_le_mul_of_nonneg_right (by omega) (by positivity)
      omega

/-- **A signed shift to the left overflows** exactly when the product is out of range. Source: `expr.c` `num_lshift`. Kind: L -/
theorem overflow_numLshift_iff (hp : 0 < p) (hpw : p ≤ 2 * w) (h : Trimmed p num) (hs : num.unsignedp = false) (n : ℕ) :
    (numLshift num p n).overflow = true ↔ ¬ inType p false (num.toInt p * 2 ^ n) := by
  have hnum : inType p false (num.toInt p) := CppNum.toInt_bounds hp h hs
  have hself : (num.toNat : ℤ) = num.toInt p % 2 ^ p := by
    rw [CppNum.toInt_emod]
    exact (Int.emod_eq_of_lt (by omega) (by exact_mod_cast h)).symm
  by_cases hn : n < p
  · obtain ⟨r, hvalue, hsign, heq⟩ := numLshift_eq num hpw hn
    have hr : Trimmed p r := by
      rw [Trimmed, hvalue]
      exact Nat.mod_lt _ (Nat.two_pow_pos p)
    have hrange : inType p false (r.toInt p) := CppNum.toInt_bounds hp hr (hsign.trans hs)
    have hmod : r.toInt p % 2 ^ p = num.toInt p * 2 ^ n % 2 ^ p := by
      rw [CppNum.toInt_emod, hvalue, Int.mul_emod (num.toInt p), CppNum.toInt_emod, ← Int.mul_emod]
      push_cast
      exact Int.emod_emod_of_dvd _ dvd_rfl
    -- the number that is shifted back is compared modulo the precision
    have hback : numEq num (numRshift r p n) = true ↔ r.toInt p / 2 ^ n = num.toInt p := by
      rw [numEq_iff, ← Int.natCast_inj, toNat_numRshift hp hpw hr, hself]
      refine ⟨fun hcongr => ?_, fun heq => by rw [heq]⟩
      exact (eq_of_inType hnum (inType_ediv hrange n) hcongr hp).symm
    rw [heq, hs, Bool.not_false, Bool.true_and, Bool.not_eq_true', ← Bool.not_eq_true, hback, ediv_eq_iff_of_modEq hn hmod hrange]
  · have hflag : (numLshift num p n).overflow = (!num.unsignedp && !numZerop num) := by rw [numLshift, if_pos (not_lt.mp hn)]
    rw [hflag, hs, Bool.not_false, Bool.true_and, Bool.not_eq_true', ← Bool.not_eq_true, numZerop_iff, not_inType_of_le hp (not_lt.mp hn),
      not_iff_not]
    constructor
    · intro hzero
      rw [CppNum.toInt, hzero]
      simp
    · intro hzero
      rw [hzero, Int.zero_emod] at hself
      exact_mod_cast hself

end Left

/-! ## Counts -/

section Counts

/-- The direction, the other way for a negative count. Source: `expr.c` `num_binary_op` (`case CPP_LSHIFT`). -/
def ShiftsLeft (op : BinaryOp) (count : ℤ) : Prop := op = .lshift ↔ 0 ≤ count

theorem shift_of_ge (hn : p ≤ n) (hm : p ≤ m) : numLshift num p n = numLshift num p m ∧ numRshift num p n = numRshift num p m := by
  constructor
  · rw [numLshift, numLshift, if_pos hn, if_pos hm]
  · simp only [numRshift, if_pos hn, if_pos hm]

/-- The count, without its sign. Source: `expr.c` `num_binary_op` ("A negative shift is a positive shift the other way."). Kind: L -/
theorem toNat_count (hp : 0 < p) (hpw : p ≤ 2 * w) (hr : Trimmed p rhs) :
    (if (!rhs.unsignedp && !numPositive rhs p) = true then numNegate rhs p else rhs).toNat = (rhs.toInt p).natAbs ∧
      ((!rhs.unsignedp && !numPositive rhs p) = true ↔ rhs.toInt p < 0) := by
  cases hu : rhs.unsignedp
  · rw [Bool.not_false, Bool.true_and]
    exact toNat_prepared hp hpw hr hu
  · rw [CppNum.toInt_unsigned hu, Bool.not_true, Bool.false_and]
    refine ⟨?_, ?_⟩
    · simp
    · simp

theorem two_mul_lt_two_pow (hw : 8 ≤ w) : 2 * w < 2 ^ w := by
  induction w, hw using Nat.le_induction with
  | base => decide
  | succ k hk ih =>
    rw [pow_succ]
    omega

/-- **The count** that is used is the magnitude of the value, or both are at least the precision.
Source: `expr.c` `num_binary_op` (`/* Maximal.  */`)
Kind: L -/
theorem count_cases (hw : 8 ≤ w) (hpw : p ≤ 2 * w) (num : CppNum w) :
    (if num.high ≠ 0 then 2 ^ w - 1 else num.low.toNat) = num.toNat ∨
      p ≤ (if num.high ≠ 0 then 2 ^ w - 1 else num.low.toNat) ∧ p ≤ num.toNat := by
  have hbig := two_mul_lt_two_pow hw
  by_cases hhigh : num.high ≠ 0
  · rw [if_pos hhigh]
    have hge := (high_ne_zero_iff num).mp hhigh
    exact Or.inr ⟨by omega, by omega⟩
  · rw [if_neg hhigh, CppNum.toNat, pair, not_not.mp hhigh]
    exact Or.inl (by simp)

/-- **The shift** is one by the magnitude of the count. Source: `expr.c` `num_binary_op` (`case CPP_LSHIFT`, `case CPP_RSHIFT`). Kind: L -/
theorem numBinaryOp_eq_shift (lhs : CppNum w) (hw : 8 ≤ w) (hp : 0 < p) (hpw : p ≤ 2 * w) (hr : Trimmed p rhs) {op : BinaryOp}
    (hop : op = .lshift ∨ op = .rshift) : (ShiftsLeft op (rhs.toInt p) ∧
      numBinaryOp p lhs rhs op = numLshift lhs p (rhs.toInt p).natAbs) ∨
      (¬ ShiftsLeft op (rhs.toInt p) ∧ numBinaryOp p lhs rhs op = numRshift lhs p (rhs.toInt p).natAbs) := by
  obtain ⟨hcount, hback⟩ := toNat_count hp hpw hr
  have hdir : (op = .lshift ↔ (!rhs.unsignedp && !numPositive rhs p) = false) ↔ ShiftsLeft op (rhs.toInt p) := by
    rw [ShiftsLeft, ← Bool.not_eq_true, hback, not_lt]
  have hcases := count_cases hw hpw (if (!rhs.unsignedp && !numPositive rhs p) = true then numNegate rhs p else rhs)
  rw [hcount] at hcases
  have hunfold : ∀ n, n = (if (if (!rhs.unsignedp && !numPositive rhs p) = true then numNegate rhs p else rhs).high ≠ 0 then 2 ^ w - 1
      else (if (!rhs.unsignedp && !numPositive rhs p) = true then numNegate rhs p else rhs).low.toNat) →
      numBinaryOp p lhs rhs op = if op = .lshift ↔ (!rhs.unsignedp && !numPositive rhs p) = false then numLshift lhs p n
        else numRshift lhs p n := by
    rintro n rfl
    obtain rfl | rfl := hop <;> rfl
  rw [hunfold _ rfl]
  -- a count that is too large is as good as any other
  have hsame : ∀ n, n = (rhs.toInt p).natAbs ∨ p ≤ n ∧ p ≤ (rhs.toInt p).natAbs →
      numLshift lhs p n = numLshift lhs p (rhs.toInt p).natAbs ∧ numRshift lhs p n = numRshift lhs p (rhs.toInt p).natAbs := by
    rintro n (rfl | ⟨hn, hm⟩)
    · exact ⟨rfl, rfl⟩
    · exact shift_of_ge hn hm
  by_cases hleft : ShiftsLeft op (rhs.toInt p)
  · rw [if_pos (hdir.mpr hleft)]
    exact Or.inl ⟨hleft, (hsame _ hcases).1⟩
  · rw [if_neg (hdir.not.mpr hleft)]
    exact Or.inr ⟨hleft, (hsame _ hcases).2⟩

end Counts

end GccCore.Cpp.Expr
