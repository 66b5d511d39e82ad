import GccCore.Cpp.Expr.Addition

/-!
# `libcpp/expr.c`: division in `#if`

The magnitudes are divided by shifting and subtracting, from the highest bit of the divisor on.

* **The loop** (`divLoop_spec`) divides by the number that the shifted divisor is a multiple of.
* **The search** (`findHighBit_spec`, `findHighBit_none`): for a precision between one and two parts it looks only at the low
  `precision - PART_PRECISION` bits of a divisor that is one part, and does not end if they are zero.
* **Exactness** (`numDivOp_exact_iff`): the code divides by these low bits (`usedDivisor`).
-/

namespace GccCore.Cpp.Expr

open GccCore GccCore.Lib.WordPair

/-! ## The code -/

section Model

variable {w : ℕ}

/-- The loops that look for the high bit; `none` if `fuel` steps find none. The index wraps around behind bit 0, when the mask is
zero already.
Source: `expr.c` `num_div_op` (`for (; ; i--, mask >>= 1)`) -/
def findHighBit (part : BitVec w) : BitVec w → ℕ → ℕ → Option ℕ
  | _, _, 0 => none
  | mask, i, fuel + 1 => if part &&& mask ≠ 0 then some i else findHighBit part (mask >>> 1) (i - 1) fuel

/-- Where the search starts. Source: `expr.c` `num_div_op` (`Find the high bit`). -/
def highBit (precision : ℕ) (rhs : CppNum w) (fuel : ℕ) : Option ℕ :=
  if rhs.high ≠ 0 then
    let i := precision - 1
    findHighBit rhs.high (1#w <<< (i - w)) i fuel
  else
    let i := if precision > w then precision - w - 1 else precision - 1
    findHighBit rhs.low (1#w <<< i) i fuel

/-- Bit `i` of a result is set. Source: `expr.c` `num_div_op` (`result.high |= ...`, `result.low |= ...`). -/
def setResultBit (result : CppNum w) (i : ℕ) : CppNum w :=
  if i ≥ w then { result with high := result.high ||| 1#w <<< (i - w) }
  else { result with low := result.low ||| 1#w <<< i }

/-- The loop that shifts and subtracts: the quotient and the rest. Source: `expr.c` `num_div_op` (`for (;;)`). -/
def divLoop (precision : ℕ) : ℕ → CppNum w → CppNum w → CppNum w → CppNum w × CppNum w
  | i, lhs, sub, result =>
    let ge := numGreaterEq lhs sub precision
    let lhs := if ge then numBinaryOp precision lhs sub .minus else lhs
    let result := if ge then setResultBit result i else result
    match i with
    | 0 => (result, lhs)
    | i + 1 => divLoop precision i lhs { sub with low := sub.low >>> 1 ||| sub.high <<< (w - 1), high := sub.high >>> 1 } result

/-- The operators that `num_div_op` is called with. Source: `expr.c` `num_div_op`. -/
inductive DivOp
  | div
  | mod
  deriving DecidableEq

/-- What is returned of the quotient `result` and the rest `lhs`. The remainder has the sign of the dividend.
Source: `expr.c` `num_div_op` (`if (op == CPP_DIV)`) -/
def divResult (precision : ℕ) (unsignedp negate lhsNeg : Bool) (result lhs : CppNum w) : DivOp → CppNum w
  | .div =>
    let result := { result with unsignedp := unsignedp, overflow := false }
    if !unsignedp then
      let result := if negate then numNegate result precision else result
      { result with overflow := (numPositive result precision ^^ !negate) && !numZerop result }
    else result
  | .mod =>
    let lhs := { lhs with unsignedp := unsignedp, overflow := false }
    if lhsNeg then numNegate lhs precision else lhs

/-- The value; the error for a division by zero is left out. `none` means that the search does not end.
Source: `expr.c` `num_div_op` -/
def numDivOp (fuel precision : ℕ) (lhs rhs : CppNum w) (op : DivOp) : Option (CppNum w) :=
  let unsignedp := lhs.unsignedp || rhs.unsignedp
  let lhsNeg := !unsignedp && !numPositive lhs precision
  let rhsNeg := !unsignedp && !numPositive rhs precision
  let negate := lhsNeg ^^ rhsNeg
  let lhs := if lhsNeg then numNegate lhs precision else lhs
  let rhs := if rhsNeg then numNegate rhs precision else rhs
  if rhs.high = 0 ∧ rhs.low = 0 then some lhs
  else
    (highBit precision rhs fuel).map fun i =>
      let rhs := { rhs with unsignedp := true }
      let lhs := { lhs with unsignedp := true }
      let i := precision - i - 1
      let sub := numLshift rhs precision i
      let (result, lhs) := divLoop precision i lhs sub ⟨0, 0, false, false⟩
      divResult precision unsignedp negate lhsNeg result lhs op

/-- The number that is divided by, for a divisor `y`. Source: `expr.c` `num_div_op` (`i = precision - PART_PRECISION - 1`). -/
def usedDivisor (w precision y : ℕ) : ℕ := if w < precision ∧ y < 2 ^ w then y % 2 ^ (precision - w) else y

/-- An operand after the usual conversions. Source: `expr.c` `num_div_op` (`unsignedp`). -/
def CppNum.converted (precision : ℕ) (unsignedp : Bool) (num : CppNum w) : ℤ :=
  if unsignedp then num.toNat else num.toInt precision

/-- **What is right**: the quotient truncated toward zero, and overflow when the least number is divided by `-1`; the remainder with
the sign of the dividend.
Source: `expr.c` `num_div_op` -/
def DivAnswer (precision : ℕ) (unsignedp : Bool) (l r : ℤ) (res : CppNum w) : DivOp → Prop
  | .div => (res.toNat : ℤ) = l.tdiv r % 2 ^ precision ∧
      (res.overflow = true ↔ unsignedp = false ∧ l = -2 ^ (precision - 1) ∧ r = -1)
  | .mod => (res.toNat : ℤ) = l.tmod r % 2 ^ precision

/-- **The code gets there**: it ends, with what is right. Source: `expr.c` `num_div_op`. -/
def DividesExactly (precision : ℕ) (lhs rhs : CppNum w) (op : DivOp) : Prop :=
  let unsignedp := lhs.unsignedp || rhs.unsignedp
  ∃ n, ∀ fuel ≥ n, ∃ res, numDivOp fuel precision lhs rhs op = some res ∧
    DivAnswer precision unsignedp (lhs.converted precision unsignedp) (rhs.converted precision unsignedp) res op

/-- The number used is as good as the divisor: it is not zero, and gives the same quotient (the same remainder).
Source: `expr.c` `num_div_op` (`i = precision - PART_PRECISION - 1`) -/
def DivisorKept (precision : ℕ) (lhs rhs : CppNum w) (op : DivOp) : Prop :=
  let unsignedp := lhs.unsignedp || rhs.unsignedp
  let x := (lhs.converted precision unsignedp).natAbs
  let y := (rhs.converted precision unsignedp).natAbs
  usedDivisor w precision y ≠ 0 ∧
    match op with
    | .div => x / usedDivisor w precision y = x / y
    | .mod => x % usedDivisor w precision y = x % y

end Model

/-! ## The search -/

section Search

variable {w p : ℕ} {part mask : BitVec w} {rhs : CppNum w}

/-- A mask of zeros finds nothing. Source: `expr.c` `num_div_op`. Kind: L -/
theorem findHighBit_zero (part : BitVec w) (k fuel : ℕ) : findHighBit part 0 k fuel = none := by
  induction fuel generalizing k with
  | zero => rfl
  | succ fuel ih =>
    rw [findHighBit, if_neg (by simp)]
    have hshift : (0 : BitVec w) >>> 1 = 0 := by simp
    rw [hshift]
    exact ih (k - 1)

/-- The mask after one step. Source: `expr.c` `num_div_op` (`mask >>= 1`). Kind: L -/
theorem mask_shift {i : ℕ} (hi : i + 1 < w) : (1#w <<< (i + 1)) >>> 1 = 1#w <<< i := by
  apply BitVec.eq_of_toNat_eq
  rw [toNat_ushiftRight, toNat_bit hi, toNat_bit (by omega), pow_succ, pow_one, Nat.mul_div_cancel _ (by omega)]

theorem mask_shift_zero (hw : 0 < w) : (1#w <<< 0) >>> 1 = 0#w := by
  apply BitVec.eq_of_toNat_eq
  rw [toNat_ushiftRight, toNat_bit hw]
  simp

/-- A bit is the highest of some, or does not count. -/
theorem mod_two_pow_succ (x i : ℕ) : x % 2 ^ (i + 1) = x % 2 ^ i + if x.testBit i then 2 ^ i else 0 := by
  rw [pow_succ, Nat.mod_mul, Nat.testBit_eq_decide_div_mod_eq]
  rcases Nat.mod_two_eq_zero_or_one (x / 2 ^ i) with h | h <;> simp [h]

/-- A step of the search looks at one bit. Source: `expr.c` `num_div_op` (`if (rhs.high & mask)`). Kind: L -/
theorem and_mask_ne_zero_iff {i : ℕ} (hi : i < w) : part &&& 1#w <<< i ≠ 0 ↔ part.toNat.testBit i = true :=
  Lib.WordArray.and_bit_ne_zero_iff hi

/-- **The search** finds the highest of the bits up to the one where it starts. Source: `expr.c` `num_div_op`. Kind: L -/
theorem findHighBit_spec {i k fuel : ℕ} (hi : i < w) (hne : part.toNat % 2 ^ (i + 1) ≠ 0) (hfuel : i < fuel) :
    ∃ j ≤ i, findHighBit part (1#w <<< i) (i + k) fuel = some (j + k) ∧
      2 ^ j ≤ part.toNat % 2 ^ (i + 1) ∧ part.toNat % 2 ^ (i + 1) < 2 ^ (j + 1) := by
  induction i generalizing fuel with
  | zero =>
    obtain ⟨fuel, rfl⟩ := Nat.exists_eq_succ_of_ne_zero (by omega : fuel ≠ 0)
    have hlt := Nat.mod_lt part.toNat (Nat.two_pow_pos (0 + 1))
    have hset : part &&& 1#w <<< 0 ≠ 0 := by
      rw [and_mask_ne_zero_iff hi]
      by_contra hclear
      rw [mod_two_pow_succ, if_neg hclear] at hne
      simp [Nat.mod_one] at hne
    refine ⟨0, le_rfl, ?_, ?_, hlt⟩
    · rw [findHighBit, if_pos hset]
    · rw [pow_zero]
      omega
  | succ i ih =>
    obtain ⟨fuel, rfl⟩ := Nat.exists_eq_succ_of_ne_zero (by omega : fuel ≠ 0)
    have hlt := Nat.mod_lt part.toNat (Nat.two_pow_pos (i + 1 + 1))
    have hsplit := mod_two_pow_succ part.toNat (i + 1)
    by_cases hset : part &&& 1#w <<< (i + 1) ≠ 0
    · refine ⟨i + 1, le_rfl, ?_, ?_, hlt⟩
      · rw [findHighBit, if_pos hset]
      · rw [hsplit, if_pos ((and_mask_ne_zero_iff hi).mp hset)]
        exact Nat.le_add_left _ _
    · -- the bit is clear, and the search goes on with the bits below it
      rw [if_neg fun hbit => hset ((and_mask_ne_zero_iff hi).mpr hbit), Nat.add_zero] at hsplit
      rw [hsplit] at hne ⊢
      obtain ⟨j, hj, hfind, hle, hlt'⟩ := ih (by omega) hne (by omega : i < fuel)
      refine ⟨j, by omega, ?_, hle, hlt'⟩
      rw [findHighBit, if_neg hset, mask_shift hi, show i + 1 + k - 1 = i + k by omega]
      exact hfind

/-- **The search does not end** if all bits up to its start are zero. Source: `expr.c` `num_div_op`. Kind: L -/
theorem findHighBit_none {i k fuel : ℕ} (hi : i < w) (hzero : part.toNat % 2 ^ (i + 1) = 0) :
    findHighBit part (1#w <<< i) k fuel = none := by
  induction i generalizing k fuel with
  | zero =>
    cases fuel with
    | zero => rfl
    | succ fuel =>
      have hclear : ¬ part &&& 1#w <<< 0 ≠ 0 := by
        rw [and_mask_ne_zero_iff hi]
        intro hset
        rw [mod_two_pow_succ, if_pos hset] at hzero
        simp at hzero
      rw [findHighBit, if_neg hclear, mask_shift_zero hi]
      exact findHighBit_zero part (k - 1) fuel
  | succ i ih =>
    cases fuel with
    | zero => rfl
    | succ fuel =>
      have hsplit := mod_two_pow_succ part.toNat (i + 1)
      have hpos := Nat.two_pow_pos (i + 1)
      have hclear : ¬ part &&& 1#w <<< (i + 1) ≠ 0 := by
        rw [and_mask_ne_zero_iff hi]
        intro hset
        rw [if_pos hset] at hsplit
        omega
      rw [if_neg fun hbit => hclear ((and_mask_ne_zero_iff hi).mpr hbit)] at hsplit
      rw [findHighBit, if_neg hclear, mask_shift hi]
      exact ih (by omega) (hsplit.symm.trans hzero)

/-- A divisor of one part is its low part. -/
theorem toNat_of_high_eq_zero {num : CppNum w} (h : num.high = 0) : num.toNat = num.low.toNat ∧ num.toNat < 2 ^ w := by
  have hlt : num.toNat < 2 ^ w := by
    by_contra hge
    exact (high_ne_zero_iff num).mpr (not_lt.mp hge) h
  have hmod : num.toNat % 2 ^ w = num.low.toNat := pair_mod num.high num.low
  exact ⟨by rw [← hmod, Nat.mod_eq_of_lt hlt], hlt⟩

/-- **The high bit** that is found is that of the number used. Source: `expr.c` `num_div_op` (`Find the high bit`). Kind: L -/
theorem highBit_spec {fuel : ℕ} (hp : 0 < p) (hpw : p ≤ 2 * w) (hr : Trimmed p rhs)
    (hused : usedDivisor w p rhs.toNat ≠ 0) (hfuel : 2 * w ≤ fuel) :
    ∃ j < p, highBit p rhs fuel = some j ∧ rhs.toNat % 2 ^ (j + 1) = usedDivisor w p rhs.toNat ∧
      2 ^ j ≤ usedDivisor w p rhs.toNat := by
  unfold Trimmed at hr
  unfold usedDivisor at hused ⊢
  unfold highBit
  by_cases hhigh : rhs.high ≠ 0
  · have hge := (high_ne_zero_iff rhs).mp hhigh
    have hwp : w < p := (Nat.pow_lt_pow_iff_right one_lt_two).mp (hge.trans_lt hr)
    have hdiv : rhs.toNat / 2 ^ w = rhs.high.toNat := pair_div rhs.high rhs.low
    have hlt : rhs.high.toNat < 2 ^ (p - 1 - w + 1) := by
      rw [← hdiv, Nat.div_lt_iff_lt_mul (Nat.two_pow_pos w), ← pow_add, show p - 1 - w + 1 + w = p by omega]
      exact hr
    have hne : rhs.high.toNat % 2 ^ (p - 1 - w + 1) ≠ 0 := by
      rw [Nat.mod_eq_of_lt hlt, ← hdiv]
      exact (Nat.div_pos hge (Nat.two_pow_pos w)).ne'
    obtain ⟨j, hj, hfind, hle, hlt'⟩ := findHighBit_spec (k := w) (by omega : p - 1 - w < w) hne (by omega : _ < fuel)
    rw [Nat.mod_eq_of_lt hlt, ← hdiv] at hle hlt'
    rw [Nat.div_lt_iff_lt_mul (Nat.two_pow_pos w), ← pow_add] at hlt'
    rw [Nat.le_div_iff_mul_le (Nat.two_pow_pos w), ← pow_add] at hle
    rw [if_neg (by omega : ¬ (w < p ∧ rhs.toNat < 2 ^ w))]
    refine ⟨j + w, by omega, ?_, ?_, hle⟩
    · dsimp only
      rw [if_pos hhigh]
      rwa [show p - 1 - w + w = p - 1 by omega] at hfind
    · exact Nat.mod_eq_of_lt (by rwa [show j + w + 1 = j + 1 + w by omega])
  · obtain ⟨hlow, hlt⟩ := toNat_of_high_eq_zero (not_not.mp hhigh)
    dsimp only
    rw [if_neg hhigh]
    by_cases hwp : p > w
    · have hcase : w < p ∧ rhs.toNat < 2 ^ w := ⟨hwp, hlt⟩
      rw [if_pos hcase] at hused ⊢
      rw [if_pos hwp]
      have hi : p - w - 1 + 1 = p - w := by omega
      rw [hlow, ← hi] at hused
      obtain ⟨j, hj, hfind, hle, hlt'⟩ := findHighBit_spec (k := 0) (by omega : p - w - 1 < w) hused (by omega : _ < fuel)
      rw [hi, ← hlow] at hle hlt'
      refine ⟨j, by omega, hfind, ?_, hle⟩
      have hdvd : 2 ^ (j + 1) ∣ 2 ^ (p - w) := Nat.pow_dvd_pow 2 (by omega)
      rw [← Nat.mod_mod_of_dvd _ hdvd, Nat.mod_eq_of_lt hlt']
    · have hcase : ¬ (w < p ∧ rhs.toNat < 2 ^ w) := fun h => hwp h.1
      rw [if_neg hcase] at hused ⊢
      rw [if_neg hwp]
      have hi : p - 1 + 1 = p := by omega
      have hself : rhs.low.toNat % 2 ^ (p - 1 + 1) = rhs.toNat := by rw [hi, ← hlow, Nat.mod_eq_of_lt hr]
      obtain ⟨j, hj, hfind, hle, hlt'⟩ :=
        findHighBit_spec (k := 0) (by omega : p - 1 < w) (by rwa [hself]) (by omega : _ < fuel)
      rw [hself] at hle hlt'
      exact ⟨j, by omega, hfind, Nat.mod_eq_of_lt hlt', hle⟩

/-- The search does not end if the number used is zero. Source: `expr.c` `num_div_op` (`Find the high bit`). Kind: L -/
theorem highBit_none {fuel : ℕ} (hpw : p ≤ 2 * w) (hne : rhs.toNat ≠ 0) (hused : usedDivisor w p rhs.toNat = 0) :
    highBit p rhs fuel = none := by
  unfold usedDivisor at hused
  split_ifs at hused with hcase
  · obtain ⟨hwp, hlt⟩ := hcase
    have hhigh : ¬ rhs.high ≠ 0 := by
      rw [high_ne_zero_iff]
      omega
    obtain ⟨hlow, -⟩ := toNat_of_high_eq_zero (not_not.mp hhigh)
    unfold highBit
    dsimp only
    rw [if_neg hhigh, if_pos hwp]
    refine findHighBit_none (by omega) ?_
    rw [← hlow, show p - w - 1 + 1 = p - w by omega, hused]
  · exact absurd hused hne

end Search

/-! ## The loop -/

section Loop

variable {w p i d x : ℕ} {lhs sub result : CppNum w}

/-- A bit is set below those that are set. Source: `expr.c` `num_div_op`. Kind: L -/
theorem toNat_setResultBit (hi : i < 2 * w) (h : result.toNat % 2 ^ (i + 1) = 0) :
    (setResultBit result i).toNat = result.toNat + 2 ^ i := by
  unfold setResultBit
  split_ifs with hge
  · have hiw : w + (i - w) = i := by omega
    have hor := @pair_or_high w result.high result.low (i - w) (by omega) (by rw [hiw]; exact h)
    rw [hiw] at hor
    exact hor
  · exact pair_or_low (by omega) h

/-- A difference that is not negative. Source: `expr.c` `num_div_op` (`num_binary_op (pfile, lhs, sub, CPP_MINUS)`). Kind: L -/
theorem toNat_minus (hpw : p ≤ 2 * w) (hl : Trimmed p lhs) (hle : sub.toNat ≤ lhs.toNat) :
    (numBinaryOp p lhs sub .minus).toNat = lhs.toNat - sub.toNat := by
  have hsub : Trimmed p sub := lt_of_le_of_lt hle hl
  have hvalue : (numBinaryOp p lhs sub .minus).toNat = (lhs.toNat + (numNegate sub p).toNat) % 2 ^ p := toNat_numAdd hpw
  unfold Trimmed at hl hsub
  rw [hvalue, toNat_numNegate hpw hsub, Nat.add_mod_mod, show lhs.toNat + (2 ^ p - sub.toNat) = lhs.toNat - sub.toNat + 2 ^ p by omega,
    Nat.add_mod_right]
  exact Nat.mod_eq_of_lt (by omega)

/-- Before step `i` of the division of `x` by `d`: the divisor is shifted by `i`, the rest is below twice that, and the quotient so
far has bits above `i`.
Source: `expr.c` `num_div_op` (`for (;;)`) -/
structure Dividing (x d i : ℕ) (lhs sub result : CppNum w) : Prop where
  unsignedp : lhs.unsignedp = true
  shifted : sub.toNat = d * 2 ^ i
  rest : lhs.toNat < d * 2 ^ (i + 1)
  above : result.toNat % 2 ^ (i + 1) = 0
  total : result.toNat * d + lhs.toNat = x

/-- **A step** subtracts the shifted divisor if it can. Source: `expr.c` `num_div_op` (`if (num_greater_eq (lhs, sub, precision))`).
Kind: L -/
theorem Dividing.step (hpw : p ≤ 2 * w) (hi : i < p) (hx : x < 2 ^ p) (h : Dividing x d i lhs sub result) {lhs' result' : CppNum w}
    (hl' : lhs' = if numGreaterEq lhs sub p then numBinaryOp p lhs sub .minus else lhs)
    (hr' : result' = if numGreaterEq lhs sub p then setResultBit result i else result) :
    lhs'.unsignedp = true ∧ lhs'.toNat < d * 2 ^ i ∧ result'.toNat % 2 ^ i = 0 ∧ result'.toNat * d + lhs'.toNat = x := by
  obtain ⟨hu, hsub, hlt, hres, hinv⟩ := h
  have hpos := Nat.two_pow_pos i
  have hdvd : 2 ^ i ∣ 2 ^ (i + 1) := Nat.pow_dvd_pow 2 (Nat.le_succ i)
  have hge : numGreaterEq lhs sub p = true ↔ d * 2 ^ i ≤ lhs.toNat := by rw [numGreaterEq_unsigned hu, hsub]
  rw [hl', hr']
  split_ifs with hle
  · rw [hge] at hle
    have hl : Trimmed p lhs := by
      rw [Trimmed]
      omega
    have hminus := toNat_minus hpw hl (hsub ▸ hle)
    have hbit := toNat_setResultBit (by omega) hres
    rw [hminus, hbit, hsub]
    refine ⟨?_, ?_, ?_, ?_⟩
    · exact unsignedp_numAdd.trans (by rw [hu, Bool.true_or])
    · rw [pow_succ, ← Nat.mul_assoc] at hlt
      omega
    · rw [Nat.add_mod_right, ← Nat.mod_mod_of_dvd _ hdvd, hres, Nat.zero_mod]
    · rw [Nat.add_mul, Nat.mul_comm (2 ^ i)]
      omega
  · rw [hge, not_le] at hle
    exact ⟨hu, hle, by rw [← Nat.mod_mod_of_dvd _ hdvd, hres, Nat.zero_mod], hinv⟩

/-- **The loop** divides. Source: `expr.c` `num_div_op` (`for (;;)`). Kind: L -/
theorem divLoop_spec (hpw : p ≤ 2 * w) (hi : i < p) (hx : x < 2 ^ p) (h : Dividing x d i lhs sub result) :
    (divLoop p i lhs sub result).1.toNat = x / d ∧ (divLoop p i lhs sub result).2.toNat = x % d := by
  induction i generalizing lhs sub result with
  | zero =>
    obtain ⟨-, hlt, -, htotal⟩ := h.step hpw hi hx rfl rfl
    rw [pow_zero, Nat.mul_one] at hlt
    rw [divLoop]
    refine ⟨?_, ?_⟩
    · rw [← htotal, Nat.add_comm, Nat.add_mul_div_right _ _ (by omega), Nat.div_eq_of_lt hlt, Nat.zero_add]
    · rw [← htotal, Nat.add_comm, Nat.add_mul_mod_self_right, Nat.mod_eq_of_lt hlt]
  | succ i ih =>
    obtain ⟨hu, hlt, hres, htotal⟩ := h.step hpw hi hx rfl rfl
    rw [divLoop]
    refine ih (by omega) ⟨hu, ?_, hlt, hres, htotal⟩
    -- the divisor is shifted back by one
    have hshift := pair_shiftRight (by omega : 1 ≤ w) sub.high sub.low
    have hsub := h.shifted
    rw [CppNum.toNat] at hsub ⊢
    rw [hshift, hsub, pow_succ, ← Nat.mul_assoc, pow_one, Nat.mul_div_cancel _ (by omega)]

/-- **The division** of two numbers, by the number used. Source: `expr.c` `num_div_op`. Kind: L -/
theorem divLoop_used {fuel : ℕ} {rhs : CppNum w} (hp : 0 < p) (hpw : p ≤ 2 * w) (hl : Trimmed p lhs) (hr : Trimmed p rhs)
    (hused : usedDivisor w p rhs.toNat ≠ 0) (hfuel : 2 * w ≤ fuel) :
    ∃ j res rest, highBit p rhs fuel = some j ∧
      divLoop p (p - j - 1) { lhs with unsignedp := true } (numLshift { rhs with unsignedp := true } p (p - j - 1))
        ⟨0, 0, false, false⟩ = (res, rest) ∧
      res.toNat = lhs.toNat / usedDivisor w p rhs.toNat ∧ rest.toNat = lhs.toNat % usedDivisor w p rhs.toNat := by
  obtain ⟨j, hj, hfind, hmod, hle⟩ := highBit_spec hp hpw hr hused hfuel
  have hpow : 2 ^ p = 2 ^ (j + 1) * 2 ^ (p - j - 1) := by
    rw [← pow_add]
    congr 1
    omega
  have hshift : (numLshift { rhs with unsignedp := true } p (p - j - 1)).toNat =
      usedDivisor w p rhs.toNat * 2 ^ (p - j - 1) := by
    refine (toNat_numLshift hpw (by omega)).trans ?_
    rw [hpow, Nat.mul_mod_mul_right]
    exact congrArg (· * 2 ^ (p - j - 1)) hmod
  have hrest : lhs.toNat < usedDivisor w p rhs.toNat * 2 ^ (p - j - 1 + 1) := by
    refine hl.trans_le ?_
    calc 2 ^ p = 2 ^ j * 2 ^ (p - j - 1 + 1) := by
          rw [← pow_add]
          congr 1
          omega
      _ ≤ usedDivisor w p rhs.toNat * 2 ^ (p - j - 1 + 1) := Nat.mul_le_mul_right _ hle
  have hzero : (CppNum.mk (0 : BitVec w) 0 false false).toNat = 0 := pair_eq_zero_iff.mpr ⟨rfl, rfl⟩
  have hloop := divLoop_spec hpw (by omega : p - j - 1 < p) hl
    (⟨rfl, hshift, hrest, by rw [hzero, Nat.zero_mod], by rw [hzero, Nat.zero_mul, Nat.zero_add]; rfl⟩ :
      Dividing lhs.toNat (usedDivisor w p rhs.toNat) (p - j - 1) { lhs with unsignedp := true }
        (numLshift { rhs with unsignedp := true } p (p - j - 1)) ⟨0, 0, false, false⟩)
  exact ⟨j, _, _, hfind, rfl, hloop.1, hloop.2⟩

end Loop

/-! ## Signs -/

section Signs

variable {w p : ℕ} {lhs rhs : CppNum w}

/-- The magnitude and the sign of a converted operand. Source: `expr.c` `num_div_op` (`Prepare for unsigned division`). Kind: L -/
theorem toNat_converted (hp : 0 < p) (hpw : p ≤ 2 * w) {num : CppNum w} (h : Trimmed p num) {u : Bool}
    (hu : u = false → num.unsignedp = false) :
    (if (!u && !numPositive num p) = true then numNegate num p else num).toNat = (num.converted p u).natAbs ∧
      ((!u && !numPositive num p) = true ↔ num.converted p u < 0) := by
  unfold CppNum.converted
  cases u with
  | true =>
    simp only [Bool.not_true, Bool.false_and, Bool.false_eq_true, if_false, if_true, Int.natAbs_natCast, true_and, false_iff]
    omega
  | false =>
    simp only [Bool.not_false, Bool.true_and, Bool.false_eq_true, if_false]
    exact toNat_prepared hp hpw h (hu rfl)

/-- A magnitude with its sign, modulo the precision. Source: `expr.c` `num_div_op` (`num_negate`). Kind: L -/
theorem signed_eq_iff {a b : ℕ} (ha : a < 2 ^ p) (hb : b < 2 ^ p) (neg : Bool) :
    (((if neg = true then (2 ^ p - a) % 2 ^ p else a : ℕ) : ℕ) : ℤ) = (if neg = true then -(b : ℤ) else b) % 2 ^ p ↔ a = b := by
  have hN : (2 : ℤ) ^ p = ((2 ^ p : ℕ) : ℤ) := by push_cast; rfl
  rw [hN]
  generalize 2 ^ p = N at *
  have hmod : (N - a) % N = if a = 0 then 0 else N - a := by
    split_ifs with hzero
    · rw [hzero, Nat.sub_zero, Nat.mod_self]
    · exact Nat.mod_eq_of_lt (by omega)
  have hneg : (-(b : ℤ)) % N = if b = 0 then 0 else (N : ℤ) - b := by
    split_ifs with hzero
    · simp [hzero]
    · rw [← Int.add_emod_right, Int.emod_eq_of_lt (by omega) (by omega)]
      omega
  have hpos : (b : ℤ) % N = b := Int.emod_eq_of_lt (by omega) (by omega)
  cases neg with
  | false =>
    simp only [Bool.false_eq_true, if_false]
    rw [hpos]
    omega
  | true =>
    simp only [if_true]
    rw [hmod, hneg]
    split_ifs <;> omega

/-- **The quotient** that is returned. Source: `expr.c` `num_div_op` (`if (op == CPP_DIV)`). Kind: L -/
theorem divResult_div (hp : 0 < p) (hpw : p ≤ 2 * w) {res rest : CppNum w} (h : Trimmed p res) {u neg lneg : Bool}
    (hu : u = true → neg = false) :
    (divResult p u neg lneg res rest .div).toNat = (if neg = true then (2 ^ p - res.toNat) % 2 ^ p else res.toNat) ∧
      ((divResult p u neg lneg res rest .div).overflow = true ↔
        u = false ∧ if neg = true then 2 ^ (p - 1) < res.toNat else 2 ^ (p - 1) ≤ res.toNat) := by
  have hhalf := two_pow_half hp
  have hpos := Nat.two_pow_pos (p - 1)
  unfold divResult
  cases u with
  | true =>
    rw [hu rfl]
    exact ⟨rfl, by simp⟩
  | false =>
    dsimp only
    have htrim : Trimmed p { res with unsignedp := false, overflow := false } := h
    have hneg := toNat_numNegate hpw htrim
    have hsign := numPositive_iff hp hpw htrim
    have hsign' := numPositive_iff hp hpw (trimmed_numNegate hpw htrim)
    have hsame : (CppNum.mk res.high res.low false false).toNat = res.toNat := rfl
    rw [hneg] at hsign'
    rw [hsame] at hsign hsign' hneg
    unfold Trimmed at h
    have hmod : (2 ^ p - res.toNat) % 2 ^ p = if res.toNat = 0 then 0 else 2 ^ p - res.toNat := by
      split_ifs with hzero
      · rw [hzero, Nat.sub_zero, Nat.mod_self]
      · exact Nat.mod_eq_of_lt (by omega)
    cases neg with
    | false =>
      simp only [Bool.not_false, if_true, Bool.false_eq_true, if_false, Bool.and_eq_true, Bool.xor_true, Bool.not_eq_true', true_and]
      rw [← Bool.not_eq_true, ← Bool.not_eq_true, hsign, numZerop_iff, hsame]
      exact ⟨rfl, by omega⟩
    | true =>
      simp only [Bool.not_false, if_true, Bool.not_true, Bool.xor_false, Bool.and_eq_true, Bool.not_eq_true', true_and]
      rw [← Bool.not_eq_true, hsign', numZerop_iff, hneg, hmod]
      refine ⟨hneg.trans hmod, ?_⟩
      split_ifs <;> omega

/-- **The remainder** that is returned. Source: `expr.c` `num_div_op` (`CPP_MOD`). Kind: L -/
theorem divResult_mod (hpw : p ≤ 2 * w) {res rest : CppNum w} (h : Trimmed p rest) (u neg lneg : Bool) :
    (divResult p u neg lneg res rest .mod).toNat = if lneg = true then (2 ^ p - rest.toNat) % 2 ^ p else rest.toNat := by
  have htrim : Trimmed p { rest with unsignedp := u, overflow := false } := h
  unfold divResult
  dsimp only
  split_ifs
  · exact toNat_numNegate hpw htrim
  · rfl

/-- The quotient of two numbers is that of their magnitudes, negated if the signs differ. -/
theorem tdiv_eq_natAbs (x y : ℤ) {negX negY : Bool} (hx : negX = true ↔ x < 0) (hy : negY = true ↔ y < 0) :
    x.tdiv y = if (negX ^^ negY) = true then -((x.natAbs / y.natAbs : ℕ) : ℤ) else (x.natAbs / y.natAbs : ℕ) := by
  have hx' := eq_signed_natAbs hx
  have hy' := eq_signed_natAbs hy
  generalize x.natAbs = a at *
  generalize y.natAbs = b at *
  rw [hx', hy']
  cases negX <;> cases negY <;> simp [Int.neg_tdiv, Int.tdiv_neg]

/-- The remainder of two numbers is that of their magnitudes, with the sign of the first. -/
theorem tmod_eq_natAbs (x y : ℤ) {negX : Bool} (hx : negX = true ↔ x < 0) :
    x.tmod y = if negX = true then -((x.natAbs % y.natAbs : ℕ) : ℤ) else (x.natAbs % y.natAbs : ℕ) := by
  have hx' := eq_signed_natAbs hx
  have hmag : (x.natAbs : ℤ).tmod y = ((x.natAbs % y.natAbs : ℕ) : ℤ) := by
    rw [← Int.natAbs_eq_natAbs_iff.mpr (.inl rfl), Int.ofNat_tmod]
    rcases Int.natAbs_eq y with hy | hy
    · rw [← hy]
    · conv_lhs => rw [hy]
      rw [Int.tmod_neg]
  conv_lhs => rw [hx']
  split_ifs
  · rw [Int.neg_tmod, hmag]
  · exact hmag

/-- A quotient is the least number's magnitude only for that number and `-1`. Source: `expr.c` `num_div_op`. Kind: L -/
theorem quotient_overflows_iff {half : ℕ} {l r : ℤ} {negX negY : Bool} (hx : negX = true ↔ l < 0) (hy : negY = true ↔ r < 0)
    (hhalf : 0 < half) (hl : -(half : ℤ) ≤ l ∧ l < half) (hr : r ≠ 0) :
    (if (negX ^^ negY) = true then half < l.natAbs / r.natAbs else half ≤ l.natAbs / r.natAbs) ↔ l = -(half : ℤ) ∧ r = -1 := by
  have hypos : 0 < r.natAbs := Int.natAbs_pos.mpr hr
  have hle : l.natAbs / r.natAbs ≤ l.natAbs := Nat.div_le_self _ _
  have hxle : l.natAbs ≤ half := by omega
  by_cases hneg : (negX ^^ negY) = true
  · rw [if_pos hneg]
    refine iff_of_false (by omega) ?_
    rintro ⟨rfl, rfl⟩
    have hX : negX = true := hx.mpr (by omega)
    have hY : negY = true := hy.mpr (by omega)
    rw [hX, hY] at hneg
    exact Bool.noConfusion hneg
  · rw [if_neg hneg]
    constructor
    · intro hq
      have hself : l.natAbs / r.natAbs = l.natAbs := by omega
      have hone : r.natAbs = 1 := (Nat.div_eq_self.mp hself).resolve_left (by omega)
      have hl' : l = -(half : ℤ) := by omega
      have hX : negX = true := hx.mpr (by omega)
      have hY : negY = true := by
        rw [hX, Bool.true_xor, Bool.not_eq_true, Bool.not_eq_false'] at hneg
        exact hneg
      have hr' := hy.mp hY
      exact ⟨hl', by omega⟩
    · rintro ⟨rfl, rfl⟩
      simp

/-- What is returned is right when the number used is as good as the divisor, and only then. Source: `expr.c` `num_div_op`. Kind: L -/
theorem divAnswer_iff {u : Bool} {l r : ℤ} {negX negY : Bool} {res rest : CppNum w} {d : ℕ} (hp : 0 < p) (hpw : p ≤ 2 * w)
    (hx : negX = true ↔ l < 0) (hy : negY = true ↔ r < 0) (hu : u = true → negX = false ∧ negY = false)
    (hs : u = false → -((2 ^ (p - 1) : ℕ) : ℤ) ≤ l ∧ l < ((2 ^ (p - 1) : ℕ) : ℤ)) (hr : r ≠ 0) (hlt : l.natAbs < 2 ^ p)
    (hres : res.toNat = l.natAbs / d) (hrest : rest.toNat = l.natAbs % d) (op : DivOp) :
    DivAnswer p u l r (divResult p u (negX ^^ negY) negX res rest op) op ↔
      match op with
      | .div => l.natAbs / d = l.natAbs / r.natAbs
      | .mod => l.natAbs % d = l.natAbs % r.natAbs := by
  have hqlt : ∀ e : ℕ, l.natAbs / e < 2 ^ p := fun e => (Nat.div_le_self _ e).trans_lt hlt
  have hmlt : ∀ e : ℕ, l.natAbs % e < 2 ^ p := fun e => (Nat.mod_le _ e).trans_lt hlt
  cases op with
  | div =>
    have htrim : Trimmed p res := by
      rw [Trimmed, hres]
      exact hqlt d
    have hsigned : u = true → (negX ^^ negY) = false := fun h => by rw [(hu h).1, (hu h).2, Bool.xor_self]
    obtain ⟨hvalue, hover⟩ := @divResult_div w p hp hpw res rest htrim u (negX ^^ negY) negX hsigned
    rw [hres] at hvalue hover
    unfold DivAnswer
    dsimp only
    rw [hvalue, tdiv_eq_natAbs l r hx hy, signed_eq_iff (hqlt d) (hqlt _)]
    refine and_iff_left_of_imp fun hsame => ?_
    rw [hover, hsame]
    refine and_congr_right fun hfalse => ?_
    have hM : (2 : ℤ) ^ (p - 1) = ((2 ^ (p - 1) : ℕ) : ℤ) := by push_cast; rfl
    rw [quotient_overflows_iff hx hy (Nat.two_pow_pos _) (hs hfalse) hr, hM]
  | mod =>
    have htrim : Trimmed p rest := by
      rw [Trimmed, hrest]
      exact hmlt d
    have hvalue := @divResult_mod w p hpw res rest htrim u (negX ^^ negY) negX
    rw [hrest] at hvalue
    unfold DivAnswer
    dsimp only
    rw [hvalue, tmod_eq_natAbs l r hx, signed_eq_iff (hmlt d) (hmlt _)]

/-- **What the code returns** on prepared operands. Source: `expr.c` `num_div_op`. Kind: L -/
theorem numDivOp_eq {u negX negY : Bool} {x y : CppNum w} (hu : (lhs.unsignedp || rhs.unsignedp) = u)
    (hnegX : (!u && !numPositive lhs p) = negX) (hnegY : (!u && !numPositive rhs p) = negY)
    (hx : (if negX = true then numNegate lhs p else lhs) = x) (hy : (if negY = true then numNegate rhs p else rhs) = y)
    (hne : y.toNat ≠ 0) (fuel : ℕ) (op : DivOp) :
    numDivOp fuel p lhs rhs op = (highBit p y fuel).map fun j =>
      divResult p u (negX ^^ negY) negX
        (divLoop p (p - j - 1) { x with unsignedp := true } (numLshift { y with unsignedp := true } p (p - j - 1)) ⟨0, 0, false, false⟩).1
        (divLoop p (p - j - 1) { x with unsignedp := true } (numLshift { y with unsignedp := true } p (p - j - 1)) ⟨0, 0, false, false⟩).2
        op := by
  have hsome : ¬ (y.high = 0 ∧ y.low = 0) := fun h => hne (pair_eq_zero_iff.mpr h)
  unfold numDivOp
  dsimp only
  rw [hu, hnegX, hnegY, hx, hy, if_neg hsome]

/-- **Exactness.** The code divides right exactly when the number used is as good as the divisor. Source: `expr.c` `num_div_op`.
Kind: P -/
theorem numDivOp_exact_iff (hp : 0 < p) (hpw : p ≤ 2 * w) (hl : Trimmed p lhs) (hr : Trimmed p rhs) (hne : rhs.toNat ≠ 0)
    (op : DivOp) : DividesExactly p lhs rhs op ↔ DivisorKept p lhs rhs op := by
  unfold DividesExactly DivisorKept
  dsimp only
  generalize hu : (lhs.unsignedp || rhs.unsignedp) = u
  have hflags : u = false → lhs.unsignedp = false ∧ rhs.unsignedp = false := by
    intro hfalse
    rw [hfalse] at hu
    simpa using hu
  obtain ⟨hx, hnegX⟩ := toNat_converted hp hpw hl fun h => (hflags h).1
  obtain ⟨hy, hnegY⟩ := toNat_converted hp hpw hr fun h => (hflags h).2
  generalize hnegX' : (!u && !numPositive lhs p) = negX at hx hnegX
  generalize hnegY' : (!u && !numPositive rhs p) = negY at hy hnegY
  generalize hx' : (if negX = true then numNegate lhs p else lhs) = x at hx
  generalize hy' : (if negY = true then numNegate rhs p else rhs) = y at hy
  have hxt : Trimmed p x := by
    rw [← hx']
    split_ifs
    · exact trimmed_numNegate hpw hl
    · exact hl
  have hyt : Trimmed p y := by
    rw [← hy']
    split_ifs
    · exact trimmed_numNegate hpw hr
    · exact hr
  have hs : u = false → -((2 ^ (p - 1) : ℕ) : ℤ) ≤ lhs.converted p u ∧ lhs.converted p u < ((2 ^ (p - 1) : ℕ) : ℤ) := by
    intro hfalse
    have hbounds := CppNum.toInt_bounds hp hl (hflags hfalse).1
    unfold CppNum.converted
    rw [hfalse, if_neg Bool.false_ne_true]
    push_cast
    exact hbounds
  have hr0 : rhs.converted p u ≠ 0 := by
    unfold CppNum.converted CppNum.toInt
    unfold Trimmed at hr
    have hN : (2 : ℤ) ^ p = ((2 ^ p : ℕ) : ℤ) := by push_cast; rfl
    rw [hN]
    split_ifs <;> omega
  have hyne : y.toNat ≠ 0 := by
    rw [hy]
    exact Int.natAbs_ne_zero.mpr hr0
  have hus : u = true → negX = false ∧ negY = false := by
    intro htrue
    rw [← hnegX', ← hnegY', htrue]
    exact ⟨rfl, rfl⟩
  have heq := numDivOp_eq hu hnegX' hnegY' hx' hy' hyne
  have hlt : (lhs.converted p u).natAbs < 2 ^ p := hx ▸ hxt
  rw [← hy]
  by_cases hused : usedDivisor w p y.toNat = 0
  · -- the search does not end
    refine iff_of_false ?_ fun h => h.1 hused
    rintro ⟨n, hn⟩
    obtain ⟨res, hres, -⟩ := hn n le_rfl
    rw [heq, highBit_none hpw hyne hused] at hres
    exact absurd hres (Option.some_ne_none res).symm
  · have hrun : ∀ fuel ≥ 2 * w, ∃ res, numDivOp fuel p lhs rhs op = some res ∧
        (DivAnswer p u (lhs.converted p u) (rhs.converted p u) res op ↔
          match op with
          | .div => (lhs.converted p u).natAbs / usedDivisor w p y.toNat = (lhs.converted p u).natAbs / (rhs.converted p u).natAbs
          | .mod => (lhs.converted p u).natAbs % usedDivisor w p y.toNat = (lhs.converted p u).natAbs % (rhs.converted p u).natAbs) := by
      intro fuel hfuel
      obtain ⟨j, res, rest, hfind, hloop, hquot, hrest⟩ := divLoop_used hp hpw hxt hyt hused hfuel
      rw [heq, hfind, Option.map_some, hloop]
      rw [hx] at hquot hrest
      exact ⟨_, rfl, divAnswer_iff hp hpw hnegX hnegY hus hs hr0 hlt hquot hrest op⟩
    rw [hy] at hused hrun ⊢
    refine ⟨fun ⟨n, hn⟩ => ⟨hused, ?_⟩, fun h => ⟨2 * w, fun fuel hfuel => ?_⟩⟩
    · obtain ⟨res, hres, hanswer⟩ := hn (max n (2 * w)) (le_max_left _ _)
      obtain ⟨res', hres', hiff⟩ := hrun (max n (2 * w)) (le_max_right _ _)
      obtain rfl := Option.some.inj (hres.symm.trans hres')
      exact hiff.mp hanswer
    · obtain ⟨res, hres, hiff⟩ := hrun fuel hfuel
      exact ⟨res, hres, hiff.mpr h.2⟩

end Signs

/-- `-7 / 2` in 64 bits, with parts of 32 bits. Source: `expr.c` `num_div_op`. Kind: C -/
theorem numDivOp_exact_seven_two :
    DividesExactly 64 (⟨0xffffffff, 0xfffffff9, false, false⟩ : CppNum 32) ⟨0, 2, false, false⟩ .div :=
  (numDivOp_exact_iff (by decide) (by decide) (by unfold Trimmed; decide) (by unfold Trimmed; decide) (by decide) .div).mpr
    (by unfold DivisorKept; decide)

/-- `7 / 256` in 40 bits, with parts of 32 bits: the search for the high bit of 256 begins at bit 7. Source: `expr.c` `num_div_op`.
Kind: C -/
theorem numDivOp_diverges :
    ¬ DividesExactly 40 (⟨0, 7, false, false⟩ : CppNum 32) ⟨0, 256, false, false⟩ .div := by
  rintro ⟨n, hn⟩
  obtain ⟨res, hres, -⟩ := hn n le_rfl
  have hnone : numDivOp n 40 (⟨0, 7, false, false⟩ : CppNum 32) ⟨0, 256, false, false⟩ .div = none := by
    have heq := @numDivOp_eq 32 40 ⟨0, 7, false, false⟩ ⟨0, 256, false, false⟩ false false false ⟨0, 7, false, false⟩
      ⟨0, 256, false, false⟩ rfl (by decide) (by decide) rfl rfl (by decide) n .div
    rw [heq, highBit_none (by decide) (by decide) (by decide)]
    rfl
  rw [hnone] at hres
  exact absurd hres (Option.some_ne_none res).symm

end GccCore.Cpp.Expr
