import GccCore.Cpp.Expr.Basic

/-!
# `libcpp/expr.c`: multiplication in `#if`

The magnitudes are multiplied by parts, each product of parts by halves.

* **Products of parts** (`toNat_numPartMul`) are exact.
* **The value** (`toNat_numMul`) of a product is right modulo `2 ^ precision`.
* **Overflow** (`numMul_exact_iff`) is reported right unless a carry out of the high part is lost (`LostCarry`): no test looks at
  the two additions to `result.high`.
-/

namespace GccCore.Cpp.Expr

open GccCore.Lib.WordPair

/-! ## The code -/

section Model

variable {w : ℕ}

/-- Source: `expr.c` (`#define LOW_PART`, `#define HALF_MASK`). -/
def lowPart (numPart : BitVec w) : BitVec w := numPart &&& (BitVec.allOnes w >>> (w / 2))

/-- Source: `expr.c` (`#define HIGH_PART`). -/
def highPart (numPart : BitVec w) : BitVec w := numPart >>> (w / 2)

/-- Multiplies two parts. Source: `expr.c` `num_part_mul`. -/
def numPartMul (lhs rhs : BitVec w) : CppNum w :=
  let low := lowPart lhs * lowPart rhs
  let high := highPart lhs * highPart rhs
  let middle0 := lowPart lhs * highPart rhs
  let middle1 := highPart lhs * lowPart rhs
  let temp := low
  let low := low + lowPart middle0 <<< (w / 2)
  let high := if low < temp then high + 1#w else high
  let temp := low
  let low := low + lowPart middle1 <<< (w / 2)
  let high := if low < temp then high + 1#w else high
  let high := high + highPart middle0
  let high := high + highPart middle1
  ⟨high, low, true, false⟩

/-- The product of the magnitudes, trimmed, and the overflow seen so far. Source: `expr.c` `num_mul` (`num_part_mul`). -/
def numMulParts (precision : ℕ) (lhs rhs : CppNum w) : CppNum w × Bool :=
  let overflow := lhs.high != 0 && rhs.high != 0
  let result := numPartMul lhs.low rhs.low
  let temp := numPartMul lhs.high rhs.low
  let result := { result with high := result.high + temp.low }
  let overflow := overflow || temp.high != 0
  let temp := numPartMul lhs.low rhs.high
  let result := { result with high := result.high + temp.low }
  let overflow := overflow || temp.high != 0
  let temp := result
  let result := numTrim result precision
  (result, overflow || !numEq result temp)

/-- Source: `expr.c` `num_mul`. -/
def numMul (precision : ℕ) (lhs rhs : CppNum w) : CppNum w :=
  let unsignedp := lhs.unsignedp || rhs.unsignedp
  let lhsNeg := !unsignedp && !numPositive lhs precision
  let rhsNeg := !unsignedp && !numPositive rhs precision
  let negate := lhsNeg ^^ rhsNeg
  let lhs := if lhsNeg then numNegate lhs precision else lhs
  let rhs := if rhsNeg then numNegate rhs precision else rhs
  let (result, overflow) := numMulParts precision lhs rhs
  let result := if negate then numNegate result precision else result
  { result with
    overflow :=
      if unsignedp then false
      else overflow || (numPositive result precision ^^ !negate) && !numZerop result
    unsignedp := unsignedp }

end Model

/-! ## What is tested -/

section Tested

/-- The partial products that the tests look at fit: one number is one part, and the other products are below `2 ^ w`.
Source: `expr.c` `num_mul` (`lhs.high && rhs.high`, `temp.high`) -/
def PartsFit (w x y : ℕ) : Prop :=
  (x < 2 ^ w ∨ y < 2 ^ w) ∧ x / 2 ^ w * (y % 2 ^ w) < 2 ^ w ∧ x % 2 ^ w * (y / 2 ^ w) < 2 ^ w

/-- **A carry is lost.** The partial products fit, their sum does not, and what remains of it is a magnitude in range.
Source: `expr.c` `num_mul` (`result.high += temp.low`) -/
def LostCarry {w : ℕ} (p : ℕ) (lhs rhs : CppNum w) : Prop :=
  let x := (lhs.toInt p).natAbs
  let y := (rhs.toInt p).natAbs
  PartsFit w x y ∧ 2 ^ (2 * w) ≤ x * y ∧
    x * y - 2 ^ (2 * w) ≤ if lhs.toInt p * rhs.toInt p < 0 then 2 ^ (p - 1) else 2 ^ (p - 1) - 1

/-- **The product is exact** modulo `2 ^ p`, and overflow is reported when it is not a signed number of `p` bits.
Source: `expr.c` `num_mul` -/
structure ExactProduct {w : ℕ} (p : ℕ) (lhs rhs : CppNum w) : Prop where
  value : ((numMul p lhs rhs).toNat : ℤ) = lhs.toInt p * rhs.toInt p % 2 ^ p
  overflow : lhs.unsignedp = false → rhs.unsignedp = false →
    ((numMul p lhs rhs).overflow = true ↔
      lhs.toInt p * rhs.toInt p < -2 ^ (p - 1) ∨ 2 ^ (p - 1) - 1 < lhs.toInt p * rhs.toInt p)

end Tested

/-! ## Products of parts -/

section Parts

variable {w : ℕ}

theorem two_pow_halves (hw : w % 2 = 0) : 2 ^ w = 2 ^ (w / 2) * 2 ^ (w / 2) := by
  rw [← pow_add]
  congr 1
  omega

theorem toNat_lowPart (hw : w % 2 = 0) (x : BitVec w) : (lowPart x).toNat = x.toNat % 2 ^ (w / 2) := by
  have hmask : (BitVec.allOnes w >>> (w / 2)).toNat = 2 ^ (w / 2) - 1 := by
    have hpos := Nat.two_pow_pos (w / 2)
    rw [toNat_ushiftRight, BitVec.toNat_allOnes, two_pow_halves hw]
    refine Nat.div_eq_of_lt_le ?_ ?_
    · rw [Nat.sub_mul, Nat.one_mul]
      omega
    · rw [Nat.sub_add_cancel hpos]
      have := Nat.mul_pos hpos hpos
      omega
  rw [lowPart, BitVec.toNat_and, hmask, Nat.and_two_pow_sub_one_eq_mod]

theorem toNat_highPart (x : BitVec w) : (highPart x).toNat = x.toNat / 2 ^ (w / 2) := toNat_ushiftRight x (w / 2)

/-- **Products of parts are exact.** Source: `expr.c` `num_part_mul`. Kind: L -/
theorem toNat_numPartMul (hw : w % 2 = 0) (lhs rhs : BitVec w) : (numPartMul lhs rhs).toNat = lhs.toNat * rhs.toNat := by
  have hpow := two_pow_halves hw
  have hpos := Nat.two_pow_pos (w / 2)
  have hlow : ∀ x : BitVec w, (lowPart x).toNat < 2 ^ (w / 2) := by
    intro x
    rw [toNat_lowPart hw]
    exact Nat.mod_lt _ hpos
  have hhigh : ∀ x : BitVec w, (highPart x).toNat < 2 ^ (w / 2) := by
    intro x
    rw [toNat_highPart, Nat.div_lt_iff_lt_mul hpos, ← hpow]
    exact x.isLt
  have hsplit : ∀ x : BitVec w, x.toNat = (highPart x).toNat * 2 ^ (w / 2) + (lowPart x).toNat := by
    intro x
    rw [toNat_lowPart hw, toNat_highPart, Nat.mul_comm, Nat.div_add_mod]
  -- a product of halves fits a part
  have hmul : ∀ x y : BitVec w, x.toNat < 2 ^ (w / 2) → y.toNat < 2 ^ (w / 2) → (x * y).toNat = x.toNat * y.toNat := by
    intro x y hx hy
    rw [BitVec.toNat_mul, hpow]
    exact Nat.mod_eq_of_lt (Nat.mul_lt_mul_of_lt_of_le hx hy.le hpos)
  have hshift : ∀ x : BitVec w, (lowPart x <<< (w / 2)).toNat = (lowPart x).toNat * 2 ^ (w / 2) := by
    intro x
    rw [toNat_shiftLeft (Nat.div_le_self w 2), Nat.mod_eq_of_lt]
    rw [show w - w / 2 = w / 2 by omega]
    exact hlow x
  have hlt : lhs.toNat * rhs.toNat < 2 ^ (2 * w) := by
    rw [two_pow_two_mul]
    exact Nat.mul_lt_mul_of_lt_of_le lhs.isLt rhs.isLt.le (Nat.two_pow_pos w)
  -- the parts are added one after the other
  have hsum : (numPartMul lhs rhs).toNat = (pair (highPart lhs * highPart rhs) (lowPart lhs * lowPart rhs) +
      (lowPart (lowPart lhs * highPart rhs) <<< (w / 2)).toNat + (lowPart (highPart lhs * lowPart rhs) <<< (w / 2)).toNat +
      (highPart (lowPart lhs * highPart rhs)).toNat * 2 ^ w + (highPart (highPart lhs * lowPart rhs)).toNat * 2 ^ w) %
        2 ^ (2 * w) := by
    unfold numPartMul CppNum.toNat
    dsimp only
    rw [pair_add_high, pair_add_high, pair_add_low, pair_add_low]
    simp only [Nat.mod_add_mod]
  have hmiddle0 := hsplit (lowPart lhs * highPart rhs)
  have hmiddle1 := hsplit (highPart lhs * lowPart rhs)
  rw [hmul _ _ (hlow lhs) (hhigh rhs)] at hmiddle0
  rw [hmul _ _ (hhigh lhs) (hlow rhs)] at hmiddle1
  have hprod : pair (highPart lhs * highPart rhs) (lowPart lhs * lowPart rhs) +
      (lowPart (lowPart lhs * highPart rhs) <<< (w / 2)).toNat + (lowPart (highPart lhs * lowPart rhs) <<< (w / 2)).toNat +
      (highPart (lowPart lhs * highPart rhs)).toNat * 2 ^ w + (highPart (highPart lhs * lowPart rhs)).toNat * 2 ^ w =
        lhs.toNat * rhs.toNat := by
    rw [hshift, hshift, pair, hmul _ _ (hhigh lhs) (hhigh rhs), hmul _ _ (hlow lhs) (hlow rhs), hpow, hsplit lhs, hsplit rhs]
    linear_combination 2 ^ (w / 2) * hmiddle0.symm + 2 ^ (w / 2) * hmiddle1.symm
  rw [hsum, hprod, Nat.mod_eq_of_lt hlt]

end Parts

/-! ## Products of magnitudes -/

section Magnitudes

variable {w p x y : ℕ} {lhs rhs : CppNum w}

/-- Four partial products, of which the highest does not count. -/
theorem mul_split (w x y : ℕ) :
    x * y = x % 2 ^ w * (y % 2 ^ w) + x / 2 ^ w * (y % 2 ^ w) * 2 ^ w + x % 2 ^ w * (y / 2 ^ w) * 2 ^ w +
      x / 2 ^ w * (y / 2 ^ w) * 2 ^ (2 * w) := by
  have hx := Nat.div_add_mod x (2 ^ w)
  have hy := Nat.div_add_mod y (2 ^ w)
  conv_lhs => rw [← hx, ← hy]
  rw [two_pow_two_mul]
  ring

/-- Products whose parts do not fit do not fit. -/
theorem partsFit_of_lt (h : x * y < 2 ^ (2 * w)) : PartsFit w x y := by
  have hsplit := mul_split w x y
  have hpos := Nat.two_pow_pos w
  have hsq := two_pow_two_mul w
  refine ⟨?_, ?_, ?_⟩
  · by_contra hc
    rw [not_or, not_lt, not_lt] at hc
    have hle := Nat.mul_le_mul hc.1 hc.2
    omega
  · by_contra hc
    have hle := Nat.mul_le_mul_right (2 ^ w) (not_lt.mp hc)
    omega
  · by_contra hc
    have hle := Nat.mul_le_mul_right (2 ^ w) (not_lt.mp hc)
    omega

/-- Products whose parts fit lose one carry at most. -/
theorem PartsFit.mul_lt (h : PartsFit w x y) : x * y < 2 ^ (2 * w) + 2 ^ (2 * w) := by
  obtain ⟨hone, hxy, hyx⟩ := h
  have hsplit := mul_split w x y
  have hpos := Nat.two_pow_pos w
  have hsq := two_pow_two_mul w
  have hlow : x % 2 ^ w * (y % 2 ^ w) ≤ (2 ^ w - 1) * (2 ^ w - 1) :=
    Nat.mul_le_mul (Nat.le_sub_one_of_lt (Nat.mod_lt _ hpos)) (Nat.le_sub_one_of_lt (Nat.mod_lt _ hpos))
  have hle1 := Nat.mul_le_mul_right (2 ^ w) (Nat.le_sub_one_of_lt hxy)
  have hle2 := Nat.mul_le_mul_right (2 ^ w) (Nat.le_sub_one_of_lt hyx)
  have hmul : (2 ^ w - 1) * (2 ^ w - 1) + (2 ^ w - 1) + 2 ^ w = 2 ^ w * 2 ^ w := by
    obtain ⟨k, hk⟩ := Nat.exists_eq_add_of_lt hpos
    rw [hk]
    simp only [Nat.zero_add, Nat.add_sub_cancel]
    ring
  have hsub : (2 ^ w - 1) * 2 ^ w = (2 ^ w - 1) * (2 ^ w - 1) + (2 ^ w - 1) := by
    obtain ⟨k, hk⟩ := Nat.exists_eq_add_of_lt hpos
    rw [hk]
    simp only [Nat.zero_add, Nat.add_sub_cancel]
    ring
  -- one of the high parts is zero, and with it one of the middle products
  rcases hone with hx | hy
  · rw [Nat.div_eq_of_lt hx, Nat.zero_mul, Nat.zero_mul, Nat.zero_mul, Nat.zero_mul] at hsplit
    omega
  · rw [Nat.div_eq_of_lt hy, Nat.mul_zero, Nat.zero_mul, Nat.mul_zero, Nat.zero_mul] at hsplit
    omega

/-- The sum of the partial products, before it is trimmed. Source: `expr.c` `num_mul` (`result.high += temp.low`). Kind: L -/
theorem pair_partial (hw : w % 2 = 0) (lhs rhs : CppNum w) :
    pair ((numPartMul lhs.low rhs.low).high + (numPartMul lhs.high rhs.low).low + (numPartMul lhs.low rhs.high).low)
      (numPartMul lhs.low rhs.low).low = lhs.toNat * rhs.toNat % 2 ^ (2 * w) := by
  have hmod : ∀ a b : BitVec w, (numPartMul a b).low.toNat = a.toNat * b.toNat % 2 ^ w := by
    intro a b
    rw [← toNat_numPartMul hw a b]
    exact (pair_mod _ _).symm
  have hfirst : pair (numPartMul lhs.low rhs.low).high (numPartMul lhs.low rhs.low).low = lhs.low.toNat * rhs.low.toNat :=
    toNat_numPartMul hw lhs.low rhs.low
  have hl := pair_div lhs.high lhs.low
  have hl' := pair_mod lhs.high lhs.low
  have hr := pair_div rhs.high rhs.low
  have hr' := pair_mod rhs.high rhs.low
  have hsplit := mul_split w lhs.toNat rhs.toNat
  unfold CppNum.toNat at hsplit ⊢
  rw [hl, hl', hr, hr'] at hsplit
  rw [pair_add_high, pair_add_high, hfirst, hmod, hmod, hsplit, Nat.add_mul_mod_self_right, two_pow_two_mul]
  rw [← Nat.mul_mod_mul_right, ← Nat.mul_mod_mul_right]
  simp only [Nat.mod_add_mod, Nat.add_mod_mod]

/-- **The product**, trimmed. Source: `expr.c` `num_mul`. Kind: L -/
theorem toNat_numMulParts (hw : w % 2 = 0) (hpw : p ≤ 2 * w) :
    (numMulParts p lhs rhs).1.toNat = lhs.toNat * rhs.toNat % 2 ^ p := by
  have hproduct := pair_partial hw lhs rhs
  unfold numMulParts
  dsimp only
  rw [toNat_numTrim, CppNum.toNat]
  dsimp only
  rw [hproduct, Nat.mod_mod_of_dvd _ (Nat.pow_dvd_pow 2 hpw)]

/-- **The overflow seen** while the parts are added. Source: `expr.c` `num_mul`. Kind: L -/
theorem overflow_numMulParts (hw : w % 2 = 0) :
    (numMulParts p lhs rhs).2 = true ↔
      ¬ PartsFit w lhs.toNat rhs.toNat ∨ 2 ^ p ≤ lhs.toNat * rhs.toNat % 2 ^ (2 * w) := by
  have hproduct := pair_partial hw lhs rhs
  have hhigh : ∀ a b : BitVec w, (numPartMul a b).high ≠ 0 ↔ 2 ^ w ≤ a.toNat * b.toNat := by
    intro a b
    rw [high_ne_zero_iff, toNat_numPartMul hw]
  have htrim : ∀ num : CppNum w, numEq (numTrim num p) num = true ↔ num.toNat < 2 ^ p := by
    intro num
    rw [numEq_iff, toNat_numTrim]
    exact Nat.mod_eq_iff_lt (Nat.two_pow_pos p).ne'
  have hl : lhs.toNat / 2 ^ w = lhs.high.toNat := pair_div lhs.high lhs.low
  have hl' : lhs.toNat % 2 ^ w = lhs.low.toNat := pair_mod lhs.high lhs.low
  have hr : rhs.toNat / 2 ^ w = rhs.high.toNat := pair_div rhs.high rhs.low
  have hr' : rhs.toNat % 2 ^ w = rhs.low.toNat := pair_mod rhs.high rhs.low
  unfold numMulParts PartsFit
  dsimp only
  simp only [Bool.or_eq_true, Bool.and_eq_true, bne_iff_ne, Bool.not_eq_true', hhigh, high_ne_zero_iff]
  rw [← Bool.not_eq_true, htrim]
  rw [hl, hl', hr, hr', ← hproduct]
  simp only [not_and_or, not_or, not_lt, or_assoc, CppNum.toNat]

end Magnitudes

/-! ## Signs -/

section Signs

variable {w p : ℕ} {lhs rhs : CppNum w}

/-- The product of two numbers is that of their magnitudes, negated if the signs differ. -/
theorem mul_eq_natAbs (x y : ℤ) {negX negY : Bool} (hx : negX = true ↔ x < 0) (hy : negY = true ↔ y < 0) :
    x * y = if (negX ^^ negY) = true then -((x.natAbs * y.natAbs : ℕ) : ℤ) else (x.natAbs * y.natAbs : ℕ) := by
  have hx' := eq_signed_natAbs hx
  have hy' := eq_signed_natAbs hy
  rw [hx', hy']
  push_cast
  cases negX <;> cases negY <;> simp

/-- **A signed product**: the value, and when overflow is reported. Source: `expr.c` `num_mul`. Kind: L -/
theorem numMul_signed (hw : w % 2 = 0) (hp : 0 < p) (hpw : p ≤ 2 * w) (hl : Trimmed p lhs) (hr : Trimmed p rhs)
    (hls : lhs.unsignedp = false) (hrs : rhs.unsignedp = false) :
    ∃ negate : Bool, ∃ m : ℕ, m = (lhs.toInt p).natAbs * (rhs.toInt p).natAbs ∧
      lhs.toInt p * rhs.toInt p = (if negate = true then -(m : ℤ) else m) ∧
      (numMul p lhs rhs).toNat = (if negate = true then (2 ^ p - m % 2 ^ p) % 2 ^ p else m % 2 ^ p) ∧
      ((numMul p lhs rhs).overflow = true ↔ ¬ PartsFit w (lhs.toInt p).natAbs (rhs.toInt p).natAbs ∨
        2 ^ p ≤ m % 2 ^ (2 * w) ∨ (if negate = true then 2 ^ (p - 1) else 2 ^ (p - 1) - 1) < m % 2 ^ p) := by
  obtain ⟨hx, hnegX⟩ := toNat_prepared hp hpw hl hls
  obtain ⟨hy, hnegY⟩ := toNat_prepared hp hpw hr hrs
  have hmul := mul_eq_natAbs _ _ hnegX hnegY
  generalize hl' : (if (!numPositive lhs p) = true then numNegate lhs p else lhs) = l at hx
  generalize hr' : (if (!numPositive rhs p) = true then numNegate rhs p else rhs) = r at hy
  have hvalue : (numMulParts p l r).1.toNat = l.toNat * r.toNat % 2 ^ p := toNat_numMulParts hw hpw
  have hseen : (numMulParts p l r).2 = true ↔ ¬ PartsFit w l.toNat r.toNat ∨ 2 ^ p ≤ l.toNat * r.toNat % 2 ^ (2 * w) :=
    overflow_numMulParts hw
  rw [hx, hy] at hvalue hseen
  generalize hnegate : (!numPositive lhs p ^^ !numPositive rhs p) = negate at hmul
  have heq : numMul p lhs rhs =
      { (if negate = true then numNegate (numMulParts p l r).1 p else (numMulParts p l r).1) with
        overflow := (numMulParts p l r).2 ||
          (numPositive (if negate = true then numNegate (numMulParts p l r).1 p else (numMulParts p l r).1) p ^^ !negate) &&
            !numZerop (if negate = true then numNegate (numMulParts p l r).1 p else (numMulParts p l r).1)
        unsignedp := false } := by
    unfold numMul
    simp only [hls, hrs, Bool.or_self, Bool.not_false, Bool.true_and, Bool.false_eq_true, if_false]
    rw [hl', hr', hnegate]
  have htrim : Trimmed p (numMulParts p l r).1 := by
    rw [Trimmed, hvalue]
    exact Nat.mod_lt _ (Nat.two_pow_pos p)
  generalize numMulParts p l r = res at *
  obtain ⟨result, seen⟩ := res
  dsimp only at hvalue hseen heq htrim
  have hhalf := two_pow_half hp
  have hpos := Nat.two_pow_pos (p - 1)
  refine ⟨negate, _, rfl, hmul, ?_, ?_⟩
  · rw [heq]
    cases negate with
    | false => exact hvalue
    | true =>
      rw [if_pos rfl, ← hvalue]
      exact toNat_numNegate hpw htrim
  · rw [heq]
    simp only [Bool.or_eq_true, Bool.and_eq_true, hseen, or_assoc]
    refine or_congr Iff.rfl (or_congr Iff.rfl ?_)
    -- the sign that the result has, and the one that it should have
    rw [← hvalue]
    unfold Trimmed at htrim
    cases negate with
    | false =>
      simp only [Bool.false_eq_true, if_false, Bool.not_false, Bool.xor_true, Bool.not_eq_true']
      rw [← Bool.not_eq_true, ← Bool.not_eq_true, numZerop_iff, numPositive_iff hp hpw htrim]
      omega
    | true =>
      have hneg := toNat_numNegate hpw htrim
      have hmod : (2 ^ p - result.toNat) % 2 ^ p = if result.toNat = 0 then 0 else 2 ^ p - result.toNat := by
        split_ifs with hzero
        · rw [hzero, Nat.sub_zero, Nat.mod_self]
        · exact Nat.mod_eq_of_lt (by omega)
      rw [hmod] at hneg
      simp only [if_true, Bool.not_true, Bool.xor_false, Bool.not_eq_true']
      rw [← Bool.not_eq_true, numZerop_iff, numPositive_iff hp hpw (trimmed_numNegate hpw htrim), hneg]
      split_ifs <;> omega

/-- **The value** of a product. Source: `expr.c` `num_mul`. Kind: L -/
theorem toNat_numMul (hw : w % 2 = 0) (hp : 0 < p) (hpw : p ≤ 2 * w) (hl : Trimmed p lhs) (hr : Trimmed p rhs) :
    ((numMul p lhs rhs).toNat : ℤ) = lhs.toInt p * rhs.toInt p % 2 ^ p := by
  by_cases hs : lhs.unsignedp = false ∧ rhs.unsignedp = false
  · obtain ⟨negate, m, -, hprod, hvalue, -⟩ := numMul_signed hw hp hpw hl hr hs.1 hs.2
    rw [hprod, hvalue]
    cases negate with
    | false =>
      simp only [Bool.false_eq_true, if_false]
      push_cast
      rfl
    | true =>
      have hle : m % 2 ^ p ≤ 2 ^ p := (Nat.mod_lt _ (Nat.two_pow_pos p)).le
      simp only [if_true]
      push_cast [hle]
      rw [Int.sub_emod, Int.emod_emod_of_dvd _ (dvd_refl _), ← Int.sub_emod, ← Int.add_emod_right (-(m : ℤ))]
      congr 1
      ring
  · have hunsigned : (lhs.unsignedp || rhs.unsignedp) = true := by
      by_contra hc
      simp only [Bool.not_eq_true, Bool.or_eq_false_iff] at hc
      exact hs hc
    have hvalue : (numMul p lhs rhs).toNat = lhs.toNat * rhs.toNat % 2 ^ p := by
      rw [← toNat_numMulParts hw hpw]
      unfold numMul
      simp only [hunsigned, Bool.not_true, Bool.false_and, Bool.false_eq_true, if_false, Bool.xor_self]
      rfl
    rw [hvalue, Int.mul_emod, lhs.toInt_emod, rhs.toInt_emod, ← Int.mul_emod]
    push_cast
    rfl

/-- **Overflow** of a signed product is reported right exactly when no carry is lost. Source: `expr.c` `num_mul`. Kind: P -/
theorem numMul_exact_iff (hw : w % 2 = 0) (hp : 0 < p) (hpw : p ≤ 2 * w) (hl : Trimmed p lhs) (hr : Trimmed p rhs) :
    ExactProduct p lhs rhs ↔ ¬ (lhs.unsignedp = false ∧ rhs.unsignedp = false ∧ LostCarry p lhs rhs) := by
  have hvalue := toNat_numMul hw hp hpw hl hr
  by_cases hs : lhs.unsignedp = false ∧ rhs.unsignedp = false
  · obtain ⟨negate, m, hm, hprod, -, hover⟩ := numMul_signed hw hp hpw hl hr hs.1 hs.2
    have hclaim : ExactProduct p lhs rhs ↔ ((numMul p lhs rhs).overflow = true ↔
        lhs.toInt p * rhs.toInt p < -2 ^ (p - 1) ∨ 2 ^ (p - 1) - 1 < lhs.toInt p * rhs.toInt p) :=
      ⟨fun h => h.overflow hs.1 hs.2, fun h => ⟨hvalue, fun _ _ => h⟩⟩
    rw [hclaim, hover, LostCarry, and_iff_right hs.1, and_iff_right hs.2, ← hm]
    have hfit := partsFit_of_lt (w := w) (x := (lhs.toInt p).natAbs) (y := (rhs.toInt p).natAbs)
    have hlost := PartsFit.mul_lt (w := w) (x := (lhs.toInt p).natAbs) (y := (rhs.toInt p).natAbs)
    rw [← hm] at hfit hlost
    have hM : (2 : ℤ) ^ (p - 1) = ((2 ^ (p - 1) : ℕ) : ℤ) := by push_cast; rfl
    have hhalf := two_pow_half hp
    have hpos := Nat.two_pow_pos (p - 1)
    have hle : 2 ^ p ≤ 2 ^ (2 * w) := Nat.pow_le_pow_right (by omega) hpw
    have hrem : m % 2 ^ p = m % 2 ^ (2 * w) % 2 ^ p := (Nat.mod_mod_of_dvd _ (Nat.pow_dvd_pow 2 hpw)).symm
    have hwrap : 2 ^ (2 * w) ≤ m → m < 2 ^ (2 * w) + 2 ^ (2 * w) → m % 2 ^ (2 * w) = m - 2 ^ (2 * w) := by
      intro hge hlt
      rw [Nat.mod_eq_sub_mod hge, Nat.mod_eq_of_lt (by omega)]
    -- the two tests of the remainder are one
    have htest : ∀ b < 2 ^ p, (2 ^ p ≤ m % 2 ^ (2 * w) ∨ b < m % 2 ^ p) ↔ b < m % 2 ^ (2 * w) := by
      intro b hb
      rw [hrem]
      rcases lt_or_ge (m % 2 ^ (2 * w)) (2 ^ p) with hlt | hge
      · rw [Nat.mod_eq_of_lt hlt]
        omega
      · exact iff_of_true (.inl hge) (by omega)
    rw [hprod, hM, htest _ (by split_ifs <;> omega)]
    generalize PartsFit w (lhs.toInt p).natAbs (rhs.toInt p).natAbs = fit at *
    clear hM
    generalize 2 ^ (p - 1) = half at *
    generalize 2 ^ (2 * w) = whole at *
    rcases lt_or_ge m whole with hlt | hge
    · -- nothing is lost
      rw [Nat.mod_eq_of_lt hlt]
      have hfits := hfit hlt
      cases negate <;> simp only [Bool.false_eq_true, if_false, if_true, hfits, not_true_eq_false, false_or, true_and] <;> omega
    · by_cases hfits : fit
      · rw [hwrap hge (hlost hfits)]
        cases negate <;> simp only [Bool.false_eq_true, if_false, if_true, hfits, not_true_eq_false, false_or, true_and] <;> split_ifs <;> omega
      · cases negate <;> simp only [Bool.false_eq_true, if_false, if_true, hfits, not_false_eq_true, true_or, false_and, true_iff, iff_true] <;>
          omega
  · exact iff_of_true ⟨hvalue, fun hls hrs => absurd ⟨hls, hrs⟩ hs⟩ fun h => hs ⟨h.1, h.2.1⟩

end Signs

/-- `-5 * 7` in 64 bits. Source: `expr.c` `num_mul`. Kind: C -/
theorem numMul_exact_five_seven :
    ExactProduct 64 (⟨0xffffffff, 0xfffffffb, false, false⟩ : CppNum 32) ⟨0, 7, false, false⟩ :=
  (numMul_exact_iff (by decide) (by decide) (by decide) (by unfold Trimmed; decide) (by unfold Trimmed; decide)).mpr
    (by unfold LostCarry PartsFit; decide)

/-- `6148914694099828735 * 3` in 64 bits, with parts of 32 bits: no overflow is reported. Source: `expr.c` `num_mul`. Kind: C -/
theorem numMul_lost_carry :
    ¬ ExactProduct 64 (⟨0x55555555, 0xffffffff, false, false⟩ : CppNum 32) ⟨0, 3, false, false⟩ := by
  intro h
  have hreport : (numMul 64 (⟨0x55555555, 0xffffffff, false, false⟩ : CppNum 32) ⟨0, 3, false, false⟩).overflow = false := by
    decide
  have hover := (h.overflow rfl rfl).mpr (.inr (by decide))
  rw [hreport] at hover
  exact Bool.noConfusion hover

end GccCore.Cpp.Expr
