import GccCore.Gcc.FoldConst.IntBinop
import Mathlib.Algebra.Ring.Int.Parity
import Mathlib.Data.Nat.Choose.Basic
import Mathlib.Tactic.LinearCombination

/-!
# `gcc/tree-chrec.c`: binomial coefficients of constants

The numerator is a falling product in two words, checked for overflow at every factor, and the denominator a factorial that is not
checked.

* **The loop** (`binomialLoop_spec`): as long as no product overflows, both are exact.
* **Coefficients** (`treeFoldBinomial_spec`) of a constant whose two words are its value: what the division gives is the coefficient.
* **Coefficients of a negative reading** (`treeFoldBinomial_two`): the second one is that of the reading.
-/

namespace GccCore.Gcc.TreeChrec

open GccCore.Gcc.FoldConst GccCore.Lib.MachineInt

variable {h : ℕ}

/-! ## The code -/

/-- The integer a constant of a type stands for: that of a size type is sign extended, although it is unsigned.
Source: `tree.c` `int_fits_type_p` (comment) -/
def valueOf (t : CstType h) (c : DoubleWord h) : ℤ :=
  if t.unsigned then if t.sizetype then (c.toNat : ℤ) % 2 ^ t.prec else c.toNat else c.toInt

/-- Source: `tree.c` `tree_int_cst_sgn`. -/
def treeIntCstSgn (t : CstType h) (c : DoubleWord h) : ℤ :=
  if c.low = 0 ∧ c.high = 0 then 0 else if t.unsigned then 1 else if c.high.msb then -1 else 1

/-- Source: `fold-const.c` `fold_convert_const_int_from_int`. -/
def foldConvert (type : CstType h) (c : DoubleWord h) : DoubleWord h := (fitDoubleType c type).1

/-- A constant of the type is compared with the bounds of the type. Source: `tree.c` `int_fits_type_p`. -/
def intFitsTypeP (c : DoubleWord h) (type : CstType h) : Bool :=
  decide (typeMin type.prec type.unsigned ≤ valueOf type c) && decide (valueOf type c ≤ typeMax type.prec type.unsigned)

/-- One less, in two words. Source: `tree-chrec.c` `tree_fold_binomial` ("Index--."). -/
def previous (x : DoubleWord h) : DoubleWord h := if x.low = 0 then ⟨-1, x.high - 1⟩ else ⟨x.low - 1, x.high⟩

/-- The numerator and the denominator after `r` more factors, from the factor `i` on.
Source: `tree-chrec.c` `tree_fold_binomial` (`for (i = 3; i <= k; i++)`) -/
def binomialLoop : ℕ → ℕ → DoubleWord h → DoubleWord h → DoubleWord h → Option (DoubleWord h × DoubleWord h)
  | 0, _, _, num, denom => some (num, denom)
  | r + 1, i, idx, num, denom =>
    let idx := previous idx
    let prod := mulDouble num idx
    if prod.2 then none else binomialLoop r (i + 1) idx prod.1 (mulDouble denom ⟨BitVec.ofNat _ i, 0⟩).1

/-- The coefficient, or none if a product overflows. Source: `tree-chrec.c` `tree_fold_binomial`. -/
def treeFoldBinomial (type : CstType h) (n : DoubleWord h) (k : ℕ) : Option (DoubleWord h) :=
  if k = 0 then some ⟨1, 0⟩
  else if k = 1 then some (foldConvert type n)
  else if n.high = 0 ∧ n.low.toNat < k then none
  else
    let idx := previous n
    let prod := mulDouble n idx
    if prod.2 then none
    else (binomialLoop (k - 2) 3 idx prod.1 ⟨2, 0⟩).bind fun (num, denom) =>
      let res := (divAndRoundDouble .EXACT_DIV_EXPR true num denom).1
      if intFitsTypeP res type then some res else none

/-! ## Two words -/

section Words

variable (hh : 0 < h) {x y : DoubleWord h} {z : ℤ} {N : ℕ}

include hh

theorem toInt_of_toNat_lt (hlt : x.toNat < 2 ^ (4 * h - 1)) : x.toInt = x.toNat := by
  rw [DoubleWord.toInt, if_neg fun hmsb => absurd ((x.msb_iff hh).mp hmsb) (not_le.mpr hlt)]

/-- One less, modulo the width. Source: `tree-chrec.c` `tree_fold_binomial` ("Index = Numerator-1."). Kind: L -/
theorem previous_modEq (x : DoubleWord h) : ((previous x).toNat : ℤ) ≡ x.toInt - 1 [ZMOD 2 ^ (4 * h)] := by
  refine Int.ModEq.trans ?_ ((x.value_modEq false).sub_right 1)
  have hone : (1 : Word h).toNat = 1 := one_toNat hh
  have hlow := x.low.isLt
  have hhigh := x.high.isLt
  have hbig : 2 ≤ 2 ^ (2 * h) := Nat.le_self_pow (by omega) 2
  rw [previous]
  split_ifs with hzero
  · have hlowZero : x.low.toNat = 0 := by rw [hzero]; exact BitVec.toNat_zero
    have hmod : ((x.high - 1).toNat : ℤ) ≡ x.high.toNat - 1 [ZMOD 2 ^ (2 * h)] := by
      rw [BitVec.toNat_sub, hone]
      push_cast [Nat.cast_sub (by omega : 1 ≤ 2 ^ (2 * h))]
      exact (Int.mod_modEq _ _).trans (Int.modEq_iff_dvd.mpr ⟨-1, by ring⟩)
    obtain ⟨c, hc⟩ := Int.modEq_iff_dvd.mp hmod
    rw [DoubleWord.toNat, DoubleWord.toNat, hlowZero, BitVec.toNat_neg, hone, Nat.mod_eq_of_lt (by omega)]
    refine Int.modEq_iff_dvd.mpr ⟨c, ?_⟩
    have hpow : (2 : ℤ) ^ (4 * h) = 2 ^ (2 * h) * 2 ^ (2 * h) := by
      rw [← pow_add]
      congr 1
      omega
    rw [hpow]
    push_cast [Nat.cast_sub (by omega : 1 ≤ 2 ^ (2 * h))]
    linear_combination (2 : ℤ) ^ (2 * h) * hc
  · have hpos : 0 < x.low.toNat := Nat.pos_of_ne_zero fun hz => hzero (BitVec.eq_of_toNat_eq (hz.trans BitVec.toNat_zero.symm))
    have hsub : (x.low - 1).toNat = x.low.toNat - 1 := by
      rw [BitVec.toNat_sub_of_le (by rw [BitVec.le_def, hone]; exact hpos), hone]
    rw [DoubleWord.toNat, DoubleWord.toNat, hsub]
    push_cast [Nat.cast_sub (Nat.succ_le_of_lt hpos)]
    exact Int.modEq_iff_dvd.mpr ⟨0, by ring⟩

/-- One less, but for the least integer. Source: `tree-chrec.c` `tree_fold_binomial` ("Index = Numerator-1."). Kind: L -/
theorem previous_toInt (hx : -2 ^ (4 * h - 1) < x.toInt) : (previous x).toInt = x.toInt - 1 := by
  have hbounds := x.toInt_bounds hh
  exact (previous x).toInt_eq_of_modEq hh (previous_modEq hh x) (by omega) (by omega)

/-- A product that does not overflow is exact. Source: `fold-const.c` `mul_double`. Kind: L -/
theorem mulDouble_toInt (hflag : (mulDouble x y).2 = false) :
    (mulDouble x y).1.toInt = x.toInt * y.toInt ∧ -2 ^ (4 * h - 1) ≤ x.toInt * y.toInt ∧ x.toInt * y.toInt < 2 ^ (4 * h - 1) := by
  obtain ⟨hmod, hiff⟩ := exactDouble_mul hh x y
  have hin : inType (4 * h) false (x.toInt * y.toInt) := by
    by_contra hout
    exact Bool.false_ne_true (hflag.symm.trans (hiff.mpr hout))
  exact ⟨DoubleWord.toInt_eq_of_modEq hh _ hmod hin.1 hin.2, hin⟩

omit hh in
theorem toNat_of_toInt_nonneg (hx : x.toInt = N) : x.toNat = N := by
  rw [DoubleWord.toInt] at hx
  split_ifs at hx with hmsb
  · have hlt : (x.toNat : ℤ) < 2 ^ (4 * h) := by exact_mod_cast x.toNat_lt
    omega
  · exact_mod_cast hx

end Words

/-! ## The loop -/

section Loop

variable (hh : 0 < h) {n idx num denom num' denom' : DoubleWord h} {N i k r : ℕ}

include hh

/-- **The loop**: as long as no product overflows, the numerator is the falling product and the denominator the factorial.
Source: `tree-chrec.c` `tree_fold_binomial`
Kind: L -/
theorem binomialLoop_spec (hN : N < 2 ^ (2 * h)) (hi : i + r ≤ N) (hidx : idx.toInt = (N - i : ℕ) + 1)
    (hnum : num.toInt = N.descFactorial i) (hdenom : denom.toNat = i.factorial)
    (hloop : binomialLoop r (i + 1) idx num denom = some (num', denom')) :
    num'.toInt = N.descFactorial (i + r) ∧ denom'.toNat = (i + r).factorial := by
  induction r generalizing i idx num denom with
  | zero =>
    obtain ⟨rfl, rfl⟩ := Prod.mk.inj (Option.some.inj hloop)
    exact ⟨hnum, hdenom⟩
  | succ r ih =>
    have hprevious : (previous idx).toInt = (N - i : ℕ) := by
      rw [previous_toInt hh, hidx, add_sub_cancel_right]
      rw [hidx]
      have hneg : -(2 : ℤ) ^ (4 * h - 1) < 0 := neg_neg_of_pos (by positivity)
      omega
    rw [binomialLoop] at hloop
    by_cases hflag : (mulDouble num (previous idx)).2 = true
    · rw [if_pos hflag] at hloop
      exact (nomatch hloop)
    rw [if_neg hflag] at hloop
    obtain ⟨hprod, -, hbound⟩ := mulDouble_toInt hh (Bool.eq_false_iff.mpr hflag)
    rw [hnum, hprevious] at hprod hbound
    have hdesc : N.descFactorial (i + 1) = N.descFactorial i * (N - i) := by
      rw [Nat.descFactorial_succ, mul_comm]
    -- the factorial is at most the falling product, which has not overflowed
    have hfactorial : (i + 1).factorial < 2 ^ (4 * h) := by
      have hle : (i + 1).factorial ≤ N.descFactorial (i + 1) := by
        rw [Nat.descFactorial_eq_factorial_mul_choose]
        exact Nat.le_mul_of_pos_right _ (Nat.choose_pos (by omega))
      have hlt : N.descFactorial (i + 1) < 2 ^ (4 * h - 1) := by
        rw [hdesc]
        exact_mod_cast hbound
      have hwidth : 2 ^ (4 * h) = 2 * 2 ^ (4 * h - 1) := two_pow_width hh
      omega
    have hfactor : (DoubleWord.mk (BitVec.ofNat (2 * h) (i + 1)) 0).toNat = i + 1 := by
      rw [DoubleWord.toNat, BitVec.toNat_ofNat, Nat.mod_eq_of_lt (by omega)]
      exact (congrArg ((i + 1) + · * 2 ^ (2 * h)) BitVec.toNat_zero).trans (by rw [zero_mul, add_zero])
    rw [← add_assoc, add_right_comm]
    refine ih (by omega) ?_ ?_ ?_ hloop
    · rw [hprevious]
      omega
    · rw [hprod, hdesc]
      push_cast
      rfl
    · rw [mulDouble, mulDoubleWithSign_toNat hh, hdenom, hfactor, mul_comm, ← Nat.factorial_succ, Nat.mod_eq_of_lt hfactorial]

end Loop

/-! ## Coefficients -/

section Coefficients

variable (hh : 0 < h) {type : CstType h} {n c num denom : DoubleWord h} {N k : ℕ}

include hh

/-- The division, of a numerator that is not negative. Source: `tree-chrec.c` ("Result = Numerator / Denominator."). Kind: L -/
theorem exactDiv_toNat (hdenom : denom.toNat ≠ 0) :
    (divAndRoundDouble .EXACT_DIV_EXPR true num denom).1.toNat = num.toNat / denom.toNat := by
  have hzero : ¬ (denom.high = 0 ∧ denom.low = 0) := by
    rintro ⟨hhigh, hlow⟩
    refine hdenom ?_
    rw [DoubleWord.toNat, hhigh, hlow]
    exact (congrArg₂ (· + · * 2 ^ (2 * h)) BitVec.toNat_zero BitVec.toNat_zero).trans (by rw [zero_mul, add_zero])
  have hquo : (divAndRoundDouble .EXACT_DIV_EXPR true num denom).1 = absQuo num denom := by
    simp only [divAndRoundDouble, if_neg hzero]
    rfl
  rw [hquo, absQuo_toNat hh num denom hdenom]

omit hh in
/-- What a known coefficient comes from, after the two that are read off.
Source: `tree-chrec.c` `tree_fold_binomial`
Kind: L -/
theorem treeFoldBinomial_cases (hk : 2 ≤ k) (hc : treeFoldBinomial type n k = some c) :
    ¬ (n.high = 0 ∧ n.low.toNat < k) ∧ (mulDouble n (previous n)).2 = false ∧ ∃ num denom,
      binomialLoop (k - 2) 3 (previous n) (mulDouble n (previous n)).1 ⟨2, 0⟩ = some (num, denom) ∧
        c = (divAndRoundDouble .EXACT_DIV_EXPR true num denom).1 ∧ intFitsTypeP c type = true := by
  rw [treeFoldBinomial, if_neg (by omega), if_neg (by omega)] at hc
  dsimp only at hc
  split_ifs at hc with hless hflag
  obtain ⟨⟨num, denom⟩, hloop, hc⟩ := Option.bind_eq_some_iff.mp hc
  dsimp only at hc
  split_ifs at hc with hfits
  obtain rfl := Option.some.inj hc
  exact ⟨hless, eq_false_of_ne_true hflag, num, denom, hloop, rfl, hfits⟩

/-- A product of an integer and the one before that does not overflow comes from one word. -/
theorem lt_of_mul_pred_lt (hN : (N : ℤ) * (N - 1) < 2 ^ (4 * h - 1)) : N < 2 ^ (2 * h) := by
  by_contra hge
  have hbig : 2 ≤ 2 ^ (2 * h) := Nat.le_self_pow (by omega) 2
  have hwidth : (2 : ℤ) * 2 ^ (4 * h - 1) = 2 ^ (2 * h) * 2 ^ (2 * h) := by
    rw [← pow_succ', ← pow_add]
    congr 1
    omega
  have hge' : (2 : ℤ) ^ (2 * h) ≤ N := by exact_mod_cast not_lt.mp hge
  have hbig' : (2 : ℤ) ≤ 2 ^ (2 * h) := by exact_mod_cast hbig
  have hmul : (2 : ℤ) ^ (2 * h) * (2 ^ (2 * h) - 1) ≤ N * (N - 1) := mul_le_mul hge' (by omega) (by omega) (by omega)
  have hsquare : (2 : ℤ) ^ (2 * h) * 2 ≤ 2 ^ (2 * h) * 2 ^ (2 * h) := mul_le_mul_of_nonneg_left hbig' (by omega)
  rw [mul_sub, mul_one] at hmul
  omega

omit hh in
theorem le_of_check (hnat : n.toNat = N) (hN : N < 2 ^ (2 * h)) (hless : ¬ (n.high = 0 ∧ n.low.toNat < k)) : k ≤ N := by
  rw [DoubleWord.toNat] at hnat
  have hhigh : n.high.toNat = 0 := by
    by_contra hne
    have : 2 ^ (2 * h) ≤ n.high.toNat * 2 ^ (2 * h) := Nat.le_mul_of_pos_left _ (Nat.pos_of_ne_zero hne)
    omega
  rw [hhigh, zero_mul, add_zero] at hnat
  rw [← hnat]
  exact not_lt.mp fun hlt => hless ⟨BitVec.eq_of_toNat_eq (hhigh.trans BitVec.toNat_zero.symm), hlt⟩

theorem two_toNat : (⟨2, 0⟩ : DoubleWord h).toNat = 2 := by
  have hbig : 2 ^ 2 ≤ 2 ^ (2 * h) := Nat.pow_le_pow_right (by decide) (by omega)
  have hlow : (2 : Word h).toNat = 2 := (BitVec.toNat_ofNat 2 (2 * h)).trans (Nat.mod_eq_of_lt (by omega))
  rw [DoubleWord.toNat, hlow]
  exact (congrArg (2 + · * 2 ^ (2 * h)) BitVec.toNat_zero).trans (by rw [zero_mul, add_zero])

/-- **Coefficients**: of a constant whose two words are not negative, what is returned is the coefficient, and fits the type.
Source: `tree-chrec.c` `tree_fold_binomial`
Kind: L -/
theorem treeFoldBinomial_spec (hn : n.toInt = N) (hk : 2 ≤ k) (hc : treeFoldBinomial type n k = some c) :
    c.toNat = N.choose k ∧ N.choose k < 2 ^ (4 * h - 1) ∧ intFitsTypeP c type = true := by
  obtain ⟨hless, hflag, num, denom, hloop, rfl, hfits⟩ := treeFoldBinomial_cases hk hc
  obtain ⟨hprod, -, hbound⟩ := mulDouble_toInt hh hflag
  have hneg : -(2 : ℤ) ^ (4 * h - 1) < 0 := neg_neg_of_pos (by positivity)
  have hprevious : (previous n).toInt = N - 1 := by rw [previous_toInt hh (by omega), hn]
  rw [hn, hprevious] at hprod hbound
  have hN : N < 2 ^ (2 * h) := lt_of_mul_pred_lt hh hbound
  have hkN : k ≤ N := le_of_check (toNat_of_toInt_nonneg hn) hN hless
  -- the loop starts with two factors
  have hidx : (previous n).toInt = (N - 2 : ℕ) + 1 := by
    rw [hprevious]
    omega
  have hstart : (mulDouble n (previous n)).1.toInt = N.descFactorial 2 := by
    rw [hprod, Nat.descFactorial_succ, Nat.descFactorial_one, Nat.cast_mul, Nat.cast_sub (by omega), mul_comm, Nat.cast_one]
  obtain ⟨hnum, hdenom⟩ := binomialLoop_spec hh hN (by omega) hidx hstart (two_toNat hh) hloop
  rw [show 2 + (k - 2) = k by omega] at hnum hdenom
  have hpos : 0 < k.factorial := k.factorial_pos
  refine ⟨?_, ?_, hfits⟩
  · rw [exactDiv_toNat hh (by omega), toNat_of_toInt_nonneg hnum, hdenom, Nat.descFactorial_eq_factorial_mul_choose,
      Nat.mul_div_cancel_left _ hpos]
  · have hlt := (num.toInt_bounds hh).2
    rw [hnum] at hlt
    have hlt' : N.descFactorial k < 2 ^ (4 * h - 1) := by exact_mod_cast hlt
    refine lt_of_le_of_lt ?_ hlt'
    rw [Nat.descFactorial_eq_factorial_mul_choose]
    exact Nat.le_mul_of_pos_left _ hpos

/-- **The second coefficient** of a constant whose two words are negative is that of the negative integer.
Source: `tree-chrec.c` `tree_fold_binomial`
Kind: L -/
theorem treeFoldBinomial_two (hn : n.toInt < 0) (hc : treeFoldBinomial type n 2 = some c) :
    2 * (c.toNat : ℤ) = n.toInt * (n.toInt - 1) := by
  obtain ⟨-, hflag, num, denom, hloop, rfl, -⟩ := treeFoldBinomial_cases le_rfl hc
  obtain ⟨rfl, rfl⟩ := Prod.mk.inj (Option.some.inj hloop)
  obtain ⟨hprod, hlow, hhigh⟩ := mulDouble_toInt hh hflag
  have hbounds := n.toInt_bounds hh
  have hwidth : (8 : ℤ) ≤ 2 ^ (4 * h - 1) := by
    have hle : 2 ^ 3 ≤ 2 ^ (4 * h - 1) := Nat.pow_le_pow_right (by decide) (by omega)
    exact_mod_cast hle
  have hprevious : (previous n).toInt = n.toInt - 1 := by
    refine previous_toInt hh (lt_of_le_of_ne hbounds.1 fun hmin => ?_)
    -- the least integer wraps, and then the product overflows
    have hwrap : (previous n).toInt = 2 ^ (4 * h - 1) - 1 := by
      refine (previous n).toInt_eq_of_modEq hh ((previous_modEq hh n).trans ?_) (by omega) (by omega)
      rw [← hmin]
      exact Int.modEq_iff_dvd.mpr ⟨1, by rw [mul_one, two_pow_pred (p := 4 * h) (by omega)]; ring⟩
    rw [← hmin, hwrap] at hlow
    have hmul : (2 : ℤ) ^ (4 * h - 1) * 7 ≤ 2 ^ (4 * h - 1) * (2 ^ (4 * h - 1) - 1) := mul_le_mul_of_nonneg_left (by omega) (by omega)
    rw [neg_mul] at hlow
    omega
  rw [hprevious] at hprod
  have hpos : 0 < n.toInt * (n.toInt - 1) := mul_pos_of_neg_of_neg hn (by omega)
  obtain ⟨m, hm⟩ := Int.even_mul_pred_self n.toInt
  obtain ⟨M, rfl⟩ := Int.eq_ofNat_of_zero_le (by omega : 0 ≤ m)
  have hnum : (mulDouble n (previous n)).1.toNat = M + M := toNat_of_toInt_nonneg (by rw [hprod, hm]; push_cast; rfl)
  rw [exactDiv_toNat hh (by rw [two_toNat hh]; decide), hnum, two_toNat hh, hm, ← two_mul, Nat.mul_div_cancel_left _ (by decide), two_mul]

end Coefficients

end GccCore.Gcc.TreeChrec
