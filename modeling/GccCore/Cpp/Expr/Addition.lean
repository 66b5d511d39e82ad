import GccCore.Cpp.Expr.Basic

/-!
# `libcpp/expr.c`: addition and subtraction in `#if`

A difference is the sum with the negated right operand.

* **The value** (`toNat_numAdd`) is right modulo `2 ^ precision`.
* **Overflow of a sum** (`overflow_numAdd_iff`) is reported exactly when the exact sum is out of range.
* **Overflow of a difference** (`numBinaryOp_exact_iff`): the least number is its own negative, and when it is subtracted the
  report says the opposite of what is the case.
-/

namespace GccCore.Cpp.Expr

open GccCore.Lib.WordPair

variable {w p : ℕ} {lhs rhs : CppNum w}

/-- What `op` gives in the integers. -/
def exactResult (p : ℕ) (lhs rhs : CppNum w) (op : BinaryOp) : ℤ :=
  if op = .minus then lhs.toInt p - rhs.toInt p else lhs.toInt p + rhs.toInt p

/-- **The result is exact** modulo `2 ^ p`, and overflow is reported when the exact result is not a signed number of `p` bits.
Source: `expr.c` `num_binary_op` -/
structure ExactModulo (p : ℕ) (lhs rhs : CppNum w) (op : BinaryOp) : Prop where
  value : ((numBinaryOp p lhs rhs op).toNat : ℤ) = exactResult p lhs rhs op % 2 ^ p
  overflow : lhs.unsignedp = false → rhs.unsignedp = false →
    ((numBinaryOp p lhs rhs op).overflow = true ↔
      exactResult p lhs rhs op < -2 ^ (p - 1) ∨ 2 ^ (p - 1) - 1 < exactResult p lhs rhs op)

section Sum

theorem unsignedp_numAdd : (numAdd p lhs rhs).unsignedp = (lhs.unsignedp || rhs.unsignedp) := by
  unfold numAdd
  dsimp only
  split_ifs <;> simp

/-- **The sum**, modulo the precision. Source: `expr.c` `num_binary_op` (`case CPP_PLUS`). Kind: L -/
theorem toNat_numAdd (hpw : p ≤ 2 * w) : (numAdd p lhs rhs).toNat = (lhs.toNat + rhs.toNat) % 2 ^ p := by
  have hadd := pair_add lhs.high lhs.low rhs.high rhs.low
  have htrim : (numAdd p lhs rhs).toNat = (lhs.toNat + rhs.toNat) % 2 ^ (2 * w) % 2 ^ p := by
    rw [CppNum.toNat, CppNum.toNat, CppNum.toNat, ← hadd]
    unfold numAdd
    dsimp only
    split_ifs <;> exact toNat_numTrim _ p
  rw [htrim, Nat.mod_mod_of_dvd _ (Nat.pow_dvd_pow 2 hpw)]

/-- The report of a signed sum. Source: `expr.c` `num_binary_op` (`case CPP_PLUS`). Kind: L -/
theorem overflow_numAdd (hl : lhs.unsignedp = false) (hr : rhs.unsignedp = false) :
    (numAdd p lhs rhs).overflow = (numPositive lhs p == numPositive rhs p && numPositive lhs p != numPositive (numAdd p lhs rhs) p) := by
  unfold numAdd
  simp only [hl, hr, unsignedp_numTrim, Bool.or_self, Bool.not_false, if_true]
  rfl

/-- **A sum overflows** when it is out of range. Source: `expr.c` `num_binary_op` (`case CPP_PLUS`). Kind: L -/
theorem overflow_numAdd_iff (hp : 0 < p) (hpw : p ≤ 2 * w) (hl : Trimmed p lhs) (hr : Trimmed p rhs)
    (hls : lhs.unsignedp = false) (hrs : rhs.unsignedp = false) :
    (numAdd p lhs rhs).overflow = true ↔
      lhs.toInt p + rhs.toInt p < -2 ^ (p - 1) ∨ 2 ^ (p - 1) - 1 < lhs.toInt p + rhs.toInt p := by
  have hz : Trimmed p (numAdd p lhs rhs) := by
    rw [Trimmed, toNat_numAdd hpw]
    exact Nat.mod_lt _ (Nat.two_pow_pos p)
  have hhalf := two_pow_half hp
  have hN : (2 : ℤ) ^ p = ((2 ^ p : ℕ) : ℤ) := by push_cast; rfl
  have hM : (2 : ℤ) ^ (p - 1) = ((2 ^ (p - 1) : ℕ) : ℤ) := by push_cast; rfl
  rw [overflow_numAdd hls hrs, numPositive_eq hp hpw hl, numPositive_eq hp hpw hr, numPositive_eq hp hpw hz,
    CppNum.toInt_signed hls, CppNum.toInt_signed hrs, hN, hM, toNat_numAdd hpw]
  simp only [Bool.and_eq_true, beq_iff_eq, bne_iff_ne, ne_eq, decide_eq_decide]
  unfold Trimmed at hl hr
  generalize lhs.toNat = x at *
  generalize rhs.toNat = y at *
  generalize 2 ^ p = N at *
  -- the sum wraps around at most once
  have hwrap : (x + y) % N = if x + y < N then x + y else x + y - N := by
    split_ifs with hlt
    · exact Nat.mod_eq_of_lt hlt
    · rw [Nat.mod_eq_sub_mod (not_lt.mp hlt), Nat.mod_eq_of_lt (by omega)]
  rw [hwrap]
  split_ifs <;> omega

end Sum

/-! ## Sums and differences -/

/-- The negative of a signed number, but for the least one. Source: `expr.c` `num_negate`. Kind: L -/
theorem toInt_numNegate (hp : 0 < p) (hpw : p ≤ 2 * w) (hr : Trimmed p rhs) (hrs : rhs.unsignedp = false) :
    (numNegate rhs p).toInt p = if rhs.toNat = 2 ^ (p - 1) then rhs.toInt p else -rhs.toInt p := by
  have hhalf := two_pow_half hp
  have hN : (2 : ℤ) ^ p = ((2 ^ p : ℕ) : ℤ) := by push_cast; rfl
  rw [CppNum.toInt_signed (unsignedp_numNegate.trans hrs), CppNum.toInt_signed hrs, toNat_numNegate hpw hr, hN]
  unfold Trimmed at hr
  generalize rhs.toNat = y at *
  generalize 2 ^ p = N at *
  have hmod : (N - y) % N = if y = 0 then 0 else N - y := by
    split_ifs with hzero
    · rw [hzero, Nat.sub_zero, Nat.mod_self]
    · exact Nat.mod_eq_of_lt (by omega)
  rw [hmod]
  split_ifs <;> omega

/-- **The value** of a sum or a difference. Source: `expr.c` `num_binary_op`. Kind: L -/
theorem toNat_numBinaryOp {op : BinaryOp} (hpw : p ≤ 2 * w) (hr : Trimmed p rhs) (hop : op = .plus ∨ op = .minus) :
    ((numBinaryOp p lhs rhs op).toNat : ℤ) = exactResult p lhs rhs op % 2 ^ p := by
  have hl' := lhs.toInt_emod p
  have hr' := rhs.toInt_emod p
  rcases hop with rfl | rfl
  · have hvalue : (numBinaryOp p lhs rhs .plus).toNat = (lhs.toNat + rhs.toNat) % 2 ^ p := toNat_numAdd hpw
    have hexact : exactResult p lhs rhs .plus = lhs.toInt p + rhs.toInt p := rfl
    rw [hvalue, hexact, Int.add_emod, hl', hr', ← Int.add_emod]
    push_cast
    rfl
  · have hvalue : (numBinaryOp p lhs rhs .minus).toNat = (lhs.toNat + (numNegate rhs p).toNat) % 2 ^ p := toNat_numAdd hpw
    have hexact : exactResult p lhs rhs .minus = lhs.toInt p - rhs.toInt p := rfl
    unfold Trimmed at hr
    rw [hvalue, hexact, toNat_numNegate hpw hr, Nat.add_mod_mod, Int.sub_emod, hl', hr', ← Int.sub_emod]
    push_cast [hr.le]
    rw [← Int.add_emod_right (_ - _)]
    congr 1
    ring

/-- **Exactness.** The code is right unless the least signed number is subtracted from a signed one. Source: `expr.c` `num_binary_op`.
Kind: P -/
theorem numBinaryOp_exact_iff {op : BinaryOp} (hp : 0 < p) (hpw : p ≤ 2 * w) (hl : Trimmed p lhs) (hr : Trimmed p rhs)
    (hop : op = .plus ∨ op = .minus) :
    ExactModulo p lhs rhs op ↔
      ¬ (op = .minus ∧ lhs.unsignedp = false ∧ rhs.unsignedp = false ∧ rhs.toNat = 2 ^ (p - 1)) := by
  have hvalue : ((numBinaryOp p lhs rhs op).toNat : ℤ) = exactResult p lhs rhs op % 2 ^ p := toNat_numBinaryOp hpw hr hop
  have hreport : ∀ r : CppNum w, Trimmed p r → lhs.unsignedp = false → r.unsignedp = false →
      ((numAdd p lhs r).overflow = true ↔
        lhs.toInt p + r.toInt p < -2 ^ (p - 1) ∨ 2 ^ (p - 1) - 1 < lhs.toInt p + r.toInt p) :=
    fun r hr hls hrs => overflow_numAdd_iff hp hpw hl hr hls hrs
  rcases hop with rfl | rfl
  · refine iff_of_true ⟨hvalue, hreport rhs hr⟩ ?_
    simp
  · have hexact : exactResult p lhs rhs .minus = lhs.toInt p - rhs.toInt p := rfl
    by_cases hs : lhs.unsignedp = false ∧ rhs.unsignedp = false
    · obtain ⟨hls, hrs⟩ := hs
      have hneg := toInt_numNegate hp hpw hr hrs
      have hover := hreport (numNegate rhs p) (trimmed_numNegate hpw hr) hls (unsignedp_numNegate.trans hrs)
      by_cases hmin : rhs.toNat = 2 ^ (p - 1)
      · -- the sum is with the least number, and has the opposite report
        refine iff_of_false (fun h => ?_) (not_not.mpr ⟨rfl, hls, hrs, hmin⟩)
        have hclaim := h.overflow hls hrs
        have hsame : (numBinaryOp p lhs rhs .minus).overflow = (numAdd p lhs (numNegate rhs p)).overflow := rfl
        rw [hsame, hover, hexact, hneg, if_pos hmin] at hclaim
        have hM : (2 : ℤ) ^ (p - 1) = ((2 ^ (p - 1) : ℕ) : ℤ) := by push_cast; rfl
        have hN : (2 : ℤ) ^ p = ((2 ^ p : ℕ) : ℤ) := by push_cast; rfl
        have hhalf := two_pow_half hp
        rw [CppNum.toInt_signed hls, CppNum.toInt_signed hrs, hmin, hM, hN] at hclaim
        unfold Trimmed at hl
        split_ifs at hclaim <;> omega
      · refine iff_of_true ⟨hvalue, fun _ _ => ?_⟩ fun h => hmin h.2.2.2
        rw [hexact, sub_eq_add_neg]
        rwa [hneg, if_neg hmin] at hover
    · exact iff_of_true ⟨hvalue, fun hls hrs => absurd ⟨hls, hrs⟩ hs⟩ fun h => hs ⟨h.2.1, h.2.2.1⟩

/-- `5 - 7` in 64 bits. Source: `expr.c` `num_binary_op`. Kind: C -/
theorem numBinaryOp_exact_five_seven :
    ExactModulo 64 (⟨0, 5, false, false⟩ : CppNum 64) ⟨0, 7, false, false⟩ .minus :=
  (numBinaryOp_exact_iff (by decide) (by decide) (by unfold Trimmed; decide) (by unfold Trimmed; decide) (.inr rfl)).mpr (by decide)

/-- `0 - (-9223372036854775807 - 1)` in 64 bits: no overflow is reported. Source: `expr.c` `num_binary_op`. Kind: C -/
theorem numBinaryOp_minus_least :
    ¬ ExactModulo 64 (⟨0, 0, false, false⟩ : CppNum 64) ⟨0, 9223372036854775808, false, false⟩ .minus := by
  intro h
  have hreport : (numBinaryOp 64 (⟨0, 0, false, false⟩ : CppNum 64) ⟨0, 9223372036854775808, false, false⟩ .minus).overflow = false := by
    decide
  have hexact : exactResult 64 (⟨0, 0, false, false⟩ : CppNum 64) ⟨0, 9223372036854775808, false, false⟩ .minus = 2 ^ 63 := by
    decide
  have hover := (h.overflow rfl rfl).mpr (.inr (by rw [hexact]; decide))
  rw [hreport] at hover
  exact Bool.noConfusion hover

end GccCore.Cpp.Expr
