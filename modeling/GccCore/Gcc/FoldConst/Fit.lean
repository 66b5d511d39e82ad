import GccCore.Gcc.FoldConst.Overflow
import GccCore.Gcc.FoldConst.Shift

/-!
# `gcc/fold-const.c`: two-word integers forced into the range of a type

* **The pieces** (`bits_fitDoubleType`): the bits beyond the precision are cleared, or copies of the sign bit if the type is stored
  with its sign extended.
* **The flag** (`fitDoubleType_flag_iff`) says whether the integer was another one before.
* **Constants** (`forceFitTypeDouble_spec`): the value, reduced to the type, and the mark of an overflow.
* **Extensions** (`fitDoubleType_agrees`): the pieces are those of `double_int_ext`, and what fits the type is what is not marked.
-/

namespace GccCore.Gcc.FoldConst

open GccCore.Lib.MachineInt

variable {h : ℕ}

/-! ## The code -/

/-- What the constants of a type depend on; the precision of a pointer is `POINTER_SIZE`.
Source: `tree.h` `TYPE_PRECISION`, `TYPE_UNSIGNED`, `TYPE_IS_SIZETYPE` -/
structure CstType (h : ℕ) where
  prec : ℕ
  unsigned : Bool
  sizetype : Bool
  prec_pos : 0 < prec
  prec_le : prec ≤ 4 * h

/-- "Size types *are* sign extended." Source: `fold-const.c` `fit_double_type` (`sign_extended_type`). -/
def CstType.signExtended (t : CstType h) : Bool := !t.unsigned || t.sizetype

/-- A constant. Source: `tree.h` `INTEGER_CST`, `TREE_OVERFLOW`. -/
structure IntCst (h : ℕ) where
  val : DoubleWord h
  overflow : Bool

/-- All bits that are beyond the precision are cleared. Source: `fold-const.c` `fit_double_type`. -/
def clearBeyond (prec : ℕ) (x : DoubleWord h) : DoubleWord h :=
  if prec ≥ 2 * (2 * h) then x
  else if prec > 2 * h then ⟨x.low, x.high &&& ~~~((-1 : Word h) <<< (prec - 2 * h))⟩
  else ⟨if prec < 2 * h then x.low &&& ~~~((-1 : Word h) <<< prec) else x.low, 0⟩

/-- The sign bit is copied to all bits that are beyond the precision. Source: `fold-const.c` `fit_double_type`. -/
def extendSign (prec : ℕ) (x : DoubleWord h) : DoubleWord h :=
  if prec ≥ 2 * (2 * h) then x
  else if prec > 2 * h then
    if x.high &&& (1 : Word h) <<< (prec - 2 * h - 1) ≠ 0 then ⟨x.low, x.high ||| (-1 : Word h) <<< (prec - 2 * h)⟩ else x
  else if prec = 2 * h then if x.low.msb then ⟨x.low, -1⟩ else x
  else if x.low &&& (1 : Word h) <<< (prec - 1) ≠ 0 then ⟨x.low ||| (-1 : Word h) <<< prec, -1⟩ else x

/-- The integer, forced into the range of the type, and whether that is another one.
Source: `fold-const.c` `fit_double_type` -/
def fitDoubleType (x : DoubleWord h) (t : CstType h) : DoubleWord h × Bool :=
  let v := if t.signExtended then extendSign t.prec (clearBeyond t.prec x) else clearBeyond t.prec x
  (v, decide (v.low ≠ x.low) || decide (v.high ≠ x.high))

/-- Source: `fold-const.c` `force_fit_type_double`. -/
def forceFitTypeDouble (t : CstType h) (x : DoubleWord h) (overflowable : ℤ) (overflowed : Bool) : IntCst h :=
  let (v, overflow) := fitDoubleType x t
  if (overflowed || overflow) && (overflowed || decide (overflowable < 0) || decide (0 < overflowable) && t.signExtended) then
    ⟨v, true⟩
  else ⟨v, false⟩

/-- Source: `double-int.h` `double_int_equal_p`. -/
def doubleIntEqualP (a b : DoubleWord h) : Bool := decide (a.low = b.low) && decide (a.high = b.high)

/-- Source: `double-int.c` `double_int_fits_to_tree_p`. -/
def doubleIntFitsToTreeP (type : CstType h) (cst : DoubleWord h) : Bool :=
  doubleIntEqualP cst (doubleIntExt cst type.prec type.unsigned)

/-! ## The pieces -/

section Pieces

variable (x : DoubleWord h) {prec : ℕ}

/-- The low bits of a piece. Source: `fold-const.c` `fit_double_type` (`~((HOST_WIDE_INT)(-1) << prec)`). Kind: L -/
theorem getLsbD_and_not_shift (w : Word h) (m : ℕ) {k : ℕ} (hk : k < 2 * h) :
    (w &&& ~~~((-1 : Word h) <<< m)).getLsbD k = (decide (k < m) && w.getLsbD k) := by
  rw [BitVec.getLsbD_and, BitVec.getLsbD_not, BitVec.getLsbD_shiftLeft, getLsbD_neg_one, decide_eq_true hk,
    decide_eq_true (by omega : k - m < 2 * h), Bool.true_and, Bool.true_and, Bool.and_true, Bool.not_not, Bool.and_comm]

/-- The bits from a place on are set. Source: `fold-const.c` `fit_double_type` (`(HOST_WIDE_INT)(-1) << prec`). Kind: L -/
theorem getLsbD_or_shift (w : Word h) (m : ℕ) {k : ℕ} (hk : k < 2 * h) :
    (w ||| (-1 : Word h) <<< m).getLsbD k = (w.getLsbD k || decide (m ≤ k)) := by
  rw [BitVec.getLsbD_or, BitVec.getLsbD_shiftLeft, getLsbD_neg_one, decide_eq_true hk,
    decide_eq_true (by omega : k - m < 2 * h), Bool.true_and, Bool.and_true, ← decide_not, decide_eq_decide.mpr not_lt]

/-- One bit of a piece. Source: `fold-const.c` `fit_double_type` (`l1 & ((unsigned HOST_WIDE_INT)1 << (prec - 1))`). Kind: L -/
theorem and_shift_ne_zero_iff (w : Word h) {m : ℕ} (hm : m < 2 * h) : w &&& (1 : Word h) <<< m ≠ 0 ↔ w.getLsbD m = true := by
  have htwo : (1 : Word h) <<< m = BitVec.twoPow (2 * h) m := (BitVec.twoPow_eq ..).symm
  rw [htwo, BitVec.and_twoPow]
  split_ifs with hset
  · refine iff_of_true (fun hzero => ?_) hset
    have hbit : (BitVec.twoPow (2 * h) m).getLsbD m = false := by
      rw [hzero]
      exact BitVec.getLsbD_zero
    rw [BitVec.getLsbD_twoPow, decide_eq_true hm, decide_eq_true rfl] at hbit
    cases hbit
  · exact iff_of_false (fun hne => hne rfl) hset

/-- **The bits below the precision** are kept, the others are cleared. Source: `fold-const.c` `fit_double_type`. Kind: L -/
theorem getLsbD_clearBeyond {k : ℕ} (hk : k < 4 * h) :
    (clearBeyond prec x).bits.getLsbD k = (decide (k < prec) && x.bits.getLsbD k) := by
  unfold clearBeyond
  split_ifs with hfull hwide hnarrow
  · rw [decide_eq_true (by omega), Bool.true_and]
  · rw [DoubleWord.getLsbD_bits, x.getLsbD_bits]
    dsimp only
    split_ifs with hlow
    · rw [decide_eq_true (by omega), Bool.true_and]
    · rw [getLsbD_and_not_shift _ _ (by omega), decide_eq_decide.mpr (by omega : k - 2 * h < prec - 2 * h ↔ k < prec)]
  · rw [DoubleWord.getLsbD_bits, x.getLsbD_bits]
    dsimp only
    split_ifs with hlow
    · exact getLsbD_and_not_shift _ _ hlow
    · rw [decide_eq_false (by omega), Bool.false_and]
      exact BitVec.getLsbD_zero
  · rw [DoubleWord.getLsbD_bits, x.getLsbD_bits]
    dsimp only
    split_ifs with hlow
    · rw [decide_eq_true (by omega), Bool.true_and]
    · rw [decide_eq_false (by omega), Bool.false_and]
      exact BitVec.getLsbD_zero

/-- **The bits from the precision on** become copies of the one below, if they were clear.
Source: `fold-const.c` `fit_double_type` ("Then do sign extension if necessary")
Kind: L -/
theorem getLsbD_extendSign (hpos : 0 < prec) (hclear : ∀ k ≥ prec, x.bits.getLsbD k = false) {k : ℕ}
    (hk : k < 4 * h) : (extendSign prec x).bits.getLsbD k = x.bits.getLsbD (if k < prec then k else prec - 1) := by
  have hsame : x.bits.getLsbD (prec - 1) = false →
      x.bits.getLsbD k = x.bits.getLsbD (if k < prec then k else prec - 1) := by
    intro hsign
    split_ifs with hin
    · rfl
    · rw [hclear k (not_lt.mp hin), hsign]
  unfold extendSign
  by_cases hfull : prec ≥ 2 * (2 * h)
  · rw [if_pos hfull, if_pos (by omega)]
  rw [if_neg hfull]
  by_cases hwide : prec > 2 * h
  · have hsign : x.high &&& (1 : Word h) <<< (prec - 2 * h - 1) ≠ 0 ↔ x.bits.getLsbD (prec - 1) = true := by
      rw [and_shift_ne_zero_iff _ (by omega), x.getLsbD_bits, if_neg (by omega),
        show prec - 1 - 2 * h = prec - 2 * h - 1 by omega]
    rw [if_pos hwide]
    by_cases hset : x.bits.getLsbD (prec - 1) = true
    · rw [if_pos (hsign.mpr hset), DoubleWord.getLsbD_bits]
      dsimp only
      split_ifs with hlow hin hin
      · rw [x.getLsbD_bits, if_pos hlow]
      · omega
      · rw [getLsbD_or_shift _ _ (by omega), decide_eq_false (by omega), Bool.or_false, x.getLsbD_bits, if_neg hlow]
      · rw [getLsbD_or_shift _ _ (by omega), decide_eq_true (by omega), Bool.or_true, hset]
    · rw [if_neg fun hc => hset (hsign.mp hc)]
      exact hsame (Bool.eq_false_iff.mpr hset)
  rw [if_neg hwide]
  by_cases hone : prec = 2 * h
  · have hsign : x.low.msb = x.bits.getLsbD (prec - 1) := by
      rw [BitVec.msb_eq_getLsbD_last, x.getLsbD_bits, if_pos (by omega), hone]
    rw [if_pos hone, hsign]
    by_cases hset : x.bits.getLsbD (prec - 1) = true
    · rw [if_pos hset, DoubleWord.getLsbD_bits]
      dsimp only
      split_ifs with hlow hin hin
      · rw [x.getLsbD_bits, if_pos hlow]
      · omega
      · omega
      · rw [hset, getLsbD_neg_one, decide_eq_true (by omega)]
    · rw [if_neg hset]
      exact hsame (Bool.eq_false_iff.mpr hset)
  · have hsign : x.low &&& (1 : Word h) <<< (prec - 1) ≠ 0 ↔ x.bits.getLsbD (prec - 1) = true := by
      rw [and_shift_ne_zero_iff _ (by omega), x.getLsbD_bits, if_pos (by omega)]
    rw [if_neg hone]
    by_cases hset : x.bits.getLsbD (prec - 1) = true
    · rw [if_pos (hsign.mpr hset), DoubleWord.getLsbD_bits]
      dsimp only
      split_ifs with hlow hin hin
      · rw [getLsbD_or_shift _ _ hlow, decide_eq_false (by omega), Bool.or_false, x.getLsbD_bits, if_pos hlow]
      · rw [getLsbD_or_shift _ _ hlow, decide_eq_true (by omega), Bool.or_true, hset]
      · omega
      · rw [getLsbD_neg_one, decide_eq_true (by omega), hset]
    · rw [if_neg fun hc => hset (hsign.mp hc)]
      exact hsame (Bool.eq_false_iff.mpr hset)

end Pieces

/-! ## The values -/

section Values

variable (hh : 0 < h) (x : DoubleWord h) (t : CstType h)

/-- **What is stored**, as a bit pattern. Source: `fold-const.c` `fit_double_type`. Kind: L -/
theorem bits_fitDoubleType :
    (fitDoubleType x t).1.bits =
      if t.signExtended then (x.bits.setWidth t.prec).signExtend (4 * h) else (x.bits.setWidth t.prec).setWidth (4 * h) := by
  have hpos := t.prec_pos
  unfold fitDoubleType
  dsimp only
  apply BitVec.eq_of_getLsbD_eq
  intro k hk
  split_ifs with hsign
  · have hclear : ∀ j ≥ t.prec, (clearBeyond t.prec x).bits.getLsbD j = false := by
      intro j hj
      by_cases hin : j < 4 * h
      · rw [getLsbD_clearBeyond x hin, decide_eq_false (by omega), Bool.false_and]
      · exact BitVec.getLsbD_of_ge _ _ (not_lt.mp hin)
    rw [getLsbD_extendSign _ hpos hclear hk, BitVec.getLsbD_signExtend, decide_eq_true hk, Bool.true_and]
    split_ifs with hin
    · rw [getLsbD_clearBeyond x hk, BitVec.getLsbD_setWidth]
    · have hlast : t.prec - 1 < 4 * h := by have := t.prec_le; omega
      rw [getLsbD_clearBeyond x hlast, BitVec.msb_eq_getLsbD_last, BitVec.getLsbD_setWidth]
  · rw [getLsbD_clearBeyond x hk, BitVec.getLsbD_setWidth, BitVec.getLsbD_setWidth, decide_eq_true hk, Bool.true_and]

/-- **The flag** says whether the integer has changed. Source: `fold-const.c` `fit_double_type`. Kind: L -/
theorem fitDoubleType_flag_iff : (fitDoubleType x t).2 = true ↔ (fitDoubleType x t).1 ≠ x := by
  unfold fitDoubleType
  dsimp only
  generalize (if t.signExtended then extendSign t.prec (clearBeyond t.prec x) else clearBeyond t.prec x) = v
  rw [Bool.or_eq_true, decide_eq_true_iff, decide_eq_true_iff]
  obtain ⟨vl, vh⟩ := v
  obtain ⟨xl, xh⟩ := x
  rw [ne_eq (DoubleWord.mk vl vh), DoubleWord.mk.injEq, not_and_or]

include hh

/-- Both functions that force an integer into a type store the same. Source: `double-int.c` `double_int_ext`. Kind: L -/
theorem fitDoubleType_eq_ext : (fitDoubleType x t).1 = doubleIntExt x t.prec (!t.signExtended) := by
  apply DoubleWord.bits_inj
  rw [bits_fitDoubleType x t]
  unfold doubleIntExt
  cases t.signExtended with
  | true =>
    rw [if_pos rfl, Bool.not_true, if_neg Bool.false_ne_true]
    exact (bits_sext hh x t.prec_pos t.prec_le).symm
  | false =>
    rw [if_neg Bool.false_ne_true, Bool.not_false, if_pos rfl]
    exact (bits_zext hh x t.prec_pos t.prec_le).symm

/-- The two ways to read a pattern. -/
theorem DoubleWord.value_eq_valueIn (u : Bool) : x.value u = valueIn u x.bits := by
  unfold DoubleWord.value valueIn
  rw [x.toNat_bits, x.toInt_bits hh]

omit hh in
/-- The bits of a value below a precision. -/
theorem ofInt_value {p : ℕ} (hle : p ≤ 4 * h) (u : Bool) : x.bits.setWidth p = BitVec.ofInt p (x.value u) := by
  have hmod : (x.toNat : ℤ) ≡ x.value u [ZMOD 2 ^ p] := (x.value_modEq u).of_dvd (pow_dvd_pow 2 hle)
  rw [setWidth_bits, ← ofInt_eq_of_modEq hmod, BitVec.ofInt_natCast]

/-- **The value is reduced** modulo the precision, and the flag says whether the type did not have it.
Source: `fold-const.c` `fit_double_type` ("argument and result are different")
Kind: L -/
theorem fitDoubleType_spec {u : Bool} (hu : t.signExtended = !u) :
    (fitDoubleType x t).1.value u = valueIn u (BitVec.ofInt t.prec (x.value u)) ∧
      ((fitDoubleType x t).2 = true ↔ ¬ inType t.prec u (x.value u)) := by
  have hvalue : (fitDoubleType x t).1.value u = valueIn u (BitVec.ofInt t.prec (x.value u)) := by
    rw [fitDoubleType_eq_ext hh x t, hu, Bool.not_not, DoubleWord.value_eq_valueIn hh, valueIn_ext hh x t.prec_pos t.prec_le,
      ofInt_value x t.prec_le u]
  refine ⟨hvalue, (fitDoubleType_flag_iff x t).trans (not_congr ⟨fun hsame => ?_, fun hin => ?_⟩)⟩
  · rw [hsame] at hvalue
    rw [hvalue]
    exact inType_valueIn u _
  · rw [valueIn_ofInt t.prec_pos hin, DoubleWord.value_eq_valueIn hh, DoubleWord.value_eq_valueIn hh] at hvalue
    exact DoubleWord.bits_inj (eq_of_valueIn hh hvalue)

/-- **Constants of signed types** hold the value reduced modulo the precision, and are marked if it has changed or the mark was
there before.
Source: `fold-const.c` `force_fit_type_double`
Kind: L -/
theorem forceFitTypeDouble_spec (hsign : t.signExtended = true) (overflowed : Bool) :
    (forceFitTypeDouble t x 1 overflowed).val.toInt = (BitVec.ofInt t.prec x.toInt).toInt ∧
      ((forceFitTypeDouble t x 1 overflowed).overflow = true ↔ overflowed = true ∨ ¬ inType t.prec false x.toInt) := by
  obtain ⟨hvalue, hflag⟩ := fitDoubleType_spec hh x t (u := false) hsign
  have hmark : (forceFitTypeDouble t x 1 overflowed).val = (fitDoubleType x t).1 ∧
      (forceFitTypeDouble t x 1 overflowed).overflow = (overflowed || (fitDoubleType x t).2) := by
    unfold forceFitTypeDouble
    dsimp only
    rw [hsign]
    cases overflowed <;> cases (fitDoubleType x t).2 <;> exact ⟨rfl, rfl⟩
  refine ⟨hmark.1 ▸ hvalue, ?_⟩
  rw [hmark.2, Bool.or_eq_true, hflag]
  rfl

omit hh in
theorem doubleIntEqualP_iff {y : DoubleWord h} : doubleIntEqualP x y = true ↔ x = y := by
  rw [doubleIntEqualP, Bool.and_eq_true, decide_eq_true_iff, decide_eq_true_iff]
  exact ⟨fun heq => DoubleWord.ext heq.1 heq.2, fun heq => ⟨congrArg _ heq, congrArg _ heq⟩⟩

/-- **The two extensions agree** for a type that is not a size type: the stored integer is that of `double_int_ext`, the
representative of the integer in the type, and is flagged if it is another one; so what fits the type is what is not marked.
Source: `fold-const.c` `fit_double_type`, `double-int.c` `double_int_ext`, `double_int_fits_to_tree_p`
Kind: P -/
theorem fitDoubleType_agrees (hsize : t.sizetype = false) :
    (fitDoubleType x t).1 = doubleIntExt x t.prec t.unsigned ∧
      inType t.prec t.unsigned ((fitDoubleType x t).1.value t.unsigned) ∧
      (fitDoubleType x t).1.value t.unsigned ≡ x.value t.unsigned [ZMOD 2 ^ t.prec] ∧
      ((fitDoubleType x t).2 = true ↔ (fitDoubleType x t).1 ≠ x) ∧
      (doubleIntFitsToTreeP t x = true ↔ (fitDoubleType x t).2 = false) ∧
      ∀ overflowable, (forceFitTypeDouble t x overflowable false).overflow = true ↔
        doubleIntFitsToTreeP t x = false ∧ (overflowable < 0 ∨ 0 < overflowable ∧ t.unsigned = false) := by
  have hsign : t.signExtended = !t.unsigned := by rw [CstType.signExtended, hsize, Bool.or_false]
  have hext : (fitDoubleType x t).1 = doubleIntExt x t.prec t.unsigned := by
    rw [fitDoubleType_eq_ext hh x t, hsign, Bool.not_not]
  obtain ⟨hvalue, -⟩ := fitDoubleType_spec hh x t hsign
  have hfits : doubleIntFitsToTreeP t x = true ↔ (fitDoubleType x t).2 = false := by
    rw [doubleIntFitsToTreeP, doubleIntEqualP_iff, ← hext, ← Bool.not_eq_true, fitDoubleType_flag_iff x t, not_not, eq_comm]
  refine ⟨hext, ?_, ?_, fitDoubleType_flag_iff x t, hfits, fun overflowable => ?_⟩
  · rw [hvalue]
    exact inType_valueIn _ _
  · rw [hvalue]
    exact (valueIn_modEq _ _).trans (toNat_ofInt_modEq _)
  · have hflag : doubleIntFitsToTreeP t x = false ↔ (fitDoubleType x t).2 = true := by
      rw [← Bool.not_eq_true, hfits, Bool.not_eq_false]
    rw [hflag, forceFitTypeDouble, hsign]
    dsimp only
    generalize (fitDoubleType x t).2 = overflow
    cases overflow <;> cases t.unsigned <;> by_cases hneg : overflowable < 0 <;> by_cases hpos : 0 < overflowable <;> simp [hneg, hpos]

omit hh in
/-- A 70-bit unsigned type on a host with words of 64 bits. Source: `fold-const.c` `fit_double_type`. Kind: C -/
theorem fitDoubleType_agrees_seventy :
    (fitDoubleType (⟨-1, -1⟩ : DoubleWord 32) ⟨70, true, false, Nat.succ_pos _, Nat.le_of_ble_eq_true rfl⟩).1 =
      doubleIntExt ⟨-1, -1⟩ 70 true :=
  (fitDoubleType_agrees (Nat.succ_pos 31) _ ⟨70, true, false, Nat.succ_pos _, Nat.le_of_ble_eq_true rfl⟩ rfl).1

end Values

end GccCore.Gcc.FoldConst
