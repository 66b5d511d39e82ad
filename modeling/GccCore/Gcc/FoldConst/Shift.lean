import GccCore.Gcc.DoubleInt

/-!
# `gcc/fold-const.c`: shifts and rotations of two-word integers

The shifts compute on both pieces and put the bits beyond a precision of `prec` right afterwards; a rotation is two shifts.

* **To the left** (`lshiftDouble_toInt`): the shifted value is sign extended from `prec` bits.
* **To the right** (`rshiftDouble_toNat`, `rshiftDouble_toInt`): a division of the `prec` bits, unsigned or signed.
* **Rotations** (`setWidth_lrotateDouble`, `setWidth_rrotateDouble`) of the lowest `prec` bits, each the inverse of the other.
-/

namespace GccCore.Gcc.FoldConst

variable {h : ℕ}

/-! ## The code -/

/-- `count %= prec; if (count < 0) count += prec;`. Source: `fold-const.c` `lrotate_double`, `rrotate_double`. -/
def rotateCount (count : ℤ) (prec : ℕ) : ℤ :=
  let count := count.tmod prec
  if count < 0 then count + prec else count

/-- A rotation to the left by `count` of the lowest `prec` bits.
Source: `fold-const.c` `lrotate_double` -/
def lrotateDouble (truncated : Bool) (x : DoubleWord h) (count : ℤ) (prec : ℕ) : DoubleWord h :=
  let count := rotateCount count prec
  let s1 := lshiftDouble truncated x count prec false
  let s2 := rshiftDouble truncated x (prec - count).toNat prec false
  ⟨s1.low ||| s2.low, s1.high ||| s2.high⟩

/-- A rotation to the right by `count` of the lowest `prec` bits.
Source: `fold-const.c` `rrotate_double` -/
def rrotateDouble (truncated : Bool) (x : DoubleWord h) (count : ℤ) (prec : ℕ) : DoubleWord h :=
  let count := rotateCount count prec
  let s1 := rshiftDouble truncated x count.toNat prec false
  let s2 := lshiftDouble truncated x (prec - count) prec false
  ⟨s1.low ||| s2.low, s1.high ||| s2.high⟩

/-! ## Shifts -/

section Shifts

variable (hh : 0 < h) (x : DoubleWord h) {prec : ℕ} (hpos : 0 < prec) (hle : prec ≤ 4 * h)

include hh

/-- Copies of one bit. Source: `fold-const.c` `lshift_double` (`signmask`). Kind: L -/
theorem getLsbD_neg_and_one (w : Word h) (n : ℕ) {k : ℕ} (hk : k < 2 * h) :
    (-(w >>> n &&& 1)).getLsbD k = w.getLsbD n := by
  by_cases hset : w.getLsbD n = true
  · rw [(and_one_eq_one_iff hh w n).mpr hset, hset]
    exact (getLsbD_neg_one k).trans (decide_eq_true hk)
  · have hzero : w >>> n &&& 1 = 0 := by
      have hone : (w >>> n &&& 1).toNat = (w.toNat >>> n) % 2 := by
        rw [BitVec.toNat_and, one_toNat hh, Nat.and_one_is_mod, BitVec.toNat_ushiftRight]
      have hne : (w >>> n &&& 1).toNat ≠ 1 := by
        intro hc
        exact hset ((and_one_eq_one_iff hh w n).mp (BitVec.eq_of_toNat_eq (hc.trans (one_toNat hh).symm)))
      have hnat : (w >>> n &&& 1).toNat = 0 := by omega
      exact BitVec.eq_of_toNat_eq (hnat.trans BitVec.toNat_zero.symm)
    have hneg : -(0 : Word h) = 0 := BitVec.neg_zero _
    rw [hzero, Bool.eq_false_iff.mpr hset, hneg]
    exact BitVec.getLsbD_zero

include hpos hle

/-- **A shift to the left, bit by bit**, at every precision and by every count.
Source: `fold-const.c` `lshift_double` ("Sign extend all bits that are beyond the precision")
Kind: L -/
theorem getLsbD_lshiftDouble (n : ℕ) (arith : Bool) {k : ℕ} (hk : k < 4 * h) :
    (lshiftDouble false x n prec arith).bits.getLsbD k = (x.bits <<< n).getLsbD (if k < prec then k else prec - 1) := by
  rw [← bits_lshiftPieces hh x]
  unfold lshiftDouble
  rw [if_neg (not_lt.mpr (Int.natCast_nonneg n))]
  dsimp only
  rw [if_neg Bool.false_ne_true, Int.toNat_natCast]
  generalize lshiftPieces x n = v
  have hsign : ∀ j < 2 * h,
      (-((if prec > 2 * h then v.high >>> (prec - 2 * h - 1) else v.low >>> (prec - 1)) &&& 1) : Word h).getLsbD j =
        v.bits.getLsbD (prec - 1) := by
    intro j hj
    rw [v.getLsbD_bits]
    split_ifs with h1 h2 h2
    · omega
    · rw [getLsbD_neg_and_one hh _ _ hj]
      congr 1
      omega
    · exact getLsbD_neg_and_one hh _ _ hj
    · omega
  generalize (-((if prec > 2 * h then v.high >>> (prec - 2 * h - 1) else v.low >>> (prec - 1)) &&& 1) : Word h) =
    signmask at hsign
  by_cases hfull : prec ≥ 2 * (2 * h)
  · rw [if_pos hfull, if_pos (by omega)]
  rw [if_neg hfull, apply_ite v.bits.getLsbD, ← hsign 0 (by omega)]
  by_cases hge : prec ≥ 2 * h
  · rw [if_pos hge, DoubleWord.getLsbD_bits, v.getLsbD_bits]
    dsimp only
    split_ifs with hk' hin hin
    · rfl
    · omega
    · rw [getLsbD_replace _ _ hsign _ (by omega), if_pos (by omega)]
    · rw [getLsbD_replace _ _ hsign _ (by omega), if_neg (by omega), hsign 0 (by omega)]
  · rw [if_neg hge, DoubleWord.getLsbD_bits, v.getLsbD_bits]
    dsimp only
    split_ifs with hk' hin hin
    · rw [getLsbD_replace _ _ hsign _ hk', if_pos hin]
    · rw [getLsbD_replace _ _ hsign _ hk', if_neg hin, hsign 0 (by omega)]
    · omega
    · rw [hsign _ (by omega), hsign 0 (by omega)]

omit hh hpos in
/-- The shifted value, as `prec` bits. -/
theorem ofNat_mul_two_pow (n : ℕ) : (x.bits <<< n).setWidth prec = BitVec.ofNat prec (x.toNat * 2 ^ n) := by
  apply BitVec.eq_of_toNat_eq
  rw [BitVec.toNat_setWidth, BitVec.toNat_shiftLeft, x.toNat_bits, BitVec.toNat_ofNat, Nat.shiftLeft_eq,
    Nat.mod_mod_of_dvd _ (Nat.pow_dvd_pow 2 hle)]

/-- **A shift to the left** is sign extended from `prec` bits. Source: `fold-const.c` `lshift_double`. Kind: L -/
theorem lshiftDouble_toInt (n : ℕ) (arith : Bool) :
    (lshiftDouble false x n prec arith).toInt = (BitVec.ofNat prec (x.toNat * 2 ^ n)).toInt := by
  have hbits : (lshiftDouble false x n prec arith).bits = ((x.bits <<< n).setWidth prec).signExtend (4 * h) := by
    apply BitVec.eq_of_getLsbD_eq
    intro k hk
    rw [getLsbD_lshiftDouble hh x hpos hle n arith hk, BitVec.getLsbD_signExtend, decide_eq_true hk, Bool.true_and,
      BitVec.msb_eq_getLsbD_last, BitVec.getLsbD_setWidth, BitVec.getLsbD_setWidth,
      decide_eq_true (by omega : prec - 1 < prec), Bool.true_and]
    split_ifs with hin
    · rw [decide_eq_true hin, Bool.true_and]
    · rfl
  rw [← DoubleWord.toInt_bits hh, hbits, BitVec.toInt_signExtend_of_le hle, ofNat_mul_two_pow x hle]

omit hpos hle in
/-- **A logical shift to the right** divides the lowest `prec` bits. Source: `fold-const.c` `rshift_double`. Kind: L -/
theorem rshiftDouble_toNat (n : ℕ) : (rshiftDouble false x n prec false).toNat = x.toNat % 2 ^ prec / 2 ^ n := by
  rw [← DoubleWord.toNat_bits]
  apply Nat.eq_of_testBit_eq
  intro k
  rw [Nat.testBit_div_two_pow, Nat.testBit_mod_two_pow, ← x.toNat_bits, BitVec.testBit_toNat, BitVec.testBit_toNat]
  by_cases hk : k < 4 * h
  · rw [getLsbD_rshiftDouble hh false x (fun hc => absurd hc Bool.false_ne_true) false hk, Nat.add_comm n k]
    split_ifs with hin
    · rw [decide_eq_true hin, Bool.true_and]
    · rw [decide_eq_false hin, Bool.false_and, Bool.false_and]
  · rw [BitVec.getLsbD_of_ge _ _ (not_lt.mp hk), BitVec.getLsbD_of_ge _ _ (by omega), Bool.and_false]

omit hpos in
/-- **An arithmetic shift to the right** divides a value that is sign extended from `prec` bits, and rounds down.
Source: `fold-const.c` `rshift_double`
Kind: L -/
theorem rshiftDouble_toInt (n : ℕ) (hext : x.toInt = (BitVec.ofNat prec x.toNat).toInt) :
    (rshiftDouble false x n prec true).toInt = x.toInt / 2 ^ n := by
  have hself : x.bits = (BitVec.ofNat prec x.toNat).signExtend (4 * h) := by
    apply BitVec.eq_of_toInt_eq
    rw [x.toInt_bits hh, hext, BitVec.toInt_signExtend_of_le hle]
  have hmsb : x.bits.msb = x.high.msb := x.msb_bits hh
  -- the bits from the sign bit on are all the same
  have hcopy : ∀ k, prec ≤ k + 1 → k < 4 * h → x.bits.getLsbD k = (BitVec.ofNat prec x.toNat).msb := by
    intro k hge hk
    rw [hself, BitVec.getLsbD_signExtend, decide_eq_true hk, Bool.true_and]
    split_ifs with hin
    · rw [BitVec.msb_eq_getLsbD_last, show prec - 1 = k by omega]
    · rfl
  have htop : x.high.msb = (BitVec.ofNat prec x.toNat).msb := by
    rw [← hmsb, BitVec.msb_eq_getLsbD_last]
    exact hcopy _ (by omega) (by omega)
  have hbits : (rshiftDouble false x n prec true).bits = x.bits.sshiftRight n := by
    apply BitVec.eq_of_getLsbD_eq
    intro k hk
    rw [getLsbD_rshiftDouble hh false x (fun hc => absurd hc Bool.false_ne_true) true hk, BitVec.getLsbD_sshiftRight,
      decide_eq_false (by omega), Bool.not_false, Bool.true_and, hmsb, Bool.true_and]
    split_ifs with h1 h2 h2
    · rfl
    · omega
    · rw [htop, hcopy _ (by omega) h2]
    · rfl
  rw [← DoubleWord.toInt_bits hh, hbits, BitVec.toInt_sshiftRight, x.toInt_bits hh, Int.shiftRight_eq_div_pow]
  push_cast
  rfl

end Shifts

/-! ## Rotations -/

section Rotations

variable (hh : 0 < h) (x : DoubleWord h) {prec : ℕ} (hpos : 0 < prec) (hle : prec ≤ 4 * h) (n : ℕ)

theorem rotateCount_natCast : rotateCount n prec = (n % prec : ℕ) := by
  have hmod : (n : ℤ).tmod prec = (n % prec : ℕ) := rfl
  unfold rotateCount
  dsimp only
  rw [hmod, if_neg (not_lt.mpr (Int.natCast_nonneg _))]

include hh hpos hle

/-- **A rotation to the left** of the lowest `prec` bits. Source: `fold-const.c` `lrotate_double`. Kind: L -/
theorem setWidth_lrotateDouble :
    (lrotateDouble false x n prec).bits.setWidth prec = (x.bits.setWidth prec).rotateLeft n := by
  have hlt := Nat.mod_lt n hpos
  unfold lrotateDouble
  rw [rotateCount_natCast]
  dsimp only
  rw [bits_or hh, show ((prec : ℤ) - (n % prec : ℕ)).toNat = prec - n % prec by omega]
  apply BitVec.eq_of_getLsbD_eq
  intro k hk
  rw [BitVec.getLsbD_setWidth, decide_eq_true hk, Bool.true_and, BitVec.getLsbD_or,
    getLsbD_lshiftDouble hh x hpos hle _ _ (by omega), if_pos hk,
    getLsbD_rshiftDouble hh false x (fun hc => absurd hc Bool.false_ne_true) false (by omega), BitVec.getLsbD_shiftLeft,
    decide_eq_true (by omega : k < 4 * h), Bool.true_and, BitVec.getLsbD_rotateLeft, BitVec.getLsbD_setWidth,
    BitVec.getLsbD_setWidth, decide_eq_true hk, Bool.true_and, Bool.false_and]
  by_cases hin : k < n % prec
  · rw [decide_eq_true hin, cond_true, if_pos (by omega), decide_eq_true (by omega : prec - n % prec + k < prec),
      Bool.not_true, Bool.false_and, Bool.false_or, Bool.true_and]
  · rw [decide_eq_false hin, cond_false, if_neg (by omega), decide_eq_true (by omega : k - n % prec < prec), Bool.or_false,
      Bool.not_false]

/-- **A rotation to the right** of the lowest `prec` bits. Source: `fold-const.c` `rrotate_double`. Kind: L -/
theorem setWidth_rrotateDouble :
    (rrotateDouble false x n prec).bits.setWidth prec = (x.bits.setWidth prec).rotateRight n := by
  have hlt := Nat.mod_lt n hpos
  unfold rrotateDouble
  rw [rotateCount_natCast]
  dsimp only
  rw [bits_or hh, Int.toNat_natCast, show (prec : ℤ) - (n % prec : ℕ) = (prec - n % prec : ℕ) by omega]
  apply BitVec.eq_of_getLsbD_eq
  intro k hk
  rw [BitVec.getLsbD_setWidth, decide_eq_true hk, Bool.true_and, BitVec.getLsbD_or,
    getLsbD_lshiftDouble hh x hpos hle _ _ (by omega), if_pos hk,
    getLsbD_rshiftDouble hh false x (fun hc => absurd hc Bool.false_ne_true) false (by omega), BitVec.getLsbD_shiftLeft,
    decide_eq_true (by omega : k < 4 * h), Bool.true_and, BitVec.getLsbD_rotateRight, BitVec.getLsbD_setWidth,
    BitVec.getLsbD_setWidth, decide_eq_true hk, Bool.true_and, Bool.false_and]
  by_cases hin : k < prec - n % prec
  · rw [decide_eq_true hin, cond_true, if_pos (by omega), decide_eq_true (by omega : n % prec + k < prec),
      Bool.not_true, Bool.false_and, Bool.or_false, Bool.true_and]
  · rw [decide_eq_false hin, cond_false, if_neg (by omega), decide_eq_true (by omega : k - (prec - n % prec) < prec),
      Bool.false_or, Bool.not_false]

omit hh hpos hle in
/-- The two rotations of a bit pattern undo each other. -/
theorem rotate_inverse {w : ℕ} (hw : 0 < w) (y : BitVec w) :
    (y.rotateLeft n).rotateRight n = y ∧ (y.rotateRight n).rotateLeft n = y := by
  have hlt := Nat.mod_lt n hw
  constructor
  · apply BitVec.eq_of_getLsbD_eq
    intro k hk
    rw [BitVec.getLsbD_rotateRight, BitVec.getLsbD_rotateLeft, BitVec.getLsbD_rotateLeft, decide_eq_true hk, Bool.true_and]
    simp only [Bool.cond_decide]
    split_ifs with h1 h2 h3
    · omega
    · rw [decide_eq_true (by omega : n % w + k < w), Bool.true_and, Nat.add_sub_cancel_left]
    · congr 1
      omega
    · omega
  · apply BitVec.eq_of_getLsbD_eq
    intro k hk
    rw [BitVec.getLsbD_rotateLeft, BitVec.getLsbD_rotateRight, BitVec.getLsbD_rotateRight, decide_eq_true hk, Bool.true_and]
    simp only [Bool.cond_decide]
    split_ifs with h1 h2 h3
    · omega
    · rw [decide_eq_true (by omega : w - n % w + k < w), Bool.true_and, Nat.add_sub_cancel_left]
    · congr 1
      omega
    · omega

omit hh hpos hle in
/-- The lowest bits as a remainder. -/
theorem toNat_mod_two_pow : x.toNat % 2 ^ prec = (x.bits.setWidth prec).toNat := by
  rw [BitVec.toNat_setWidth, x.toNat_bits]

omit hh hpos hle in
theorem setWidth_bits : x.bits.setWidth prec = BitVec.ofNat prec x.toNat := by
  apply BitVec.eq_of_toNat_eq
  rw [BitVec.toNat_setWidth, x.toNat_bits, BitVec.toNat_ofNat]

/-- **Shifts and rotations at every precision**, by every count: a shift to the left is sign extended from `prec` bits, a
shift to the right divides the lowest `prec` bits, or a value that is sign extended from them, and the two rotations are
those of `prec` bits and undo each other.
Source: `fold-const.c` `lshift_double`, `rshift_double`, `lrotate_double`, `rrotate_double`
Kind: P -/
theorem shift_rotate_spec :
    (∀ arith, (lshiftDouble false x n prec arith).toInt = (BitVec.ofNat prec (x.toNat * 2 ^ n)).toInt) ∧
    (rshiftDouble false x n prec false).toNat = x.toNat % 2 ^ prec / 2 ^ n ∧
    (x.toInt = (BitVec.ofNat prec x.toNat).toInt → (rshiftDouble false x n prec true).toInt = x.toInt / 2 ^ n) ∧
    (lrotateDouble false x n prec).toNat % 2 ^ prec = ((BitVec.ofNat prec x.toNat).rotateLeft n).toNat ∧
    (rrotateDouble false x n prec).toNat % 2 ^ prec = ((BitVec.ofNat prec x.toNat).rotateRight n).toNat ∧
    (rrotateDouble false (lrotateDouble false x n prec) n prec).toNat % 2 ^ prec = x.toNat % 2 ^ prec ∧
    (lrotateDouble false (rrotateDouble false x n prec) n prec).toNat % 2 ^ prec = x.toNat % 2 ^ prec := by
  refine ⟨fun arith => lshiftDouble_toInt hh x hpos hle n arith, rshiftDouble_toNat hh x n,
    fun hext => rshiftDouble_toInt hh x hle n hext, ?_, ?_, ?_, ?_⟩
  · rw [toNat_mod_two_pow, setWidth_lrotateDouble hh x hpos hle, setWidth_bits]
  · rw [toNat_mod_two_pow, setWidth_rrotateDouble hh x hpos hle, setWidth_bits]
  · rw [toNat_mod_two_pow, toNat_mod_two_pow, setWidth_rrotateDouble hh _ hpos hle, setWidth_lrotateDouble hh x hpos hle,
      (rotate_inverse n hpos _).1]
  · rw [toNat_mod_two_pow, toNat_mod_two_pow, setWidth_lrotateDouble hh _ hpos hle, setWidth_rrotateDouble hh x hpos hle,
      (rotate_inverse n hpos _).2]

end Rotations

/-- Source: none: the theorem at a precision of five bits. Kind: C -/
theorem shift_rotate_five :
    (lshiftDouble (h := 2) false ⟨11, 0⟩ 1 5 false).toInt = -10 ∧
      (rrotateDouble (h := 2) false (lrotateDouble false ⟨11, 0⟩ 7 5) 7 5).toNat % 2 ^ 5 = 11 := by
  obtain ⟨hleft, -, -, -, -, hinv, -⟩ :=
    shift_rotate_spec (h := 2) (by decide) ⟨11, 0⟩ (by decide : 0 < 5) (by decide) 1
  obtain ⟨-, -, -, -, -, hinv, -⟩ :=
    shift_rotate_spec (h := 2) (by decide) ⟨11, 0⟩ (by decide : 0 < 5) (by decide) 7
  exact ⟨(hleft false).trans (by decide), hinv.trans (by decide)⟩

end GccCore.Gcc.FoldConst
