import GccCore.Gcc.FoldConst.Nearest
import GccCore.Gcc.DoubleInt
import GccCore.Gcc.Real.Format

/-!
# `gcc/real.c`: integers

A two-word integer is a significand whose upper bits are the two words.

* **From integers** (`realFromInteger_represents`) and **to integers** (`realToInteger2_spec`): no bit is lost.
* **Truncation** (`doFixTrunc_spec`).
-/

namespace GccCore.Gcc.Real

open GccCore.Lib.WordArray GccCore.Lib.Scaled GccCore.Lib.RoundedDiv GccCore.Gcc.FoldConst

variable {l h : ℕ}

/-! ## The code -/

/-- The bits of a `long` and half of those of a `HOST_WIDE_INT`.
Source: `real.c` (`gcc_assert(HOST_BITS_PER_WIDE_INT == 2 * HOST_BITS_PER_LONG)`) -/
def HostWide (l h : ℕ) : Prop := (l = 64 ∧ h = 32) ∨ (l = 32 ∧ h = 32) ∨ (l = 32 ∧ h = 16)

/-- The words of the integer, at the top of the significand. Source: `real.c` `real_from_integer`. -/
def integerSignificand (l : ℕ) (v : DoubleWord h) : Words l (sigsz l) :=
  if l = 2 * h then
    .ofFn fun i =>
      if i = sigsz l - 1 then v.high.setWidth l
      else if i = sigsz l - 2 then v.low.setWidth l
      else 0
  else
    .ofFn fun i =>
      if i = sigsz l - 1 then ((v.high.sshiftRight (l - 1)).sshiftRight 1).setWidth l
      else if i = sigsz l - 2 then v.high.setWidth l
      else if i = sigsz l - 3 then (v.low >>> (l - 1) >>> 1).setWidth l
      else if i = sigsz l - 4 then v.low.setWidth l
      else 0

/-- Source: `real.c` (`if (mode != VOIDmode) real_convert(r, mode, r)`). -/
def convertTo (dfp : Dfp l) (mode : Option (RealFormat l)) (r : RealValue l) : RealValue l :=
  match mode with
  | none => r
  | some fmt => realConvert dfp fmt r

/-- Source: `real.c` `real_from_integer`. -/
def realFromInteger (dfp : Dfp l) (mode : Option (RealFormat l)) (x : DoubleWord h) (unsignedP : Bool) : RealValue l :=
  convertTo dfp mode
    (if x.low = 0 ∧ x.high = 0 then getZero l false
    else
      let sign := x.high.msb && !unsignedP
      let v : DoubleWord h := if sign then (if x.low = 0 then ⟨x.low, ~~~x.high + 1⟩ else ⟨-x.low, ~~~x.high⟩) else x
      normalize ⟨.rvc_normal, false, sign, false, false, setRealExp (2 * (2 * h)), integerSignificand l v⟩)

/-- The words at the top of the significand. Source: `real.c` `real_to_integer2`. -/
def topWords (h : ℕ) (t : Words l (sigsz l)) : DoubleWord h :=
  if 2 * h = l then ⟨(t.word (sigsz l - 2)).setWidth (2 * h), (t.word (sigsz l - 1)).setWidth (2 * h)⟩
  else
    ⟨(t.word (sigsz l - 3)).setWidth (2 * h) <<< (l - 1) <<< 1 ||| (t.word (sigsz l - 4)).setWidth (2 * h),
     (t.word (sigsz l - 1)).setWidth (2 * h) <<< (l - 1) <<< 1 ||| (t.word (sigsz l - 2)).setWidth (2 * h)⟩

/-- Source: `real.c` `real_to_integer2` (`overflow`). -/
def integerOverflow (h : ℕ) (sign : Bool) : DoubleWord h :=
  let high : Word h := (1 : Word h) <<< (2 * h - 1)
  if sign then ⟨0, high⟩ else ⟨-1, high - 1⟩

/-- Source: `real.c` `real_to_integer2`. -/
def realToInteger2 (decimalRealToInteger2 : RealValue l → DoubleWord h) (r : RealValue l) : DoubleWord h :=
  match r.cl with
  | .rvc_zero => ⟨0, 0⟩
  | .rvc_inf | .rvc_nan => integerOverflow h r.sign
  | .rvc_normal =>
    if r.decimal then decimalRealToInteger2 r
    else if r.realExp ≤ 0 then ⟨0, 0⟩
    else if 2 * (2 * h) < r.realExp then integerOverflow h r.sign
    else
      let v := topWords h (rshiftSignificand r.sig (2 * (2 * h) - r.realExp).toNat)
      if r.sign then (if v.low = 0 then ⟨v.low, -v.high⟩ else ⟨-v.low, ~~~v.high⟩) else v

/-- Source: `real.c` `do_fix_trunc`. -/
def doFixTrunc (dfp : Dfp l) (a : RealValue l) : RealValue l :=
  match a.cl with
  | .rvc_zero | .rvc_inf | .rvc_nan => a
  | .rvc_normal =>
    if a.decimal then dfp.decimalDoFixTrunc a
    else if a.realExp ≤ 0 then getZero l a.sign
    else if a.realExp < significandBits l then
      { a with sig := clearSignificandBelow a.sig (significandBits l - a.realExp).toNat }
    else a

/-! ## Words -/

/-- Two words that make up a longer one. Source: `real.c` `real_to_integer2`. Kind: L -/
theorem joined_bit (hl : 0 < l) (a b : BitVec l) {m : ℕ} (hm : m < 2 * l) :
    (a.setWidth (2 * l) <<< (l - 1) <<< 1 ||| b.setWidth (2 * l)).getLsbD m = if m < l then b.getLsbD m else a.getLsbD (m - l) := by
  rw [BitVec.getLsbD_or, BitVec.getLsbD_shiftLeft, BitVec.getLsbD_shiftLeft, BitVec.getLsbD_setWidth, BitVec.getLsbD_setWidth,
    decide_eq_true hm, Bool.true_and, Bool.true_and]
  split_ifs with hlow
  · by_cases hone : m < 1
    · rw [decide_eq_true hone, Bool.not_true, Bool.false_and, Bool.false_or]
    · rw [decide_eq_false hone, decide_eq_true (show m - 1 < l - 1 by omega), Bool.not_true, Bool.and_false, Bool.false_and,
        Bool.and_false, Bool.false_or]
  · rw [decide_eq_false (by omega), decide_eq_true (show m - 1 < 2 * l by omega), decide_eq_false (show ¬ m - 1 < l - 1 by omega),
      decide_eq_true (show m - 1 - (l - 1) < 2 * l by omega), BitVec.getLsbD_of_ge b m (by omega), Bool.or_false]
    have hsub : m - 1 - (l - 1) = m - l := by omega
    rw [hsub]
    rfl

section Words

variable (hw : HostWide l h)

include hw

theorem HostWide.long : HostLong l := by
  rcases hw with ⟨rfl, -⟩ | ⟨rfl, -⟩ | ⟨rfl, -⟩
  · exact Or.inl rfl
  · exact Or.inr rfl
  · exact Or.inr rfl

/-- Either word is as long as a `long`, or two of them. Source: `real.c` (`gcc_assert(...)`). Kind: L -/
theorem HostWide.cases :
    (l = 2 * h ∧ ∃ d, sigsz l = d + 2 ∧ significandBits l - 4 * h = l * d) ∨
      (l ≠ 2 * h ∧ h = l ∧ ∃ d, sigsz l = d + 4 ∧ significandBits l - 4 * h = l * d) := by
  rcases hw with ⟨rfl, rfl⟩ | ⟨rfl, rfl⟩ | ⟨rfl, rfl⟩
  · exact Or.inl ⟨rfl, 1, rfl, rfl⟩
  · exact Or.inr ⟨by decide, rfl, 1, rfl, rfl⟩
  · exact Or.inl ⟨rfl, 3, rfl, rfl⟩

theorem HostWide.le : 4 * h ≤ significandBits l := by
  rcases hw with ⟨rfl, rfl⟩ | ⟨rfl, rfl⟩ | ⟨rfl, rfl⟩ <;> decide

/-- **The integer is the top** of the significand. Source: `real.c` `real_from_integer`. Kind: L -/
theorem integerSignificand_toNat (v : DoubleWord h) :
    (integerSignificand l v).toNat = v.toNat * 2 ^ (significandBits l - 4 * h) := by
  have hlong := hw.long
  have hle := hw.le
  have hlt : v.toNat * 2 ^ (significandBits l - 4 * h) < 2 ^ (l * sigsz l) := by
    calc v.toNat * 2 ^ (significandBits l - 4 * h) < 2 ^ (4 * h) * 2 ^ (significandBits l - 4 * h) :=
          Nat.mul_lt_mul_of_pos_right v.toNat_lt (by positivity)
      _ = 2 ^ (l * sigsz l) := by rw [← pow_add, hlong.mul_sigsz]; congr 1; omega
  refine Words.toNat_eq_of_bits hlong.pos hlt fun i hi j hj => ?_
  rw [← Nat.shiftLeft_eq, Nat.testBit_shiftLeft, ← v.toNat_bits, BitVec.testBit_toNat, v.getLsbD_bits]
  unfold integerSignificand
  rcases hw.cases with ⟨hwide, d, hsize, hbits⟩ | ⟨hne, rfl, d, hsize, hbits⟩
  · rw [if_pos hwide, Words.word_ofFn hi, hbits, hsize]
    rw [hsize] at hi
    rcases (by omega : i < d ∨ i = d ∨ i = d + 1) with hlow | rfl | rfl
    · have hblock : l * (i + 1) ≤ l * d := Nat.mul_le_mul_left l hlow
      rw [mul_add] at hblock
      rw [if_neg (by omega), if_neg (by omega), decide_eq_false (by omega), Bool.false_and]
      exact BitVec.getLsbD_zero
    · rw [if_neg (by omega), if_pos (by omega), decide_eq_true (by omega), Bool.true_and, if_pos (by omega), BitVec.getLsbD_setWidth,
        decide_eq_true hj, Bool.true_and, Nat.add_sub_cancel_left]
    · rw [if_pos (by omega), mul_add, decide_eq_true (by omega), Bool.true_and, if_neg (by omega), BitVec.getLsbD_setWidth,
        decide_eq_true hj, Bool.true_and]
      congr 1
      omega
  · rw [if_neg hne, Words.word_ofFn hi, hbits, hsize]
    rw [hsize] at hi
    rcases (by omega : i < d ∨ i = d ∨ i = d + 1 ∨ i = d + 2 ∨ i = d + 3) with hlow | rfl | rfl | rfl | rfl
    · have hblock : h * (i + 1) ≤ h * d := Nat.mul_le_mul_left h hlow
      rw [mul_add] at hblock
      rw [if_neg (by omega), if_neg (by omega), if_neg (by omega), if_neg (by omega), decide_eq_false (by omega), Bool.false_and]
      exact BitVec.getLsbD_zero
    · rw [if_neg (by omega), if_neg (by omega), if_neg (by omega), if_pos (by omega), decide_eq_true (by omega), Bool.true_and,
        if_pos (by omega), BitVec.getLsbD_setWidth, decide_eq_true hj, Bool.true_and, Nat.add_sub_cancel_left]
    · rw [if_neg (by omega), if_neg (by omega), if_pos (by omega), mul_add, decide_eq_true (by omega), Bool.true_and,
        if_pos (by omega), BitVec.getLsbD_setWidth, decide_eq_true hj, Bool.true_and, BitVec.getLsbD_ushiftRight,
        BitVec.getLsbD_ushiftRight]
      congr 1
      omega
    · rw [if_neg (by omega), if_pos (by omega), mul_add, decide_eq_true (by omega), Bool.true_and, if_neg (by omega),
        BitVec.getLsbD_setWidth, decide_eq_true hj, Bool.true_and]
      congr 1
      omega
    · rw [if_pos (by omega), mul_add, decide_eq_true (by omega), Bool.true_and, if_neg (by omega),
        BitVec.getLsbD_setWidth, decide_eq_true hj, Bool.true_and, BitVec.getLsbD_sshiftRight, decide_eq_false (by omega),
        if_pos (by omega), BitVec.getLsbD_sshiftRight, decide_eq_false (by omega), if_pos (by omega), Bool.not_false, Bool.true_and,
        Bool.true_and]
      congr 1
      omega

/-- **The top** of a significand is an integer. Source: `real.c` `real_to_integer2`. Kind: L -/
theorem topWords_toNat (t : Words l (sigsz l)) : (topWords h t).toNat = t.toNat / 2 ^ (significandBits l - 4 * h) := by
  have hlong := hw.long
  have hpos := hlong.pos
  have hzero : ∀ i j, sigsz l ≤ i → (t.word i).getLsbD j = false := by
    intro i j hi
    rw [Words.word_of_le hi]
    exact BitVec.getLsbD_zero
  apply Nat.eq_of_testBit_eq
  intro m
  have hsplit := Nat.div_add_mod m l
  have hmod := Nat.mod_lt m hpos
  rw [Nat.testBit_div_two_pow, ← (topWords h t).toNat_bits, BitVec.testBit_toNat, (topWords h t).getLsbD_bits]
  unfold topWords
  rcases hw.cases with ⟨hwide, d, hsize, hbits⟩ | ⟨hne, rfl, d, hsize, hbits⟩
  · have hbit : t.toNat.testBit (m + l * d) = (t.word (d + m / l)).getLsbD (m % l) := by
      rw [← Words.testBit_block hpos t hmod]
      congr 1
      rw [mul_add]
      omega
    rw [if_pos hwide.symm, hbits, hbit]
    dsimp only
    rw [BitVec.getLsbD_setWidth, BitVec.getLsbD_setWidth]
    rcases (by omega : m < l ∨ l ≤ m ∧ m < 2 * l ∨ 2 * l ≤ m) with hlow | ⟨hge, hhigh⟩ | htop
    · rw [if_pos (by omega), decide_eq_true (by omega), Bool.true_and, Nat.div_eq_of_lt hlow, Nat.mod_eq_of_lt hlow]
      congr 2
      omega
    · have hdiv : m / l = 1 := Nat.div_eq_of_lt_le (by omega) (by omega)
      rw [hdiv, mul_one] at hsplit
      rw [if_neg (by omega), decide_eq_true (by omega), Bool.true_and, hdiv]
      congr 1
      · congr 1
        omega
      · omega
    · have hdiv : 2 ≤ m / l := (Nat.le_div_iff_mul_le hpos).mpr htop
      rw [if_neg (by omega), decide_eq_false (by omega), Bool.false_and, hzero _ _ (by omega)]
  · have hbit : t.toNat.testBit (m + h * d) = (t.word (d + m / h)).getLsbD (m % h) := by
      rw [← Words.testBit_block hpos t hmod]
      congr 1
      rw [mul_add]
      omega
    rw [if_neg (Ne.symm hne), hbits, hbit]
    dsimp only
    rcases (by omega : m < h ∨ h ≤ m ∧ m < 2 * h ∨ 2 * h ≤ m ∧ m < 3 * h ∨ 3 * h ≤ m ∧ m < 4 * h ∨ 4 * h ≤ m) with
      hq | hq | hq | hq | htop
    · rw [if_pos (by omega), joined_bit hpos _ _ (by omega), if_pos hq, Nat.div_eq_of_lt hq, Nat.mod_eq_of_lt hq]
      congr 2
      omega
    · have hdiv : m / h = 1 := Nat.div_eq_of_lt_le (by omega) (by omega)
      rw [hdiv, mul_one] at hsplit
      rw [if_pos (by omega), joined_bit hpos _ _ (by omega), if_neg (by omega), hdiv]
      congr 1
      · congr 1
        omega
      · omega
    · have hdiv : m / h = 2 := Nat.div_eq_of_lt_le (by omega) (by omega)
      rw [hdiv] at hsplit
      rw [if_neg (by omega), joined_bit hpos _ _ (by omega), if_pos (by omega), hdiv]
      congr 1
      · congr 1
        omega
      · omega
    · have hdiv : m / h = 3 := Nat.div_eq_of_lt_le (by omega) (by omega)
      rw [hdiv] at hsplit
      rw [if_neg (by omega), joined_bit hpos _ _ (by omega), if_neg (by omega), hdiv]
      congr 1
      · congr 1
        omega
      · omega
    · have hdiv : 4 ≤ m / h := (Nat.le_div_iff_mul_le hpos).mpr htop
      rw [if_neg (by omega), BitVec.getLsbD_of_ge _ _ (by omega), hzero _ _ (by omega)]

end Words

/-! ## From integers and to integers -/

theorem HostLong.significandBits_le (hl : HostLong l) : significandBits l ≤ 192 := by
  rcases hl with rfl | rfl <;> decide

section Conversions

/-- The code negates two words as the integer arithmetic does. Source: `real.c` `real_from_integer` (`high = ~high`). Kind: L -/
theorem negated_eq (x : DoubleWord h) :
    (if x.low = 0 then ⟨x.low, ~~~x.high + 1⟩ else ⟨-x.low, ~~~x.high⟩ : DoubleWord h) = (negDouble x).1 := by
  unfold negDouble
  split_ifs with hlow
  · rw [BitVec.neg_eq_not_add, hlow]
    rfl
  · rfl

theorem negated_eq' (x : DoubleWord h) :
    (if x.low = 0 then ⟨x.low, -x.high⟩ else ⟨-x.low, ~~~x.high⟩ : DoubleWord h) = (negDouble x).1 := by
  unfold negDouble
  split_ifs with hlow
  · rw [hlow]
  · rfl

variable (hw : HostWide l h)

include hw

theorem HostWide.pos : 0 < h := by
  rcases hw with ⟨-, rfl⟩ | ⟨-, rfl⟩ | ⟨-, rfl⟩ <;> decide

/-- The magnitude that is put into the significand. Source: `real.c` `real_from_integer`. Kind: L -/
theorem magnitude_toNat (x : DoubleWord h) (unsignedP : Bool) :
    (if x.high.msb && !unsignedP then (negDouble x).1 else x).toNat = (x.value unsignedP).natAbs ∧
      ((x.high.msb && !unsignedP) = true ↔ x.value unsignedP < 0) := by
  cases unsignedP with
  | true =>
    rw [Bool.not_true, Bool.and_false, if_neg Bool.false_ne_true]
    unfold DoubleWord.value
    rw [if_pos rfl]
    refine ⟨(Int.natAbs_natCast _).symm, ?_⟩
    simp
  | false =>
    rw [Bool.not_false, Bool.and_true, absSigned_toNat hw.pos]
    exact ⟨rfl, x.msb_iff_toInt_neg⟩

/-- **From integers**: no bit is lost. Source: `real.c` `real_from_integer`. Kind: L -/
theorem realFromInteger_represents (dfp : Dfp l) (x : DoubleWord h) (unsignedP : Bool) (hne : x.value unsignedP ≠ 0) :
    ∃ s : ℕ, (s : ℤ) < significandBits l ∧
      2 ^ (significandBits l - 1) ≤ (x.value unsignedP).natAbs * 2 ^ (significandBits l - 4 * h) * 2 ^ s ∧
      (realFromInteger dfp none x unsignedP).Represents (decide (x.value unsignedP < 0)) (4 * h - s)
        ((x.value unsignedP).natAbs * 2 ^ (significandBits l - 4 * h) * 2 ^ s) := by
  have hlong := hw.long
  have hle := hw.le
  obtain ⟨hmagnitude, hsign⟩ := magnitude_toNat hw x unsignedP
  have hmod := x.value_modEq unsignedP
  have hzero : ¬ (x.low = 0 ∧ x.high = 0) := by
    rintro ⟨hlow, hhigh⟩
    refine hne ?_
    have hnat : x.toNat = 0 := by
      unfold DoubleWord.toNat
      rw [hlow, hhigh]
      simp
    unfold DoubleWord.value
    split_ifs
    · rw [hnat]
      rfl
    · exact (x.toNat_eq_zero_iff).mp hnat
  have hlt : (x.value unsignedP).natAbs * 2 ^ (significandBits l - 4 * h) < 2 ^ significandBits l := by
    rw [← hmagnitude]
    calc _ < 2 ^ (4 * h) * 2 ^ (significandBits l - 4 * h) := Nat.mul_lt_mul_of_pos_right (DoubleWord.toNat_lt _) (by positivity)
      _ = 2 ^ significandBits l := by rw [← pow_add, Nat.add_sub_of_le hle]
  obtain ⟨s, hs, hge, hlt'⟩ := exists_shift (S := significandBits l) (Nat.mul_ne_zero (Int.natAbs_ne_zero.mpr hne) (by positivity)) hlt
  refine ⟨s, by exact_mod_cast hs, hge, ?_⟩
  unfold realFromInteger convertTo
  dsimp only
  rw [if_neg hzero, negated_eq]
  have hsig := integerSignificand_toNat hw (if x.high.msb && !unsignedP then (negDouble x).1 else x)
  rw [hmagnitude] at hsig
  have hsign' : (x.high.msb && !unsignedP) = decide (x.value unsignedP < 0) := by
    rw [Bool.eq_iff_iff, hsign, decide_eq_true_iff]
  rw [← hsign']
  have hbits := hlong.significandBits_le
  refine normalize_spec hlong ⟨rfl, rfl, rfl, realExp_eq ?_ (by omega), hsig⟩ (by unfold maxExp; omega) hge hlt' (by unfold maxExp; omega)
  dsimp only
  congr 1
  omega

/-- **To integers**: the upper bits, with the sign. Source: `real.c` `real_to_integer2`. Kind: L -/
theorem realToInteger2_spec (dec : RealValue l → DoubleWord h) {r : RealValue l} {sign : Bool} {exp : ℤ} {m : ℕ}
    (hr : r.Represents sign exp m) (hexp : 0 < exp ∧ exp ≤ 4 * h) :
    ∃ v : DoubleWord h, v.toNat = m / 2 ^ (significandBits l - exp).toNat ∧
      realToInteger2 dec r = if sign then (negDouble v).1 else v := by
  obtain ⟨hcl, hdec, rfl, rfl, rfl⟩ := hr
  have hlong := hw.long
  have hle := hw.le
  refine ⟨topWords h (rshiftSignificand r.sig (2 * (2 * h) - r.realExp).toNat), ?_, ?_⟩
  · rw [topWords_toNat hw, rshiftSignificand_toNat hlong.pos, Nat.div_div_eq_div_mul, ← pow_add]
    congr 2
    omega
  · unfold realToInteger2
    rw [hcl, hdec]
    dsimp only
    rw [if_neg Bool.false_ne_true, if_neg (by omega), if_neg (by omega), negated_eq']

end Conversions

/-! ## Truncation -/

section Truncation

variable (hl : HostLong l) (dfp : Dfp l) {r : RealValue l} {sign : Bool} {exp : ℤ} {m : ℕ}

theorem value_getZero (sign : Bool) : (getZero l sign).value = 0 := value_of_zero rfl

/-- A number below one. -/
theorem floor_scaled_of_nonpos {S : ℕ} (hm : m < 2 ^ S) (hexp : exp ≤ 0) : ⌊scaled m (exp - S)⌋ = 0 := by
  rw [Int.floor_eq_zero_iff, Set.mem_Ico]
  refine ⟨scaled_nonneg, ?_⟩
  calc scaled m (exp - S) < scaled (2 ^ S) (exp - S) := scaled_lt_scaled hm
    _ = 2 ^ exp := by rw [scaled_two_pow, add_sub_cancel]
    _ ≤ 1 := zpow_le_one_of_nonpos₀ one_le_two hexp

include hl

variable (hr : r.Represents sign exp m)

include hr

/-- A number with an integral part. Source: `real.c` `do_fix_trunc`. Kind: L -/
theorem doFixTrunc_represents (hexp : 0 < exp ∧ exp ≤ significandBits l) :
    (doFixTrunc dfp r).Represents sign exp
      (m / 2 ^ (significandBits l - exp).toNat * 2 ^ (significandBits l - exp).toNat) := by
  obtain ⟨hcl, hdec, rfl, rfl, rfl⟩ := hr
  unfold doFixTrunc
  rw [hcl, hdec]
  dsimp only
  rw [if_neg Bool.false_ne_true, if_neg (by omega)]
  split_ifs with hlt
  · exact ⟨rfl, rfl, rfl, rfl, clearSignificandBelow_toNat hl.pos r.sig⟩
  · have hzero : (significandBits l - r.realExp).toNat = 0 := by omega
    rw [hzero, pow_zero, Nat.div_one, mul_one]
    exact ⟨hcl, hdec, rfl, rfl, rfl⟩

omit hl in
/-- A number without an integral part. Source: `real.c` `do_fix_trunc`. Kind: L -/
theorem doFixTrunc_of_nonpos (hexp : exp ≤ 0) : doFixTrunc dfp r = getZero l sign := by
  obtain ⟨hcl, hdec, rfl, rfl, rfl⟩ := hr
  unfold doFixTrunc
  rw [hcl, hdec]
  dsimp only
  rw [if_neg Bool.false_ne_true, if_pos hexp]

omit hl in
/-- A number without a fraction. Source: `real.c` `do_fix_trunc`. Kind: L -/
theorem doFixTrunc_of_ge (hexp : (significandBits l : ℤ) ≤ exp) : doFixTrunc dfp r = r := by
  obtain ⟨hcl, hdec, rfl, rfl, rfl⟩ := hr
  have hS : 0 < significandBits l := by
    unfold significandBits
    omega
  unfold doFixTrunc
  rw [hcl, hdec]
  dsimp only
  rw [if_neg Bool.false_ne_true, if_neg (by omega), if_neg (by omega)]

/-- **The truncation** of a number. Source: `real.c` `do_fix_trunc`. Kind: P -/
theorem doFixTrunc_spec (hm : 2 ^ (significandBits l - 1) ≤ m) (hexp : -maxExp ≤ exp ∧ exp ≤ maxExp) :
    (doFixTrunc dfp r).Finite ∧ (doFixTrunc dfp r).value = signed sign ⌊scaled m (exp - significandBits l)⌋ := by
  have hmlt : m < 2 ^ significandBits l := by
    rw [← hr.sig]
    exact r.sig_lt hl
  rcases (by omega : exp ≤ 0 ∨ (0 < exp ∧ exp ≤ significandBits l) ∨ (significandBits l : ℤ) ≤ exp) with hsmall | hmid | hlarge
  · rw [doFixTrunc_of_nonpos dfp hr hsmall, floor_scaled_of_nonpos hmlt hsmall, Int.cast_zero, signed_zero]
    exact ⟨Or.inl rfl, value_getZero sign⟩
  · obtain ⟨n, hn⟩ := Int.eq_ofNat_of_zero_le (show 0 ≤ (significandBits l : ℤ) - exp by omega)
    have ht := doFixTrunc_represents hl dfp hr hmid
    rw [hn, Int.toNat_natCast] at ht
    have hneg : exp - significandBits l = -(n : ℤ) := by omega
    have hquot : 2 ^ (significandBits l - 1 - n) ≤ m / 2 ^ n := by
      rw [Nat.le_div_iff_mul_le (by positivity), ← pow_add]
      refine le_trans (le_of_eq ?_) hm
      congr 1
      omega
    refine ⟨Or.inr (ht.normalized ?_ hexp), ?_⟩
    · calc 2 ^ (significandBits l - 1) = 2 ^ (significandBits l - 1 - n) * 2 ^ n := by rw [← pow_add]; congr 1; omega
        _ ≤ m / 2 ^ n * 2 ^ n := Nat.mul_le_mul_right _ hquot
    · rw [ht.value, hneg, floor_scaled_neg, scaled_mul_two_pow, neg_add_cancel]
      unfold scaled
      rw [zpow_zero, mul_one]
      norm_cast
  · rw [doFixTrunc_of_ge dfp hr hlarge]
    refine ⟨Or.inr (hr.normalized hm hexp), ?_⟩
    obtain ⟨n, hn⟩ := Int.eq_ofNat_of_zero_le (show 0 ≤ exp - significandBits l by omega)
    rw [hr.value, hn]
    rw [scaled_natCast, Int.floor_natCast, Int.cast_natCast]

end Truncation

end GccCore.Gcc.Real
