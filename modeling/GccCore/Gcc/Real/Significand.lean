import GccCore.Lib.WordArray

/-!
# `gcc/real.c`: significands

A significand is an array of host words, least significant first. Each function on significands is one on the number that the words
write.

* **Shifts**: `rshiftSignificand_toNat`, `sticky_iff`, `lshiftSignificand_toNat`.
* **Arithmetic** (`addSignificands_spec`): the loop hands a carry from word to word.
* **Bits**: `setSignificandBit_toNat`, `clearSignificandBelow_toNat`.
* **Leading zeros** (`normalizeShift_spec`): the shift that brings the first bit to the top.
-/

namespace GccCore.Gcc.Real

open GccCore.Lib.Digits GccCore.Lib.WordArray

variable {l k : ℕ}

/-! ## The code -/

/-- Source: `real.c` `rshift_significand`. -/
def rshiftSignificand (a : Words l k) (n : ℕ) : Words l k :=
  let ofs := n / l
  let n := n % l
  if n ≠ 0 then .ofFn fun i => a.word (ofs + i) >>> n ||| a.word (ofs + i + 1) <<< (l - n)
  else .ofFn fun i => a.word (ofs + i)

/-- The shifted significand, and whether one bits were shifted out. Source: `real.c` `sticky_rshift_significand`. -/
def stickyRshiftSignificand (a : Words l k) (n : ℕ) : Words l k × Bool :=
  let ofs := n / l
  let sticky := (List.range ofs).any fun i => a.word i != 0
  (rshiftSignificand a n, sticky || (n % l != 0 && a.word ofs &&& ((1 : BitVec l) <<< (n % l) - 1) != 0))

/-- Source: `real.c` `lshift_significand`. -/
def lshiftSignificand (a : Words l k) (n : ℕ) : Words l k :=
  let ofs := n / l
  let n := n % l
  if n = 0 then .ofFn fun i => if i < ofs then 0 else a.word (i - ofs)
  else
    .ofFn fun i => (if i < ofs then 0 else a.word (i - ofs)) <<< n ||| (if i < ofs + 1 then 0 else a.word (i - ofs - 1)) >>> (l - n)

/-- One word of a sum, and the carry. Source: `real.c` `add_significands`. -/
def addStep (ai bi : BitVec l) (carry : Bool) : BitVec l × Bool :=
  let ri := ai + bi
  if carry then (ri + 1, decide (ri < ai) || ri + 1 == 0) else (ri, decide (ri < ai))

/-- The carry into a word. Source: `real.c` `add_significands` (`carry`). -/
def addCarry (a b : Words l k) : ℕ → Bool
  | 0 => false
  | i + 1 => (addStep (a.word i) (b.word i) (addCarry a b i)).2

/-- The sum, and whether there was carry out of the most significant word. Source: `real.c` `add_significands`. -/
def addSignificands (a b : Words l k) : Words l k × Bool :=
  (.ofFn fun i => (addStep (a.word i) (b.word i) (addCarry a b i)).1, addCarry a b k)

/-- One word of a difference, and the borrow. Source: `real.c` `sub_significands`. -/
def subStep (ai bi : BitVec l) (carry : Bool) : BitVec l × Bool :=
  let ri := ai - bi
  if carry then (ri - 1, decide (ai < ri) || ~~~(ri - 1) == 0) else (ri, decide (ai < ri))

/-- The borrow from a word. Source: `real.c` `sub_significands` (`carry`). -/
def subCarry (a b : Words l k) (carry : Bool) : ℕ → Bool
  | 0 => carry
  | i + 1 => (subStep (a.word i) (b.word i) (subCarry a b carry i)).2

/-- The difference, and whether there was borrow out of the most significant word. Source: `real.c` `sub_significands`. -/
def subSignificands (a b : Words l k) (carry : Bool) : Words l k × Bool :=
  (.ofFn fun i => (subStep (a.word i) (b.word i) (subCarry a b carry i)).1, subCarry a b carry k)

/-- Whether all words below are zero. Source: `real.c` `neg_significand` (`carry`). -/
def negCarry (a : Words l k) : ℕ → Bool
  | 0 => true
  | i + 1 => negCarry a i && a.word i == 0

/-- Source: `real.c` `neg_significand`. -/
def negSignificand (a : Words l k) : Words l k :=
  .ofFn fun i => if negCarry a i then (if a.word i ≠ 0 then -a.word i else a.word i) else ~~~a.word i

/-- Source: `real.c` `cmp_significand_0`. -/
def cmpSignificand0 (a : Words l k) : Bool := (List.range k).any fun i => a.word i != 0

/-- Source: `real.c` `set_significand_bit`. -/
def setSignificandBit (a : Words l k) (n : ℕ) : Words l k :=
  .ofFn fun i => if i = n / l then a.word i ||| (1 : BitVec l) <<< (n % l) else a.word i

/-- Source: `real.c` `clear_significand_below`. -/
def clearSignificandBelow (a : Words l k) (n : ℕ) : Words l k :=
  .ofFn fun i => if i < n / l then 0 else if i = n / l then a.word i &&& ~~~((1 : BitVec l) <<< (n % l) - 1) else a.word i

/-- The first word that is nonzero, from the top. Source: `real.c` `normalize` ("Find the first word that is nonzero"). -/
def firstWord (a : Words l k) : ℕ → Option ℕ
  | 0 => none
  | i + 1 => if a.word i = 0 then firstWord a i else some i

/-- The first bit that is nonzero, from the top. Source: `real.c` `normalize` ("Find the first bit that is nonzero"). -/
def firstBit (w : BitVec l) : ℕ → ℕ → ℕ
  | 0, j => j
  | n + 1, j => if w &&& (1 : BitVec l) <<< (l - 1 - j) ≠ 0 then j else firstBit w n (j + 1)

/-- The shift that brings the first bit to the top; a zero significand has none. Source: `real.c` `normalize` (`shift`). -/
def normalizeShift (a : Words l k) : Option ℕ :=
  (firstWord a k).map fun i => l * (k - 1 - i) + firstBit (a.word i) l 0

/-! ## Shifts -/

section Shifts

variable (hl : 0 < l) (a : Words l k) (n : ℕ)

include hl

/-- **Right shifts** divide. Source: `real.c` `rshift_significand`. Kind: L -/
theorem rshiftSignificand_toNat : (rshiftSignificand a n).toNat = a.toNat / 2 ^ n := by
  refine Words.toNat_eq_of_bits hl (lt_of_le_of_lt (Nat.div_le_self _ _) a.toNat_lt) fun i hi j hj => ?_
  have hsplit := Nat.div_add_mod n l
  have hn := Nat.mod_lt n hl
  have hpos : l * i + j + n = l * (n / l + i) + (j + n % l) := by
    rw [mul_add]
    omega
  rw [Nat.testBit_div_two_pow, hpos]
  unfold rshiftSignificand
  dsimp only
  split_ifs with hzero
  · rw [Words.word_ofFn hi, BitVec.getLsbD_or, BitVec.getLsbD_ushiftRight, BitVec.getLsbD_shiftLeft, decide_eq_true hj,
      Bool.true_and]
    by_cases hcarry : j + n % l < l
    · rw [Words.testBit_block hl a hcarry, decide_eq_true (by omega), Bool.not_true, Bool.false_and, Bool.or_false,
        Nat.add_comm (n % l) j]
    · have hnext : l * (n / l + i) + (j + n % l) = l * (n / l + i + 1) + (j - (l - n % l)) := by
        rw [mul_add l (n / l + i) 1]
        omega
      rw [hnext, Words.testBit_block hl a (by omega), BitVec.getLsbD_of_ge _ _ (by omega), decide_eq_false (by omega),
        Bool.not_false, Bool.true_and, Bool.false_or]
  · have hzero' := not_not.mp hzero
    rw [Words.word_ofFn hi, hzero', Nat.add_zero, Words.testBit_block hl a hj]

/-- **One bits are shifted out** if the significand is not divisible. Source: `real.c` `sticky_rshift_significand`. Kind: L -/
theorem sticky_iff : (stickyRshiftSignificand a n).2 = true ↔ a.toNat % 2 ^ n ≠ 0 := by
  have hsplit := Nat.div_add_mod n l
  have hn := Nat.mod_lt n hl
  have hwords : ((List.range (n / l)).any fun i => a.word i != 0) = true ↔ ∃ m < l * (n / l), a.toNat.testBit m = true := by
    simp only [List.any_eq_true, List.mem_range, bne_iff_ne, ne_zero_iff_exists_bit]
    constructor
    · rintro ⟨i, hi, j, hj, hset⟩
      refine ⟨l * i + j, ?_, (Words.testBit_block hl a hj).trans hset⟩
      calc l * i + j < l * (i + 1) := by rw [mul_add]; omega
        _ ≤ l * (n / l) := Nat.mul_le_mul_left l hi
    · rintro ⟨m, hm, hset⟩
      rw [Words.testBit_toNat hl] at hset
      exact ⟨m / l, Nat.div_lt_of_lt_mul hm, m % l, Nat.mod_lt m hl, hset⟩
  have hlow : (n % l != 0 && a.word (n / l) &&& ((1 : BitVec l) <<< (n % l) - 1) != 0) = true ↔
      ∃ j < n % l, (a.word (n / l)).getLsbD j = true := by
    rw [Bool.and_eq_true, bne_iff_ne, bne_iff_ne, and_lowMask_ne_zero_iff hn]
    exact ⟨fun h => h.2, fun ⟨j, hj, hset⟩ => ⟨by omega, j, hj, hset⟩⟩
  unfold stickyRshiftSignificand
  dsimp only
  rw [Bool.or_eq_true, hwords, hlow, mod_two_pow_ne_zero_iff]
  constructor
  · rintro (⟨m, hm, hset⟩ | ⟨j, hj, hset⟩)
    · exact ⟨m, by omega, hset⟩
    · exact ⟨l * (n / l) + j, by omega, (Words.testBit_block hl a (by omega)).trans hset⟩
  · rintro ⟨m, hm, hset⟩
    by_cases hword : m < l * (n / l)
    · exact Or.inl ⟨m, hword, hset⟩
    · refine Or.inr ⟨m - l * (n / l), by omega, ?_⟩
      rw [← Words.testBit_block hl a (by omega), Nat.add_sub_of_le (not_lt.mp hword)]
      exact hset

/-- The bits of an array that is moved up by whole words. Source: `real.c` `lshift_significand`. Kind: L -/
theorem moved_bit (i o : ℕ) {j : ℕ} (hj : j < l) :
    (if i < o then 0 else a.word (i - o)).getLsbD j = (decide (l * o ≤ l * i + j) && a.toNat.testBit (l * i + j - l * o)) := by
  split_ifs with hio
  · have hlt : ¬ l * o ≤ l * i + j := by
      have hle : l * (i + 1) ≤ l * o := Nat.mul_le_mul_left l hio
      rw [mul_add] at hle
      omega
    rw [decide_eq_false hlt, Bool.false_and]
    exact BitVec.getLsbD_zero
  · obtain ⟨d, rfl⟩ := Nat.exists_eq_add_of_le (not_lt.mp hio)
    have hpos : l * (o + d) + j - l * o = l * d + j := by
      rw [mul_add]
      omega
    rw [decide_eq_true (by rw [mul_add]; omega), Bool.true_and, hpos, Words.testBit_block hl a hj, Nat.add_sub_cancel_left]

/-- **Left shifts** multiply. Source: `real.c` `lshift_significand`. Kind: L -/
theorem lshiftSignificand_toNat : (lshiftSignificand a n).toNat = a.toNat * 2 ^ n % 2 ^ (l * k) := by
  refine Words.toNat_eq_of_bits hl (Nat.mod_lt _ (by positivity)) fun i hi j hj => ?_
  have hsplit := Nat.div_add_mod n l
  have hn := Nat.mod_lt n hl
  have hin : l * i + j < l * k := by
    calc l * i + j < l * (i + 1) := by rw [mul_add]; omega
      _ ≤ l * k := Nat.mul_le_mul_left l hi
  rw [Nat.testBit_mod_two_pow, decide_eq_true hin, Bool.true_and, ← Nat.shiftLeft_eq, Nat.testBit_shiftLeft]
  unfold lshiftSignificand
  dsimp only
  split_ifs with hzero
  · rw [Words.word_ofFn hi, moved_bit hl a i (n / l) hj]
    exact congrArg₂ and (decide_eq_decide.mpr (by omega)) (congrArg _ (by omega))
  · rw [Words.word_ofFn hi, BitVec.getLsbD_or, BitVec.getLsbD_shiftLeft, BitVec.getLsbD_ushiftRight, decide_eq_true hj,
      Bool.true_and]
    by_cases hlow : j < n % l
    · rw [decide_eq_true hlow, Bool.not_true, Bool.false_and, Bool.false_or, Nat.sub_sub, moved_bit hl a i (n / l + 1) (by omega),
        mul_add, mul_one]
      exact congrArg₂ and (decide_eq_decide.mpr (by omega)) (congrArg _ (by omega))
    · rw [decide_eq_false hlow, Bool.not_false, Bool.true_and, moved_bit hl a i (n / l) (by omega),
        BitVec.getLsbD_of_ge _ (l - n % l + j) (by omega), Bool.or_false]
      exact congrArg₂ and (decide_eq_decide.mpr (by omega)) (congrArg _ (by omega))

end Shifts

/-! ## Arithmetic -/

section Arithmetic

variable (hl : 0 < l)

/-- A sum of two words wraps around at most once. -/
theorem toNat_add_cases (x y : BitVec l) :
    (x.toNat + y.toNat < 2 ^ l ∧ (x + y).toNat = x.toNat + y.toNat) ∨
      (2 ^ l ≤ x.toNat + y.toNat ∧ (x + y).toNat + 2 ^ l = x.toNat + y.toNat) := by
  have hx := x.isLt
  have hy := y.isLt
  rw [BitVec.toNat_add]
  rcases lt_or_ge (x.toNat + y.toNat) (2 ^ l) with hlt | hge
  · exact Or.inl ⟨hlt, Nat.mod_eq_of_lt hlt⟩
  · refine Or.inr ⟨hge, ?_⟩
    rw [Nat.mod_eq_sub_mod hge, Nat.mod_eq_of_lt (by omega)]
    omega

include hl

theorem toNat_word_one : (1 : BitVec l).toNat = 1 := Nat.mod_eq_of_lt (Nat.one_lt_two_pow hl.ne')

/-- **One step of the addition** balances. Source: `real.c` `add_significands`. Kind: L -/
theorem addStep_spec (x y : BitVec l) (carry : Bool) :
    (addStep x y carry).1.toNat + (addStep x y carry).2.toNat * 2 ^ l = x.toNat + y.toNat + carry.toNat := by
  have hx := x.isLt
  have hy := y.isLt
  have hsum := toNat_add_cases x y
  have hcarry : decide (x + y < x) = decide (2 ^ l ≤ x.toNat + y.toNat) := by
    rw [decide_eq_decide, BitVec.lt_def]
    omega
  unfold addStep
  dsimp only
  rw [hcarry]
  cases carry with
  | false =>
    rw [if_neg Bool.false_ne_true, Bool.toNat_false]
    rcases hsum with ⟨hlt, heq⟩ | ⟨hge, heq⟩
    · rw [decide_eq_false (not_le.mpr hlt), Bool.toNat_false, heq, zero_mul]
    · rw [decide_eq_true hge, Bool.toNat_true, one_mul, heq, Nat.add_zero]
  | true =>
    have hnext := toNat_add_cases (x + y) 1
    rw [toNat_word_one hl] at hnext
    have hzero : (x + y + 1 == 0) = decide (2 ^ l ≤ (x + y).toNat + 1) := by
      rw [Bool.eq_iff_iff, beq_iff_eq, decide_eq_true_iff, ← BitVec.toNat_inj]
      change (x + y + 1).toNat = 0 % 2 ^ l ↔ _
      rw [Nat.zero_mod]
      omega
    rw [if_pos rfl, Bool.toNat_true, hzero]
    -- the first sum and its successor do not both wrap around
    rcases hsum with ⟨hlt, heq⟩ | ⟨hge, heq⟩
    · rw [decide_eq_false (not_le.mpr hlt), Bool.false_or]
      rcases hnext with ⟨hlt', heq'⟩ | ⟨hge', heq'⟩
      · rw [decide_eq_false (not_le.mpr hlt'), Bool.toNat_false, heq', heq, zero_mul, Nat.add_zero]
      · rw [decide_eq_true hge', Bool.toNat_true, one_mul, heq', heq]
    · rw [decide_eq_true hge, Bool.true_or, Bool.toNat_true]
      dsimp only
      omega

variable (a b : Words l k)

/-- **The sum**, with the carry out of the most significant word. Source: `real.c` `add_significands`. Kind: L -/
theorem addSignificands_spec :
    (addSignificands a b).1.toNat + (addSignificands a b).2.toNat * 2 ^ (l * k) = a.toNat + b.toNat := by
  have hloop := val_carry (B := 2 ^ l) (x := fun i => (a.word i).toNat + 1 * (b.word i).toNat)
    (y := fun i => (addStep (a.word i) (b.word i) (addCarry a b i)).1.toNat) (c := fun i => (addCarry a b i).toNat) (n := k)
    fun i _ => by rw [one_mul]; exact (addStep_spec hl (a.word i) (b.word i) (addCarry a b i)).symm
  rw [val_linear, one_mul, ← pow_mul] at hloop
  unfold addSignificands
  rw [Words.toNat_ofFn]
  exact hloop.symm

end Arithmetic

/-! ## Bits -/

section Bits

variable (hl : 0 < l) (a : Words l k) {n : ℕ}

include hl

theorem cmpSignificand0_iff : cmpSignificand0 a = true ↔ a.toNat ≠ 0 := by
  unfold cmpSignificand0
  simp only [List.any_eq_true, List.mem_range, bne_iff_ne]
  constructor
  · rintro ⟨i, hi, hne⟩ hzero
    obtain ⟨j, hj, hset⟩ := ne_zero_iff_exists_bit.mp hne
    rw [← Words.testBit_block hl a hj, hzero, Nat.zero_testBit] at hset
    exact Bool.false_ne_true hset
  · intro hne
    by_contra hnone
    refine hne (val_eq_zero fun i hi => ?_)
    have hzero : a.word i = 0 := not_not.mp fun h => hnone ⟨i, hi, h⟩
    rw [hzero]
    exact Nat.zero_mod _

/-- **Setting a bit.** Source: `real.c` `set_significand_bit`. Kind: L -/
theorem setSignificandBit_toNat (hn : n < l * k) : (setSignificandBit a n).toNat = a.toNat ||| 2 ^ n := by
  have hpow : 2 ^ n < 2 ^ (l * k) := Nat.pow_lt_pow_right one_lt_two hn
  refine Words.toNat_eq_of_bits hl (Nat.or_lt_two_pow a.toNat_lt hpow) fun i hi j hj => ?_
  have hsplit := Nat.div_add_mod n l
  have hmod := Nat.mod_lt n hl
  unfold setSignificandBit
  rw [Words.word_ofFn hi, Nat.testBit_or, Words.testBit_block hl a hj, Nat.testBit_two_pow]
  split_ifs with hword
  · rw [BitVec.getLsbD_or, getLsbD_bit hmod, hword]
    congr 1
    rw [decide_eq_decide]
    omega
  · have hne : n ≠ l * i + j := by
      rintro rfl
      rw [Nat.mul_add_div hl, Nat.div_eq_of_lt hj, Nat.add_zero] at hword
      exact hword rfl
    rw [decide_eq_false hne, Bool.or_false]

/-- **Clearing the low bits.** Source: `real.c` `clear_significand_below`. Kind: L -/
theorem clearSignificandBelow_toNat : (clearSignificandBelow a n).toNat = a.toNat / 2 ^ n * 2 ^ n := by
  have hlt : a.toNat / 2 ^ n * 2 ^ n < 2 ^ (l * k) := lt_of_le_of_lt (Nat.div_mul_le_self _ _) a.toNat_lt
  refine Words.toNat_eq_of_bits hl hlt fun i hi j hj => ?_
  have hsplit := Nat.div_add_mod n l
  have hmod := Nat.mod_lt n hl
  have hbit : (a.toNat / 2 ^ n * 2 ^ n).testBit (l * i + j) = (decide (n ≤ l * i + j) && (a.word i).getLsbD j) := by
    rw [← Nat.shiftLeft_eq, Nat.testBit_shiftLeft, Nat.testBit_div_two_pow, ← Words.testBit_block hl a hj]
    by_cases hle : n ≤ l * i + j
    · rw [decide_eq_true hle, Nat.sub_add_cancel hle]
    · rw [decide_eq_false hle, Bool.false_and, Bool.false_and]
  rw [hbit]
  unfold clearSignificandBelow
  rw [Words.word_ofFn hi]
  split_ifs with hbelow hword
  · have hgt : ¬ n ≤ l * i + j := by
      have hle : l * (i + 1) ≤ l * (n / l) := Nat.mul_le_mul_left l hbelow
      rw [mul_add] at hle
      omega
    rw [decide_eq_false hgt, Bool.false_and]
    exact BitVec.getLsbD_zero
  · rw [BitVec.getLsbD_and, BitVec.getLsbD_not, getLsbD_lowMask hmod, decide_eq_true hj, Bool.true_and, Bool.and_comm, hword]
    congr 1
    by_cases hge : n % l ≤ j
    · rw [decide_eq_false (not_lt.mpr hge), decide_eq_true (by omega)]
      rfl
    · rw [decide_eq_true (not_le.mp hge), decide_eq_false (by omega)]
      rfl
  · have hle : n ≤ l * i + j := by
      have hle : l * (n / l + 1) ≤ l * i := Nat.mul_le_mul_left l (by omega)
      rw [mul_add] at hle
      omega
    rw [decide_eq_true hle, Bool.true_and]

omit hl in
theorem firstBit_spec {w : BitVec l} (hw : w ≠ 0) :
    ∀ n j, j + n = l → (∀ i, l - j ≤ i → w.getLsbD i = false) →
      firstBit w n j < l ∧ 2 ^ (l - 1 - firstBit w n j) ≤ w.toNat ∧ w.toNat < 2 ^ (l - firstBit w n j) := by
  intro n
  induction n with
  | zero =>
    intro j hj hclear
    obtain ⟨i, hi, hset⟩ := ne_zero_iff_exists_bit.mp hw
    rw [hclear i (by omega)] at hset
    exact absurd hset Bool.false_ne_true
  | succ n ih =>
    intro j hj hclear
    rw [firstBit]
    split_ifs with hset
    · rw [and_bit_ne_zero_iff (by omega)] at hset
      refine ⟨by omega, Nat.ge_two_pow_of_testBit ((BitVec.testBit_toNat w).trans hset), ?_⟩
      exact Nat.lt_pow_two_of_testBit _ fun i hi => (BitVec.testBit_toNat w).trans (hclear i hi)
    · refine ih (j + 1) (by omega) fun i hi => ?_
      by_cases heq : i = l - 1 - j
      · rw [and_bit_ne_zero_iff (by omega), Bool.not_eq_true] at hset
        rw [heq]
        exact hset
      · exact hclear i (by omega)

omit hl in
theorem firstWord_spec (n : ℕ) :
    (firstWord a n = none → ∀ i < n, a.word i = 0) ∧
      ∀ i, firstWord a n = some i → i < n ∧ a.word i ≠ 0 ∧ ∀ t, i < t → t < n → a.word t = 0 := by
  induction n with
  | zero => exact ⟨fun _ i hi => absurd hi (Nat.not_lt_zero i), fun i h => absurd h (by simp [firstWord])⟩
  | succ n ih =>
    rw [firstWord]
    split_ifs with hzero
    · constructor
      · intro hnone i hi
        rcases Nat.lt_succ_iff_lt_or_eq.mp hi with hlt | rfl
        · exact ih.1 hnone i hlt
        · exact hzero
      · intro i hi
        obtain ⟨hlt, hne, habove⟩ := ih.2 i hi
        refine ⟨by omega, hne, fun t hit ht => ?_⟩
        rcases Nat.lt_succ_iff_lt_or_eq.mp ht with hlt' | rfl
        · exact habove t hit hlt'
        · exact hzero
    · refine ⟨fun h => absurd h (by simp), fun i hi => ?_⟩
      obtain rfl : n = i := Option.some.inj hi
      exact ⟨by omega, hzero, fun t hit ht => by omega⟩

omit hl in
/-- **The shift** that brings the first bit to the top. Source: `real.c` `normalize`. Kind: L -/
theorem normalizeShift_spec :
    (normalizeShift a = none → a.toNat = 0) ∧
      ∀ s, normalizeShift a = some s → s < l * k ∧ 2 ^ (l * k - 1 - s) ≤ a.toNat ∧ a.toNat < 2 ^ (l * k - s) := by
  have hword := firstWord_spec a k
  unfold normalizeShift
  constructor
  · intro hnone
    refine val_eq_zero fun i hi => ?_
    rw [hword.1 (Option.map_eq_none_iff.mp hnone) i hi]
    exact Nat.zero_mod _
  · intro s hs
    obtain ⟨i, hi, rfl⟩ := Option.map_eq_some_iff.mp hs
    obtain ⟨hik, hne, habove⟩ := hword.2 i hi
    obtain ⟨hj, hge, hlt⟩ := firstBit_spec hne l 0 (Nat.zero_add l) fun i hi => BitVec.getLsbD_of_ge _ _ hi
    generalize firstBit (a.word i) l 0 = j at hj hge hlt
    have hval : a.toNat = val (2 ^ l) (fun i => (a.word i).toNat) i + (a.word i).toNat * 2 ^ (l * i) := by
      rw [pow_mul, ← val_succ]
      refine val_of_top_zero hik fun t ht htk => ?_
      rw [habove t ht htk]
      exact Nat.zero_mod _
    have hlow : val (2 ^ l) (fun i => (a.word i).toNat) i < 2 ^ (l * i) := by
      rw [pow_mul]
      exact val_lt fun t _ => (a.word t).isLt
    have hblocks : l * k = l * i + l + l * (k - 1 - i) := by
      obtain ⟨d, rfl⟩ := Nat.exists_eq_add_of_lt hik
      rw [show i + d + 1 - 1 - i = d by omega]
      ring
    have hlower : l * k - 1 - (l * (k - 1 - i) + j) = l * i + (l - 1 - j) := by omega
    have hupper : l * k - (l * (k - 1 - i) + j) = l * i + (l - j) := by omega
    refine ⟨by omega, ?_, ?_⟩
    · rw [hlower, hval, pow_add, mul_comm]
      exact (Nat.mul_le_mul_right _ hge).trans (Nat.le_add_left _ _)
    · rw [hupper, hval, pow_add]
      calc val (2 ^ l) (fun i => (a.word i).toNat) i + (a.word i).toNat * 2 ^ (l * i)
          < ((a.word i).toNat + 1) * 2 ^ (l * i) := by rw [add_mul, one_mul]; omega
        _ ≤ 2 ^ (l - j) * 2 ^ (l * i) := Nat.mul_le_mul_right _ hlt
        _ = 2 ^ (l * i) * 2 ^ (l - j) := mul_comm _ _

end Bits

end GccCore.Gcc.Real
