import GccCore.Lib.WordArray

/-!
# Numbers in two words

A number below `2 ^ (2 * w)` as its high and its low word of `w` bits each, and the operations on it as they are written with
operations on words.

* **Sums and negatives** (`pair_add`, `pair_neg`): a carry is seen from the low word.
* **Shifts** (`pair_shiftLeft`, `pair_shiftRight`) by less than a word.
* **Single bits** (`pair_or_high`, `pair_or_low`, `and_bit_eq_zero_iff`) and **masks** (`pair_mask_high`, `pair_mask_low`).
-/

namespace GccCore.Lib.WordPair

variable {w : ℕ}

/-- The number of two words. -/
def pair (hi lo : BitVec w) : ℕ := hi.toNat * 2 ^ w + lo.toNat

section Basic

variable {hi lo hi' lo' : BitVec w} {x : ℕ}

theorem two_pow_two_mul (w : ℕ) : 2 ^ (2 * w) = 2 ^ w * 2 ^ w := by rw [two_mul, pow_add]

/-- The high word. -/
theorem pair_div (hi lo : BitVec w) : pair hi lo / 2 ^ w = hi.toNat := by
  rw [pair, Nat.add_comm, Nat.add_mul_div_right _ _ (Nat.two_pow_pos w), Nat.div_eq_of_lt lo.isLt, Nat.zero_add]

/-- The low word. -/
theorem pair_mod (hi lo : BitVec w) : pair hi lo % 2 ^ w = lo.toNat := by
  rw [pair, Nat.add_comm, Nat.add_mul_mod_self_right, Nat.mod_eq_of_lt lo.isLt]

/-- Two words are those of a number. -/
theorem pair_eq_mod (hhi : hi.toNat = x / 2 ^ w % 2 ^ w) (hlo : lo.toNat = x % 2 ^ w) : pair hi lo = x % 2 ^ (2 * w) := by
  rw [two_pow_two_mul, Nat.mod_mul, pair, hhi, hlo, Nat.mul_comm, Nat.add_comm]

theorem pair_lt (hi lo : BitVec w) : pair hi lo < 2 ^ (2 * w) := by
  have hself : pair hi lo = pair hi lo % 2 ^ (2 * w) := by
    refine pair_eq_mod ?_ (pair_mod hi lo).symm
    rw [pair_div, Nat.mod_eq_of_lt hi.isLt]
  rw [hself]
  exact Nat.mod_lt _ (Nat.two_pow_pos _)

theorem pair_inj : pair hi lo = pair hi' lo' ↔ hi = hi' ∧ lo = lo' := by
  refine ⟨fun h => ⟨BitVec.eq_of_toNat_eq ?_, BitVec.eq_of_toNat_eq ?_⟩, fun ⟨hh, hl⟩ => by rw [hh, hl]⟩
  · rw [← pair_div hi lo, h, pair_div]
  · rw [← pair_mod hi lo, h, pair_mod]

theorem pair_eq_zero_iff : pair hi lo = 0 ↔ hi = 0 ∧ lo = 0 := by
  have hzero : pair (0 : BitVec w) 0 = 0 := by simp [pair]
  rw [← hzero, pair_inj]

/-- **Numbers compare** by their high words first. -/
theorem pair_le_iff : pair hi' lo' ≤ pair hi lo ↔ hi' < hi ∨ hi = hi' ∧ lo' ≤ lo := by
  have hlt := lo.isLt
  have hlt' := lo'.isLt
  unfold pair
  rcases lt_trichotomy hi.toNat hi'.toNat with h | h | h
  · have hmul : (hi.toNat + 1) * 2 ^ w ≤ hi'.toNat * 2 ^ w := Nat.mul_le_mul_right _ h
    rw [Nat.add_mul, Nat.one_mul] at hmul
    refine iff_of_false (by omega) fun hc => ?_
    rcases hc with hc | ⟨rfl, -⟩
    · exact absurd (BitVec.lt_def.mp hc) (by omega)
    · omega
  · have heq : hi = hi' := BitVec.eq_of_toNat_eq h
    subst heq
    simp [BitVec.le_def]
  · have hmul : (hi'.toNat + 1) * 2 ^ w ≤ hi.toNat * 2 ^ w := Nat.mul_le_mul_right _ h
    rw [Nat.add_mul, Nat.one_mul] at hmul
    exact iff_of_true (by omega) (.inl (BitVec.lt_def.mpr h))

end Basic

/-! ## Sums and negatives -/

section Arith

variable {ha la hb lb : BitVec w}

/-- A sum of words that is below one of them has wrapped around. -/
theorem add_lt_iff (a b : BitVec w) : a + b < a ↔ 2 ^ w ≤ a.toNat + b.toNat := by
  have hlta := a.isLt
  have hltb := b.isLt
  rw [BitVec.lt_def, BitVec.toNat_add]
  rcases lt_or_ge (a.toNat + b.toNat) (2 ^ w) with h | h
  · rw [Nat.mod_eq_of_lt h]
    omega
  · rw [Nat.mod_eq_sub_mod h, Nat.mod_eq_of_lt (by omega)]
    omega

/-- **The sum**, with the carry that the low word shows. -/
theorem pair_add (ha la hb lb : BitVec w) :
    pair (if la + lb < la then ha + hb + 1#w else ha + hb) (la + lb) = (pair ha la + pair hb lb) % 2 ^ (2 * w) := by
  have hsum : pair ha la + pair hb lb = (la.toNat + lb.toNat) + (ha.toNat + hb.toNat) * 2 ^ w := by
    unfold pair
    ring
  have hpos := Nat.two_pow_pos w
  refine pair_eq_mod ?_ ?_
  · rw [hsum, Nat.add_mul_div_right _ _ hpos]
    have hla := la.isLt
    have hlb := lb.isLt
    split_ifs with hcarry
    · rw [add_lt_iff] at hcarry
      have hone : (la.toNat + lb.toNat) / 2 ^ w = 1 := Nat.div_eq_of_lt_le (by omega) (by omega)
      rw [hone, BitVec.toNat_add, BitVec.toNat_add, BitVec.toNat_ofNat, Nat.add_mod_mod, Nat.mod_add_mod, Nat.add_comm 1]
    · rw [add_lt_iff, not_le] at hcarry
      rw [Nat.div_eq_of_lt hcarry, Nat.zero_add, BitVec.toNat_add]
  · rw [hsum, Nat.add_mul_mod_self_right, BitVec.toNat_add]

/-- The sum again, where the carry goes to the second high word first. -/
theorem pair_add_carry (ha la hb lb : BitVec w) :
    pair (ha + if la + lb < la then hb + 1#w else hb) (la + lb) = (pair ha la + pair hb lb) % 2 ^ (2 * w) := by
  rw [← pair_add]
  split_ifs
  · rw [BitVec.add_assoc]
  · rfl

/-- **A sum that does not fit** is seen from the high word, if the second number leaves room for the carry. -/
theorem add_carry_lt_iff (hroom : hb.toNat + 1 < 2 ^ w) :
    (ha + if la + lb < la then hb + 1#w else hb) < ha ↔ 2 ^ (2 * w) ≤ pair ha la + pair hb lb := by
  have hla := la.isLt
  have hlb := lb.isLt
  have hsum : pair ha la + pair hb lb = (la.toNat + lb.toNat) + (ha.toNat + hb.toNat) * 2 ^ w := by
    unfold pair
    ring
  rw [add_lt_iff, hsum, two_pow_two_mul]
  rw [← Nat.le_div_iff_mul_le (Nat.two_pow_pos w), Nat.add_mul_div_right _ _ (Nat.two_pow_pos w)]
  split_ifs with hcarry
  · rw [add_lt_iff] at hcarry
    have hone : (la.toNat + lb.toNat) / 2 ^ w = 1 := Nat.div_eq_of_lt_le (by omega) (by omega)
    have hnext : (hb + 1#w).toNat = hb.toNat + 1 := by
      rw [BitVec.toNat_add, BitVec.toNat_ofNat, Nat.add_mod_mod, Nat.mod_eq_of_lt hroom]
    rw [hone, hnext]
    omega
  · rw [add_lt_iff, not_le] at hcarry
    rw [Nat.div_eq_of_lt hcarry, Nat.zero_add]

/-- A word is added to the high one. -/
theorem pair_add_high (hi lo x : BitVec w) : pair (hi + x) lo = (pair hi lo + x.toNat * 2 ^ w) % 2 ^ (2 * w) := by
  refine pair_eq_mod ?_ ?_
  · rw [Nat.add_mul_div_right _ _ (Nat.two_pow_pos w), pair_div, BitVec.toNat_add]
  · rw [Nat.add_mul_mod_self_right, pair_mod]

/-- A word is added to the low one, and the carry to the high one. -/
theorem pair_add_low (hi lo x : BitVec w) :
    pair (if lo + x < lo then hi + 1#w else hi) (lo + x) = (pair hi lo + x.toNat) % 2 ^ (2 * w) := by
  have hadd := pair_add hi lo 0#w x
  have hzero : pair 0#w x = x.toNat := by simp [pair]
  rwa [BitVec.add_zero, hzero] at hadd

/-- **The negative**: the complement and one. -/
theorem pair_neg (hi lo : BitVec w) :
    pair (if ~~~lo + 1#w = 0 then ~~~hi + 1#w else ~~~hi) (~~~lo + 1#w) = (2 ^ (2 * w) - pair hi lo) % 2 ^ (2 * w) := by
  have hhi := hi.isLt
  have hlo := lo.isLt
  have hlt := pair_lt hi lo
  have hpos := Nat.two_pow_pos w
  have hneg : ∀ a : BitVec w, ~~~a + 1#w = -a := fun a => (BitVec.neg_eq_not_add a).symm
  rw [hneg, hneg, two_pow_two_mul] at *
  unfold pair at hlt ⊢
  by_cases hzero : lo = 0
  · subst hzero
    have hz : -(0 : BitVec w) = 0 := by simp
    rw [hz, if_pos rfl]
    simp only [BitVec.toNat_neg, BitVec.ofNat_eq_ofNat, BitVec.toNat_ofNat, Nat.zero_mod, Nat.add_zero]
    rw [← Nat.sub_mul, Nat.mul_mod_mul_right]
  · have hne : lo.toNat ≠ 0 := fun h => hzero (BitVec.eq_of_toNat_eq (by simpa using h))
    have hne' : -lo ≠ 0 := fun h => hzero (BitVec.neg_eq_zero_iff.mp h)
    rw [if_neg hne', BitVec.toNat_not, BitVec.toNat_neg, Nat.mod_eq_of_lt (by omega : 2 ^ w - lo.toNat < 2 ^ w)]
    have hmul : (hi.toNat + 1) * 2 ^ w ≤ 2 ^ w * 2 ^ w := Nat.mul_le_mul_right _ hhi
    rw [Nat.add_mul, Nat.one_mul] at hmul
    rw [Nat.mod_eq_of_lt (by omega), Nat.sub_sub, Nat.sub_mul, Nat.add_mul, Nat.one_mul]
    omega

end Arith

/-! ## Shifts, bits and masks -/

section Bits

variable {hi lo x y : BitVec w} {m i : ℕ}

/-- Bits put below a multiple of a power are added to it. -/
theorem or_eq_add {a b : ℕ} (ha : a % 2 ^ m = 0) (hb : b < 2 ^ m) : a ||| b = a + b := by
  obtain ⟨q, rfl⟩ := Nat.dvd_of_mod_eq_zero ha
  exact (Nat.two_pow_add_eq_or_of_lt hb q).symm

/-- A shifted word loses its high bits. -/
theorem toNat_shiftLeft (hm : m ≤ w) (x : BitVec w) : (x <<< m).toNat = x.toNat % 2 ^ (w - m) * 2 ^ m := by
  have hpow : 2 ^ w = 2 ^ (w - m) * 2 ^ m := by rw [← pow_add, Nat.sub_add_cancel hm]
  rw [BitVec.toNat_shiftLeft, Nat.shiftLeft_eq, hpow, Nat.mul_mod_mul_right]

theorem toNat_ushiftRight (x : BitVec w) (m : ℕ) : (x >>> m).toNat = x.toNat / 2 ^ m := by
  rw [BitVec.toNat_ushiftRight, Nat.shiftRight_eq_div_pow]

/-- The high bits of one word and the low bits of another. -/
theorem toNat_or_shift (hm : m ≤ w) (x y : BitVec w) :
    (x <<< m ||| y >>> (w - m)).toNat = x.toNat % 2 ^ (w - m) * 2 ^ m + y.toNat / 2 ^ (w - m) := by
  have hpow : 2 ^ w = 2 ^ (w - m) * 2 ^ m := by rw [← pow_add, Nat.sub_add_cancel hm]
  rw [BitVec.toNat_or, toNat_shiftLeft hm, toNat_ushiftRight]
  refine or_eq_add (Nat.mul_mod_left _ _) ?_
  rw [Nat.div_lt_iff_lt_mul (Nat.two_pow_pos _), Nat.mul_comm, ← hpow]
  exact y.isLt

/-- **To the left**, the bits that leave the high word being lost. -/
theorem pair_shiftLeft (hm : m ≤ w) (hi lo : BitVec w) :
    pair (hi <<< m ||| lo >>> (w - m)) (lo <<< m) = pair hi lo * 2 ^ m % 2 ^ (2 * w) := by
  have hpow : 2 ^ w = 2 ^ (w - m) * 2 ^ m := by rw [← pow_add, Nat.sub_add_cancel hm]
  have hlt : lo.toNat / 2 ^ (w - m) < 2 ^ m := by
    rw [Nat.div_lt_iff_lt_mul (Nat.two_pow_pos _), Nat.mul_comm, ← hpow]
    exact lo.isLt
  have hsplit : pair hi lo * 2 ^ m = lo.toNat * 2 ^ m + hi.toNat * 2 ^ m * 2 ^ w := by
    unfold pair
    ring
  have hdiv : lo.toNat * 2 ^ m / 2 ^ w = lo.toNat / 2 ^ (w - m) := by
    rw [hpow, Nat.mul_div_mul_right _ _ (Nat.two_pow_pos m)]
  refine pair_eq_mod ?_ ?_
  · rw [hsplit, Nat.add_mul_div_right _ _ (Nat.two_pow_pos w), hdiv, toNat_or_shift hm]
    -- the two parts do not overlap
    rw [hpow, Nat.add_comm (lo.toNat / _), Nat.mul_comm (2 ^ (w - m)), Nat.mod_mul, Nat.mul_comm hi.toNat, Nat.mul_add_mod,
      Nat.mod_eq_of_lt hlt, Nat.mul_add_div (Nat.two_pow_pos m), Nat.div_eq_of_lt hlt, Nat.add_zero, Nat.mul_comm (2 ^ m),
      Nat.add_comm]
  · rw [hsplit, Nat.add_mul_mod_self_right, BitVec.toNat_shiftLeft, Nat.shiftLeft_eq]

/-- The low word becomes the high one. -/
theorem pair_shiftWord (hi lo : BitVec w) : pair lo 0 = pair hi lo * 2 ^ w % 2 ^ (2 * w) := by
  have hzero : (0 : BitVec w).toNat = 0 := by simp
  rw [two_pow_two_mul, Nat.mul_mod_mul_right, pair_mod, pair, hzero, Nat.add_zero]

/-- **To the right**, the bits that leave the high word going to the low one. -/
theorem pair_shiftRight (hm : m ≤ w) (hi lo : BitVec w) :
    pair (hi >>> m) (lo >>> m ||| hi <<< (w - m)) = pair hi lo / 2 ^ m := by
  have hpow : 2 ^ w = 2 ^ (w - m) * 2 ^ m := by rw [← pow_add, Nat.sub_add_cancel hm]
  have hlow : (lo >>> m ||| hi <<< (w - m)).toNat = hi.toNat % 2 ^ m * 2 ^ (w - m) + lo.toNat / 2 ^ m := by
    have hor := toNat_or_shift (Nat.sub_le w m) hi lo
    rwa [Nat.sub_sub_self hm, BitVec.or_comm] at hor
  have hsplit : pair hi lo = lo.toNat + hi.toNat * 2 ^ (w - m) * 2 ^ m := by
    unfold pair
    rw [hpow]
    ring
  rw [hsplit, Nat.add_mul_div_right _ _ (Nat.two_pow_pos m), pair, hlow, toNat_ushiftRight, hpow]
  have hdm := Nat.div_add_mod hi.toNat (2 ^ m)
  calc hi.toNat / 2 ^ m * (2 ^ (w - m) * 2 ^ m) + (hi.toNat % 2 ^ m * 2 ^ (w - m) + lo.toNat / 2 ^ m)
      = (2 ^ m * (hi.toNat / 2 ^ m) + hi.toNat % 2 ^ m) * 2 ^ (w - m) + lo.toNat / 2 ^ m := by ring
    _ = lo.toNat / 2 ^ m + hi.toNat * 2 ^ (w - m) := by rw [hdm, Nat.add_comm]

theorem toNat_bit (hi' : i < w) : (1#w <<< i).toNat = 2 ^ i := by
  have hone : 1 < 2 ^ w := Nat.one_lt_two_pow (by omega)
  rw [BitVec.toNat_shiftLeft, BitVec.toNat_ofNat, Nat.mod_eq_of_lt hone, Nat.shiftLeft_eq, Nat.one_mul,
    Nat.mod_eq_of_lt (Nat.pow_lt_pow_right one_lt_two hi')]

/-- The highest bit of a word that has no higher one. -/
theorem and_bit_eq_zero_iff (hi' : i < w) (hx : x.toNat < 2 ^ (i + 1)) : x &&& 1#w <<< i = 0 ↔ x.toNat < 2 ^ i := by
  have hset := WordArray.and_bit_ne_zero_iff (w := x) hi'
  rw [← not_iff_not, not_lt]
  refine hset.trans ?_
  rw [BitVec.getLsbD, Nat.testBit_eq_decide_div_mod_eq, decide_eq_true_eq]
  rw [pow_succ] at hx
  have hpos := Nat.two_pow_pos i
  constructor
  · intro h
    by_contra hlt
    rw [Nat.div_eq_of_lt (not_le.mp hlt)] at h
    exact absurd h (by decide)
  · intro h
    have hone : x.toNat / 2 ^ i = 1 := Nat.div_eq_of_lt_le (by omega) (by omega)
    rw [hone]

/-- A bit put below a multiple. -/
theorem toNat_or_bit (hi' : i < w) (hx : x.toNat % 2 ^ (i + 1) = 0) : (x ||| 1#w <<< i).toNat = x.toNat + 2 ^ i := by
  rw [BitVec.toNat_or, toNat_bit hi']
  exact or_eq_add hx (Nat.pow_lt_pow_right one_lt_two (Nat.lt_succ_self i))

theorem pair_or_low (hi' : i < w) (h : pair hi lo % 2 ^ (i + 1) = 0) : pair hi (lo ||| 1#w <<< i) = pair hi lo + 2 ^ i := by
  have hdvd : 2 ^ (i + 1) ∣ 2 ^ w := Nat.pow_dvd_pow 2 hi'
  have hlow : lo.toNat % 2 ^ (i + 1) = 0 := by
    rw [← pair_mod hi lo, Nat.mod_mod_of_dvd _ hdvd, h]
  rw [pair, toNat_or_bit hi' hlow, pair, Nat.add_assoc]

theorem pair_or_high (hi' : i < w) (h : pair hi lo % 2 ^ (w + i + 1) = 0) :
    pair (hi ||| 1#w <<< i) lo = pair hi lo + 2 ^ (w + i) := by
  have hhigh : hi.toNat % 2 ^ (i + 1) = 0 := by
    rw [← pair_div hi lo, ← Nat.mod_mul_right_div_self, ← pow_add, ← Nat.add_assoc, h, Nat.zero_div]
  rw [pair, toNat_or_bit hi' hhigh, pair, pow_add]
  ring

/-- The bits below `m`. -/
theorem toNat_and_mask (hm : m < w) (x : BitVec w) : (x &&& (1#w <<< m - 1#w)).toNat = x.toNat % 2 ^ m := by
  have hone : 1 < 2 ^ w := Nat.one_lt_two_pow (by omega)
  have hlt : 2 ^ m < 2 ^ w := Nat.pow_lt_pow_right one_lt_two hm
  have hpos := Nat.two_pow_pos m
  have hmask : (1#w <<< m - 1#w).toNat = 2 ^ m - 1 := by
    rw [BitVec.toNat_sub, toNat_bit hm, BitVec.toNat_ofNat, Nat.mod_eq_of_lt hone,
      show 2 ^ w - 1 + 2 ^ m = 2 ^ m - 1 + 2 ^ w by omega, Nat.add_mod_right]
    exact Nat.mod_eq_of_lt (by omega)
  rw [BitVec.toNat_and, hmask, Nat.and_two_pow_sub_one_eq_mod]

theorem pair_mask_low (hm : m < w) (hi lo : BitVec w) : pair 0 (lo &&& (1#w <<< m - 1#w)) = pair hi lo % 2 ^ m := by
  have hdvd : 2 ^ m ∣ 2 ^ w := Nat.pow_dvd_pow 2 hm.le
  have hzero : (0 : BitVec w).toNat = 0 := by simp
  rw [pair, toNat_and_mask hm, hzero, Nat.zero_mul, Nat.zero_add, ← pair_mod hi lo, Nat.mod_mod_of_dvd _ hdvd]

theorem pair_mask_high (hm : m < w) (hi lo : BitVec w) :
    pair (hi &&& (1#w <<< m - 1#w)) lo = pair hi lo % 2 ^ (w + m) := by
  rw [pair, toNat_and_mask hm, pow_add, Nat.mod_mul, pair_mod, pair_div, Nat.mul_comm, Nat.add_comm]

theorem pair_zero (hi lo : BitVec w) : pair 0 lo = pair hi lo % 2 ^ w := by
  have hzero : (0 : BitVec w).toNat = 0 := by simp
  rw [pair_mod, pair, hzero, Nat.zero_mul, Nat.zero_add]

end Bits

/-! ## Signs beyond the two words -/

section Sign

variable {neg : Bool} {z : ℤ} {hi lo : BitVec w} {m p : ℕ}

/-- A word of copies of the sign. -/
def signWord (w : ℕ) (neg : Bool) : BitVec w := if neg then BitVec.allOnes w else 0

/-- The two words, and the sign in all words above them, are those of an integer. -/
def Extends (neg : Bool) (z : ℤ) (hi lo : BitVec w) : Prop := (pair hi lo : ℤ) = if neg = true then z + 2 ^ (2 * w) else z

theorem toNat_signWord (neg : Bool) : (signWord w neg).toNat = if neg = true then 2 ^ w - 1 else 0 := by
  cases neg
  · simp [signWord]
  · simp [signWord]

theorem toNat_signWord_mod (hm : m ≤ w) (neg : Bool) : (signWord w neg).toNat % 2 ^ m = if neg = true then 2 ^ m - 1 else 0 := by
  have hpos := Nat.two_pow_pos m
  rw [toNat_signWord]
  cases neg
  · exact Nat.zero_mod _
  · obtain ⟨d, rfl⟩ := Nat.exists_eq_add_of_le hm
    have hsplit : 2 ^ (m + d) - 1 = 2 ^ m - 1 + 2 ^ m * (2 ^ d - 1) := by
      have hd := Nat.two_pow_pos d
      rw [pow_add, Nat.mul_sub, Nat.mul_one]
      have hle : 2 ^ m * 1 ≤ 2 ^ m * 2 ^ d := Nat.mul_le_mul_left _ hd
      omega
    simp only [if_true]
    rw [hsplit, Nat.add_mul_mod_self_left, Nat.mod_eq_of_lt (by omega)]

/-- **A word further**: the sign comes in at the top. -/
theorem Extends.word (h : Extends neg z hi lo) : Extends neg (z / 2 ^ w) (signWord w neg) hi := by
  have hpow : (2 : ℤ) ^ (2 * w) = 2 ^ w * 2 ^ w := by rw [two_mul, pow_add]
  have hdiv : (pair hi lo : ℤ) / 2 ^ w = hi.toNat := by exact_mod_cast congrArg (Nat.cast (R := ℤ)) (pair_div hi lo)
  have hpos : (2 : ℤ) ^ w ≠ 0 := by positivity
  have hone : 1 ≤ 2 ^ w := Nat.one_le_two_pow
  unfold Extends at h ⊢
  rw [pair, toNat_signWord]
  cases neg
  · rw [if_neg Bool.false_ne_true] at h
    rw [← h, hdiv]
    simp
  · rw [if_pos rfl] at h
    have hz : z = pair hi lo + -(2 ^ w) * 2 ^ w := by rw [h, hpow]; ring
    simp only [if_true]
    rw [hz, Int.add_mul_ediv_right _ _ hpos, hdiv, hpow]
    push_cast [Nat.cast_sub hone]
    ring

/-- **Less than a word further.** -/
theorem Extends.bits (hm : m ≤ w) (h : Extends neg z hi lo) :
    Extends neg (z / 2 ^ m) (hi >>> m ||| signWord w neg <<< (w - m)) (lo >>> m ||| hi <<< (w - m)) := by
  have hpow : (2 : ℤ) ^ (2 * w) = 2 ^ w * 2 ^ (w - m) * 2 ^ m := by
    rw [mul_assoc, ← pow_add, ← pow_add]
    congr 1
    omega
  have hpow' : (2 : ℤ) ^ w = 2 ^ m * 2 ^ (w - m) := by rw [← pow_add, Nat.add_sub_cancel' hm]
  have hone : 1 ≤ 2 ^ m := Nat.one_le_two_pow
  -- the bits of the sign are added to the shifted words
  have hhigh : (hi >>> m ||| signWord w neg <<< (w - m)).toNat =
      (if neg = true then 2 ^ m - 1 else 0) * 2 ^ (w - m) + (hi >>> m).toNat := by
    have hor := toNat_or_shift (Nat.sub_le w m) (signWord w neg) hi
    rw [Nat.sub_sub_self hm, toNat_signWord_mod hm, BitVec.or_comm] at hor
    rw [hor, toNat_ushiftRight]
  have hshift : ((hi >>> m).toNat * 2 ^ w + (lo >>> m ||| hi <<< (w - m)).toNat : ℤ) = (pair hi lo : ℤ) / 2 ^ m := by
    exact_mod_cast congrArg (Nat.cast (R := ℤ)) (pair_shiftRight hm hi lo)
  have hpos : (2 : ℤ) ^ m ≠ 0 := by positivity
  unfold Extends at h ⊢
  rw [pair, hhigh]
  cases neg
  · rw [if_neg Bool.false_ne_true] at h
    rw [← h, ← hshift]
    simp
  · rw [if_pos rfl] at h
    have hz : z = pair hi lo + -(2 ^ w * 2 ^ (w - m)) * 2 ^ m := by rw [h, hpow]; ring
    simp only [if_true]
    rw [hz, Int.add_mul_ediv_right _ _ hpos, ← hshift, hpow]
    push_cast [Nat.cast_sub hone]
    rw [hpow']
    ring

/-- **Sign extension** from the low word. -/
theorem pair_extendLow (hp : p ≤ w) (hlo : lo.toNat < 2 ^ p) :
    pair (signWord w neg) (lo ||| signWord w neg <<< p) = lo.toNat + if neg = true then 2 ^ (2 * w) - 2 ^ p else 0 := by
  have hlow : (lo ||| signWord w neg <<< p).toNat = (if neg = true then 2 ^ (w - p) - 1 else 0) * 2 ^ p + lo.toNat := by
    rw [BitVec.or_comm, BitVec.toNat_or, toNat_shiftLeft hp, toNat_signWord_mod (Nat.sub_le w p)]
    exact or_eq_add (Nat.mul_mod_left _ _) hlo
  have hpow : 2 ^ w = 2 ^ (w - p) * 2 ^ p := by rw [← pow_add, Nat.sub_add_cancel hp]
  have hle : 2 ^ p ≤ 2 ^ w := Nat.pow_le_pow_right (by omega) hp
  have hle' : 2 ^ w ≤ 2 ^ w * 2 ^ w := Nat.le_mul_self _
  rw [pair, hlow, toNat_signWord, two_pow_two_mul]
  cases neg
  · simp
  · simp only [if_true]
    rw [Nat.sub_mul, Nat.sub_mul, ← hpow, Nat.one_mul, Nat.one_mul]
    omega

/-- **Sign extension** from the high word. -/
theorem pair_extendHigh (hwp : w ≤ p) (hp : p ≤ 2 * w) (hhi : hi.toNat < 2 ^ (p - w)) :
    pair (hi ||| signWord w neg <<< (p - w)) lo = pair hi lo + if neg = true then 2 ^ (2 * w) - 2 ^ p else 0 := by
  have hhigh : (hi ||| signWord w neg <<< (p - w)).toNat =
      (if neg = true then 2 ^ (w - (p - w)) - 1 else 0) * 2 ^ (p - w) + hi.toNat := by
    rw [BitVec.or_comm, BitVec.toNat_or, toNat_shiftLeft (by omega), toNat_signWord_mod (Nat.sub_le w _)]
    exact or_eq_add (Nat.mul_mod_left _ _) hhi
  have hpow : 2 ^ w = 2 ^ (w - (p - w)) * 2 ^ (p - w) := by
    rw [← pow_add]
    congr 1
    omega
  have hpow' : 2 ^ p = 2 ^ (p - w) * 2 ^ w := by rw [← pow_add, Nat.sub_add_cancel hwp]
  rw [pair, pair, hhigh]
  cases neg
  · simp
  · simp only [if_true]
    rw [Nat.sub_mul, ← hpow, Nat.one_mul, Nat.add_mul, Nat.sub_mul, ← two_pow_two_mul, ← hpow']
    omega

end Sign

end GccCore.Lib.WordPair
