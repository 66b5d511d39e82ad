import GccCore.Gcc.Sbitmap

/-!
# `gcc/sbitmap.c`: whether a range of bits is empty

The partial words at the ends of the range are masked with `(1 << n) - 1`, which is an `int` of 32 bits.

* **The loop** over the words (`fullEltsEmptyP_iff`), from a word boundary on.
* **The whole range** (`sbitmapRangeEmptyP_iff`): the answer is right as long as the masks that are used have fewer than 32 bits.
-/

namespace GccCore.Gcc.Sbitmap

/-! ## The code -/

/-- `(1 << n) - 1`, an `int` that is widened to a word. A shift by 32 or more is not defined; the difference wraps around.
Source: `sbitmap.c` `sbitmap_range_empty_p` -/
def intMask (n : ℕ) : Option (BitVec 64) := if n < 32 then some ((1#32 <<< n - 1#32).signExtend 64) else none

/-- `elm &= ((1 << n) - 1); return (elm == 0);`. Source: `sbitmap.c` `sbitmap_range_empty_p`. -/
def maskedEmptyP (elm : BitVec 64) (n : ℕ) : Option Bool := (intMask n).map fun mask => elm &&& mask == 0#64

/-- The full elements and the leftover bits. Source: `sbitmap.c` `sbitmap_range_empty_p` (`while`). -/
def fullEltsEmptyP (bmap : SimpleBitmap 64) (i n : ℕ) : Option Bool :=
  if 64 ≤ n then
    if bmap.elms i ≠ 0#64 then some false else fullEltsEmptyP bmap (i + 1) (n - 64)
  else if n ≠ 0 then maskedEmptyP (bmap.elms i) n
  else some true
termination_by n

/-- No answer where the assertion fails or a shift is not defined. Source: `sbitmap.c` `sbitmap_range_empty_p`. -/
def sbitmapRangeEmptyP (bmap : SimpleBitmap 64) (start n : ℕ) : Option Bool :=
  let i := start / 64
  let shift := start % 64
  if bmap.nBits ≥ (start + n) % 2 ^ 32 then
    let elm := bmap.elms i >>> shift
    if (shift + n) % 2 ^ 32 ≤ 64 then
      if (shift + n) % 2 ^ 32 < 64 then maskedEmptyP elm n else some (elm == 0#64)
    else if elm ≠ 0#64 then some false
    else fullEltsEmptyP bmap (i + 1) (n - (64 - shift))
  else none

/-! ## Clear ranges -/

section Clear

variable {s : SimpleBitmap 64} {start i m n : ℕ}

/-- None of `n` bits from `start` on is set. Source: `sbitmap.c` `sbitmap_range_empty_p` (comment). -/
def Clear (s : SimpleBitmap 64) (start n : ℕ) : Prop := ∀ k < n, s.testBit (start + k) = false

instance : Decidable (Clear s start n) := inferInstanceAs (Decidable (∀ k < n, s.testBit (start + k) = false))

theorem clear_zero : Clear s start 0 := fun k hk => absurd hk (Nat.not_lt_zero k)

/-- A range in two parts. -/
theorem clear_add : Clear s start (m + n) ↔ Clear s start m ∧ Clear s (start + m) n := by
  refine ⟨fun h => ⟨fun k hk => h k (Nat.lt_add_right n hk), fun k hk => ?_⟩, fun h k hk => ?_⟩
  · rw [Nat.add_assoc]
    exact h (m + k) (Nat.add_lt_add_left hk m)
  · obtain hlt | hge := Nat.lt_or_ge k m
    · exact h.1 k hlt
    · obtain ⟨d, rfl⟩ := Nat.exists_eq_add_of_le hge
      rw [← Nat.add_assoc]
      exact h.2 d (Nat.lt_of_add_lt_add_left hk)

/-- A range within one word. Source: `sbitmap.c` (`elm = elm >> shift`). Kind: L -/
theorem clear_word (h : start % 64 + n ≤ 64) :
    Clear s start n ↔ ∀ k < n, (s.elms (start / 64) >>> (start % 64)).getLsbD k = false := by
  refine forall₂_congr fun k hk => ?_
  have hdiv : (start + k) / 64 = start / 64 := by omega
  have hmod : (start + k) % 64 = start % 64 + k := by omega
  rw [SimpleBitmap.testBit, hdiv, hmod, BitVec.getLsbD_ushiftRight]

/-- A word whose bits are clear up to the end. Source: `sbitmap.c` (`elm == 0`). Kind: L -/
theorem shifted_eq_zero_iff : s.elms (start / 64) >>> (start % 64) = 0#64 ↔ Clear s start (64 - start % 64) := by
  have hmod : start % 64 < 64 := Nat.mod_lt _ (by decide)
  rw [clear_word (by omega)]
  refine ⟨fun h k _ => by rw [h, BitVec.getLsbD_zero], fun h => BitVec.eq_of_getLsbD_eq fun k hk => ?_⟩
  rw [BitVec.getLsbD_zero]
  obtain hlt | hge := Nat.lt_or_ge k (64 - start % 64)
  · exact h k hlt
  · rw [BitVec.getLsbD_ushiftRight]
    exact BitVec.getLsbD_of_ge _ _ (by omega)

/-- A full word. Source: `sbitmap.c` (`if (bmap->elms[i])`). Kind: L -/
theorem elms_eq_zero_iff : s.elms i = 0#64 ↔ Clear s (64 * i) 64 := by
  have h := @shifted_eq_zero_iff s (64 * i)
  rwa [Nat.mul_div_cancel_left i (by decide), Nat.mul_mod_right, BitVec.ushiftRight_zero] at h

/-- The masks that are defined select the low bits. Source: `sbitmap.c` `sbitmap_range_empty_p`. Kind: L -/
theorem intMask_eq : ∀ n < 32, intMask n = some (BitVec.ofNat 64 (2 ^ n - 1)) := by decide

/-- **A partial word.** Source: `sbitmap.c` `sbitmap_range_empty_p`. Kind: L -/
theorem maskedEmptyP_iff (h : start % 64 + n ≤ 64) :
    maskedEmptyP (s.elms (start / 64) >>> (start % 64)) n = some (decide (Clear s start n)) ↔ n < 32 := by
  refine ⟨fun heq => ?_, fun hn => ?_⟩
  · by_contra hge
    rw [maskedEmptyP, intMask, if_neg hge] at heq
    exact absurd heq (by simp)
  · have hbit (k : ℕ) : (BitVec.ofNat 64 (2 ^ n - 1)).getLsbD k = decide (k < n) := by
      rw [BitVec.getLsbD_ofNat, Nat.testBit_two_pow_sub_one]
      refine Bool.and_eq_right_iff_imp.mpr fun hk => decide_eq_true ?_
      exact (of_decide_eq_true hk).trans (hn.trans (by decide))
    rw [maskedEmptyP, intMask_eq n hn, Option.map_some, Option.some_inj, Bool.eq_iff_iff, beq_iff_eq, decide_eq_true_iff,
      clear_word h]
    refine ⟨fun hz k hk => ?_, fun hz => BitVec.eq_of_getLsbD_eq fun k _ => ?_⟩
    · have hk' := congrArg (BitVec.getLsbD · k) hz
      simpa only [BitVec.getLsbD_and, hbit, hk, decide_true, Bool.and_true, BitVec.getLsbD_zero] using hk'
    · rw [BitVec.getLsbD_and, hbit, BitVec.getLsbD_zero]
      by_cases hk : k < n
      · rw [hz k hk, Bool.false_and]
      · rw [decide_eq_false hk, Bool.and_false]

end Clear

/-! ## The answer -/

section Answer

variable {s : SimpleBitmap 64} {start i n : ℕ}

/-- **The loop** is right if the leftover bits are fewer than 32, or are not looked at. Induction along the words.
Source: `sbitmap.c` `sbitmap_range_empty_p` (`while`)
Kind: L -/
theorem fullEltsEmptyP_iff : fullEltsEmptyP s i n = some (decide (Clear s (64 * i) n)) ↔
    n % 64 < 32 ∨ ¬ Clear s (64 * i) (n - n % 64) := by
  induction n using Nat.strong_induction_on generalizing i with
  | h n ih =>
    rw [fullEltsEmptyP]
    by_cases hfull : 64 ≤ n
    · obtain ⟨m, rfl⟩ := Nat.exists_eq_add_of_le hfull
      have hrest : 64 + m - m % 64 = 64 + (m - m % 64) := Nat.add_sub_assoc (Nat.mod_le m 64) 64
      simp only [if_pos hfull, Nat.add_mod_left, hrest, clear_add, ← elms_eq_zero_iff, Nat.add_sub_cancel_left]
      by_cases hz : s.elms i = 0#64
      · rw [if_neg (not_not.mpr hz)]
        simp only [hz, true_and]
        exact ih m (Nat.lt_add_of_pos_left (by decide))
      · rw [if_pos hz]
        simp [hz]
    · have hlt : n < 64 := Nat.lt_of_not_le hfull
      rw [if_neg hfull, Nat.mod_eq_of_lt hlt, Nat.sub_self]
      have hclear : ¬¬ Clear s (64 * i) 0 := not_not.mpr clear_zero
      rw [or_iff_left hclear]
      by_cases hn : n = 0
      · subst hn
        simp [clear_zero]
      · have hword := @maskedEmptyP_iff s (64 * i) n (by omega)
        rw [Nat.mul_div_cancel_left i (by decide), Nat.mul_mod_right, BitVec.ushiftRight_zero] at hword
        rw [if_pos hn, hword]

/-- The masks that are used have fewer than 32 bits: the one of a range within a word that does not reach its end, or the one of
the leftover bits, which are looked at if the words before them are clear in the range.
Source: `sbitmap.c` `sbitmap_range_empty_p` -/
def MasksFit (s : SimpleBitmap 64) (start n : ℕ) : Prop :=
  if start % 64 + n ≤ 64 then start % 64 + n < 64 → n < 32
  else (start + n) % 64 < 32 ∨ ¬ Clear s start (n - (start + n) % 64)

/-- **`sbitmap_range_empty_p`** tells whether a range is clear exactly if the masks fit.
Source: `sbitmap.c` `sbitmap_range_empty_p`
Kind: P -/
theorem sbitmapRangeEmptyP_iff (hbits : s.nBits < 2 ^ 32) (h : start + n ≤ s.nBits) :
    sbitmapRangeEmptyP s start n = some (decide (Clear s start n)) ↔ MasksFit s start n := by
  have hsum : (start + n) % 2 ^ 32 = start + n := Nat.mod_eq_of_lt (h.trans_lt hbits)
  have hle : start % 64 + n ≤ start + n := Nat.add_le_add_right (Nat.mod_le start 64) n
  have hshift : (start % 64 + n) % 2 ^ 32 = start % 64 + n := Nat.mod_eq_of_lt (hle.trans_lt (h.trans_lt hbits))
  simp only [sbitmapRangeEmptyP, hsum, hshift, ge_iff_le, if_pos h, MasksFit]
  by_cases hone : start % 64 + n ≤ 64
  · rw [if_pos hone, if_pos hone]
    by_cases hpart : start % 64 + n < 64
    · rw [if_pos hpart, maskedEmptyP_iff hone]
      exact (imp_iff_right hpart).symm
    · have hn : n = 64 - start % 64 := by omega
      have hclear : Clear s start n ↔ s.elms (start / 64) >>> (start % 64) = 0#64 := by rw [hn, shifted_eq_zero_iff]
      simp only [hclear, hpart, false_imp_iff, iff_true]
      rfl
  · obtain ⟨m, rfl⟩ : ∃ m, n = 64 - start % 64 + m := Nat.exists_eq_add_of_le (by omega)
    have hnext : start + (64 - start % 64) = 64 * (start / 64 + 1) := by omega
    have hmod : (start + (64 - start % 64 + m)) % 64 = m % 64 := by
      rw [← Nat.add_assoc, hnext, Nat.mul_add_mod]
    have hrest : 64 - start % 64 + m - m % 64 = 64 - start % 64 + (m - m % 64) := Nat.add_sub_assoc (Nat.mod_le m 64) _
    simp only [if_neg hone, hmod, hrest, clear_add, ← shifted_eq_zero_iff, hnext, Nat.add_sub_cancel_left]
    by_cases hz : s.elms (start / 64) >>> (start % 64) = 0#64
    · rw [if_neg (not_not.mpr hz)]
      simp only [hz, true_and]
      exact fullEltsEmptyP_iff
    · rw [if_pos hz]
      simp [hz]

/-- A range of 33 bits that spans two words. Source: `sbitmap.c` `sbitmap_range_empty_p`. Kind: C -/
theorem sbitmapRangeEmptyP_iff_spanning :
    sbitmapRangeEmptyP ⟨none, 128, 2, fun _ => 0#64⟩ 40 33 =
        some (decide (Clear ⟨none, 128, 2, fun _ => 0#64⟩ 40 33)) ↔
      MasksFit ⟨none, 128, 2, fun _ => 0#64⟩ 40 33 :=
  sbitmapRangeEmptyP_iff (by decide) (by decide)

/-- **Forty bits of one word** have no answer: the mask is shifted too far. The bit 38 is set, so that a host that takes the
count modulo 32 gets it wrong as well.
Source: `sbitmap.c` `sbitmap_range_empty_p`
Kind: C -/
theorem sbitmapRangeEmptyP_forty : ¬ ∀ (s : SimpleBitmap 64) (start n : ℕ), s.nBits < 2 ^ 32 → 0 < n → start + n ≤ s.nBits →
    sbitmapRangeEmptyP s start n = some (decide (Clear s start n)) := by
  intro h
  have hanswer := h ⟨none, 64, 1, fun _ => 1#64 <<< 38⟩ 0 40 (by decide) (by decide) (by decide)
  have hnone : sbitmapRangeEmptyP ⟨none, 64, 1, fun _ => 1#64 <<< 38⟩ 0 40 = none := rfl
  rw [hnone] at hanswer
  cases hanswer

end Answer

end GccCore.Gcc.Sbitmap
