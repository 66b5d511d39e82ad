import GccCore.Gcc.Sbitmap
import GccCore.Lib.BitScan

/-!
# `gcc/sbitmap.h`: the iterator of simple bitmaps

The iterator holds a word of the bitmap, shifted down to the bit that is looked at next, and loads the next word when this one
is used up.

* **The position of the iterator** (`At`): the bit that is looked at next.
* **`sbitmap_iter_cond`** finds the next set bit (`sbitmapIterCond_some`) or the end (`sbitmapIterCond_none`).
* **`EXECUTE_IF_SET_IN_SBITMAP`** (`executeIfSet_eq`), with a body that may clear the bit it is called for.
-/

namespace GccCore.Gcc.Sbitmap

open GccCore.Lib.BitScan

variable {W : ℕ}

/-! ## The code -/

/-- The iterator; its pointer to the words is that of the bitmap. Source: `sbitmap.h` `sbitmap_iterator`. -/
structure SbitmapIterator (W : ℕ) where
  size : ℕ
  wordNum : ℕ
  bitNum : ℕ
  word : BitVec W

/-- Source: `sbitmap.h` `sbitmap_iter_init`. -/
def sbitmapIterInit (bmp : SimpleBitmap W) (min : ℕ) : SbitmapIterator W where
  size := bmp.size
  wordNum := min / W
  bitNum := min
  word := if min / W ≥ bmp.size then 0#W else bmp.elms (min / W) >>> (min % W)

/-- Words that are zero are skipped; `none` at the end. The first argument is the number of words that are left.
Source: `sbitmap.h` `sbitmap_iter_cond` ("Skip words that are zeros") -/
def skipWords (ptr : ℕ → BitVec W) : ℕ → SbitmapIterator W → Option (SbitmapIterator W)
  | 0, i => if i.word = 0#W then none else some i
  | k + 1, i =>
    if i.word = 0#W then
      if i.wordNum + 1 ≥ i.size then none
      else skipWords ptr k
        { i with wordNum := i.wordNum + 1, bitNum := (i.wordNum + 1) * W, word := ptr (i.wordNum + 1) }
    else some i

/-- The next set bit, or `none` at the end; no answer if the loop over the bits of the word does not end.
Source: `sbitmap.h` `sbitmap_iter_cond` -/
def sbitmapIterCond (ptr : ℕ → BitVec W) (i : SbitmapIterator W) : Option (Option (ℕ × SbitmapIterator W)) :=
  match skipWords ptr (i.size - i.wordNum) i with
  | none => some none
  | some i =>
    match skipZeros i.word i.bitNum with
    | none => none
    | some (word, bitNum) => some (some (bitNum, { i with word := word, bitNum := bitNum }))

/-- Source: `sbitmap.h` `sbitmap_iter_next`. -/
def sbitmapIterNext (i : SbitmapIterator W) : SbitmapIterator W :=
  { i with word := i.word >>> 1, bitNum := i.bitNum + 1 }

/-- `EXECUTE_IF_SET_IN_SBITMAP (mask, min, n, iter) body`; the mask may be part of the data that the body changes.
Source: `sbitmap.h` `EXECUTE_IF_SET_IN_SBITMAP` -/
def executeIfSet {β ε : Type} (mask : β → SimpleBitmap W) (body : ℕ → β → Except ε β) (fuel min : ℕ) (b : β) :
    Option (Except ε β) :=
  scan (fun i b => sbitmapIterCond (mask b).elms i) sbitmapIterNext body fuel (sbitmapIterInit (mask b) min) b

/-! ## The position -/

/-- **The iterator looks at bit `p` next**: it holds the rest of the word from there on, or is behind the last word. -/
structure At (i : SbitmapIterator W) (s : SimpleBitmap W) (p : ℕ) : Prop where
  size : i.size = s.size
  bitNum : i.word ≠ 0#W → i.bitNum = p
  low : i.wordNum * W ≤ p
  high : i.wordNum < s.size → p ≤ (i.wordNum + 1) * W
  word : ∀ k, i.word.getLsbD k = true ↔ p + k < (i.wordNum + 1) * W ∧ i.wordNum < s.size ∧ s.testBit (p + k) = true

section Position

variable {i : SbitmapIterator W} {s : SimpleBitmap W} {p q : ℕ}

/-- The bits of a word. -/
theorem testBit_eq (hW : 0 < W) {k : ℕ} (hlo : k * W ≤ p) (hhi : p < (k + 1) * W) :
    s.testBit p = (s.elms k).getLsbD (p - k * W) := by
  have hdiv : p / W = k := by
    rw [Nat.div_eq_iff hW]
    rw [Nat.succ_mul] at hhi
    omega
  have hmod : p % W = p - k * W := by
    rw [Nat.mod_eq_sub_mul_div, hdiv, Nat.mul_comm]
  rw [SimpleBitmap.testBit, hdiv, hmod]

/-- A word that is just loaded. Source: `sbitmap.h` `sbitmap_iter_cond` (`i->word = i->ptr[i->word_num]`). Kind: L -/
theorem at_load (hW : 0 < W) {k : ℕ} (hk : k < s.size) (size : i.size = s.size) :
    At { i with wordNum := k, bitNum := k * W, word := s.elms k } s (k * W) := by
  refine ⟨size, fun _ => rfl, le_rfl, fun _ => Nat.mul_le_mul_right W (Nat.le_succ k), fun j => ?_⟩
  dsimp only
  rw [Nat.succ_mul]
  constructor
  · intro hset
    have hj := BitVec.lt_of_getLsbD hset
    refine ⟨by omega, hk, ?_⟩
    rwa [testBit_eq hW (Nat.le_add_right _ _) (by rw [Nat.succ_mul]; omega), Nat.add_sub_cancel_left]
  · rintro ⟨hlt, -, hset⟩
    rwa [testBit_eq hW (Nat.le_add_right _ _) (by rw [Nat.succ_mul]; omega), Nat.add_sub_cancel_left] at hset

/-- **At the start.** Source: `sbitmap.h` `sbitmap_iter_init`. Kind: L -/
theorem at_init (hW : 0 < W) (s : SimpleBitmap W) (p : ℕ) : At (sbitmapIterInit s p) s p := by
  have hdm := Nat.div_add_mod p W
  have hmod := Nat.mod_lt p hW
  rw [Nat.mul_comm] at hdm
  refine ⟨rfl, fun _ => rfl, by change p / W * W ≤ p; omega, fun _ => by change p ≤ (p / W + 1) * W; rw [Nat.succ_mul]; omega,
    fun k => ?_⟩
  change (if p / W ≥ s.size then 0#W else s.elms (p / W) >>> (p % W)).getLsbD k = true ↔
    p + k < (p / W + 1) * W ∧ p / W < s.size ∧ s.testBit (p + k) = true
  split_ifs with hge
  · rw [BitVec.getLsbD_zero]
    exact iff_of_false Bool.false_ne_true fun hc => absurd hc.2.1 (not_lt.mpr hge)
  · rw [BitVec.getLsbD_ushiftRight]
    constructor
    · intro hset
      have hlt := BitVec.lt_of_getLsbD hset
      have hin : p + k < (p / W + 1) * W := by
        rw [Nat.succ_mul]
        omega
      refine ⟨hin, not_le.mp hge, ?_⟩
      rwa [testBit_eq hW (by omega) hin, show p + k - p / W * W = p % W + k by omega]
    · rintro ⟨hin, -, hset⟩
      rwa [testBit_eq hW (by omega) hin, show p + k - p / W * W = p % W + k by omega] at hset

/-- **One bit on.** Source: `sbitmap.h` `sbitmap_iter_next`. Kind: L -/
theorem At.next (h : At i s p) (hlt : p < (i.wordNum + 1) * W) : At (sbitmapIterNext i) s (p + 1) := by
  refine ⟨h.size, fun hne => ?_, h.low.trans (Nat.le_succ p), fun _ => hlt, fun k => ?_⟩
  · change i.bitNum + 1 = p + 1
    rw [h.bitNum]
    rintro hzero
    apply hne
    change i.word >>> 1 = 0#W
    rw [hzero, BitVec.zero_ushiftRight]
  · change (i.word >>> 1).getLsbD k = true ↔ _
    rw [BitVec.getLsbD_ushiftRight, h.word, show p + (1 + k) = p + 1 + k by omega]
    rfl

/-- The iterator depends on the bits to come. -/
theorem At.congr {s' : SimpleBitmap W} (h : At i s p) (hsize : s'.size = s.size)
    (hbits : ∀ j ≥ p, s'.testBit j = s.testBit j) : At i s' p := by
  refine ⟨h.size.trans hsize.symm, h.bitNum, h.low, fun hlt => h.high (hsize ▸ hlt), fun k => ?_⟩
  rw [h.word, hsize, hbits _ (Nat.le_add_right p k)]

/-! ## The next bit -/

/-- **Skipping words** of zeros passes over no set bit. Source: `sbitmap.h` `sbitmap_iter_cond`. Kind: L -/
theorem skipWords_spec (hW : 0 < W) {k : ℕ} (hk : k = i.size - i.wordNum) (h : At i s p) :
    (∃ i' p', skipWords s.elms k i = some i' ∧ At i' s p' ∧ i'.word ≠ 0#W ∧
        ones s.testBit p (s.size * W) = ones s.testBit p' (s.size * W)) ∨
      (skipWords s.elms k i = none ∧ ones s.testBit p (s.size * W) = []) := by
  induction k generalizing i p with
  | zero =>
    unfold skipWords
    split_ifs with hzero
    · refine Or.inr ⟨rfl, ones_of_ge ?_⟩
      have hsize := h.size
      exact (Nat.mul_le_mul_right W (by omega)).trans h.low
    · exact Or.inl ⟨i, p, rfl, h, hzero, rfl⟩
  | succ k ih =>
    have hsize := h.size
    -- the rest of a word that is used up is clear
    have hskip : i.word = 0#W →
        ones s.testBit p (s.size * W) = ones s.testBit ((i.wordNum + 1) * W) (s.size * W) := by
      intro hzero
      refine ones_skip (h.high (by omega)) fun j hj hlt => ?_
      have hbit := h.word (j - p)
      rw [hzero, BitVec.getLsbD_zero, Nat.add_sub_cancel' hj] at hbit
      exact Bool.eq_false_iff.mpr fun hset => Bool.false_ne_true (hbit.mpr ⟨hlt, by omega, hset⟩)
    unfold skipWords
    split_ifs with hzero hend
    · exact Or.inr ⟨rfl, (hskip hzero).trans (ones_of_ge (Nat.mul_le_mul_right W (by omega)))⟩
    · rw [hskip hzero]
      exact ih (by dsimp only; omega) (at_load hW (by omega) hsize)
    · exact Or.inl ⟨i, p, rfl, h, hzero, rfl⟩

/-- **At the end.** Source: `sbitmap.h` `sbitmap_iter_cond`. Kind: L -/
theorem sbitmapIterCond_none (hW : 0 < W) (h : At i s p) (hnone : ones s.testBit p (s.size * W) = []) :
    sbitmapIterCond s.elms i = some none := by
  unfold sbitmapIterCond
  rcases skipWords_spec hW rfl h with ⟨i', p', hskip, hat, hne, hones⟩ | ⟨hskip, -⟩
  · obtain ⟨j, hset, -⟩ := exists_lowest hne
    obtain ⟨hlt, hnum, hbit⟩ := (hat.word j).mp hset
    have hclear := ones_eq_nil (hones.symm.trans hnone) (Nat.le_add_right p' j)
      (hlt.trans_le (Nat.mul_le_mul_right W hnum))
    rw [hbit] at hclear
    cases hclear
  · rw [hskip]

/-- **The next set bit.** Source: `sbitmap.h` `sbitmap_iter_cond`. Kind: L -/
theorem sbitmapIterCond_some (hW : 0 < W) (h : At i s p) {rest : List ℕ}
    (hsome : ones s.testBit p (s.size * W) = q :: rest) :
    ∃ i', sbitmapIterCond s.elms i = some (some (q, i')) ∧ At i' s q ∧ q < (i'.wordNum + 1) * W := by
  unfold sbitmapIterCond
  rcases skipWords_spec hW rfl h with ⟨i', p', hskip, hat, hne, hones⟩ | ⟨-, hnone⟩
  · obtain ⟨j, hset, hclear⟩ := exists_lowest hne
    obtain ⟨hlt, hnum, hbit⟩ := (hat.word j).mp hset
    have hin : p' + j < s.size * W := hlt.trans_le (Nat.mul_le_mul_right W hnum)
    have hfirst : ones s.testBit p' (s.size * W) = (p' + j) :: ones s.testBit (p' + j + 1) (s.size * W) := by
      rw [ones_skip (Nat.le_add_right p' j) fun k hk hkj => ?_, ones_cons hin hbit]
      have hword := hat.word (k - p')
      rw [hclear (k - p') (by omega), Nat.add_sub_cancel' hk] at hword
      exact Bool.eq_false_iff.mpr fun hc => Bool.false_ne_true (hword.mpr ⟨by omega, hnum, hc⟩)
    obtain rfl : q = p' + j := (List.cons.inj (hsome.symm.trans (hones.trans hfirst))).1
    rw [hskip]
    dsimp only
    rw [skipZeros_spec hset hclear, hat.bitNum hne]
    refine ⟨_, rfl, ⟨hat.size, fun _ => rfl, hat.low.trans (Nat.le_add_right _ _), fun _ => hlt.le, fun k => ?_⟩, hlt⟩
    rw [BitVec.getLsbD_ushiftRight, hat.word, Nat.add_assoc]
  · rw [hnone] at hsome
    cases hsome

end Position

/-! ## The loop -/

/-- **`EXECUTE_IF_SET_IN_SBITMAP`** runs its body for the set bits from `min` on, in increasing order. The body may change the
bits of the mask up to the one it is called for.
Source: `sbitmap.h` `EXECUTE_IF_SET_IN_SBITMAP`
Kind: L -/
theorem executeIfSet_eq (hW : 0 < W) {β ε : Type} {mask : β → SimpleBitmap W} {body : ℕ → β → Except ε β}
    (hbody : ∀ i b b', body i b = .ok b' → (mask b').size = (mask b).size ∧
      ∀ j > i, (mask b').testBit j = (mask b).testBit j)
    (min : ℕ) (b : β) {fuel : ℕ} (hfuel : (mask b).size * W < fuel) :
    executeIfSet mask body fuel min b =
      some ((ones (mask b).testBit min ((mask b).size * W)).foldlM (fun b i => body i b) b) := by
  have hlen : (ones (mask b).testBit min ((mask b).size * W)).length ≤ (mask b).size * W := by
    refine (List.length_filter_le _ _).trans ?_
    rw [List.length_range']
    omega
  refine scan_eq (fun b => (mask b).testBit) ((mask b).size * W)
    (fun i b' p => At i (mask b') p ∧ (mask b').size = (mask b).size) ?_ ?_ ⟨at_init hW _ _, rfl⟩ (hlen.trans_lt hfuel)
  · rintro i b' p ⟨hat, hsize⟩ hnone
    rw [← hsize] at hnone
    exact sbitmapIterCond_none hW hat hnone
  · rintro i b' p q rest ⟨hat, hsize⟩ hsome
    rw [← hsize] at hsome
    obtain ⟨i', hcond, hat', hlt⟩ := sbitmapIterCond_some hW hat hsome
    refine ⟨i', hcond, fun b'' hb => ?_⟩
    obtain ⟨hsize', hbits⟩ := hbody q b' b'' hb
    exact ⟨⟨(hat'.next hlt).congr hsize' fun j hj => hbits j (by omega), hsize'.trans hsize⟩, hbits⟩

/-- The loop over a whole bitmap, with as many rounds as it can need. Source: `sbitmap.h` `EXECUTE_IF_SET_IN_SBITMAP`. -/
def executeAll {β ε : Type} (mask : β → SimpleBitmap W) (body : ℕ → β → Except ε β) (b : β) : Option (Except ε β) :=
  executeIfSet mask body ((mask b).size * W + 1) 0 b

/-- **The loop over a whole bitmap**, with an invariant of the position.
Source: `sbitmap.h` `EXECUTE_IF_SET_IN_SBITMAP`
Kind: L -/
theorem executeAll_spec (hW : 0 < W) {β ε : Type} (mask : β → SimpleBitmap W) (body : ℕ → β → Except ε β) {b : β}
    (hmask : WellFormed (mask b))
    (hbody : ∀ i b b', body i b = .ok b' → (mask b').size = (mask b).size ∧
      ∀ j > i, (mask b').testBit j = (mask b).testBit j)
    (Inv : ℕ → β → Prop) (hstart : Inv 0 b)
    (hset : ∀ p c, p < (mask b).nBits → (mask b).testBit p = true → Inv p c → ∃ c', body p c = .ok c' ∧ Inv (p + 1) c')
    (hclear : ∀ p c, p < (mask b).nBits → (mask b).testBit p = false → Inv p c → Inv (p + 1) c) :
    ∃ b', executeAll mask body b = some (.ok b') ∧ Inv (mask b).nBits b' := by
  have hcover : (mask b).nBits ≤ (mask b).size * W := by
    have hdm := Nat.div_add_mod ((mask b).nBits + W - 1) W
    have hmod := Nat.mod_lt ((mask b).nBits + W - 1) hW
    rw [← hmask.size_eq, Nat.mul_comm] at hdm
    omega
  obtain ⟨b', hfold, hinv⟩ := foldlM_ones Inv hstart hset hclear
  refine ⟨b', ?_, hinv⟩
  rw [executeAll, executeIfSet_eq hW hbody 0 b (Nat.lt_succ_self _), ones_trim hcover hmask.tail, hfold]

end GccCore.Gcc.Sbitmap
