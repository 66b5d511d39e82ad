import GccCore.Gcc.Sbitmap.Operations
import Mathlib.Data.Int.Notation

/-!
# `gcc/sbitmap.c`: the population counts over a whole run

Every operation writes words and, by code of its own, the bytes that count them.

* **One operation** (`Op.counted`): the counts stay right in all but two cases.
* **`sbitmap_ones`** (`sbitmapOnes`) writes `-1` into each count, so a full word is said to have 255 bits.
* **`sbitmap_resize`** with `def` nonzero sets the new bits and leaves the counts as they are (`sbitmapGrowOnes`).
* **Runs** (`popcounts_right`): in a run without these two the counts are right, and `sbitmap_popcount` with them.
-/

namespace GccCore.Gcc.Sbitmap

open GccCore.Lib.Count

variable {W : ℕ}

/-! ## The code -/

/-- All words become ones, all counts `-1`; then the last word, if it is partial, and its count.
Source: `sbitmap.c` `sbitmap_ones` -/
def sbitmapOnes (s : SimpleBitmap W) : SimpleBitmap W :=
  let map := { s with
    elms := fun i => if i < s.size then BitVec.allOnes W else s.elms i
    popcount := s.popcount.map fun cnt i => if i < s.size then 255 else cnt i }
  let lastBit := s.nBits % W
  if lastBit = 0 then map
  else
    let word := BitVec.allOnes W >>> (W - lastBit)
    { map with
      elms := Function.update map.elms (s.size - 1) word
      popcount := map.popcount.map fun cnt => Function.update cnt (s.size - 1) (doPopcount word) }

/-- `sbitmap_resize` to more bits, the new ones set. No count is written; the counts of new words are what the memory holds.
Source: `sbitmap.c` `sbitmap_resize` (`def` nonzero, `n_elms > bmap->n_bits`) -/
def sbitmapGrowOnes (s : SimpleBitmap W) (nElms : ℕ) : SimpleBitmap W :=
  let size := sbitmapSetSize W nElms
  let elms := fun i => if s.size ≤ i ∧ i < size then BitVec.allOnes W else s.elms i
  let lastBit := s.nBits % W
  -- the new bits of the original last word
  let elms :=
    if lastBit = 0 then elms
    else Function.update elms (s.size - 1) (elms (s.size - 1) ||| ~~~(BitVec.allOnes W >>> (W - lastBit)))
  let lastBit := nElms % W
  -- the unused bits of the new last word
  let elms :=
    if lastBit = 0 then elms
    else Function.update elms (size - 1) (elms (size - 1) &&& (BitVec.allOnes W >>> (W - lastBit)))
  { s with nBits := nElms, size := size, elms := elms }

/-- `sbitmap_resize`, with its last argument. Source: `sbitmap.c` `sbitmap_resize`. -/
def sbitmapResizeDef (s : SimpleBitmap W) (nElms : ℕ) (dflt : ℤ) : SimpleBitmap W :=
  if nElms > s.nBits ∧ dflt ≠ 0 then sbitmapGrowOnes s nElms else sbitmapResize s nElms

/-- Source: `sbitmap.c` `sbitmap_a_xor_b`. -/
def sbitmapAXorB (dst a b : SimpleBitmap W) : Option (SimpleBitmap W) := sbitmapZip (· ^^^ ·) dst a b

/-- The operations, on bitmaps that are named by numbers. A new bitmap is cleared; its memory held anything.
Source: `sbitmap.h` -/
inductive Op (W : ℕ) where
  | allocWithPopcount (p nElms : ℕ) (elms : ℕ → BitVec W) (counts : ℕ → ℕ)
  | setBit (p bitno : ℕ)
  | resetBit (p bitno : ℕ)
  | zero (p : ℕ)
  | ones (p : ℕ)
  | copy (dst src : ℕ)
  | resize (p nElms : ℕ) (dflt : ℤ)
  | aAndB (dst a b : ℕ)
  | aOrB (dst a b : ℕ)
  | aXorB (dst a b : ℕ)

/-- The bitmaps in memory. -/
abbrev Bitmaps (W : ℕ) := ℕ → Option (SimpleBitmap W)

/-- The bitmap that an operation writes, and what it becomes; `none` where it would leave the words of a bitmap.
Source: `sbitmap.h` -/
def Op.result (mem : Bitmaps W) : Op W → Option (ℕ × SimpleBitmap W)
  | .allocWithPopcount p nElms elms counts => some (p, sbitmapZero (sbitmapAllocWithPopcount W nElms elms counts))
  | .setBit p bitno => do
    let s ← mem p
    if bitno / W < s.size then some (p, Sbitmap.setBit s bitno) else none
  | .resetBit p bitno => do
    let s ← mem p
    if bitno / W < s.size then some (p, Sbitmap.resetBit s bitno) else none
  | .zero p => do
    let s ← mem p
    some (p, sbitmapZero s)
  | .ones p => do
    let s ← mem p
    some (p, sbitmapOnes s)
  | .copy dst src => do
    let s ← mem dst
    let t ← sbitmapCopy s (← mem src)
    some (dst, t)
  | .resize p nElms dflt => do
    let s ← mem p
    some (p, sbitmapResizeDef s nElms dflt)
  | .aAndB dst a b => do
    let s ← mem dst
    let t ← sbitmapAAndB s (← mem a) (← mem b)
    some (dst, t)
  | .aOrB dst a b => do
    let s ← mem dst
    let t ← sbitmapAOrB s (← mem a) (← mem b)
    some (dst, t)
  | .aXorB dst a b => do
    let s ← mem dst
    let t ← sbitmapAXorB s (← mem a) (← mem b)
    some (dst, t)

/-- **Runs** from no bitmaps at all, of operations that meet a condition. -/
inductive OpRun (cond : Bitmaps W → Op W → Prop) : Bitmaps W → Prop
  | start : OpRun cond fun _ => none
  | step {mem : Bitmaps W} {op : Op W} {p : ℕ} {s : SimpleBitmap W} :
      OpRun cond mem → cond mem op → op.result mem = some (p, s) → OpRun cond (Function.update mem p (some s))

/-- No word is made full by `sbitmap_ones`, no bitmap grows with `def` nonzero, and no size wraps around.
Source: `sbitmap.c` `sbitmap_ones`, `sbitmap_resize`; `sbitmap.h` `SBITMAP_SET_SIZE` -/
def CountsKept (mem : Bitmaps W) : Op W → Prop
  | .allocWithPopcount _ nElms _ _ => nElms + W ≤ 2 ^ 32
  | .ones p => ∀ s, mem p = some s → s.nBits < W
  | .resize p nElms dflt => nElms + W ≤ 2 ^ 32 ∧ ∀ s, mem p = some s → nElms > s.nBits → dflt = 0
  | _ => True

/-- **The cached counts are right**, and `sbitmap_popcount` counts the set bits below its argument, whatever that is.
Source: `sbitmap.c` `sbitmap_verify_popcount`, `sbitmap_popcount` -/
structure PopcountsRight (s : SimpleBitmap W) : Prop where
  words : ∃ cnt, s.popcount = some cnt ∧ ∀ i < s.size, cnt i = doPopcount (s.elms i)
  below : ∀ k, sbitmapPopcount s k = Nat.count (fun i => i < s.nBits ∧ s.testBit i = true) k

/-! ## One operation -/

section Counted

variable {s s' a b : SimpleBitmap W} {n k p : ℕ}

/-- **The invariant**: the words cover the bits, and there are counts, which are right. The bits behind the last one may be
set: a bitmap can be the union of larger ones. -/
structure Counted (s : SimpleBitmap W) : Prop where
  size_eq : s.size = (s.nBits + W - 1) / W
  cached : s.popcount.isSome = true
  right : CountsRight s

/-- A size that has not wrapped around. Source: `sbitmap.h` `SBITMAP_SET_SIZE`. Kind: L -/
theorem Counted.of_setSize (hn : n + W ≤ 2 ^ 32) (hsize : s.size = sbitmapSetSize W n) (hbits : s.nBits = n)
    (hcached : s.popcount.isSome = true) (hright : CountsRight s) : Counted s :=
  ⟨by rw [hsize, hbits, sbitmapSetSize_eq hn], hcached, hright⟩

/-- The bits below `k` in the bitmap are those below `k` or below the size. -/
theorem count_below (s : SimpleBitmap W) (k : ℕ) :
    Nat.count (fun i => i < s.nBits ∧ s.testBit i = true) k = Nat.count (fun i => s.testBit i = true) (min k s.nBits) := by
  rcases le_total k s.nBits with hk | hk
  · rw [min_eq_left hk]
    exact count_congr fun i hi => and_iff_right (hi.trans_le hk)
  · rw [min_eq_right hk, ← count_and_lt hk]
    exact count_congr fun i _ => and_comm

/-- An argument behind the last bit is the number of bits. Source: `sbitmap.c` `sbitmap_popcount`. Kind: L -/
theorem sbitmapPopcount_min (hW : 0 < W) (s : SimpleBitmap W) (k : ℕ) :
    sbitmapPopcount s k = sbitmapPopcount s (min k s.nBits) := by
  rcases le_total k s.nBits with hk | hk
  · rw [min_eq_left hk]
  · rw [min_eq_right hk]
    unfold sbitmapPopcount
    by_cases hzero : s.nBits = 0
    · by_cases hk0 : k = 0
      · rw [hk0, hzero]
      · simp [hzero, hk0, Nat.div_self hW]
    · have hk0 : k ≠ 0 := by omega
      simp [hzero, hk0, hk]

/-- Right counts make right sums. Source: `sbitmap.c` `sbitmap_popcount`. Kind: L -/
theorem Counted.popcountsRight (hW : 0 < W) (h : Counted s) : PopcountsRight s := by
  refine ⟨?_, fun k => ?_⟩
  · obtain ⟨cnt, hcnt⟩ := Option.isSome_iff_exists.mp h.cached
    exact ⟨cnt, hcnt, h.right cnt hcnt⟩
  · rw [sbitmapPopcount_min hW, CountsRight.popcount hW h.size_eq h.right (min_le_right k s.nBits), count_below]

theorem Counted.setBit (hW : 0 < W) (hW' : W < 256) (h : Counted s) (j : ℕ) : Counted (setBit s j) :=
  ⟨by simpa using h.size_eq, by rw [isSome_setBit, h.cached], h.right.setBit hW hW' j⟩

theorem Counted.resetBit (hW : 0 < W) (hW' : W < 256) (h : Counted s) (j : ℕ) : Counted (resetBit s j) :=
  ⟨by simpa using h.size_eq, by rw [isSome_resetBit, h.cached], h.right.resetBit hW hW' j⟩

theorem Counted.zero (h : Counted s) : Counted (sbitmapZero s) :=
  ⟨h.size_eq, by rw [sbitmapZero, Option.isSome_map, h.cached], countsRight_zero s⟩

/-- A copy into a bitmap that is not longer. Source: `sbitmap.c` `sbitmap_copy`. Kind: L -/
theorem Counted.copy (h : Counted s) (ha : Counted a) (hs' : sbitmapCopy s a = some s') : Counted s' := by
  have hright : CountsRight s' := ha.right.copyN (fun cnt _ ix hle hlt => absurd hlt (not_lt.mpr hle)) hs'
  obtain ⟨cnt, hcnt⟩ := Option.isSome_iff_exists.mp h.cached
  obtain ⟨cnt', hcnt'⟩ := Option.isSome_iff_exists.mp ha.cached
  unfold sbitmapCopy sbitmapCopyN at hs'
  split_ifs at hs' with hle
  rw [hcnt, hcnt'] at hs'
  obtain rfl := Option.some.inj hs'
  exact ⟨h.size_eq, rfl, hright⟩

theorem Counted.zip {f : BitVec W → BitVec W → BitVec W} (h : Counted s) (hs' : sbitmapZip f s a b = some s') :
    Counted s' := by
  have hright : CountsRight s' := h.right.zip hs'
  unfold sbitmapZip at hs'
  split_ifs at hs' with hle
  obtain rfl := Option.some.inj hs'
  exact ⟨h.size_eq, by rw [Option.isSome_map, h.cached], hright⟩

/-- **Resizing** without new ones. Source: `sbitmap.c` `sbitmap_resize`. Kind: L -/
theorem Counted.resize (h : Counted s) (hn : n + W ≤ 2 ^ 32) : Counted (sbitmapResize s n) := by
  unfold sbitmapResize
  split_ifs with hgrow hshrink
  · exact .of_setSize hn rfl rfl (by rw [sbitmapGrow, Option.isSome_map, h.cached]) (h.right.grow n)
  · have hle : sbitmapSetSize W n ≤ s.size := by
      rw [sbitmapSetSize_eq hn, h.size_eq]
      exact Nat.div_le_div_right (by omega)
    refine .of_setSize hn ?_ ?_ ?_ (h.right.shrink hle)
    · unfold sbitmapShrink
      dsimp only
      split_ifs <;> rfl
    · unfold sbitmapShrink
      dsimp only
      split_ifs <;> rfl
    · unfold sbitmapShrink
      dsimp only
      split_ifs
      · exact h.cached
      · rw [Option.isSome_map, h.cached]
  · have hsame : sbitmapSetSize W n = s.size := by
      rw [sbitmapSetSize_eq hn, h.size_eq, show n = s.nBits by omega]
    refine .of_setSize hn rfl rfl h.cached fun cnt hcnt ix hix => h.right cnt hcnt ix ?_
    exact lt_of_lt_of_eq hix hsame

end Counted

/-! ## Two operations that miscount -/

section Ones

variable {s : SimpleBitmap W}

/-- A mask for the low `r` bits has `r` ones. Source: `sbitmap.c` `sbitmap_ones`. Kind: L -/
theorem doPopcount_lowMask {r : ℕ} (hr : r ≤ W) : doPopcount (BitVec.allOnes W >>> (W - r)) = r := by
  have hones := doPopcount_low (BitVec.allOnes W) hr
  rw [BitVec.allOnes_and] at hones
  rw [hones, Nat.count_iff_forall]
  intro i hi
  rw [BitVec.getLsbD_allOnes]
  exact decide_eq_true (hi.trans_le hr)

theorem doPopcount_allOnes : doPopcount (BitVec.allOnes W) = W := by
  have hmask := doPopcount_lowMask (W := W) le_rfl
  rwa [Nat.sub_self, BitVec.ushiftRight_zero] at hmask

/-- A bitmap without a full word is counted right. Source: `sbitmap.c` `sbitmap_ones`. Kind: L -/
theorem Counted.ones (h : Counted s) (hlt : s.nBits < W) : Counted (sbitmapOnes s) := by
  obtain ⟨cnt, hcnt⟩ := Option.isSome_iff_exists.mp h.cached
  have hsize := h.size_eq
  unfold sbitmapOnes
  rw [hcnt]
  dsimp only
  split_ifs with hlast
  · -- there is no bit, and no word
    have hzero : s.nBits = 0 := by rwa [Nat.mod_eq_of_lt hlt] at hlast
    have hnone : s.size = 0 := by
      rw [hsize, hzero]
      exact Nat.div_eq_of_lt (by omega)
    exact ⟨hsize, rfl, fun _ _ ix hix => absurd (hnone ▸ hix) (Nat.not_lt_zero ix)⟩
  · have hone : s.size = 1 := by
      have hne : s.nBits ≠ 0 := fun hzero => hlast (by rw [hzero, Nat.zero_mod])
      rw [hsize]
      exact Nat.div_eq_of_lt_le (by omega) (by omega)
    refine ⟨hsize, rfl, fun c hc ix hix => ?_⟩
    obtain rfl := Option.some.inj hc
    obtain rfl : ix = s.size - 1 := by
      have hix' : ix < s.size := hix
      omega
    dsimp only
    rw [Function.update_self, Function.update_self]

end Ones

/-! ## Runs -/

section Runs

variable {mem : Bitmaps W} {op : Op W} {p : ℕ} {s : SimpleBitmap W}

/-- **One operation** that meets the condition keeps the invariant. Source: `sbitmap.h`. Kind: L -/
theorem Op.counted (hW : 0 < W) (hW' : W < 256) (hmem : ∀ q t, mem q = some t → Counted t) (hcond : CountsKept mem op)
    (hop : op.result mem = some (p, s)) : Counted s := by
  cases op with
  | allocWithPopcount q n elms counts =>
    obtain ⟨-, rfl⟩ := Prod.mk.inj (Option.some.inj hop)
    exact .of_setSize hcond rfl rfl rfl (countsRight_zero _)
  | setBit q j =>
    obtain ⟨t, ht, hop⟩ := Option.bind_eq_some_iff.mp hop
    split_ifs at hop
    obtain ⟨-, rfl⟩ := Prod.mk.inj (Option.some.inj hop)
    exact (hmem q t ht).setBit hW hW' j
  | resetBit q j =>
    obtain ⟨t, ht, hop⟩ := Option.bind_eq_some_iff.mp hop
    split_ifs at hop
    obtain ⟨-, rfl⟩ := Prod.mk.inj (Option.some.inj hop)
    exact (hmem q t ht).resetBit hW hW' j
  | zero q =>
    obtain ⟨t, ht, hop⟩ := Option.bind_eq_some_iff.mp hop
    obtain ⟨-, rfl⟩ := Prod.mk.inj (Option.some.inj hop)
    exact (hmem q t ht).zero
  | ones q =>
    obtain ⟨t, ht, hop⟩ := Option.bind_eq_some_iff.mp hop
    obtain ⟨-, rfl⟩ := Prod.mk.inj (Option.some.inj hop)
    exact (hmem q t ht).ones (hcond t ht)
  | copy dst src =>
    obtain ⟨t, ht, hop⟩ := Option.bind_eq_some_iff.mp hop
    obtain ⟨a, ha, hop⟩ := Option.bind_eq_some_iff.mp hop
    obtain ⟨t', ht', hop⟩ := Option.bind_eq_some_iff.mp hop
    obtain ⟨-, rfl⟩ := Prod.mk.inj (Option.some.inj hop)
    exact (hmem dst t ht).copy (hmem src a ha) ht'
  | resize q n dflt =>
    obtain ⟨t, ht, hop⟩ := Option.bind_eq_some_iff.mp hop
    obtain ⟨-, rfl⟩ := Prod.mk.inj (Option.some.inj hop)
    have hzero : ¬ (n > t.nBits ∧ dflt ≠ 0) := fun hc => hc.2 (hcond.2 t ht hc.1)
    rw [sbitmapResizeDef, if_neg hzero]
    exact (hmem q t ht).resize hcond.1
  | aAndB dst x y | aOrB dst x y | aXorB dst x y =>
    obtain ⟨t, ht, hop⟩ := Option.bind_eq_some_iff.mp hop
    obtain ⟨a, ha, hop⟩ := Option.bind_eq_some_iff.mp hop
    obtain ⟨b, hb, hop⟩ := Option.bind_eq_some_iff.mp hop
    obtain ⟨t', ht', hop⟩ := Option.bind_eq_some_iff.mp hop
    obtain ⟨-, rfl⟩ := Prod.mk.inj (Option.some.inj hop)
    exact (hmem dst t ht).zip ht'

theorem OpRun.counted (hW : 0 < W) (hW' : W < 256) (h : OpRun CountsKept mem) : ∀ q t, mem q = some t → Counted t := by
  induction h with
  | start => exact fun q t ht => absurd ht (Option.some_ne_none t).symm
  | @step mem op p s _ hcond hop ih =>
    intro q t ht
    by_cases hq : q = p
    · rw [hq, Function.update_self] at ht
      exact Option.some.inj ht ▸ Op.counted hW hW' ih hcond hop
    · rw [Function.update_of_ne hq] at ht
      exact ih q t ht

/-- **In a run** whose steps meet the condition all counts are right, and so is `sbitmap_popcount`.
Source: `sbitmap.c`, `sbitmap.h`
Kind: P -/
theorem popcounts_right (hW : 0 < W) (hW' : W < 256) (h : OpRun CountsKept mem) (hs : mem p = some s) : PopcountsRight s :=
  (h.counted hW hW' p s hs).popcountsRight hW

end Runs

/-! ## Two runs -/

/-- A new bitmap whose memory held zeros. Source: `sbitmap.c` `sbitmap_alloc_with_popcount`, `sbitmap_zero`. -/
def newBitmap (W n : ℕ) : SimpleBitmap W := sbitmapZero (sbitmapAllocWithPopcount W n (fun _ => 0#W) fun _ => 0)

/-- A bitmap is allocated, and then changed. -/
theorem opRun_two {cond : Bitmaps W → Op W → Prop} {n : ℕ} {op : Op W} {s : SimpleBitmap W}
    (halloc : cond (fun _ => none) (.allocWithPopcount 0 n (fun _ => 0#W) fun _ => 0))
    (hcond : cond (Function.update (fun _ => none) 0 (some (newBitmap W n))) op)
    (hop : op.result (Function.update (fun _ => none) 0 (some (newBitmap W n))) = some (0, s)) :
    OpRun cond (Function.update (Function.update (fun _ => none) 0 (some (newBitmap W n))) 0 (some s)) :=
  .step (.step .start halloc rfl) hcond hop

theorem popcounts_right_seventy : PopcountsRight (setBit (newBitmap 64 70) 69) := by
  have hsize : (newBitmap 64 70).size = 2 := by decide
  have hrun := @opRun_two 64 CountsKept 70 (.setBit 0 69) (setBit (newBitmap 64 70) 69)
    (by simp [CountsKept]) trivial (by simp [Op.result, hsize])
  exact popcounts_right (by decide) (by decide) hrun (Function.update_self 0 _ _)

/-- **`sbitmap_ones`** on a bitmap of 64 bits says that it has 255. Source: `sbitmap.c` `sbitmap_ones`. Kind: C -/
theorem sbitmapOnes_miscounts : ¬ ∀ (mem : Bitmaps 64) (p : ℕ) (s : SimpleBitmap 64),
    OpRun (fun _ _ => True) mem → mem p = some s → PopcountsRight s := by
  intro hall
  have hrun := @opRun_two 64 (fun _ _ => True) 64 (.ones 0) (sbitmapOnes (newBitmap 64 64)) trivial trivial rfl
  obtain ⟨cnt, hcnt, hwords⟩ := (hall _ 0 _ hrun (Function.update_self 0 _ _)).words
  obtain rfl := Option.some.inj hcnt
  have hfirst : 255 = doPopcount (BitVec.allOnes 64) := hwords 0 (by decide)
  rw [doPopcount_allOnes] at hfirst
  exact absurd hfirst (by decide)

end GccCore.Gcc.Sbitmap
