import GccCore.Gcc.Sbitmap

/-!
# `gcc/sbitmap.c`: operations on whole simple bitmaps

Copies, intersections, unions and changes of the size. An operation answers with `none` where the code reads or writes outside
of a bitmap.

* **Resizing** (`sbitmapResize_spec`), to more bits or to fewer.
* **Copies** (`sbitmapCopyN_spec`) of the first words.
* **Word by word** (`sbitmapZip_spec`): `sbitmap_a_and_b` and `sbitmap_a_or_b`, which count a word again if it changes.
-/

namespace GccCore.Gcc.Sbitmap

open GccCore.Lib.Count

variable {W : ℕ}

/-! ## The code -/

/-- A bitmap without a population count whose memory holds `elms`. Source: `sbitmap.c` `sbitmap_alloc`. -/
def sbitmapAlloc (W nElms : ℕ) (elms : ℕ → BitVec W) : SimpleBitmap W := ⟨none, nElms, sbitmapSetSize W nElms, elms⟩

/-- The surplus bits in the last word are cleared. Source: `sbitmap.c` `sbitmap_resize` (`n_elms < bmap->n_bits`). -/
def sbitmapShrink (s : SimpleBitmap W) (nElms : ℕ) : SimpleBitmap W :=
  let size := sbitmapSetSize W nElms
  let lastBit := nElms % W
  if lastBit = 0 then { s with nBits := nElms, size := size }
  else
    let word := s.elms (size - 1) &&& (BitVec.allOnes W >>> (W - lastBit))
    { popcount := s.popcount.map fun cnt => Function.update cnt (size - 1) (doPopcount word)
      nBits := nElms
      size := size
      elms := Function.update s.elms (size - 1) word }

/-- `sbitmap_resize`, new bits clear. Source: `sbitmap.c` `sbitmap_resize` (`def` 0). -/
def sbitmapResize (s : SimpleBitmap W) (nElms : ℕ) : SimpleBitmap W :=
  if nElms > s.nBits then sbitmapGrow s nElms
  else if nElms < s.nBits then sbitmapShrink s nElms
  else { s with nBits := nElms, size := sbitmapSetSize W nElms }

/-- The first `n` words are copied, and their counts. Source: `sbitmap.c` `sbitmap_copy_n`. -/
def sbitmapCopyN (dst src : SimpleBitmap W) (n : ℕ) : Option (SimpleBitmap W) :=
  if n ≤ dst.size ∧ n ≤ src.size then
    match dst.popcount, src.popcount with
    | none, _ => some { dst with elms := fun i => if i < n then src.elms i else dst.elms i }
    | some _, none => none
    | some cnt, some cnt' =>
      some { dst with
        elms := fun i => if i < n then src.elms i else dst.elms i
        popcount := some fun i => if i < n then cnt' i else cnt i }
  else none

/-- Source: `sbitmap.c` `sbitmap_copy`. -/
def sbitmapCopy (dst src : SimpleBitmap W) : Option (SimpleBitmap W) := sbitmapCopyN dst src dst.size

/-- The words of `dst` become those of `a` and `b`, combined; a word that changes is counted.
Source: `sbitmap.c` `sbitmap_a_and_b`, `sbitmap_a_or_b` -/
def sbitmapZip (f : BitVec W → BitVec W → BitVec W) (dst a b : SimpleBitmap W) : Option (SimpleBitmap W) :=
  if dst.size ≤ a.size ∧ dst.size ≤ b.size then
    some { dst with
      elms := fun i => if i < dst.size then f (a.elms i) (b.elms i) else dst.elms i
      popcount := dst.popcount.map fun cnt i =>
        if i < dst.size ∧ dst.elms i ≠ f (a.elms i) (b.elms i) then doPopcount (f (a.elms i) (b.elms i)) else cnt i }
  else none

/-- Source: `sbitmap.c` `sbitmap_a_and_b`. -/
def sbitmapAAndB (dst a b : SimpleBitmap W) : Option (SimpleBitmap W) := sbitmapZip (· &&& ·) dst a b

/-- Source: `sbitmap.c` `sbitmap_a_or_b`. -/
def sbitmapAOrB (dst a b : SimpleBitmap W) : Option (SimpleBitmap W) := sbitmapZip (· ||| ·) dst a b

/-! ## Membership -/

/-- `i < map->n_bits && TEST_BIT (map, i)`. Source: `ebitmap.c` (`dsthasword`). -/
def SimpleBitmap.has (s : SimpleBitmap W) (i : ℕ) : Bool := decide (i < s.nBits) && s.testBit i

section Specs

variable {s a b : SimpleBitmap W} {n : ℕ}

/-- The words cover the bits. Source: `sbitmap.h` `SBITMAP_SET_SIZE`. Kind: L -/
theorem WellFormed.cover (hW : 0 < W) (h : WellFormed s) : s.nBits ≤ s.size * W := by
  have hdm := Nat.div_add_mod (s.nBits + W - 1) W
  have hmod := Nat.mod_lt (s.nBits + W - 1) hW
  rw [← h.size_eq, Nat.mul_comm] at hdm
  omega

/-- A bit of an allocated word is in the bitmap, or clear. -/
theorem WellFormed.testBit_eq_has (h : WellFormed s) {i : ℕ} (hi : i < s.size * W) : s.testBit i = s.has i := by
  unfold SimpleBitmap.has
  by_cases hlt : i < s.nBits
  · rw [decide_eq_true hlt, Bool.true_and]
  · rw [decide_eq_false hlt, Bool.false_and]
    exact h.tail i (not_lt.mp hlt) hi

/-- More bits, more words. -/
theorem WellFormed.size_le (h : WellFormed s) (h' : WellFormed a) (hle : s.nBits ≤ a.nBits) : s.size ≤ a.size := by
  rw [h.size_eq, h'.size_eq]
  exact Nat.div_le_div_right (by omega)

/-- Setting a bit keeps the population count. Source: `sbitmap.h` `SET_BIT`. Kind: L -/
theorem isSome_setBit (s : SimpleBitmap W) (j : ℕ) : (setBit s j).popcount.isSome = s.popcount.isSome := by
  unfold setBit SimpleBitmap.bump
  split_ifs
  · rfl
  · exact Option.isSome_map

/-- Resetting a bit keeps the population count. Source: `sbitmap.h` `RESET_BIT`. Kind: L -/
theorem isSome_resetBit (s : SimpleBitmap W) (j : ℕ) : (resetBit s j).popcount.isSome = s.popcount.isSome := by
  unfold resetBit SimpleBitmap.bump
  split_ifs
  · exact Option.isSome_map
  · rfl

theorem has_resetBit (hW : 0 < W) (hW' : W < 256) (h : WellFormed s) (j w : ℕ) :
    (resetBit s j).has w = (s.has w && !decide (w = j)) := by
  rw [SimpleBitmap.has, SimpleBitmap.has, (resetBit_spec hW hW' h j).2.1, testBit_resetBit hW, Bool.and_assoc]

theorem sbitmapSetSize_eq (hn : n + W ≤ 2 ^ 32) : sbitmapSetSize W n = (n + W - 1) / W := by
  rw [sbitmapSetSize, Nat.mod_eq_of_lt (by omega)]

/-- The words of a bitmap with a partial last word. Source: `sbitmap.h` `SBITMAP_SET_SIZE`. Kind: L -/
theorem sbitmapSetSize_partial (hW : 0 < W) (hn : n + W ≤ 2 ^ 32) (hpart : n % W ≠ 0) : sbitmapSetSize W n = n / W + 1 := by
  have hdm := Nat.div_add_mod n W
  have hmod := Nat.mod_lt n hW
  rw [sbitmapSetSize_eq hn]
  refine Nat.div_eq_of_lt_le ?_ ?_
  · rw [Nat.succ_mul, Nat.mul_comm]
    omega
  · rw [Nat.succ_mul, Nat.succ_mul, Nat.mul_comm]
    omega

/-- The low bits of a word. Source: `sbitmap.c` `sbitmap_resize` (`(SBITMAP_ELT_TYPE) -1 >> ...`). Kind: L -/
theorem getLsbD_lowMask {r : ℕ} (hr : r ≤ W) (k : ℕ) : (BitVec.allOnes W >>> (W - r)).getLsbD k = decide (k < r) := by
  rw [BitVec.getLsbD_ushiftRight, BitVec.getLsbD_allOnes]
  exact decide_eq_decide.mpr (by omega)

/-- Fewer words, the last of which is counted again if it changes. Source: `sbitmap.c` `sbitmap_resize`. Kind: L -/
theorem CountsRight.shrink (h : CountsRight s) (hle : sbitmapSetSize W n ≤ s.size) : CountsRight (sbitmapShrink s n) := by
  unfold sbitmapShrink
  dsimp only
  split_ifs with hfull
  · exact fun cnt hcnt ix hix => h cnt hcnt ix (lt_of_lt_of_le hix hle)
  · intro cnt hcnt ix hix
    obtain ⟨old, hold, rfl⟩ := Option.map_eq_some_iff.mp hcnt
    dsimp only at hix ⊢
    by_cases hlast : ix = sbitmapSetSize W n - 1
    · rw [hlast, Function.update_self, Function.update_self]
    · rw [Function.update_of_ne hlast, Function.update_of_ne hlast]
      exact h old hold ix (by omega)

/-- **Fewer bits.** Source: `sbitmap.c` `sbitmap_resize`. Kind: L -/
theorem shrink_spec (hW : 0 < W) (h : WellFormed s) (hn : n ≤ s.nBits) (hn' : n + W ≤ 2 ^ 32) :
    WellFormed (sbitmapShrink s n) ∧ ∀ i < n, (sbitmapShrink s n).testBit i = s.testBit i := by
  have hsize := sbitmapSetSize_eq hn'
  have hle : sbitmapSetSize W n ≤ s.size := by
    rw [hsize, h.size_eq]
    exact Nat.div_le_div_right (by omega)
  have hdm := Nat.div_add_mod n W
  have hmod := Nat.mod_lt n hW
  have hcounts := CountsRight.shrink h.counts hle
  unfold sbitmapShrink at hcounts ⊢
  dsimp only at hcounts ⊢
  split_ifs at hcounts ⊢ with hfull
  · have hlast : (n + W - 1) / W = n / W := by
      refine Nat.div_eq_of_lt_le ?_ ?_
      · rw [Nat.mul_comm]
        omega
      · rw [Nat.succ_mul, Nat.mul_comm]
        omega
    have hexact : sbitmapSetSize W n * W = n := by
      rw [hsize, hlast, Nat.mul_comm]
      omega
    exact ⟨⟨hsize, fun i hi hlt => absurd hlt (by dsimp only at hi ⊢; omega), hcounts⟩, fun i _ => rfl⟩
  · have hlast := sbitmapSetSize_partial hW hn' hfull
    rw [hlast, Nat.add_sub_cancel] at hcounts ⊢
    have hbit : ∀ i, i / W = n / W →
        (s.elms (n / W) &&& (BitVec.allOnes W >>> (W - n % W))).getLsbD (i % W) = (s.testBit i && decide (i % W < n % W)) := by
      intro i hi
      rw [BitVec.getLsbD_and, getLsbD_lowMask hmod.le, SimpleBitmap.testBit, hi]
    refine ⟨⟨hlast ▸ hsize, fun i hi hlt => ?_, hcounts⟩, fun i hi => ?_⟩
    · have hdiv : i / W = n / W := by
        refine le_antisymm (Nat.le_of_lt_succ ((Nat.div_lt_iff_lt_mul hW).mpr hlt)) (Nat.div_le_div_right hi)
      have hdm' := Nat.div_add_mod i W
      rw [hdiv] at hdm'
      change (Function.update s.elms (n / W) _ (i / W)).getLsbD (i % W) = false
      rw [hdiv, Function.update_self, hbit i hdiv, decide_eq_false (by dsimp only at hi; omega), Bool.and_false]
    · change (Function.update s.elms (n / W) _ (i / W)).getLsbD (i % W) = _
      by_cases hdiv : i / W = n / W
      · have hdm' := Nat.div_add_mod i W
        rw [hdiv] at hdm'
        rw [hdiv, Function.update_self, hbit i hdiv, decide_eq_true (by omega), Bool.and_true]
      · rw [Function.update_of_ne hdiv]
        rfl

/-- **Resizing** keeps the bits that are in both sizes, and new bits are clear.
Source: `sbitmap.c` `sbitmap_resize`
Kind: L -/
theorem sbitmapResize_spec (hW : 0 < W) (h : WellFormed s) (hn : n + W ≤ 2 ^ 32) :
    WellFormed (sbitmapResize s n) ∧ (sbitmapResize s n).nBits = n ∧
      (sbitmapResize s n).popcount.isSome = s.popcount.isSome ∧
      ∀ i < n, (sbitmapResize s n).testBit i = s.has i := by
  unfold sbitmapResize SimpleBitmap.has
  split_ifs with hgrow hshrink
  · obtain ⟨hwf, hold, hnew⟩ := grow_spec hW h hgrow.le hn
    refine ⟨hwf, rfl, Option.isSome_map, fun i hi => ?_⟩
    by_cases hlt : i < s.nBits
    · rw [hold i hlt, decide_eq_true hlt, Bool.true_and]
    · rw [hnew i (not_lt.mp hlt) hi, decide_eq_false hlt, Bool.false_and]
  · obtain ⟨hwf, hold⟩ := shrink_spec hW h hshrink.le hn
    refine ⟨hwf, ?_, ?_, fun i hi => ?_⟩
    · unfold sbitmapShrink
      dsimp only
      split_ifs <;> rfl
    · unfold sbitmapShrink
      dsimp only
      split_ifs
      · rfl
      · exact Option.isSome_map
    · rw [hold i hi, decide_eq_true (hi.trans hshrink), Bool.true_and]
  · obtain rfl : n = s.nBits := by omega
    have hsize : sbitmapSetSize W s.nBits = s.size := (sbitmapSetSize_eq hn).trans h.size_eq.symm
    rw [hsize]
    refine ⟨h, rfl, rfl, fun i hi => ?_⟩
    rw [decide_eq_true hi, Bool.true_and]

/-- **Clearing** all bits of memory that may hold anything. Source: `sbitmap.c` `sbitmap_zero`. Kind: L -/
theorem sbitmapZero_spec (hW : 0 < W) (hsize : s.size = (s.nBits + W - 1) / W) :
    WellFormed (sbitmapZero s) ∧ (sbitmapZero s).popcount.isSome = s.popcount.isSome ∧
      ∀ i < s.size * W, (sbitmapZero s).testBit i = false := by
  have hbits : ∀ i < s.size * W, (sbitmapZero s).testBit i = false := by
    intro i hi
    have hword : (sbitmapZero s).elms (i / W) = 0#W := if_pos ((Nat.div_lt_iff_lt_mul hW).mpr hi)
    rw [SimpleBitmap.testBit, hword, BitVec.getLsbD_zero]
  exact ⟨⟨hsize, fun i _ hi => hbits i hi, countsRight_zero s⟩, Option.isSome_map, hbits⟩

/-- **Copies** carry the counts of the words they copy. Source: `sbitmap.c` `sbitmap_copy_n`. Kind: L -/
theorem CountsRight.copyN {s' : SimpleBitmap W} (ha : CountsRight a)
    (h : ∀ cnt, s.popcount = some cnt → ∀ ix, n ≤ ix → ix < s.size → cnt ix = doPopcount (s.elms ix))
    (hs' : sbitmapCopyN s a n = some s') : CountsRight s' := by
  unfold sbitmapCopyN at hs'
  split_ifs at hs' with hle
  cases hs : s.popcount with
  | none =>
    rw [hs] at hs'
    obtain rfl := Option.some.inj hs'
    exact fun cnt hcnt => absurd hcnt (Option.some_ne_none cnt).symm
  | some cnt =>
    rw [hs] at hs'
    cases hpop : a.popcount with
    | none =>
      rw [hpop] at hs'
      exact absurd hs' (Option.some_ne_none s').symm
    | some cnt' =>
      rw [hpop] at hs'
      obtain rfl := Option.some.inj hs'
      intro c hc ix hix
      obtain rfl := Option.some.inj hc
      dsimp only
      split_ifs with hin
      · exact ha cnt' hpop ix (hin.trans_le hle.2)
      · exact h cnt hs ix (not_lt.mp hin) hix

/-- **The words of another bitmap are copied** into one that is clear. Source: `sbitmap.c` `sbitmap_copy_n`. Kind: L -/
theorem sbitmapCopyN_spec (hW : 0 < W) (h : WellFormed s) (hzero : ∀ i < s.size * W, s.testBit i = false) (ha : WellFormed a)
    (hle : a.nBits ≤ s.nBits) (hcnt : s.popcount.isSome → a.popcount.isSome) :
    ∃ s', sbitmapCopyN s a a.size = some s' ∧ WellFormed s' ∧ s'.nBits = s.nBits ∧ s'.size = s.size ∧
      s'.popcount.isSome = s.popcount.isSome ∧ ∀ i < s.size * W, s'.testBit i = a.has i := by
  have hsize := ha.size_le h hle
  -- whatever the counts are, these are the words
  have hbits : ∀ i < s.size * W,
      ((if i / W < a.size then a.elms (i / W) else s.elms (i / W)) : BitVec W).getLsbD (i % W) = a.has i := by
    intro i hi
    split_ifs with hin
    · exact ha.testBit_eq_has ((Nat.div_lt_iff_lt_mul hW).mp hin)
    · have hge : ¬ i < a.nBits := fun hc => hin ((Nat.div_lt_iff_lt_mul hW).mpr (hc.trans_le (ha.cover hW)))
      rw [SimpleBitmap.has, decide_eq_false hge, Bool.false_and]
      exact hzero i hi
  have htail : ∀ i, s.nBits ≤ i → i < s.size * W →
      ((if i / W < a.size then a.elms (i / W) else s.elms (i / W)) : BitVec W).getLsbD (i % W) = false := by
    intro i hi hlt
    rw [hbits i hlt, SimpleBitmap.has, decide_eq_false (by omega), Bool.false_and]
  unfold sbitmapCopyN
  rw [if_pos ⟨hsize, le_rfl⟩]
  cases hs : s.popcount with
  | none =>
    exact ⟨_, rfl, ⟨h.size_eq, htail, fun cnt hc => absurd hc (Option.some_ne_none cnt).symm⟩, rfl, rfl, rfl, hbits⟩
  | some cnt =>
    obtain ⟨cnt', hcnt'⟩ := Option.isSome_iff_exists.mp (hcnt (by rw [hs]; rfl))
    rw [hcnt']
    refine ⟨_, rfl, ⟨h.size_eq, htail, fun c hc ix hix => ?_⟩, rfl, rfl, rfl, hbits⟩
    obtain rfl := Option.some.inj hc
    dsimp only
    split_ifs with hin
    · exact ha.counts cnt' hcnt' ix hin
    · exact h.counts cnt hs ix hix

/-- **All words of a bitmap are copied** into one of the same size, whatever that holds. Source: `sbitmap.c` `sbitmap_copy`. Kind: L -/
theorem sbitmapCopy_spec (hW : 0 < W) (hsize : s.size = (s.nBits + W - 1) / W) (ha : WellFormed a) (hn : s.nBits = a.nBits)
    (hs : s.popcount.isSome = true) (hcnt : a.popcount.isSome = true) :
    ∃ s', sbitmapCopy s a = some s' ∧ WellFormed s' ∧ s'.nBits = a.nBits ∧ s'.popcount.isSome = true ∧
      ∀ i < a.nBits, s'.testBit i = a.testBit i := by
  have hsz : s.size = a.size := by rw [hsize, hn, ha.size_eq]
  obtain ⟨cnt, hcnt0⟩ := Option.isSome_iff_exists.mp hs
  obtain ⟨cnt', hcnt'⟩ := Option.isSome_iff_exists.mp hcnt
  have hbits : ∀ i < s.size * W,
      ((if i / W < s.size then a.elms (i / W) else s.elms (i / W)) : BitVec W).getLsbD (i % W) = a.testBit i := by
    intro i hi
    rw [if_pos ((Nat.div_lt_iff_lt_mul hW).mpr hi)]
    rfl
  unfold sbitmapCopy sbitmapCopyN
  rw [if_pos ⟨le_rfl, hsz.le⟩, hcnt0, hcnt']
  refine ⟨_, rfl, ⟨hsize, fun i hi hlt => (hbits i hlt).trans (ha.tail i (hn ▸ hi) (hsz ▸ hlt)), fun c hc ix hix => ?_⟩, hn, rfl,
    fun i hi => hbits i (hi.trans_le (hsz ▸ ha.cover hW))⟩
  obtain rfl := Option.some.inj hc
  have hix' : ix < s.size := hix
  dsimp only
  rw [if_pos hix', if_pos hix']
  exact ha.counts cnt' hcnt' ix (hsz ▸ hix')

/-- **Word by word**, each word that changes is counted. Source: `sbitmap.c` `sbitmap_a_and_b`, `sbitmap_a_or_b`. Kind: L -/
theorem CountsRight.zip {f : BitVec W → BitVec W → BitVec W} {s' : SimpleBitmap W} (h : CountsRight s)
    (hs' : sbitmapZip f s a b = some s') : CountsRight s' := by
  unfold sbitmapZip at hs'
  split_ifs at hs'
  obtain rfl := Option.some.inj hs'
  intro cnt hcnt ix hix
  obtain ⟨old, hold, rfl⟩ := Option.map_eq_some_iff.mp hcnt
  dsimp only at hix ⊢
  rw [if_pos hix]
  split_ifs with hchange
  · rfl
  · have hsame : s.elms ix = f (a.elms ix) (b.elms ix) := by
      by_contra hne
      exact hchange ⟨hix, hne⟩
    rw [← hsame]
    exact h old hold ix hix

/-- **Word by word.** Source: `sbitmap.c` `sbitmap_a_and_b`, `sbitmap_a_or_b`. Kind: L -/
theorem sbitmapZip_spec (hW : 0 < W) {f : BitVec W → BitVec W → BitVec W} {g : Bool → Bool → Bool}
    (hf : ∀ x y i, (f x y).getLsbD i = g (x.getLsbD i) (y.getLsbD i)) (h : WellFormed s)
    (ha : s.size ≤ a.size) (hb : s.size ≤ b.size)
    (htail : ∀ i, s.nBits ≤ i → i < s.size * W → g (a.testBit i) (b.testBit i) = false) :
    ∃ s', sbitmapZip f s a b = some s' ∧ WellFormed s' ∧ s'.nBits = s.nBits ∧ s'.size = s.size ∧
      s'.popcount.isSome = s.popcount.isSome ∧ ∀ i < s.size * W, s'.testBit i = g (a.testBit i) (b.testBit i) := by
  have hbits : ∀ i < s.size * W,
      ((if i / W < s.size then f (a.elms (i / W)) (b.elms (i / W)) else s.elms (i / W)) : BitVec W).getLsbD (i % W) =
        g (a.testBit i) (b.testBit i) := by
    intro i hi
    rw [if_pos ((Nat.div_lt_iff_lt_mul hW).mpr hi), hf]
    rfl
  obtain ⟨s', hs'⟩ : ∃ s', sbitmapZip f s a b = some s' := ⟨_, if_pos ⟨ha, hb⟩⟩
  have hcounts := CountsRight.zip h.counts hs'
  unfold sbitmapZip at hs' ⊢
  rw [if_pos ⟨ha, hb⟩] at hs' ⊢
  obtain rfl := Option.some.inj hs'
  exact ⟨_, rfl, ⟨h.size_eq, fun i hi hlt => (hbits i hlt).trans (htail i hi hlt), hcounts⟩, rfl, rfl,
    Option.isSome_map, hbits⟩

end Specs

end GccCore.Gcc.Sbitmap
