import GccCore.Gcc.Ebitmap.Operands

/-!
# `gcc/ebitmap.h`: the iterator of bitmaps with an array of nonzero words

One iterator goes over the mask and another over the array, and they have to start at the same word.

* **The words that are read** (`readWord`): those of the bitmap, or, if the start is in a word that is absent, those that stand
  in the array before them, as many places as there are words below the start.
* **The loop** (`visits_iff`) visits the bits of these words, in increasing order.
* **When these are the bits of the bitmap** (`executeIfSetInEbitmap_iff`).
-/

namespace GccCore.Gcc.Ebitmap

open GccCore.Gcc.Sbitmap GccCore.Lib.BitScan

variable {W : ℕ}

/-! ## The code -/

/-- The iterator; its pointer to the words is the array of the bitmap. Source: `ebitmap.h` `ebitmap_iterator`. -/
structure EbitmapIterator (W : ℕ) where
  eltnum : ℕ
  size : ℕ
  bitNum : ℕ
  word : BitVec W
  maskiter : SbitmapIterator W

/-- Source: `ebitmap.h` `ebitmap_iter_init`. -/
def ebitmapIterInit (bmp : EbitmapDef W) (min : ℕ) : EbitmapIterator W :=
  let maskiter := sbitmapIterInit bmp.wordmask (min / W)
  if bmp.numwords = 0 then ⟨0, bmp.numwords, 0, 0#W, maskiter⟩
  else if min / W ≥ bmp.wordmask.nBits then ⟨0, bmp.numwords, min, 0#W, maskiter⟩
  else if bmp.wordmask.testBit (min / W) = false then ⟨0, bmp.numwords, min, 0#W, maskiter⟩
  else
    let count := sbitmapPopcount bmp.wordmask (min / W)
    ⟨count + 1, bmp.numwords, min, bmp.elts count >>> (min % W), maskiter⟩

/-- `i->word` is loaded from the array if it is used up; `none` at the end.
Source: `ebitmap.h` `ebitmap_iter_cond` (`if (i->word == 0)`) -/
def loadWord (bmp : EbitmapDef W) (i : EbitmapIterator W) : Option (Option (EbitmapIterator W)) :=
  if i.word = 0#W then
    match sbitmapIterCond bmp.wordmask.elms (sbitmapIterNext i.maskiter) with
    | none => none
    | some none => some none
    | some (some (ourn, maskiter)) =>
      some (some { i with
        maskiter := maskiter
        bitNum := ourn * W
        word := bmp.elts i.eltnum
        eltnum := i.eltnum + 1 })
  else some (some i)

/-- The next set bit, or `none` at the end; no answer if the loop over the bits of the word does not end.
Source: `ebitmap.h` `ebitmap_iter_cond` -/
def ebitmapIterCond (bmp : EbitmapDef W) (i : EbitmapIterator W) : Option (Option (ℕ × EbitmapIterator W)) :=
  if i.size = 0 then some none
  else
    match loadWord bmp i with
    | none => none
    | some none => some none
    | some (some i) =>
      match skipZeros i.word i.bitNum with
      | none => none
      | some (word, bitNum) => some (some (bitNum, { i with word := word, bitNum := bitNum }))

/-- Source: `ebitmap.h` `ebitmap_iter_next`. -/
def ebitmapIterNext (i : EbitmapIterator W) : EbitmapIterator W :=
  { i with word := i.word >>> 1, bitNum := i.bitNum + 1 }

/-- `EXECUTE_IF_SET_IN_EBITMAP (bmp, min, n, iter) body`. Source: `ebitmap.h` `EXECUTE_IF_SET_IN_EBITMAP`. -/
def executeIfSetInEbitmap {β ε : Type} (bmp : EbitmapDef W) (body : ℕ → β → Except ε β) (fuel min : ℕ) (b : β) :
    Option (Except ε β) :=
  scan (fun i _ => ebitmapIterCond bmp i) ebitmapIterNext body fuel (ebitmapIterInit bmp min) b

/-! ## The words that are read -/

section Words

variable {bmp : EbitmapDef W} {val : ℕ → BitVec W} {d m w p q : ℕ} {i : EbitmapIterator W}

/-- The words that the iterator reads if it starts in word `m` and its place in the array is `d` behind. -/
def readWord (bmp : EbitmapDef W) (val : ℕ → BitVec W) (d m w : ℕ) : BitVec W :=
  if m < w ∧ val w ≠ 0#W then bmp.elts (place val w - d) else val w

/-- The bits of these words. -/
def readBit (bmp : EbitmapDef W) (val : ℕ → BitVec W) (d m b : ℕ) : Bool := (readWord bmp val d m (b / W)).getLsbD (b % W)

/-- **The iterator looks at bit `p` next**, in the word `w`. -/
structure Reads (bmp : EbitmapDef W) (val : ℕ → BitVec W) (d m w : ℕ) (i : EbitmapIterator W) (p : ℕ) : Prop where
  size : i.size ≠ 0
  start : m ≤ w
  low : w * W ≤ p
  high : p ≤ (w + 1) * W
  bitNum : i.word ≠ 0#W → i.bitNum = p
  word : ∀ k, i.word.getLsbD k = true ↔ p + k < (w + 1) * W ∧ readBit bmp val d m (p + k) = true
  eltnum : i.eltnum + d = place val (w + 1)
  maskiter : At (sbitmapIterNext i.maskiter) bmp.wordmask (w + 1)

theorem readBit_eq (hW : 0 < W) (hlo : w * W ≤ p) (hhi : p < (w + 1) * W) :
    readBit bmp val d m p = (readWord bmp val d m w).getLsbD (p - w * W) := by
  have hdiv : p / W = w := by
    rw [Nat.div_eq_iff hW]
    rw [Nat.succ_mul] at hhi
    omega
  have hmod : p % W = p - w * W := by
    rw [Nat.mod_eq_sub_mul_div, hdiv, Nat.mul_comm]
  rw [readBit, hdiv, hmod]

/-- The bits of the mask are the nonzero words. -/
theorem Stored.ones_eq (hW : 0 < W) (h : Stored bmp val) :
    ones bmp.wordmask.testBit p (bmp.wordmask.size * W) = ones (fun w => decide (val w ≠ 0#W)) p bmp.wordmask.nBits := by
  have hcover : bmp.wordmask.nBits ≤ bmp.wordmask.size * W := by
    have hdm := Nat.div_add_mod (bmp.wordmask.nBits + W - 1) W
    have hmod := Nat.mod_lt (bmp.wordmask.nBits + W - 1) hW
    rw [← h.mask.size_eq, Nat.mul_comm] at hdm
    omega
  rw [ones_trim hcover h.mask.tail]
  refine ones_congr fun w _ hlt => ?_
  rw [Bool.eq_iff_iff, h.present w hlt, decide_eq_true_iff]

/-- **A used-up word** is followed by the next nonzero one, read from the array.
Source: `ebitmap.h` `ebitmap_iter_cond` (`i->word = i->ptr[i->eltnum++]`)
Kind: L -/
theorem Reads.load (hW : 0 < W) (h : Stored bmp val) (hread : Reads bmp val d m w i p) (hzero : i.word = 0#W) :
    (loadWord bmp i = some none ∧ ∀ u > w, val u = 0#W) ∨
      ∃ i' w', loadWord bmp i = some (some i') ∧ w < w' ∧ (∀ u, w < u → u < w' → val u = 0#W) ∧
        Reads bmp val d m w' i' (w' * W) ∧ i'.word = readWord bmp val d m w' ∧ val w' ≠ 0#W := by
  unfold loadWord
  rw [if_pos hzero]
  have hones := h.ones_eq hW (p := w + 1)
  cases hlist : ones (fun w => decide (val w ≠ 0#W)) (w + 1) bmp.wordmask.nBits with
  | nil =>
    rw [sbitmapIterCond_none hW hread.maskiter (hones.trans hlist)]
    refine Or.inl ⟨rfl, fun u hu => ?_⟩
    by_contra hne
    exact of_decide_eq_false (ones_eq_nil hlist hu (h.lt_nBits hne)) hne
  | cons w' rest =>
    obtain ⟨mi, hcond, hat, hlt⟩ := sbitmapIterCond_some hW hread.maskiter (hones.trans hlist)
    rw [hcond]
    obtain ⟨hw', hset, hclear, -⟩ := ones_eq_cons hlist
    have hne : val w' ≠ 0#W := of_decide_eq_true hset
    have hbetween : ∀ u, w < u → u < w' → val u = 0#W := by
      intro u hu hlt
      exact not_not.mp (of_decide_eq_false (hclear u hu hlt))
    have hplace : place val w' = i.eltnum + d := by
      rw [hread.eltnum]
      exact place_eq_of_zero hw'.1 fun u hu hlt => hbetween u hu hlt
    have hstart := hread.start
    have hword : bmp.elts i.eltnum = readWord bmp val d m w' := by
      unfold readWord
      rw [if_pos ⟨by omega, hne⟩, hplace, Nat.add_sub_cancel]
    refine Or.inr ⟨_, w', rfl, by omega, hbetween, ⟨hread.size, by omega, le_rfl, Nat.mul_le_mul_right W (Nat.le_succ w'),
      fun _ => rfl, fun k => ?_, ?_, hat.next hlt⟩, hword, hne⟩
    · dsimp only
      rw [hword]
      constructor
      · intro hset
        have hk := BitVec.lt_of_getLsbD hset
        have hin : w' * W + k < (w' + 1) * W := by
          rw [Nat.succ_mul]
          omega
        refine ⟨hin, ?_⟩
        rwa [readBit_eq hW (Nat.le_add_right _ _) hin, Nat.add_sub_cancel_left]
      · rintro ⟨hin, hset⟩
        rwa [readBit_eq hW (Nat.le_add_right _ _) hin, Nat.add_sub_cancel_left] at hset
    · dsimp only
      rw [place_succ hne, hplace]
      omega

/-! ## The next bit -/

/-- A word that is not used up is shifted to its lowest bit. Source: `ebitmap.h` `ebitmap_iter_cond`. Kind: L -/
theorem Reads.lowest (hread : Reads bmp val d m w i p) (hne : i.word ≠ 0#W) :
    ∃ j word', skipZeros i.word i.bitNum = some (word', p + j) ∧ p + j < (w + 1) * W ∧
      readBit bmp val d m (p + j) = true ∧ (∀ b, p ≤ b → b < p + j → readBit bmp val d m b = false) ∧
      Reads bmp val d m w (ebitmapIterNext { i with word := word', bitNum := p + j }) (p + j + 1) := by
  obtain ⟨j, hset, hclear⟩ := exists_lowest hne
  obtain ⟨hlt, hbit⟩ := (hread.word j).mp hset
  refine ⟨j, i.word >>> j, ?_, hlt, hbit, fun b hb hbj => ?_, ?_⟩
  · rw [skipZeros_spec hset hclear, hread.bitNum hne]
  · have hword := hread.word (b - p)
    rw [hclear (b - p) (by omega), Nat.add_sub_cancel' hb] at hword
    exact Bool.eq_false_iff.mpr fun hc => Bool.false_ne_true (hword.mpr ⟨by omega, hc⟩)
  · have hlow := hread.low
    refine ⟨hread.size, hread.start, by omega, hlt, fun _ => rfl, fun k => ?_, hread.eltnum, hread.maskiter⟩
    change ((i.word >>> j) >>> 1).getLsbD k = true ↔ _
    rw [BitVec.getLsbD_ushiftRight, BitVec.getLsbD_ushiftRight, hread.word,
      show p + (j + (1 + k)) = p + j + 1 + k by omega]

/-- Words that are zero have no bits. -/
theorem readBit_of_zero {b : ℕ} (hzero : val (b / W) = 0#W) : readBit bmp val d m b = false := by
  unfold readBit readWord
  rw [if_neg fun hc => hc.2 hzero, hzero, BitVec.getLsbD_zero]

/-- A word that is used up has no more bits. -/
theorem Reads.clear (hread : Reads bmp val d m w i p) (hzero : i.word = 0#W) {b : ℕ} (hp : p ≤ b)
    (hb : b < (w + 1) * W) : readBit bmp val d m b = false := by
  have hword := hread.word (b - p)
  rw [hzero, BitVec.getLsbD_zero, Nat.add_sub_cancel' hp] at hword
  exact Bool.eq_false_iff.mpr fun hc => Bool.false_ne_true (hword.mpr ⟨hb, hc⟩)

theorem Stored.readWord_ne_zero (h : Stored bmp val) (hne : val w ≠ 0#W) : readWord bmp val d m w ≠ 0#W := by
  unfold readWord
  split_ifs
  · exact h.elts_ne_zero ((Nat.sub_le _ _).trans_lt (h.place_lt hne))
  · exact hne

/-- **The next bit that is visited**, or the end. Source: `ebitmap.h` `ebitmap_iter_cond`. Kind: L -/
theorem Reads.cond (hW : 0 < W) (h : Stored bmp val) (hread : Reads bmp val d m w i p) :
    (ebitmapIterCond bmp i = some none ∧ ∀ b ≥ p, readBit bmp val d m b = false) ∨
      ∃ q i' w', ebitmapIterCond bmp i = some (some (q, i')) ∧ p ≤ q ∧ readBit bmp val d m q = true ∧
        (∀ b, p ≤ b → b < q → readBit bmp val d m b = false) ∧ Reads bmp val d m w' (ebitmapIterNext i') (q + 1) := by
  unfold ebitmapIterCond
  rw [if_neg hread.size]
  by_cases hzero : i.word = 0#W
  · rcases hread.load hW h hzero with ⟨hload, hnone⟩ | ⟨i', w', hload, hlt, hbetween, hread', hword, hne⟩
    · rw [hload]
      refine Or.inl ⟨rfl, fun b hb => ?_⟩
      by_cases hin : b < (w + 1) * W
      · exact hread.clear hzero hb hin
      · refine readBit_of_zero (hnone _ ?_)
        exact (Nat.le_div_iff_mul_le hW).mpr (not_lt.mp hin)
    · have hne' : i'.word ≠ 0#W := by
        rw [hword]
        exact h.readWord_ne_zero hne
      obtain ⟨j, word', hskip, -, hset, hclear, hnext⟩ := hread'.lowest hne'
      rw [hload]
      dsimp only
      rw [hskip]
      have hmono : (w + 1) * W ≤ w' * W := Nat.mul_le_mul_right W hlt
      have hhigh := hread.high
      refine Or.inr ⟨_, _, w', rfl, by omega, hset, fun b hb hbq => ?_, hnext⟩
      by_cases hin : b < (w + 1) * W
      · exact hread.clear hzero hb hin
      · by_cases hin' : b < w' * W
        · refine readBit_of_zero (hbetween _ ((Nat.le_div_iff_mul_le hW).mpr (not_lt.mp hin)) ?_)
          exact (Nat.div_lt_iff_lt_mul hW).mpr hin'
        · exact hclear b (not_lt.mp hin') hbq
  · obtain ⟨j, word', hskip, -, hset, hclear, hnext⟩ := hread.lowest hzero
    have hload : loadWord bmp i = some (some i) := if_neg hzero
    rw [hload]
    dsimp only
    rw [hskip]
    exact Or.inr ⟨_, _, w, rfl, Nat.le_add_right _ _, hset, hclear, hnext⟩

end Words

/-! ## The loop -/

section Loop

variable {bmp : EbitmapDef W} {val : ℕ → BitVec W} {S : Finset ℕ}

/-- How far the place in the array is behind if the iterator starts in word `m`: the words below are not counted if this one is
absent.
Source: `ebitmap.h` `ebitmap_iter_init` (`i->eltnum = 0`) -/
def startLag (val : ℕ → BitVec W) (m : ℕ) : ℕ := if val m = 0#W then place val m else 0

/-- **At the start.** Source: `ebitmap.h` `ebitmap_iter_init`. Kind: L -/
theorem reads_init (hW : 0 < W) (h : Stored bmp val) (hsize : bmp.numwords ≠ 0) (min : ℕ) :
    Reads bmp val (startLag val (min / W)) (min / W) (min / W) (ebitmapIterInit bmp min) min := by
  have hdm := Nat.div_add_mod min W
  have hmod := Nat.mod_lt min hW
  rw [Nat.mul_comm] at hdm
  have hself : readWord bmp val (startLag val (min / W)) (min / W) (min / W) = val (min / W) :=
    if_neg fun hc => lt_irrefl _ hc.1
  have hmask : At (sbitmapIterNext (sbitmapIterInit bmp.wordmask (min / W))) bmp.wordmask (min / W + 1) := by
    refine (at_init hW bmp.wordmask (min / W)).next ?_
    change min / W < (min / W / W + 1) * W
    rw [← Nat.div_lt_iff_lt_mul hW]
    exact Nat.lt_succ_self _
  have hlow : min / W * W ≤ min := by omega
  have hhigh : min < (min / W + 1) * W := by
    rw [Nat.succ_mul]
    omega
  by_cases hzero : val (min / W) = 0#W
  · have hinit : ebitmapIterInit bmp min =
        ⟨0, bmp.numwords, min, 0#W, sbitmapIterInit bmp.wordmask (min / W)⟩ := by
      unfold ebitmapIterInit
      dsimp only
      rw [if_neg hsize]
      split_ifs with hge habsent
      · rfl
      · rfl
      · exact absurd hzero ((h.present _ (not_le.mp hge)).mp (Bool.of_not_eq_false habsent))
    rw [hinit]
    refine ⟨hsize, le_rfl, hlow, hhigh.le, fun hc => absurd rfl hc, fun k => ?_, ?_, hmask⟩
    · rw [BitVec.getLsbD_zero]
      refine iff_of_false Bool.false_ne_true fun ⟨hin, hset⟩ => ?_
      rw [readBit_eq hW (by omega) hin, hself, hzero, BitVec.getLsbD_zero] at hset
      cases hset
    · unfold startLag
      rw [if_pos hzero, place_succ_zero hzero]
      exact Nat.zero_add _
  · have hlt := h.lt_nBits hzero
    have hinit : ebitmapIterInit bmp min = ⟨place val (min / W) + 1, bmp.numwords, min, val (min / W) >>> (min % W),
        sbitmapIterInit bmp.wordmask (min / W)⟩ := by
      unfold ebitmapIterInit
      dsimp only
      rw [if_neg hsize, if_neg (not_le.mpr hlt), if_neg fun hc => Bool.false_ne_true (hc.symm.trans ((h.present _ hlt).mpr hzero)),
        h.popcount_eq hW hlt.le, h.word _ hzero]
    rw [hinit]
    refine ⟨hsize, le_rfl, hlow, hhigh.le, fun _ => rfl, fun k => ?_, ?_, hmask⟩
    · dsimp only
      rw [BitVec.getLsbD_ushiftRight]
      constructor
      · intro hset
        have hk := BitVec.lt_of_getLsbD hset
        have hin : min + k < (min / W + 1) * W := by
          rw [Nat.succ_mul]
          omega
        refine ⟨hin, ?_⟩
        rwa [readBit_eq hW (by omega) hin, hself, show min + k - min / W * W = min % W + k by omega]
      · rintro ⟨hin, hset⟩
        rwa [readBit_eq hW (by omega) hin, hself, show min + k - min / W * W = min % W + k by omega] at hset
    · unfold startLag
      rw [if_neg hzero, place_succ hzero]

/-- **The loop** runs its body for the bits that the iterator reads, in increasing order.
Source: `ebitmap.h` `EXECUTE_IF_SET_IN_EBITMAP`
Kind: L -/
theorem executeIfSetInEbitmap_eq (hW : 0 < W) (h : Stored bmp val) {β ε : Type} (body : ℕ → β → Except ε β) (min : ℕ)
    (b : β) {fuel : ℕ} (hfuel : bmp.wordmask.nBits * W < fuel) :
    executeIfSetInEbitmap bmp body fuel min b =
      some ((ones (readBit bmp val (startLag val (min / W)) (min / W)) min (bmp.wordmask.nBits * W)).foldlM
        (fun b i => body i b) b) := by
  set d := startLag val (min / W)
  set m := min / W
  have hlast : ∀ q, readBit bmp val d m q = true → q < bmp.wordmask.nBits * W := by
    intro q hset
    by_contra hge
    rw [readBit_of_zero (h.beyond _ ((Nat.le_div_iff_mul_le hW).mpr (not_lt.mp hge)))] at hset
    cases hset
  by_cases hsize : bmp.numwords = 0
  · have hzero : ∀ q, readBit bmp val d m q = false := by
      intro q
      refine readBit_of_zero ?_
      by_contra hne
      have := h.place_lt hne
      omega
    have hnil : ones (readBit bmp val d m) min (bmp.wordmask.nBits * W) = [] := by
      rw [ones_skip (Nat.le_max_left min (bmp.wordmask.nBits * W)) fun q _ _ => hzero q]
      exact ones_of_ge (Nat.le_max_right _ _)
    obtain ⟨fuel, rfl⟩ := Nat.exists_eq_add_of_le' (by omega : 1 ≤ fuel)
    rw [hnil]
    unfold executeIfSetInEbitmap scan ebitmapIterCond
    have hinit : (ebitmapIterInit bmp min).size = 0 := by
      unfold ebitmapIterInit
      dsimp only
      rw [if_pos hsize]
      exact hsize
    rw [if_pos hinit]
    rfl
  · have hlen : (ones (readBit bmp val d m) min (bmp.wordmask.nBits * W)).length ≤ bmp.wordmask.nBits * W := by
      refine (List.length_filter_le _ _).trans ?_
      rw [List.length_range']
      omega
    refine scan_eq (fun _ => readBit bmp val d m) (bmp.wordmask.nBits * W)
      (fun i _ p => ∃ w, Reads bmp val d m w i p) ?_ ?_ ⟨m, reads_init hW h hsize min⟩ (hlen.trans_lt hfuel)
    · rintro i b' p ⟨w, hread⟩ hnone
      rcases hread.cond hW h with ⟨hcond, -⟩ | ⟨q, i', w', -, hle, hset, -, -⟩
      · exact hcond
      · rw [ones_eq_nil hnone hle (hlast q hset)] at hset
        cases hset
    · rintro i b' p q rest ⟨w, hread⟩ hsome
      obtain ⟨⟨hle, hlt⟩, hset, hclear, -⟩ := ones_eq_cons hsome
      rcases hread.cond hW h with ⟨-, hzero⟩ | ⟨q', i', w', hcond, hle', hset', hclear', hnext⟩
      · rw [hzero q hle] at hset
        cases hset
      · obtain rfl : q' = q := by
          rcases lt_trichotomy q' q with hlt' | heq | hgt
          · rw [hclear q' hle' hlt'] at hset'
            cases hset'
          · exact heq
          · rw [hclear' q hle hgt] at hset
            cases hset
        exact ⟨i', hcond, fun b'' _ => ⟨⟨w', hnext⟩, fun _ _ => rfl⟩⟩

/-- The loop visits these bits, in this order: its body puts each bit at the end of a list.
Source: `ebitmap.h` `EXECUTE_IF_SET_IN_EBITMAP` -/
def Visits (bmp : EbitmapDef W) (min : ℕ) (bits : List ℕ) : Prop :=
  ∃ fuel, executeIfSetInEbitmap bmp (fun n l => (.ok (l ++ [n]) : Except Empty (List ℕ))) fuel min [] = some (.ok bits)

/-- The iterators start at the same word: that of `min` is in the array, or no word is read from a wrong place, which it is
unless an equal word stands there.
Source: `ebitmap.h` `ebitmap_iter_init` -/
def StartsInStep (bmp : EbitmapDef W) (val : ℕ → BitVec W) (min : ℕ) : Prop :=
  val (min / W) ≠ 0#W ∨ ∀ w > min / W, val w ≠ 0#W → bmp.elts (place val w - place val (min / W)) = val w

/-- A loop that lists the bits. -/
theorem foldlM_append_singleton (l acc : List ℕ) :
    l.foldlM (fun l n => (.ok (l ++ [n]) : Except Empty (List ℕ))) acc = .ok (acc ++ l) := by
  induction l generalizing acc with
  | nil => rw [List.append_nil]; rfl
  | cons n l ih =>
    rw [List.foldlM_cons]
    change l.foldlM _ (acc ++ [n]) = _
    rw [ih, List.append_assoc]
    rfl

/-- What is visited. Source: `ebitmap.h` `EXECUTE_IF_SET_IN_EBITMAP`. Kind: L -/
theorem visits_iff (hW : 0 < W) (h : Stored bmp val) {min : ℕ} {bits : List ℕ} :
    Visits bmp min bits ↔
      bits = ones (readBit bmp val (startLag val (min / W)) (min / W)) min (bmp.wordmask.nBits * W) := by
  have hloop := executeIfSetInEbitmap_eq hW h (fun n l => (.ok (l ++ [n]) : Except Empty (List ℕ))) min []
    (Nat.lt_succ_self (bmp.wordmask.nBits * W))
  rw [foldlM_append_singleton, List.nil_append] at hloop
  constructor
  · rintro ⟨fuel, hvisit⟩
    exact Except.ok.inj (scan_unique hvisit hloop)
  · rintro rfl
    exact ⟨_, hloop⟩

/-- **The words that are read are those of the bitmap** exactly if the iterators start at the same word.
Source: `ebitmap.h` `ebitmap_iter_init`
Kind: L -/
theorem startsInStep_iff (h : Stored bmp val) {min : ℕ} :
    StartsInStep bmp val min ↔ ∀ w, readWord bmp val (startLag val (min / W)) (min / W) w = val w := by
  unfold StartsInStep readWord startLag
  by_cases hzero : val (min / W) = 0#W
  · rw [if_pos hzero]
    constructor
    · rintro (hne | hsame) w
      · exact absurd hzero hne
      · split_ifs with hw
        · exact hsame w hw.1 hw.2
        · rfl
    · intro hall
      refine Or.inr fun w hw hne => ?_
      have hword := hall w
      rwa [if_pos ⟨hw, hne⟩] at hword
  · rw [if_neg hzero]
    refine iff_of_true (Or.inl hzero) fun w => ?_
    split_ifs with hw
    · exact h.word w hw.2
    · rfl

/-- **`EXECUTE_IF_SET_IN_EBITMAP`** ends, and visits the set bits from `min` on, each once and in increasing order, exactly if
the iterators start at the same word.
Source: `ebitmap.h` `ebitmap_iter_init`, `ebitmap_iter_cond`, `ebitmap_iter_next`
Kind: P -/
theorem executeIfSetInEbitmap_iff (hW : 0 < W) (h : Stored bmp val) (hwords : Words S val) (min : ℕ) :
    (∃ bits, Visits bmp min bits ∧ bits.Pairwise (· < ·) ∧ ∀ b, b ∈ bits ↔ b ∈ S ∧ min ≤ b) ↔
      StartsInStep bmp val min := by
  have hbits : ∀ b, b ∈ S → b < bmp.wordmask.nBits * W := by
    intro b hb
    have hset := (hwords b).mp hb
    rw [← Nat.div_lt_iff_lt_mul hW]
    refine h.lt_nBits fun hzero => ?_
    rw [hzero, BitVec.getLsbD_zero] at hset
    cases hset
  rw [startsInStep_iff h]
  constructor
  · rintro ⟨bits, hvisit, -, hmem⟩ w
    rw [visits_iff hW h] at hvisit
    by_cases hread : min / W < w ∧ val w ≠ 0#W
    · refine BitVec.eq_of_getLsbD_eq fun i hi => ?_
      -- bit `i` of word `w` is visited if it is read, and is to be visited if it is set
      have hdiv : (w * W + i) / W = w := by
        rw [Nat.mul_comm, Nat.mul_add_div hW, Nat.div_eq_of_lt hi, Nat.add_zero]
      have hmod : (w * W + i) % W = i := by
        rw [Nat.mul_comm, Nat.mul_add_mod, Nat.mod_eq_of_lt hi]
      have hge : min ≤ w * W + i := by
        have hlt := (Nat.div_lt_iff_lt_mul hW).mp hread.1
        omega
      have hin : w * W + i < bmp.wordmask.nBits * W := by
        rw [← Nat.div_lt_iff_lt_mul hW, hdiv]
        exact h.lt_nBits hread.2
      have hiff := hmem (w * W + i)
      rw [hvisit, mem_ones, hwords, readBit, hdiv, hmod] at hiff
      rw [Bool.eq_iff_iff]
      constructor
      · exact fun hset => (hiff.mp ⟨⟨hge, hin⟩, hset⟩).1
      · exact fun hset => (hiff.mpr ⟨hset, hge⟩).2
    · exact if_neg hread
  · intro hall
    refine ⟨_, (visits_iff hW h).mpr rfl, ones_pairwise, fun b => ?_⟩
    rw [mem_ones, readBit, hall, ← hwords b]
    constructor
    · exact fun ⟨⟨hge, _⟩, hset⟩ => ⟨hset, hge⟩
    · exact fun ⟨hset, hge⟩ => ⟨⟨hge, hbits b hset⟩, hset⟩

end Loop

/-! ## Runs of the loop -/

/-- Source: none: the theorem at a start in a word of the array. Kind: C -/
theorem executeIfSetInEbitmap_from_129 :
    ∃ bits, Visits threeWords 129 bits ∧ bits.Pairwise (· < ·) ∧
      ∀ b, b ∈ bits ↔ b ∈ ({0, 129, 258} : Finset ℕ) ∧ 129 ≤ b :=
  (executeIfSetInEbitmap_iff (by decide) formed_threeWords.toStored words_threeWords 129).mpr (Or.inl (by decide))

/-- A loop that starts in the first absent word reads the first word of the array for the second: it visits bit 128, which is
not set, and not bit 129.
Source: `ebitmap.h` `ebitmap_iter_init` (`i->eltnum = 0`)
Kind: C -/
theorem executeIfSetInEbitmap_starts_behind :
    Formed threeWords (smallVal 21#64 [1#64, 2#64, 4#64]) ∧ Words {0, 129, 258} (smallVal 21#64 [1#64, 2#64, 4#64]) ∧
      Visits threeWords 64 [128, 257] ∧
      ¬ ∃ bits, Visits threeWords 64 bits ∧ ∀ b, b ∈ bits ↔ b ∈ ({0, 129, 258} : Finset ℕ) ∧ 64 ≤ b := by
  have hvisit : Visits threeWords 64 [128, 257] := ⟨10, rfl⟩
  refine ⟨formed_threeWords, words_threeWords, hvisit, ?_⟩
  rintro ⟨bits, hother, hmem⟩
  rw [visits_iff (by decide) formed_threeWords.toStored] at hvisit hother
  obtain rfl : bits = [128, 257] := hother.trans hvisit.symm
  exact absurd ((hmem 128).mp (by decide)).1 (by decide)

end GccCore.Gcc.Ebitmap
