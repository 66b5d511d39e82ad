import GccCore.Gcc.Ebitmap.Operands

/-!
# `gcc/ebitmap.c`: unions

Both functions build a mask of the words of either operand, go over it with an index into each array, and put the words into a
new array.

* **`ebitmap_ior_into`** (`ebitmapIorInto_spec`) is right, and so is its return value.
* **`ebitmap_ior`** (`ebitmapIor_spec`) compares the destination with the result at the words of the result, and replaces it only
  if one of these differs.
-/

namespace GccCore.Gcc.Ebitmap

open GccCore.Gcc.Sbitmap GccCore.Lib.BitScan GccCore.Lib.Count

variable {W : ℕ}

/-! ## The code -/

/-- What newly allocated memory holds. -/
structure Fresh (W : ℕ) where
  words : ℕ → BitVec W
  counts : ℕ → ℕ

/-- Source: `ebitmap.c` `ebitmap_copy`. -/
def ebitmapCopy (mem : Fresh W) (dst src : EbitmapDef W) : Except Failure (EbitmapDef W) := do
  let wordmask ← inBounds
    (sbitmapCopy (sbitmapAllocWithPopcount W src.wordmask.nBits mem.words mem.counts) src.wordmask)
  let dst := ebitmapArrayGrow dst src.numwords
  .ok { dst with
    wordmask := wordmask
    elts := fun i => if i < src.numwords then src.elts i else dst.elts i
    numwords := src.numwords
    cache := none }

/-- The words of `a` are copied to a mask that is clear, and those of `b` are added to it.
Source: `ebitmap.c` `ebitmap_ior` (`sbitmap_copy_n (tempmask, ...); sbitmap_a_or_b (tempmask, tempmask, ...)`) -/
def copyThenOr (tempmask a b : SimpleBitmap W) : Option (SimpleBitmap W) := do
  let tempmask ← sbitmapCopyN tempmask a a.size
  sbitmapAOrB tempmask tempmask b

/-- The local variables; `newarray` is what the allocated array holds, and `wordmask` is the mask that the loop changes.
Source: `ebitmap.c` `ebitmap_ior_into`, `ebitmap_ior`, `ebitmap_and_compl` -/
structure MergeState (W : ℕ) where
  wordmask : SimpleBitmap W
  newarray : ℕ → BitVec W
  neweltindex : ℕ
  src1eltindex : ℕ
  src2eltindex : ℕ
  changed : Bool

/-- `newarray[neweltindex++] = tmpword`. Source: `ebitmap.c` `ebitmap_ior`. -/
def MergeState.put (s : MergeState W) (tmpword : BitVec W) : MergeState W :=
  { s with newarray := Function.update s.newarray s.neweltindex tmpword, neweltindex := s.neweltindex + 1 }

/-- The destination gets the new array and its mask, if it has changed.
Source: `ebitmap.c` `ebitmap_ior`, `ebitmap_and_compl` (`if (changed)`) -/
def replaceIfChanged (dst : EbitmapDef W) (wordmask : SimpleBitmap W) (newarraysize : ℕ) (s : MergeState W) :
    EbitmapDef W × Bool :=
  if s.changed then
    ({ dst with wordmask := wordmask, numwords := s.neweltindex, elts := s.newarray, nElts := newarraysize }, true)
  else (dst, false)

/-- The body of the loop; the first index is that of `dst`, whose mask is part of the state.
Source: `ebitmap.c` `ebitmap_ior_into` -/
def iorIntoBody (dst src : EbitmapDef W) (i : ℕ) (s : MergeState W) : Except Failure (MergeState W) :=
  if s.wordmask.has i && src.wordmask.has i then do
    let tmpword ← ebitmapArrayGet src s.src2eltindex
    let word ← ebitmapArrayGet dst s.src1eltindex
    let tmpword := tmpword ||| word
    .ok ({ s with
      src1eltindex := s.src1eltindex + 1
      src2eltindex := s.src2eltindex + 1
      changed := s.changed || tmpword != word }.put tmpword)
  else if s.wordmask.has i then do
    let tmpword ← ebitmapArrayGet dst s.src1eltindex
    .ok ({ s with src1eltindex := s.src1eltindex + 1 }.put tmpword)
  else do
    let tmpword ← ebitmapArrayGet src s.src2eltindex
    if i < s.wordmask.nBits then
      .ok ({ s with
        src2eltindex := s.src2eltindex + 1
        wordmask := setBit s.wordmask i
        changed := true }.put tmpword)
    else .error .assertion

/-- The mask of `dst`, resized, and the mask of either operand. Source: `ebitmap.c` `ebitmap_ior_into`. -/
def iorIntoMasks (mem : Fresh W) (dst src : EbitmapDef W) : Option (SimpleBitmap W × SimpleBitmap W) :=
  let srcsize := src.wordmask.nBits
  let dstsize := dst.wordmask.nBits
  let tempmask := sbitmapZero (sbitmapAlloc W (max srcsize dstsize) mem.words)
  if srcsize = dstsize then (sbitmapAOrB tempmask dst.wordmask src.wordmask).map fun tempmask => (dst.wordmask, tempmask)
  else
    let wordmask := sbitmapResize dst.wordmask (max srcsize dstsize)
    if srcsize ≥ dstsize then (copyThenOr tempmask wordmask src.wordmask).map fun tempmask => (wordmask, tempmask)
    else (copyThenOr tempmask src.wordmask wordmask).map fun tempmask => (wordmask, tempmask)

/-- `dst |= src`, of two bitmaps. Source: `ebitmap.c` `ebitmap_ior_into`. -/
def ebitmapIorInto (mem : Fresh W) (dst src : EbitmapDef W) : Option (Except Failure (EbitmapDef W × Bool)) :=
  let dst := { dst with cache := none }
  if dst.numwords = 0 ∧ src.numwords ≠ 0 then some ((ebitmapCopy mem dst src).map fun dst => (dst, true))
  else if src.numwords = 0 then some (.ok (dst, false))
  else
    match iorIntoMasks mem dst src with
    | none => some (.error .outOfBounds)
    | some (wordmask, tempmask) =>
      (executeAll (fun _ => tempmask) (iorIntoBody dst src) ⟨wordmask, mem.words, 0, 0, 0, false⟩).map fun r =>
        r.map fun s => replaceIfChanged { dst with wordmask := s.wordmask } s.wordmask (src.numwords + dst.numwords) s

/-- The word `i` of the result is compared with that of `dst`.
Source: `ebitmap.c` `ebitmap_ior`, `ebitmap_and_compl` (`if (i >= dst->wordmask->n_bits ...`) -/
def noticeChange (dst : EbitmapDef W) (i : ℕ) (tmpword : BitVec W) (changed : Bool) : Except Failure Bool :=
  if dst.wordmask.has i then
    if changed then .ok changed
    else do
      let word ← ebitmapArrayGet dst (sbitmapPopcount dst.wordmask i)
      .ok (word != tmpword)
  else .ok true

/-- The word `i` of the result, and the indices behind it. Source: `ebitmap.c` `ebitmap_ior` (`tmpword`). -/
def iorWord (src1 src2 : EbitmapDef W) (i : ℕ) (s : MergeState W) : Except Failure (BitVec W × MergeState W) :=
  if src1.wordmask.has i && src2.wordmask.has i then do
    let word1 ← ebitmapArrayGet src1 s.src1eltindex
    let word2 ← ebitmapArrayGet src2 s.src2eltindex
    .ok (word1 ||| word2, { s with src1eltindex := s.src1eltindex + 1, src2eltindex := s.src2eltindex + 1 })
  else if src1.wordmask.has i then do
    let word1 ← ebitmapArrayGet src1 s.src1eltindex
    .ok (word1, { s with src1eltindex := s.src1eltindex + 1 })
  else do
    let word2 ← ebitmapArrayGet src2 s.src2eltindex
    .ok (word2, { s with src2eltindex := s.src2eltindex + 1 })

/-- The body of the loop. Source: `ebitmap.c` `ebitmap_ior`. -/
def iorBody (dst src1 src2 : EbitmapDef W) (i : ℕ) (s : MergeState W) : Except Failure (MergeState W) := do
  let (tmpword, s) ← iorWord src1 src2 i s
  let changed ← noticeChange dst i tmpword s.changed
  .ok ({ s with changed := changed }.put tmpword)

/-- The mask of either operand. Source: `ebitmap.c` `ebitmap_ior` (`tempmask`). -/
def iorMask (mem : Fresh W) (src1 src2 : EbitmapDef W) : Option (SimpleBitmap W) :=
  let src1size := src1.wordmask.nBits
  let src2size := src2.wordmask.nBits
  let tempmask := sbitmapZero (sbitmapAllocWithPopcount W (max src1size src2size) mem.words mem.counts)
  if src1size = src2size then sbitmapAOrB tempmask src1.wordmask src2.wordmask
  else if src1size ≥ src2size then copyThenOr tempmask src2.wordmask src1.wordmask
  else copyThenOr tempmask src1.wordmask src2.wordmask

/-- `dst = src1 | src2`. Source: `ebitmap.c` `ebitmap_ior`. -/
def ebitmapIor (mem : Fresh W) (dst src1 src2 : EbitmapDef W) : Option (Except Failure (EbitmapDef W × Bool)) :=
  let dst := { dst with cache := none }
  match iorMask mem src1 src2 with
  | none => some (.error .outOfBounds)
  | some tempmask =>
    (executeAll (fun _ => tempmask) (iorBody dst src1 src2) ⟨tempmask, mem.words, 0, 0, 0, false⟩).map fun r =>
      r.map (replaceIfChanged dst tempmask (src1.numwords + src2.numwords))

/-! ## The masks -/

section Masks

variable {temp a b : SimpleBitmap W} {src1 src2 dst src : EbitmapDef W} {v v1 v2 : ℕ → BitVec W}

/-- The mask of either operand. -/
structure EitherMask (m : SimpleBitmap W) (n : ℕ) (v1 v2 : ℕ → BitVec W) : Prop where
  wf : WellFormed m
  nBits : m.nBits = n
  has : ∀ w, m.has w = decide (v1 w ≠ 0#W ∨ v2 w ≠ 0#W)

/-- **Copying one mask and adding the other.** Source: `ebitmap.c` `ebitmap_ior`. Kind: L -/
theorem copyThenOr_spec (hW : 0 < W) (h : WellFormed temp) (hzero : ∀ i < temp.size * W, temp.testBit i = false)
    (ha : WellFormed a) (hb : WellFormed b) (hna : a.nBits ≤ temp.nBits) (hnb : b.nBits = temp.nBits)
    (hcnt : temp.popcount.isSome → a.popcount.isSome) :
    ∃ m, copyThenOr temp a b = some m ∧ WellFormed m ∧ m.nBits = temp.nBits ∧
      m.popcount.isSome = temp.popcount.isSome ∧ ∀ w, m.has w = (a.has w || b.has w) := by
  obtain ⟨t, hcopy, hwf, hn, hsz, hcnt', hbits⟩ := sbitmapCopyN_spec hW h hzero ha hna hcnt
  have hsize : t.size ≤ b.size := hwf.size_le hb (by rw [hn, hnb])
  have hzip := sbitmapZip_spec hW (f := (· ||| ·)) (g := (· || ·)) (fun _ _ _ => BitVec.getLsbD_or) hwf le_rfl hsize
    (fun i hi hlt => by
      rw [hwf.tail i hi hlt, hb.testBit_eq_has (hlt.trans_le (Nat.mul_le_mul_right W hsize)), SimpleBitmap.has,
        decide_eq_false (by omega), Bool.false_and, Bool.false_or])
  obtain ⟨m, hor, hwf', hn', hsz', hcnt'', hbits'⟩ := hzip
  refine ⟨m, ?_, hwf', hn'.trans hn, hcnt''.trans hcnt', fun w => ?_⟩
  · unfold copyThenOr
    rw [hcopy]
    exact hor
  · rw [SimpleBitmap.has, hn', hn]
    by_cases hw : w < temp.nBits
    · have hin : w < t.size * W := (hn.symm ▸ hw : w < t.nBits).trans_le (hwf.cover hW)
      rw [hbits' w hin, hbits w (hsz ▸ hin), hb.testBit_eq_has (hin.trans_le (Nat.mul_le_mul_right W hsize)),
        decide_eq_true hw, Bool.true_and]
    · rw [decide_eq_false hw, Bool.false_and, SimpleBitmap.has, SimpleBitmap.has, decide_eq_false (by omega),
        decide_eq_false (by omega), Bool.false_and, Bool.false_and, Bool.or_false]

/-- Masks of one size are added word by word. Source: `ebitmap.c` `ebitmap_ior`. Kind: L -/
theorem orSame_spec (hW : 0 < W) (h : WellFormed temp) (ha : WellFormed a) (hb : WellFormed b) (hna : a.nBits = temp.nBits)
    (hnb : b.nBits = temp.nBits) :
    ∃ m, sbitmapAOrB temp a b = some m ∧ WellFormed m ∧ m.nBits = temp.nBits ∧
      m.popcount.isSome = temp.popcount.isSome ∧ ∀ w, m.has w = (a.has w || b.has w) := by
  have hsa : temp.size ≤ a.size := h.size_le ha hna.symm.le
  have hsb : temp.size ≤ b.size := h.size_le hb hnb.symm.le
  have hzip := sbitmapZip_spec hW (f := (· ||| ·)) (g := (· || ·)) (fun _ _ _ => BitVec.getLsbD_or) h hsa hsb
    (fun i hi hlt => by
      rw [ha.testBit_eq_has (hlt.trans_le (Nat.mul_le_mul_right W hsa)),
        hb.testBit_eq_has (hlt.trans_le (Nat.mul_le_mul_right W hsb)), SimpleBitmap.has, SimpleBitmap.has,
        decide_eq_false (by omega), decide_eq_false (by omega), Bool.false_and, Bool.false_and, Bool.or_false])
  obtain ⟨m, hor, hwf, hn, hsz, hcnt, hbits⟩ := hzip
  refine ⟨m, hor, hwf, hn, hcnt, fun w => ?_⟩
  rw [SimpleBitmap.has, hn]
  by_cases hw : w < temp.nBits
  · have hin : w < temp.size * W := hw.trans_le (h.cover hW)
    rw [hbits w hin, ha.testBit_eq_has (hin.trans_le (Nat.mul_le_mul_right W hsa)),
      hb.testBit_eq_has (hin.trans_le (Nat.mul_le_mul_right W hsb)), decide_eq_true hw, Bool.true_and]
  · rw [decide_eq_false hw, Bool.false_and, SimpleBitmap.has, SimpleBitmap.has, decide_eq_false (by omega),
      decide_eq_false (by omega), Bool.false_and, Bool.false_and, Bool.or_false]

/-- The mask of either operand has the words of either. -/
theorem eitherMask_of_has {m : SimpleBitmap W} {n : ℕ} (hwf : WellFormed m) (hn : m.nBits = n)
    (hhas : ∀ w, m.has w = (decide (v1 w ≠ 0#W) || decide (v2 w ≠ 0#W))) : EitherMask m n v1 v2 :=
  ⟨hwf, hn, fun w => (hhas w).trans (Bool.decide_or _ _).symm⟩

/-- **The mask of `ebitmap_ior`.** Source: `ebitmap.c` `ebitmap_ior`. Kind: L -/
theorem iorMask_spec (mem : Fresh W) (hW : 0 < W) (h1 : Formed src1 v1) (h2 : Formed src2 v2) :
    ∃ m, iorMask mem src1 src2 = some m ∧ EitherMask m (max src1.wordmask.nBits src2.wordmask.nBits) v1 v2 ∧
      m.popcount.isSome = true := by
  have hsmall : max src1.wordmask.nBits src2.wordmask.nBits + W ≤ 2 ^ 32 := by
    have := h1.small
    have := h2.small
    omega
  obtain ⟨hwf, hcnt, hzero⟩ := sbitmapZero_spec hW
    (s := sbitmapAllocWithPopcount W (max src1.wordmask.nBits src2.wordmask.nBits) mem.words mem.counts)
    (sbitmapSetSize_eq hsmall)
  unfold iorMask
  dsimp only
  split_ifs with heq hge
  · obtain ⟨m, hor, hwf', hn, hcnt', hhas⟩ := orSame_spec hW hwf h1.mask h2.mask
      (by change _ = max _ _; omega) (by change _ = max _ _; omega)
    exact ⟨m, hor, eitherMask_of_has hwf' hn fun w => by rw [hhas, h1.has_eq, h2.has_eq], hcnt'.trans hcnt⟩
  · obtain ⟨m, hor, hwf', hn, hcnt', hhas⟩ := copyThenOr_spec hW hwf hzero h2.mask h1.mask
      (by change _ ≤ max _ _; omega) (by change _ = max _ _; omega) fun _ => h2.counted
    exact ⟨m, hor, eitherMask_of_has hwf' hn fun w => by rw [hhas, h1.has_eq, h2.has_eq, Bool.or_comm], hcnt'.trans hcnt⟩
  · obtain ⟨m, hor, hwf', hn, hcnt', hhas⟩ := copyThenOr_spec hW hwf hzero h1.mask h2.mask
      (by change _ ≤ max _ _; omega) (by change _ = max _ _; omega) fun _ => h1.counted
    exact ⟨m, hor, eitherMask_of_has hwf' hn fun w => by rw [hhas, h1.has_eq, h2.has_eq], hcnt'.trans hcnt⟩

/-- **The masks of `ebitmap_ior_into`.** Source: `ebitmap.c` `ebitmap_ior_into`. Kind: L -/
theorem iorIntoMasks_spec (mem : Fresh W) (hW : 0 < W) (h1 : Formed dst v1) (h2 : Formed src v2) :
    ∃ wordmask m, iorIntoMasks mem dst src = some (wordmask, m) ∧
      EitherMask m (max src.wordmask.nBits dst.wordmask.nBits) v1 v2 ∧ WellFormed wordmask ∧
      wordmask.nBits = max src.wordmask.nBits dst.wordmask.nBits ∧ wordmask.popcount.isSome = true ∧
      ∀ w, wordmask.has w = decide (v1 w ≠ 0#W) := by
  have hsmall : max src.wordmask.nBits dst.wordmask.nBits + W ≤ 2 ^ 32 := by
    have := h1.small
    have := h2.small
    omega
  obtain ⟨hwf, -, hzero⟩ := sbitmapZero_spec hW
    (s := sbitmapAlloc W (max src.wordmask.nBits dst.wordmask.nBits) mem.words) (sbitmapSetSize_eq hsmall)
  obtain ⟨hwfd, hnd, hcntd, hbitd⟩ := sbitmapResize_spec hW h1.mask hsmall
  have hhasd : ∀ w, (sbitmapResize dst.wordmask (max src.wordmask.nBits dst.wordmask.nBits)).has w =
      decide (v1 w ≠ 0#W) := by
    intro w
    rw [← h1.has_eq, SimpleBitmap.has, hnd]
    by_cases hw : w < max src.wordmask.nBits dst.wordmask.nBits
    · rw [hbitd w hw, decide_eq_true hw, Bool.true_and]
    · rw [decide_eq_false hw, Bool.false_and, SimpleBitmap.has, decide_eq_false (by omega), Bool.false_and]
  unfold iorIntoMasks
  dsimp only
  split_ifs with heq hge
  · obtain ⟨m, hor, hwf', hn, -, hhas⟩ := orSame_spec hW hwf h1.mask h2.mask
      (by change _ = max _ _; omega) (by change _ = max _ _; omega)
    rw [hor]
    exact ⟨_, m, rfl, eitherMask_of_has hwf' hn fun w => by rw [hhas, h1.has_eq, h2.has_eq], h1.mask, by omega, h1.counted,
      h1.has_eq⟩
  · obtain ⟨m, hor, hwf', hn, -, hhas⟩ := copyThenOr_spec hW hwf hzero hwfd h2.mask
      (by rw [hnd]; exact le_rfl) (by change _ = max _ _; omega) fun hc => absurd hc (by simp [sbitmapZero, sbitmapAlloc])
    rw [hor]
    exact ⟨_, m, rfl, eitherMask_of_has hwf' hn fun w => by rw [hhas, hhasd, h2.has_eq], hwfd, hnd, hcntd.trans h1.counted,
      hhasd⟩
  · obtain ⟨m, hor, hwf', hn, -, hhas⟩ := copyThenOr_spec hW hwf hzero h2.mask hwfd
      (by change _ ≤ max _ _; omega) hnd fun hc => absurd hc (by simp [sbitmapZero, sbitmapAlloc])
    rw [hor]
    exact ⟨_, m, rfl, eitherMask_of_has hwf' hn fun w => by rw [hhas, hhasd, h2.has_eq, Bool.or_comm], hwfd, hnd,
      hcntd.trans h1.counted, hhasd⟩

end Masks

/-! ## The new array -/

section Loops

variable {src1 src2 dst src : EbitmapDef W} {v v1 v2 r : ℕ → BitVec W} {m wordmask : SimpleBitmap W} {n p : ℕ} {s : MergeState W}
  {mem : Fresh W}

/-- The words of the union. -/
def orWord (v1 v2 : ℕ → BitVec W) (w : ℕ) : BitVec W := v1 w ||| v2 w

theorem orWord_eq_zero_iff {w : ℕ} : orWord v1 v2 w = 0#W ↔ v1 w = 0#W ∧ v2 w = 0#W := by
  constructor
  · intro hzero
    have hbits : ∀ i, (v1 w).getLsbD i = false ∧ (v2 w).getLsbD i = false := by
      intro i
      have hi := congrArg (fun x => x.getLsbD i) hzero
      dsimp only [orWord] at hi
      rw [BitVec.getLsbD_or, BitVec.getLsbD_zero] at hi
      exact Bool.or_eq_false_iff.mp hi
    constructor
    · exact BitVec.eq_of_getLsbD_eq fun i _ => by rw [(hbits i).1, BitVec.getLsbD_zero]
    · exact BitVec.eq_of_getLsbD_eq fun i _ => by rw [(hbits i).2, BitVec.getLsbD_zero]
  · rintro ⟨h1, h2⟩
    rw [orWord, h1, h2, BitVec.or_zero]

/-- A union has no more words than both operands. Source: `ebitmap.c` `ebitmap_ior` (`newarraysize`). Kind: L -/
theorem place_orWord_le (w : ℕ) : place (orWord v1 v2) w ≤ place v1 w + place v2 w := by
  induction w with
  | zero => exact (Nat.count_zero _).le.trans (Nat.zero_le _)
  | succ w ih =>
    by_cases hzero : orWord v1 v2 w = 0#W
    · obtain ⟨h1, h2⟩ := orWord_eq_zero_iff.mp hzero
      rwa [place_succ_zero hzero, place_succ_zero h1, place_succ_zero h2]
    · rw [place_succ hzero]
      by_cases h1 : v1 w = 0#W
      · have h2 : v2 w ≠ 0#W := fun hc => hzero (orWord_eq_zero_iff.mpr ⟨h1, hc⟩)
        rw [place_succ_zero h1, place_succ h2]
        omega
      · have hmono : place v2 w ≤ place v2 (w + 1) := Nat.count_monotone _ (Nat.le_succ w)
        rw [place_succ h1]
        omega

/-- **The new array** holds the words of `r` below `p`. Source: `ebitmap.c` `ebitmap_ior` (`newarray`). -/
structure Built (r : ℕ → BitVec W) (p : ℕ) (s : MergeState W) : Prop where
  new : s.neweltindex = place r p
  listed : Listed s.newarray r p

theorem Built.put (h : Built r p s) (hne : r p ≠ 0#W) : Built r (p + 1) (s.put (r p)) := by
  refine ⟨?_, ?_⟩
  · rw [place_succ hne, ← h.new]
    rfl
  · change Listed (Function.update s.newarray s.neweltindex (r p)) r (p + 1)
    rw [h.new]
    exact h.listed.push

theorem Built.skip (h : Built r p s) (hzero : r p = 0#W) : Built r (p + 1) s :=
  ⟨h.new.trans (place_succ_zero hzero).symm, h.listed.skip hzero⟩

/-- The new array depends on two fields. -/
theorem Built.congr {s' : MergeState W} (h : Built r p s) (hnew : s'.neweltindex = s.neweltindex)
    (harray : s'.newarray = s.newarray) : Built r p s' := ⟨hnew.trans h.new, harray ▸ h.listed⟩

/-- **A bitmap with a new array** and the mask for it, or the old one. Source: `ebitmap.c` `ebitmap_ior` (`if (changed)`). Kind: L -/
theorem Built.formed (h : Built r n s) {newarraysize : ℕ} (hwf : WellFormed wordmask) (hn : wordmask.nBits = n)
    (hhas : ∀ w, wordmask.has w = decide (r w ≠ 0#W)) (hroom : place r n ≤ newarraysize)
    (hcounted : wordmask.popcount.isSome = true) (hsmall : n + W ≤ 2 ^ 32) (hold : s.changed = false → Formed dst v) :
    ∃ dst', replaceIfChanged dst wordmask newarraysize s = (dst', s.changed) ∧
      Formed dst' (if s.changed then r else v) := by
  unfold replaceIfChanged
  cases hchanged : s.changed with
  | false => exact ⟨dst, rfl, hold hchanged⟩
  | true =>
    refine ⟨_, rfl, ?_⟩
    have hbeyond : ∀ w, n ≤ w → r w = 0#W := by
      intro w hw
      have hclear : wordmask.has w = false := by
        rw [SimpleBitmap.has, decide_eq_false (by omega), Bool.false_and]
      exact not_not.mp (of_decide_eq_false ((hhas w).symm.trans hclear))
    refine ⟨⟨hwf, fun w hw => ?_, fun w hw => hbeyond w (hn ▸ hw), ?_, fun w hne => ?_⟩, ?_, hcounted, ?_⟩
    · have hw' : w < wordmask.nBits := hw
      have hbit := hhas w
      rw [SimpleBitmap.has, decide_eq_true hw', Bool.true_and] at hbit
      change wordmask.testBit w = true ↔ _
      rw [hbit, decide_eq_true_iff]
      rfl
    · change s.neweltindex = place r wordmask.nBits
      rw [h.new, hn]
    · refine h.listed w ?_ hne
      by_contra hge
      exact hne (hbeyond w (not_lt.mp hge))
    · change s.neweltindex ≤ newarraysize
      rw [h.new]
      exact hroom
    · change wordmask.nBits + W ≤ 2 ^ 32
      rw [hn]
      exact hsmall

/-- The places behind the last word. -/
theorem Stored.place_of_ge (h : Stored dst v) (hn : dst.wordmask.nBits ≤ n) : place v n = dst.numwords := by
  rw [h.numwords]
  exact place_eq_of_zero hn fun u hu _ => h.beyond u hu

/-! ## `ebitmap_ior_into` -/

/-- The state before the word `p`. Source: `ebitmap.c` `ebitmap_ior_into`. -/
structure IorIntoInv (v1 v2 : ℕ → BitVec W) (n p : ℕ) (s : MergeState W) : Prop extends Built (orWord v1 v2) p s where
  src1 : s.src1eltindex = place v1 p
  src2 : s.src2eltindex = place v2 p
  mask : WellFormed s.wordmask
  nBits : s.wordmask.nBits = n
  counted : s.wordmask.popcount.isSome = true
  has : ∀ w, s.wordmask.has w = if w < p then decide (orWord v1 v2 w ≠ 0#W) else decide (v1 w ≠ 0#W)
  changed : s.changed = true ↔ ∃ w < p, orWord v1 v2 w ≠ v1 w

/-- Nothing has changed at the start. -/
theorem changed_start {P : ℕ → Prop} : false = true ↔ ∃ w < 0, P w := by
  refine iff_of_false Bool.false_ne_true ?_
  rintro ⟨w, hw, -⟩
  exact Nat.not_lt_zero w hw

/-- A new position for the changes. -/
theorem exists_lt_succ_iff {P : ℕ → Prop} : (∃ w < p + 1, P w) ↔ (∃ w < p, P w) ∨ P p := by
  constructor
  · rintro ⟨w, hw, hP⟩
    rcases Nat.lt_or_eq_of_le (Nat.le_of_lt_succ hw) with hlt | rfl
    · exact Or.inl ⟨w, hlt, hP⟩
    · exact Or.inr hP
  · rintro (⟨w, hw, hP⟩ | hP)
    · exact ⟨w, by omega, hP⟩
    · exact ⟨p, Nat.lt_succ_self p, hP⟩

/-- The state behind a word of either operand: what is left to show of the mask and of the flag.
Source: `ebitmap.c` `ebitmap_ior_into`
Kind: L -/
theorem IorIntoInv.next (h : IorIntoInv v1 v2 n p s) (hne : orWord v1 v2 p ≠ 0#W) {wordmask : SimpleBitmap W} {i j : ℕ}
    {changed : Bool} (hi : i = place v1 (p + 1)) (hj : j = place v2 (p + 1)) (hwf : WellFormed wordmask)
    (hn : wordmask.nBits = n) (hcounted : wordmask.popcount.isSome = true)
    (hmask : ∀ w, wordmask.has w = if w = p then true else s.wordmask.has w)
    (hchanged : changed = true ↔ s.changed = true ∨ orWord v1 v2 p ≠ v1 p) :
    IorIntoInv v1 v2 n (p + 1)
      ({ s with wordmask := wordmask, src1eltindex := i, src2eltindex := j, changed := changed }.put (orWord v1 v2 p)) := by
  have hbuilt : Built (orWord v1 v2) p
      { s with wordmask := wordmask, src1eltindex := i, src2eltindex := j, changed := changed } := h.toBuilt.congr rfl rfl
  refine ⟨hbuilt.put hne, hi, hj, hwf, hn, hcounted, fun w => ?_, ?_⟩
  · change wordmask.has w = _
    rw [hmask]
    by_cases hw : w = p
    · rw [if_pos hw, hw, if_pos (Nat.lt_succ_self p), decide_eq_true hne]
    · rw [if_neg hw, h.has]
      by_cases hlt : w < p
      · rw [if_pos hlt, if_pos (by omega)]
      · rw [if_neg hlt, if_neg (by omega)]
  · change changed = true ↔ _
    rw [hchanged, h.changed, exists_lt_succ_iff]

/-- **One word** of either operand. Source: `ebitmap.c` `ebitmap_ior_into`. Kind: L -/
theorem IorIntoInv.step (hW : 0 < W) (hW' : W < 256) (h1 : Formed dst v1) (h2 : Formed src v2)
    (h : IorIntoInv v1 v2 n p s) (hp : p < n) (hset : v1 p ≠ 0#W ∨ v2 p ≠ 0#W) :
    ∃ s', iorIntoBody dst src p s = .ok s' ∧ IorIntoInv v1 v2 n (p + 1) s' := by
  have hne : orWord v1 v2 p ≠ 0#W := by
    intro hc
    obtain ⟨hz1, hz2⟩ := orWord_eq_zero_iff.mp hc
    exact hset.elim (fun hc1 => hc1 hz1) fun hc2 => hc2 hz2
  have hhas : s.wordmask.has p = decide (v1 p ≠ 0#W) := by rw [h.has, if_neg (lt_irrefl p)]
  unfold iorIntoBody
  rw [hhas, h2.has_eq, h.src1, h.src2]
  by_cases hv1 : v1 p = 0#W
  · have hv2 : v2 p ≠ 0#W := hset.resolve_left (not_not.mpr hv1)
    have hword : orWord v1 v2 p = v2 p := by rw [orWord, hv1, BitVec.zero_or]
    obtain ⟨hwf, hn, hsz⟩ := setBit_spec hW hW' h.mask (h.nBits.symm ▸ hp : p < s.wordmask.nBits)
    rw [decide_eq_false (not_not.mpr hv1), Bool.false_and, if_neg Bool.false_ne_true, if_neg Bool.false_ne_true,
      h2.get_place hv2]
    change ∃ s', (if p < s.wordmask.nBits then _ else _) = _ ∧ _
    rw [if_pos (h.nBits.symm ▸ hp), ← hword]
    refine ⟨_, rfl, h.next hne (place_succ_zero hv1).symm (by rw [place_succ hv2]) hwf (hn.trans h.nBits) ?_
      (fun w => ?_) (iff_of_true rfl (Or.inr ?_))⟩
    · exact (isSome_setBit _ _).trans h.counted
    · rw [SimpleBitmap.has, SimpleBitmap.has, hn, testBit_setBit hW]
      by_cases hw : w = p
      · rw [if_pos hw, hw, decide_eq_true rfl, Bool.or_true, h.nBits, decide_eq_true hp, Bool.and_true]
      · rw [if_neg hw, decide_eq_false hw, Bool.or_false]
    · rw [hword, hv1]
      exact hv2
  · have hmask : ∀ w, s.wordmask.has w = if w = p then true else s.wordmask.has w := by
      intro w
      by_cases hw : w = p
      · rw [if_pos hw, hw, hhas, decide_eq_true hv1]
      · rw [if_neg hw]
    rw [decide_eq_true hv1, Bool.true_and, h1.get_place hv1]
    by_cases hv2 : v2 p = 0#W
    · have hword : orWord v1 v2 p = v1 p := by rw [orWord, hv2, BitVec.or_zero]
      rw [decide_eq_false (not_not.mpr hv2), if_neg Bool.false_ne_true, if_pos rfl, ← hword]
      refine ⟨_, rfl, h.next hne (by rw [place_succ hv1]) (place_succ_zero hv2).symm h.mask h.nBits h.counted hmask ?_⟩
      rw [hword]
      exact (or_iff_left fun hc => hc rfl).symm
    · have hword : v2 p ||| v1 p = orWord v1 v2 p := BitVec.or_comm ..
      rw [decide_eq_true hv2, if_pos rfl, h2.get_place hv2]
      change ∃ s', Except.ok _ = Except.ok s' ∧ _
      rw [hword]
      refine ⟨_, rfl, h.next hne (by rw [place_succ hv1]) (by rw [place_succ hv2]) h.mask h.nBits h.counted hmask ?_⟩
      rw [Bool.or_eq_true, bne_iff_ne]

/-- A word that neither operand has. -/
theorem IorIntoInv.pass (h : IorIntoInv v1 v2 n p s) (h1 : v1 p = 0#W) (h2 : v2 p = 0#W) : IorIntoInv v1 v2 n (p + 1) s := by
  have hzero : orWord v1 v2 p = 0#W := orWord_eq_zero_iff.mpr ⟨h1, h2⟩
  refine ⟨h.toBuilt.skip hzero, h.src1.trans (place_succ_zero h1).symm, h.src2.trans (place_succ_zero h2).symm, h.mask, h.nBits,
    h.counted, fun w => ?_, ?_⟩
  · rw [h.has]
    by_cases hw : w = p
    · rw [hw, if_neg (lt_irrefl p), if_pos (Nat.lt_succ_self p), hzero, h1]
    · by_cases hlt : w < p
      · rw [if_pos hlt, if_pos (by omega)]
      · rw [if_neg hlt, if_neg (by omega)]
  · rw [h.changed, exists_lt_succ_iff, hzero, h1]
    exact (or_iff_left fun hc => hc rfl).symm

/-- A change of a word is a change of the words. -/
theorem exists_ne_iff {P : ℕ → BitVec W} {Q : ℕ → BitVec W} (hbeyond : ∀ w, n ≤ w → P w = Q w) :
    (∃ w < n, P w ≠ Q w) ↔ P ≠ Q := by
  rw [ne_eq, funext_iff, not_forall]
  constructor
  · exact fun ⟨w, _, hne⟩ => ⟨w, hne⟩
  · rintro ⟨w, hne⟩
    exact ⟨w, not_le.mp fun hw => hne (hbeyond w hw), hne⟩

/-- An empty bitmap has no words. Source: `ebitmap.h` `ebitmap_empty_p`. Kind: L -/
theorem Stored.eq_zero_of_empty (h : Stored dst v) (hempty : dst.numwords = 0) : v = fun _ => 0#W := by
  funext w
  by_contra hne
  have := h.place_lt hne
  omega

/-- **A copy** has the words of its source. Source: `ebitmap.c` `ebitmap_copy`. Kind: L -/
theorem ebitmapCopy_spec (mem : Fresh W) (hW : 0 < W) (h2 : Formed src v2) (dst : EbitmapDef W) :
    ∃ dst', ebitmapCopy mem dst src = .ok dst' ∧ Formed dst' v2 := by
  obtain ⟨m, hcopy, hwf, hn, hcnt, hbits⟩ := sbitmapCopy_spec hW
    (s := sbitmapAllocWithPopcount W src.wordmask.nBits mem.words mem.counts) (sbitmapSetSize_eq h2.small) h2.mask rfl rfl
    h2.counted
  unfold ebitmapCopy
  rw [hcopy]
  refine ⟨_, rfl, ⟨hwf, fun w hw => ?_, fun w hw => h2.beyond w (hn ▸ hw), h2.numwords.trans (by rw [hn]), fun w hne => ?_⟩, ?_,
    hcnt, (congrArg (· + W) hn).trans_le h2.small⟩
  · have hlt : w < src.wordmask.nBits := hn ▸ hw
    change m.testBit w = true ↔ _
    rw [hbits w hlt, h2.present w hlt]
  · change (if place v2 w < src.numwords then src.elts (place v2 w) else _) = v2 w
    rw [if_pos (h2.place_lt hne), h2.word w hne]
  · change src.numwords ≤ (ebitmapArrayGrow dst src.numwords).nElts
    unfold ebitmapArrayGrow
    split_ifs
    · exact le_rfl
    · exact Nat.le_add_right _ _

/-- The loop of `ebitmap_ior_into`. Source: `ebitmap.c` `ebitmap_ior_into`. Kind: L -/
theorem iorInto_loop (mem : Fresh W) (hW : 0 < W) (hW' : W < 256) (h1 : Formed dst v1) (h2 : Formed src v2) (hm : EitherMask m n v1 v2)
    (hwf : WellFormed wordmask) (hn : wordmask.nBits = n) (hcnt : wordmask.popcount.isSome = true)
    (hhas : ∀ w, wordmask.has w = decide (v1 w ≠ 0#W)) (cacheindex : ℕ) :
    ∃ s, executeAll (fun _ => m) (iorIntoBody { dst with cache := none, cacheindex := cacheindex } src)
      ⟨wordmask, mem.words, 0, 0, 0, false⟩ = some (.ok s) ∧ IorIntoInv v1 v2 n n s := by
  have h1' : Formed { dst with cache := none, cacheindex := cacheindex } v1 :=
    ⟨⟨h1.mask, h1.present, h1.beyond, h1.numwords, h1.word⟩, h1.room, h1.counted, h1.small⟩
  have hbit : ∀ p < m.nBits, m.testBit p = decide (v1 p ≠ 0#W ∨ v2 p ≠ 0#W) := by
    intro p hp
    rw [← hm.has, SimpleBitmap.has, decide_eq_true hp, Bool.true_and]
  have hstart : IorIntoInv v1 v2 n 0 ⟨wordmask, mem.words, 0, 0, 0, false⟩ :=
    ⟨⟨(Nat.count_zero _).symm, fun w hw => absurd hw (Nat.not_lt_zero w)⟩, (Nat.count_zero _).symm, (Nat.count_zero _).symm,
      hwf, hn, hcnt, fun w => by rw [if_neg (Nat.not_lt_zero w), hhas],
      changed_start⟩
  obtain ⟨s, hloop, hinv⟩ := executeAll_spec hW (fun _ : MergeState W => m)
    (iorIntoBody { dst with cache := none, cacheindex := cacheindex } src) hm.wf
    (fun _ _ _ _ => ⟨rfl, fun _ _ => rfl⟩) (IorIntoInv v1 v2 n) hstart
    (fun p s hp hset h => h.step hW hW' h1' h2 (hm.nBits ▸ hp) (of_decide_eq_true ((hbit p hp).symm.trans hset)))
    (fun p s hp hclear h => by
      have hnone := of_decide_eq_false ((hbit p hp).symm.trans hclear)
      rw [not_or, not_not, not_not] at hnone
      exact h.pass hnone.1 hnone.2)
  exact ⟨s, hloop, hm.nBits ▸ hinv⟩

/-- **`dst |= src`** leaves the union, and says whether the destination has changed. Source: `ebitmap.c` `ebitmap_ior_into`. Kind: L -/
theorem ebitmapIorInto_spec (mem : Fresh W) (hW : 0 < W) (hW' : W < 256) (h1 : Formed dst v1) (h2 : Formed src v2) :
    ∃ dst' changed, ebitmapIorInto mem dst src = some (.ok (dst', changed)) ∧ Formed dst' (orWord v1 v2) ∧
      (changed = true ↔ orWord v1 v2 ≠ v1) := by
  have h1' : Formed { dst with cache := none } v1 := h1.map_cache
  unfold ebitmapIorInto
  dsimp only
  split_ifs with hcopy hempty
  · obtain ⟨dst', heq, hformed⟩ := ebitmapCopy_spec mem hW h2 { dst with cache := none }
    have hv1 := h1.toStored.eq_zero_of_empty hcopy.1
    have hor : orWord v1 v2 = v2 := by
      funext w
      rw [orWord, hv1, BitVec.zero_or]
    rw [heq, hor]
    refine ⟨dst', true, rfl, hformed, iff_of_true rfl fun hc => hcopy.2 ?_⟩
    rw [hv1] at hc
    rw [h2.numwords, hc]
    exact Nat.count_iff_forall_not.mpr fun _ _ hne => hne rfl
  · have hor : orWord v1 v2 = v1 := by
      funext w
      rw [orWord, h2.toStored.eq_zero_of_empty hempty, BitVec.or_zero]
    rw [hor]
    exact ⟨_, false, rfl, h1', iff_of_false Bool.false_ne_true fun hc => hc rfl⟩
  · obtain ⟨wordmask, m, hmasks, hm, hwf, hn, hcnt, hhas⟩ := iorIntoMasks_spec mem hW h1' h2
    obtain ⟨s, hloop, hinv⟩ := iorInto_loop mem hW hW' h1 h2 hm hwf hn hcnt hhas dst.cacheindex
    have hsmall : max src.wordmask.nBits dst.wordmask.nBits + W ≤ 2 ^ 32 := by
      have := h1.small
      have := h2.small
      omega
    have hplace1 : place v1 (max src.wordmask.nBits dst.wordmask.nBits) = dst.numwords :=
      h1.toStored.place_of_ge (Nat.le_max_right _ _)
    have hplace2 : place v2 (max src.wordmask.nBits dst.wordmask.nBits) = src.numwords :=
      h2.toStored.place_of_ge (Nat.le_max_left _ _)
    have hbeyond : ∀ w, max src.wordmask.nBits dst.wordmask.nBits ≤ w → v1 w = 0#W ∧ v2 w = 0#W :=
      fun w hw => ⟨h1.beyond w (by omega), h2.beyond w (by omega)⟩
    have hall : ∀ w, s.wordmask.has w = decide (orWord v1 v2 w ≠ 0#W) := by
      intro w
      rw [hinv.has]
      split_ifs with hw
      · rfl
      · obtain ⟨hz1, hz2⟩ := hbeyond w (not_lt.mp hw)
        rw [orWord_eq_zero_iff.mpr ⟨hz1, hz2⟩, hz1]
    have hflag : s.changed = true ↔ orWord v1 v2 ≠ v1 := by
      rw [hinv.changed]
      refine exists_ne_iff fun w hw => ?_
      obtain ⟨hz1, hz2⟩ := hbeyond w hw
      rw [orWord_eq_zero_iff.mpr ⟨hz1, hz2⟩, hz1]
    rw [hmasks]
    dsimp only
    rw [hloop]
    have hroom : place (orWord v1 v2) (max src.wordmask.nBits dst.wordmask.nBits) ≤ src.numwords + dst.numwords := by
      calc place (orWord v1 v2) (max src.wordmask.nBits dst.wordmask.nBits)
          ≤ place v1 (max src.wordmask.nBits dst.wordmask.nBits) + place v2 (max src.wordmask.nBits dst.wordmask.nBits) :=
            place_orWord_le _
        _ = src.numwords + dst.numwords := by rw [hplace1, hplace2, Nat.add_comm]
    have hold : s.changed = false → Formed { dst with cache := none, wordmask := s.wordmask } v1 := by
      intro hchanged
      have hsame : orWord v1 v2 = v1 := not_not.mp fun hc => Bool.eq_false_iff.mp hchanged (hflag.mpr hc)
      rw [hsame] at hall
      refine ⟨⟨hinv.mask, fun w hw => ?_, fun w hw => (hbeyond w (hinv.nBits ▸ hw)).1, ?_, h1.word⟩, h1.room, hinv.counted, ?_⟩
      · have hw' : w < s.wordmask.nBits := hw
        have hbit := hall w
        rw [SimpleBitmap.has, decide_eq_true hw', Bool.true_and] at hbit
        change s.wordmask.testBit w = true ↔ _
        rw [hbit, decide_eq_true_iff]
      · change dst.numwords = place v1 s.wordmask.nBits
        rw [hinv.nBits, hplace1]
      · change s.wordmask.nBits + W ≤ 2 ^ 32
        rw [hinv.nBits]
        exact hsmall
    obtain ⟨dst', hreplace, hformed⟩ := hinv.toBuilt.formed hinv.mask hinv.nBits hall hroom hinv.counted hsmall hold
    refine ⟨dst', s.changed, by rw [Option.map_some, Except.map, hreplace], ?_, hflag⟩
    cases hchanged : s.changed with
    | true =>
      rw [hchanged] at hformed
      exact hformed
    | false =>
      rw [hchanged] at hformed
      rw [not_not.mp fun hc => Bool.eq_false_iff.mp hchanged (hflag.mpr hc)]
      exact hformed

/-! ## `ebitmap_ior` -/

/-- **The comparison with the destination** at one word. Source: `ebitmap.c` `ebitmap_ior`, `ebitmap_and_compl`. Kind: L -/
theorem noticeChange_eq (hW : 0 < W) (h : Formed dst v) (i : ℕ) (word : BitVec W) (changed : Bool) :
    noticeChange dst i word changed = .ok (changed || decide (v i = 0#W ∨ v i ≠ word)) := by
  unfold noticeChange
  rw [h.has_eq]
  by_cases hzero : v i = 0#W
  · rw [decide_eq_false (not_not.mpr hzero), if_neg Bool.false_ne_true, decide_eq_true (Or.inl hzero), Bool.or_true]
  · rw [decide_eq_true hzero, if_pos rfl, h.toStored.popcount_eq hW (h.lt_nBits hzero).le, h.get_place hzero]
    cases changed with
    | true => rfl
    | false =>
      change Except.ok (v i != word) = _
      rw [Bool.false_or, decide_eq_decide.mpr (or_iff_right hzero)]
      congr 1
      rw [Bool.eq_iff_iff, bne_iff_ne, decide_eq_true_iff]

/-- The state before the word `p`. Source: `ebitmap.c` `ebitmap_ior`. -/
structure IorInv (v v1 v2 : ℕ → BitVec W) (p : ℕ) (s : MergeState W) : Prop extends Built (orWord v1 v2) p s where
  src1 : s.src1eltindex = place v1 p
  src2 : s.src2eltindex = place v2 p
  changed : s.changed = true ↔ ∃ w < p, orWord v1 v2 w ≠ 0#W ∧ v w ≠ orWord v1 v2 w

/-- The word of the union, read from the operands. Source: `ebitmap.c` `ebitmap_ior` (`tmpword`). Kind: L -/
theorem iorWord_eq (h1 : Formed src1 v1) (h2 : Formed src2 v2) (hs1 : s.src1eltindex = place v1 p)
    (hs2 : s.src2eltindex = place v2 p) (hset : v1 p ≠ 0#W ∨ v2 p ≠ 0#W) :
    iorWord src1 src2 p s = .ok (orWord v1 v2 p,
      { s with src1eltindex := place v1 (p + 1), src2eltindex := place v2 (p + 1) }) := by
  unfold iorWord orWord
  rw [h1.has_eq, h2.has_eq, hs1, hs2]
  by_cases hv1 : v1 p = 0#W
  · have hv2 : v2 p ≠ 0#W := hset.resolve_left (not_not.mpr hv1)
    rw [decide_eq_false (not_not.mpr hv1), Bool.false_and, if_neg Bool.false_ne_true, if_neg Bool.false_ne_true,
      h2.get_place hv2, hv1, BitVec.zero_or, place_succ_zero hv1, place_succ hv2, ← hs1]
    rfl
  · rw [decide_eq_true hv1, Bool.true_and, h1.get_place hv1, place_succ hv1]
    by_cases hv2 : v2 p = 0#W
    · rw [decide_eq_false (not_not.mpr hv2), if_neg Bool.false_ne_true, if_pos rfl, hv2, BitVec.or_zero,
        place_succ_zero hv2, ← hs2]
      rfl
    · rw [decide_eq_true hv2, if_pos rfl, h2.get_place hv2, place_succ hv2]
      rfl

/-- **One word** of either operand. Source: `ebitmap.c` `ebitmap_ior`. Kind: L -/
theorem IorInv.step (hW : 0 < W) (hd : Formed dst v) (h1 : Formed src1 v1) (h2 : Formed src2 v2)
    (h : IorInv v v1 v2 p s) (hset : v1 p ≠ 0#W ∨ v2 p ≠ 0#W) :
    ∃ s', iorBody dst src1 src2 p s = .ok s' ∧ IorInv v v1 v2 (p + 1) s' := by
  have hne : orWord v1 v2 p ≠ 0#W := by
    intro hc
    obtain ⟨hz1, hz2⟩ := orWord_eq_zero_iff.mp hc
    exact hset.elim (fun hc1 => hc1 hz1) fun hc2 => hc2 hz2
  unfold iorBody
  rw [iorWord_eq h1 h2 h.src1 h.src2 hset]
  change ∃ s', (noticeChange dst p (orWord v1 v2 p) s.changed >>= _) = Except.ok s' ∧ _
  rw [noticeChange_eq hW hd]
  have hbuilt : Built (orWord v1 v2) p
      { s with
        src1eltindex := place v1 (p + 1)
        src2eltindex := place v2 (p + 1)
        changed := s.changed || decide (v p = 0#W ∨ v p ≠ orWord v1 v2 p) } := h.toBuilt.congr rfl rfl
  refine ⟨_, rfl, hbuilt.put hne, rfl, rfl, ?_⟩
  change (s.changed || decide _) = true ↔ _
  rw [Bool.or_eq_true, decide_eq_true_iff, h.changed, exists_lt_succ_iff]
  refine or_congr_right ⟨?_, fun hdiff => Or.inr hdiff.2⟩
  rintro (hzero | hdiff)
  · exact ⟨hne, fun hc => hne (hc ▸ hzero)⟩
  · exact ⟨hne, hdiff⟩

/-- A word that neither operand has. -/
theorem IorInv.pass (h : IorInv v v1 v2 p s) (h1 : v1 p = 0#W) (h2 : v2 p = 0#W) : IorInv v v1 v2 (p + 1) s := by
  have hzero : orWord v1 v2 p = 0#W := orWord_eq_zero_iff.mpr ⟨h1, h2⟩
  refine ⟨h.toBuilt.skip hzero, h.src1.trans (place_succ_zero h1).symm, h.src2.trans (place_succ_zero h2).symm, ?_⟩
  rw [h.changed, exists_lt_succ_iff]
  exact (or_iff_left fun hc => hc.1 hzero).symm

/-- **`dst = src1 | src2`** leaves the union if a word of it is not that of the destination, and the destination otherwise.
Source: `ebitmap.c` `ebitmap_ior`
Kind: L -/
theorem ebitmapIor_spec (mem : Fresh W) (hW : 0 < W) (h : Formed dst v) (h1 : Formed src1 v1) (h2 : Formed src2 v2) :
    ∃ dst' changed, ebitmapIor mem dst src1 src2 = some (.ok (dst', changed)) ∧
      (changed = true ↔ ∃ w, orWord v1 v2 w ≠ 0#W ∧ v w ≠ orWord v1 v2 w) ∧
      Formed dst' (if changed then orWord v1 v2 else v) := by
  have hd : Formed { dst with cache := none } v := h.map_cache
  obtain ⟨m, hmask, hm, hcnt⟩ := iorMask_spec mem hW h1 h2
  have hbit : ∀ p < m.nBits, m.testBit p = decide (v1 p ≠ 0#W ∨ v2 p ≠ 0#W) := by
    intro p hp
    rw [← hm.has, SimpleBitmap.has, decide_eq_true hp, Bool.true_and]
  have hstart : IorInv v v1 v2 0 ⟨m, mem.words, 0, 0, 0, false⟩ :=
    ⟨⟨(Nat.count_zero _).symm, fun w hw => absurd hw (Nat.not_lt_zero w)⟩, (Nat.count_zero _).symm, (Nat.count_zero _).symm,
      changed_start⟩
  obtain ⟨s, hloop, hinv⟩ := executeAll_spec hW (fun _ : MergeState W => m)
    (iorBody { dst with cache := none } src1 src2) hm.wf (fun _ _ _ _ => ⟨rfl, fun _ _ => rfl⟩) (IorInv v v1 v2) hstart
    (fun p s hp hset hinv => hinv.step hW hd h1 h2 (of_decide_eq_true ((hbit p hp).symm.trans hset)))
    (fun p s hp hclear hinv => by
      have hnone := of_decide_eq_false ((hbit p hp).symm.trans hclear)
      rw [not_or, not_not, not_not] at hnone
      exact hinv.pass hnone.1 hnone.2)
  rw [hm.nBits] at hinv
  have hbeyond : ∀ w, max src1.wordmask.nBits src2.wordmask.nBits ≤ w → orWord v1 v2 w = 0#W :=
    fun w hw => orWord_eq_zero_iff.mpr ⟨h1.beyond w (by omega), h2.beyond w (by omega)⟩
  have hflag : s.changed = true ↔ ∃ w, orWord v1 v2 w ≠ 0#W ∧ v w ≠ orWord v1 v2 w := by
    rw [hinv.changed]
    constructor
    · rintro ⟨w, -, hw⟩
      exact ⟨w, hw⟩
    · rintro ⟨w, hw⟩
      exact ⟨w, not_le.mp fun hge => hw.1 (hbeyond w hge), hw⟩
  have hroom : place (orWord v1 v2) (max src1.wordmask.nBits src2.wordmask.nBits) ≤ src1.numwords + src2.numwords := by
    calc place (orWord v1 v2) (max src1.wordmask.nBits src2.wordmask.nBits)
        ≤ place v1 (max src1.wordmask.nBits src2.wordmask.nBits) + place v2 (max src1.wordmask.nBits src2.wordmask.nBits) :=
          place_orWord_le _
      _ = src1.numwords + src2.numwords := by
          rw [h1.toStored.place_of_ge (Nat.le_max_left _ _), h2.toStored.place_of_ge (Nat.le_max_right _ _)]
  have hsmall : max src1.wordmask.nBits src2.wordmask.nBits + W ≤ 2 ^ 32 := by
    have := h1.small
    have := h2.small
    omega
  have hhas : ∀ w, m.has w = decide (orWord v1 v2 w ≠ 0#W) := by
    intro w
    rw [hm.has, decide_eq_decide, ne_eq (orWord v1 v2 w), orWord_eq_zero_iff, not_and_or]
  obtain ⟨dst', hreplace, hformed⟩ := hinv.toBuilt.formed hm.wf hm.nBits hhas hroom hcnt hsmall fun _ => hd
  refine ⟨dst', s.changed, ?_, hflag, hformed⟩
  rw [ebitmapIor, hmask]
  dsimp only
  rw [hloop, Option.map_some, Except.map, hreplace]

end Loops

end GccCore.Gcc.Ebitmap
