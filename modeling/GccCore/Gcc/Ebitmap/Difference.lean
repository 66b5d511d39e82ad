import GccCore.Gcc.Ebitmap.Union

/-!
# `gcc/ebitmap.c`: differences, and what unions and differences leave

* **`ebitmap_and_compl_into`** takes the words that become zero out of the mask, but does not move a word that stays as it is to its
  new place: what is stored for such a word (`leftWord`) is what the array holds there.
* **`ebitmap_and_compl`** compares a word with the destination also if it is zero, so that it may announce a change that is none.
* **What is left** (`ebitmap_union_difference_iff`): for each function, the condition under which the destination denotes the
  union or the difference and the return value says whether it has changed.
-/

namespace GccCore.Gcc.Ebitmap

open GccCore.Gcc.Sbitmap GccCore.Lib.BitScan GccCore.Lib.Count

variable {W : ℕ}

/-! ## The code -/

/-- The word `i` of the difference, which is stored or taken out of the mask.
Source: `ebitmap.c` `ebitmap_and_compl` (`tmpword`) -/
def andComplWord (src1 src2 : EbitmapDef W) (i : ℕ) (s : MergeState W) : Except Failure (BitVec W × MergeState W) :=
  if src2.wordmask.has i then do
    let word1 ← ebitmapArrayGet src1 s.src1eltindex
    let word2 ← ebitmapArrayGet src2 (sbitmapPopcount src2.wordmask i)
    let tmpword := word1 &&& ~~~word2
    let s := { s with src1eltindex := s.src1eltindex + 1 }
    if tmpword ≠ 0#W then .ok (tmpword, s.put tmpword)
    else .ok (tmpword, { s with wordmask := resetBit s.wordmask i })
  else do
    let tmpword ← ebitmapArrayGet src1 s.src1eltindex
    let s := { s with src1eltindex := s.src1eltindex + 1 }
    if tmpword ≠ 0#W then .ok (tmpword, s.put tmpword) else .error .assertion

/-- The body of the loop. Source: `ebitmap.c` `ebitmap_and_compl`. -/
def andComplBody (dst src1 src2 : EbitmapDef W) (i : ℕ) (s : MergeState W) : Except Failure (MergeState W) := do
  let (tmpword, s) ← andComplWord src1 src2 i s
  let changed ← noticeChange dst i tmpword s.changed
  .ok { s with changed := changed }

/-- `dst = src1 & ~src2`. Source: `ebitmap.c` `ebitmap_and_compl`. -/
def ebitmapAndCompl (mem : Fresh W) (dst src1 src2 : EbitmapDef W) : Option (Except Failure (EbitmapDef W × Bool)) :=
  let dst := { dst with cache := none }
  let tempmask := sbitmapZero (sbitmapAllocWithPopcount W src1.wordmask.nBits mem.words mem.counts)
  match sbitmapCopy tempmask src1.wordmask with
  | none => some (.error .outOfBounds)
  | some tempmask =>
    (executeAll (fun _ => src1.wordmask) (andComplBody dst src1 src2) ⟨tempmask, mem.words, 0, 0, 0, false⟩).map fun r =>
      r.map fun s => replaceIfChanged dst s.wordmask src1.numwords s

/-- The destination and the local variables. Source: `ebitmap.c` `ebitmap_and_compl_into`. -/
structure AndComplState (W : ℕ) extends Target W where
  dsteltindex : ℕ
  changed : Bool

/-- The body of the loop. Source: `ebitmap.c` `ebitmap_and_compl_into`. -/
def andComplIntoBody (src : EbitmapDef W) (i : ℕ) (s : AndComplState W) : Except Failure (AndComplState W) :=
  if src.wordmask.has i then do
    let word ← ebitmapArrayGet s.dst s.dsteltindex
    let srcword ← ebitmapArrayGet src (sbitmapPopcount src.wordmask i)
    let tmpword := word &&& ~~~srcword
    .ok ⟨storeWord s.toTarget i tmpword, s.dsteltindex + 1, s.changed || word != tmpword⟩
  else .ok ⟨⟨s.dst, s.neweltindex + 1⟩, s.dsteltindex + 1, s.changed⟩

/-- `dst &= ~src`, of two bitmaps. Source: `ebitmap.c` `ebitmap_and_compl_into`. -/
def ebitmapAndComplInto (dst src : EbitmapDef W) : Option (Except Failure (EbitmapDef W × Bool)) :=
  let dst := { dst with cache := none }
  if src.numwords = 0 then some (.ok (dst, false))
  else
    (executeAll (fun s : AndComplState W => s.dst.wordmask) (andComplIntoBody src) ⟨⟨dst, 0⟩, 0, false⟩).map fun r =>
      r.map fun s => ({ s.dst with numwords := s.neweltindex }, s.changed)

/-! ## The words of the difference -/

section Words

variable {v v1 v2 : ℕ → BitVec W} {w : ℕ}

/-- The words of the difference. -/
def diffWord (v1 v2 : ℕ → BitVec W) (w : ℕ) : BitVec W := v1 w &&& ~~~v2 w

theorem diffWord_of_zero (h : v1 w = 0#W) : diffWord v1 v2 w = 0#W := by rw [diffWord, h, BitVec.zero_and]

/-- A word that the second operand does not have stays. -/
theorem diffWord_of_right_zero (h : v2 w = 0#W) : diffWord v1 v2 w = v1 w := by
  rw [diffWord, h, BitVec.not_zero, BitVec.and_allOnes]

/-- A difference has no more words than its first operand. Source: `ebitmap.c` `ebitmap_and_compl` (`newarraysize`). Kind: L -/
theorem place_diffWord_le (w : ℕ) : place (diffWord v1 v2) w ≤ place v1 w :=
  place_mono_left (fun _ hne hzero => hne (diffWord_of_zero hzero)) w

end Words

/-! ## `ebitmap_and_compl` -/

section AndCompl

variable {dst src1 src2 : EbitmapDef W} {v v1 v2 : ℕ → BitVec W} {n p : ℕ} {s : MergeState W}

/-- The state before the word `p`. Source: `ebitmap.c` `ebitmap_and_compl`. -/
structure AndComplInv (v1 v2 : ℕ → BitVec W) (n p : ℕ) (s : MergeState W) : Prop extends Built (diffWord v1 v2) p s where
  src1 : s.src1eltindex = place v1 p
  mask : WellFormed s.wordmask
  nBits : s.wordmask.nBits = n
  counted : s.wordmask.popcount.isSome = true
  has : ∀ w, s.wordmask.has w = if w < p then decide (diffWord v1 v2 w ≠ 0#W) else decide (v1 w ≠ 0#W)

/-- The mask behind a word of the difference. -/
theorem AndComplInv.has_succ (h : AndComplInv v1 v2 n p s) (hsame : diffWord v1 v2 p ≠ 0#W ↔ v1 p ≠ 0#W) (w : ℕ) :
    s.wordmask.has w = if w < p + 1 then decide (diffWord v1 v2 w ≠ 0#W) else decide (v1 w ≠ 0#W) := by
  rw [h.has]
  by_cases hw : w = p
  · rw [hw, if_neg (lt_irrefl p), if_pos (Nat.lt_succ_self p), decide_eq_decide.mpr hsame]
  · by_cases hlt : w < p
    · rw [if_pos hlt, if_pos (by omega)]
    · rw [if_neg hlt, if_neg (by omega)]

/-- **The next word is stored.** Source: `ebitmap.c` `ebitmap_and_compl` (`newarray[neweltindex++] = tmpword`). Kind: L -/
theorem AndComplInv.put (h : AndComplInv v1 v2 n p s) (hne : diffWord v1 v2 p ≠ 0#W) :
    AndComplInv v1 v2 n (p + 1) ({ s with src1eltindex := s.src1eltindex + 1 }.put (diffWord v1 v2 p)) := by
  have hv1 : v1 p ≠ 0#W := fun hc => hne (diffWord_of_zero hc)
  have hbuilt : Built (diffWord v1 v2) p { s with src1eltindex := s.src1eltindex + 1 } := h.toBuilt.congr rfl rfl
  refine ⟨hbuilt.put hne, ?_, h.mask, h.nBits, h.counted, h.has_succ (iff_of_true hne hv1)⟩
  change s.src1eltindex + 1 = _
  rw [h.src1, place_succ hv1]

/-- **A word that becomes zero** leaves the mask. Source: `ebitmap.c` `ebitmap_and_compl` (`RESET_BIT`). Kind: L -/
theorem AndComplInv.reset (hW : 0 < W) (hW' : W < 256) (h : AndComplInv v1 v2 n p s) (hv1 : v1 p ≠ 0#W)
    (hzero : diffWord v1 v2 p = 0#W) :
    AndComplInv v1 v2 n (p + 1) { s with src1eltindex := s.src1eltindex + 1, wordmask := resetBit s.wordmask p } := by
  obtain ⟨hwf, hn, -⟩ := resetBit_spec hW hW' h.mask p
  refine ⟨(h.toBuilt.skip hzero).congr rfl rfl, ?_, hwf, hn.trans h.nBits, (isSome_resetBit _ _).trans h.counted, fun w => ?_⟩
  · change s.src1eltindex + 1 = _
    rw [h.src1, place_succ hv1]
  · change (resetBit s.wordmask p).has w = _
    rw [has_resetBit hW hW' h.mask, h.has]
    by_cases hw : w = p
    · rw [hw, decide_eq_true rfl, Bool.not_true, Bool.and_false, if_pos (Nat.lt_succ_self p),
        decide_eq_false (not_not.mpr hzero)]
    · rw [decide_eq_false hw, Bool.not_false, Bool.and_true]
      by_cases hlt : w < p
      · rw [if_pos hlt, if_pos (by omega)]
      · rw [if_neg hlt, if_neg (by omega)]

/-- **One word** of the first operand. Source: `ebitmap.c` `ebitmap_and_compl` (`tmpword`). Kind: L -/
theorem andComplWord_spec (hW : 0 < W) (hW' : W < 256) (h1 : Formed src1 v1) (h2 : Formed src2 v2)
    (h : AndComplInv v1 v2 n p s) (hv1 : v1 p ≠ 0#W) :
    ∃ s', andComplWord src1 src2 p s = .ok (diffWord v1 v2 p, s') ∧ AndComplInv v1 v2 n (p + 1) s' ∧
      s'.changed = s.changed := by
  unfold andComplWord
  rw [h2.has_eq, h.src1, h1.get_place hv1]
  by_cases hv2 : v2 p = 0#W
  · rw [decide_eq_false (not_not.mpr hv2), if_neg Bool.false_ne_true]
    have hdiff : diffWord v1 v2 p = v1 p := diffWord_of_right_zero hv2
    change ∃ s', (if v1 p ≠ 0#W then _ else _) = _ ∧ _
    rw [if_pos hv1, ← hdiff, ← h.src1]
    exact ⟨_, rfl, h.put (hdiff ▸ hv1), rfl⟩
  · rw [decide_eq_true hv2, if_pos rfl, h2.toStored.popcount_eq hW (h2.lt_nBits hv2).le, h2.get_place hv2, ← h.src1]
    change ∃ s', (if diffWord v1 v2 p ≠ 0#W then _ else _) = _ ∧ _
    by_cases hzero : diffWord v1 v2 p = 0#W
    · rw [if_neg (not_not.mpr hzero)]
      exact ⟨_, rfl, h.reset hW hW' hv1 hzero, rfl⟩
    · rw [if_pos hzero]
      exact ⟨_, rfl, h.put hzero, rfl⟩

/-- A word that the first operand does not have. -/
theorem AndComplInv.pass (h : AndComplInv v1 v2 n p s) (hv1 : v1 p = 0#W) : AndComplInv v1 v2 n (p + 1) s :=
  ⟨h.toBuilt.skip (diffWord_of_zero hv1), h.src1.trans (place_succ_zero hv1).symm, h.mask, h.nBits, h.counted,
    h.has_succ (iff_of_false (not_not.mpr (diffWord_of_zero hv1)) (not_not.mpr hv1))⟩

/-- **`dst = src1 & ~src2`** leaves the difference if a word of `src1` has become one that the destination does not have, zero
included, and the destination otherwise.
Source: `ebitmap.c` `ebitmap_and_compl`
Kind: L -/
theorem ebitmapAndCompl_spec (mem : Fresh W) (hW : 0 < W) (hW' : W < 256) (h : Formed dst v) (h1 : Formed src1 v1)
    (h2 : Formed src2 v2) :
    ∃ dst' changed, ebitmapAndCompl mem dst src1 src2 = some (.ok (dst', changed)) ∧
      (changed = true ↔ ∃ w, v1 w ≠ 0#W ∧ (v w = 0#W ∨ v w ≠ diffWord v1 v2 w)) ∧
      Formed dst' (if changed then diffWord v1 v2 else v) := by
  obtain ⟨-, hcnt0, -⟩ := sbitmapZero_spec hW
    (s := sbitmapAllocWithPopcount W src1.wordmask.nBits mem.words mem.counts) (sbitmapSetSize_eq h1.small)
  obtain ⟨m, hcopy, hwf, hn, hcnt, hbits⟩ := sbitmapCopy_spec hW
    (s := sbitmapZero (sbitmapAllocWithPopcount W src1.wordmask.nBits mem.words mem.counts)) (sbitmapSetSize_eq h1.small)
    h1.mask rfl hcnt0 h1.counted
  have hhas : ∀ w, m.has w = decide (v1 w ≠ 0#W) := by
    intro w
    rw [← h1.has_eq, SimpleBitmap.has, SimpleBitmap.has, hn]
    by_cases hw : w < src1.wordmask.nBits
    · rw [hbits w hw]
    · rw [decide_eq_false hw, Bool.false_and, Bool.false_and]
  have hstart : AndComplInv v1 v2 src1.wordmask.nBits 0 ⟨m, mem.words, 0, 0, 0, false⟩ :=
    ⟨⟨(Nat.count_zero _).symm, fun w hw => absurd hw (Nat.not_lt_zero w)⟩, (Nat.count_zero _).symm, hwf, hn, hcnt,
      fun w => by rw [if_neg (Nat.not_lt_zero w), hhas]⟩
  obtain ⟨s, hloop, hinv, hchanged⟩ := executeAll_spec hW (fun _ : MergeState W => src1.wordmask)
    (andComplBody { dst with cache := none } src1 src2) h1.mask (fun _ _ _ _ => ⟨rfl, fun _ _ => rfl⟩)
    (fun p s => AndComplInv v1 v2 src1.wordmask.nBits p s ∧
      (s.changed = true ↔ ∃ w < p, v1 w ≠ 0#W ∧ (v w = 0#W ∨ v w ≠ diffWord v1 v2 w)))
    ⟨hstart, changed_start⟩
    (fun p s hp hset hcur => by
      obtain ⟨hinv, hchanged⟩ := hcur
      have hv1 : v1 p ≠ 0#W := (h1.present p hp).mp hset
      obtain ⟨s', hword, hinv', hsame⟩ := andComplWord_spec hW hW' h1 h2 hinv hv1
      unfold andComplBody
      rw [hword]
      change ∃ c, (noticeChange { dst with cache := none } p (diffWord v1 v2 p) s'.changed >>= _) = Except.ok c ∧ _
      rw [noticeChange_eq hW h.map_cache, hsame]
      refine ⟨_, rfl, ⟨hinv'.toBuilt.congr rfl rfl, hinv'.src1, hinv'.mask, hinv'.nBits, hinv'.counted, hinv'.has⟩, ?_⟩
      change (s.changed || decide _) = true ↔ _
      rw [Bool.or_eq_true, decide_eq_true_iff, hchanged, exists_lt_succ_iff, and_iff_right hv1])
    (fun p s hp hclear hcur => by
      obtain ⟨hinv, hchanged⟩ := hcur
      have hv1 : v1 p = 0#W := not_not.mp fun hc => by rw [(h1.present p hp).mpr hc] at hclear; cases hclear
      refine ⟨hinv.pass hv1, ?_⟩
      rw [hchanged, exists_lt_succ_iff]
      exact (or_iff_left fun hc => hc.1 hv1).symm)
  have hflag : s.changed = true ↔ ∃ w, v1 w ≠ 0#W ∧ (v w = 0#W ∨ v w ≠ diffWord v1 v2 w) := by
    rw [hchanged]
    constructor
    · rintro ⟨w, -, hw⟩
      exact ⟨w, hw⟩
    · rintro ⟨w, hw⟩
      exact ⟨w, h1.lt_nBits hw.1, hw⟩
  have hall : ∀ w, s.wordmask.has w = decide (diffWord v1 v2 w ≠ 0#W) := by
    intro w
    rw [hinv.has]
    split_ifs with hw
    · rfl
    · have hzero := h1.beyond w (not_lt.mp hw)
      rw [hzero, diffWord_of_zero hzero]
  have hroom : place (diffWord v1 v2) src1.wordmask.nBits ≤ src1.numwords :=
    (place_diffWord_le _).trans h1.numwords.symm.le
  obtain ⟨dst', hreplace, hformed⟩ := hinv.toBuilt.formed hinv.mask hinv.nBits hall hroom hinv.counted h1.small
    fun _ => h.map_cache
  refine ⟨dst', s.changed, ?_, hflag, hformed⟩
  rw [ebitmapAndCompl, hcopy]
  dsimp only
  rw [hloop, Option.map_some, Except.map, hreplace]

end AndCompl

/-! ## `ebitmap_and_compl_into` -/

section AndComplInto

variable {dst src d : EbitmapDef W} {v v1 v2 : ℕ → BitVec W} {w p : ℕ} {s : AndComplState W}

/-- The word that is stored for the word `w`: if the second operand does not have it, it is what the array holds at its new place.
Source: `ebitmap.c` `ebitmap_and_compl_into` (`neweltindex++`) -/
def leftWord (dst : EbitmapDef W) (v1 v2 : ℕ → BitVec W) (w : ℕ) : BitVec W :=
  if v1 w ≠ 0#W ∧ v2 w = 0#W then dst.elts (place (diffWord v1 v2) w) else diffWord v1 v2 w

/-- The words that are left are those of the difference. -/
theorem leftWord_ne_zero_iff (h1 : Stored dst v1) : leftWord dst v1 v2 w ≠ 0#W ↔ diffWord v1 v2 w ≠ 0#W := by
  unfold leftWord
  split_ifs with hstays
  · have hlt : place (diffWord v1 v2) w < dst.numwords := (place_diffWord_le w).trans_lt (h1.place_lt hstays.1)
    have hdiff : diffWord v1 v2 w = v1 w := diffWord_of_right_zero hstays.2
    exact iff_of_true (h1.elts_ne_zero hlt) (hdiff ▸ hstays.1)
  · exact Iff.rfl

/-- They have the places of the words of the difference. -/
theorem place_leftWord (h1 : Stored dst v1) (w : ℕ) : place (leftWord dst v1 v2) w = place (diffWord v1 v2) w :=
  count_congr fun _ _ => leftWord_ne_zero_iff h1

theorem leftWord_of_zero (hv1 : v1 w = 0#W) : leftWord dst v1 v2 w = 0#W := by
  rw [leftWord, if_neg fun hc => hc.1 hv1, diffWord_of_zero hv1]

/-- The state before the word `p`. Source: `ebitmap.c` `ebitmap_and_compl_into`. -/
structure AndComplIntoInv (d : EbitmapDef W) (v1 v2 : ℕ → BitVec W) (p : ℕ) (s : AndComplState W) : Prop
    extends StoreInv d (leftWord d v1 v2) p s.toTarget where
  src1 : s.dsteltindex = place v1 p
  changed : s.changed = true ↔ ∃ w < p, diffWord v1 v2 w ≠ v1 w

/-- The next word of the destination has not been written over. Source: `ebitmap.c` `ebitmap_and_compl_into`. Kind: L -/
theorem AndComplIntoInv.get (h1 : Formed d v1) (h : AndComplIntoInv d v1 v2 p s) (hv1 : v1 p ≠ 0#W) :
    ebitmapArrayGet s.dst s.dsteltindex = .ok (v1 p) := by
  have hbehind : place (leftWord d v1 v2) p ≤ place v1 p := by
    rw [place_leftWord h1.toStored]
    exact place_diffWord_le p
  have hin : place v1 p < s.dst.nElts := (h1.place_lt hv1).trans_le (h1.room.trans h.grown)
  rw [ebitmapArrayGet, h.src1, if_pos hin, h.rest _ hbehind, h1.word p hv1]

/-- **One word** of the destination. Source: `ebitmap.c` `ebitmap_and_compl_into`. Kind: L -/
theorem AndComplIntoInv.step (hW : 0 < W) (hW' : W < 256) (h1 : Formed d v1) (h2 : Formed src v2)
    (h : AndComplIntoInv d v1 v2 p s) (hset : d.wordmask.testBit p = true) (hv1 : v1 p ≠ 0#W) :
    ∃ s', andComplIntoBody src p s = .ok s' ∧ AndComplIntoInv d v1 v2 (p + 1) s' := by
  have hindex : s.dsteltindex + 1 = place v1 (p + 1) := by rw [h.src1, place_succ hv1]
  unfold andComplIntoBody
  rw [h2.has_eq]
  by_cases hv2 : v2 p = 0#W
  · have hdiff : diffWord v1 v2 p = v1 p := diffWord_of_right_zero hv2
    have hleft : leftWord d v1 v2 p ≠ 0#W := (leftWord_ne_zero_iff h1.toStored).mpr (hdiff ▸ hv1)
    have hplace : place (leftWord d v1 v2) p = place (diffWord v1 v2) p := place_leftWord h1.toStored p
    rw [decide_eq_false (not_not.mpr hv2), if_neg Bool.false_ne_true]
    refine ⟨_, rfl, h.toStoreInv.keep hset hleft ?_ ?_, hindex, ?_⟩
    · rw [hplace, leftWord, if_pos ⟨hv1, hv2⟩]
    · rw [hplace]
      exact (place_diffWord_le p).trans_lt ((h1.place_lt hv1).trans_le h1.room)
    · change s.changed = true ↔ _
      rw [h.changed, exists_lt_succ_iff]
      exact (or_iff_left fun hc => hc hdiff).symm
  · have hleft : leftWord d v1 v2 p = diffWord v1 v2 p := if_neg fun hc => hv2 hc.2
    rw [decide_eq_true hv2, if_pos rfl, h.get h1 hv1, h2.toStored.popcount_eq hW (h2.lt_nBits hv2).le, h2.get_place hv2]
    have hstore := h.toStoreInv.store hW hW' hset
    rw [hleft] at hstore
    refine ⟨_, rfl, hstore, hindex, ?_⟩
    change (s.changed || v1 p != diffWord v1 v2 p) = true ↔ _
    rw [Bool.or_eq_true, bne_iff_ne, h.changed, exists_lt_succ_iff, ne_comm (a := v1 p)]

/-- A word that the destination does not have. -/
theorem AndComplIntoInv.pass (h : AndComplIntoInv d v1 v2 p s) (hclear : d.wordmask.testBit p = false) (hv1 : v1 p = 0#W) :
    AndComplIntoInv d v1 v2 (p + 1) s := by
  refine ⟨h.toStoreInv.pass hclear (leftWord_of_zero hv1), h.src1.trans (place_succ_zero hv1).symm, ?_⟩
  rw [h.changed, exists_lt_succ_iff, diffWord_of_zero hv1, hv1]
  exact (or_iff_left fun hc => hc rfl).symm

/-- A round of the loop keeps the mask behind its word. Source: `ebitmap.c` `ebitmap_and_compl_into`. Kind: L -/
theorem andComplIntoBody_keeps (hW : 0 < W) {i : ℕ} {s s' : AndComplState W} (h : andComplIntoBody src i s = .ok s') :
    s'.dst.wordmask.size = s.dst.wordmask.size ∧ ∀ j > i, s'.dst.wordmask.testBit j = s.dst.wordmask.testBit j := by
  unfold andComplIntoBody at h
  split_ifs at h
  · cases hget : ebitmapArrayGet s.dst s.dsteltindex with
    | error e => rw [hget] at h; cases h
    | ok word =>
      rw [hget] at h
      cases hget' : ebitmapArrayGet src (sbitmapPopcount src.wordmask i) with
      | error e => rw [hget'] at h; cases h
      | ok srcword =>
        rw [hget'] at h
        obtain rfl := Except.ok.inj h
        obtain ⟨hsize, hbits⟩ := storeWord_keeps hW s.toTarget i (word &&& ~~~srcword)
        exact ⟨hsize, fun j hj => hbits j (by omega)⟩
  · obtain rfl := Except.ok.inj h
    exact ⟨rfl, fun _ _ => rfl⟩

/-- **`dst &= ~src`** leaves the words of `leftWord`, and says whether the difference is another set.
Source: `ebitmap.c` `ebitmap_and_compl_into`
Kind: L -/
theorem ebitmapAndComplInto_spec (hW : 0 < W) (hW' : W < 256) (h1 : Formed dst v1) (h2 : Formed src v2) :
    ∃ dst' changed, ebitmapAndComplInto dst src = some (.ok (dst', changed)) ∧ Formed dst' (leftWord dst v1 v2) ∧
      (changed = true ↔ diffWord v1 v2 ≠ v1) := by
  unfold ebitmapAndComplInto
  dsimp only
  split_ifs with hempty
  · have hv2 := h2.toStored.eq_zero_of_empty hempty
    have hdiff : diffWord v1 v2 = v1 := funext fun w => diffWord_of_right_zero (congrFun hv2 w)
    have hleft : leftWord dst v1 v2 = v1 := by
      funext w
      by_cases hv1 : v1 w = 0#W
      · rw [leftWord_of_zero hv1, hv1]
      · rw [leftWord, if_pos ⟨hv1, congrFun hv2 w⟩, hdiff, h1.word w hv1]
    rw [hleft, hdiff]
    exact ⟨_, false, rfl, h1.map_cache, iff_of_false Bool.false_ne_true fun hc => hc rfl⟩
  · have h1' := h1.map_cache
    have hstart : AndComplIntoInv { dst with cache := none } v1 v2 0 ⟨⟨{ dst with cache := none }, 0⟩, 0, false⟩ :=
      ⟨StoreInv.start h1.mask h1.counted, (Nat.count_zero _).symm,
        changed_start⟩
    obtain ⟨s, hloop, hinv⟩ := executeAll_spec hW (fun s : AndComplState W => s.dst.wordmask) (andComplIntoBody src)
      (b := ⟨⟨{ dst with cache := none }, 0⟩, 0, false⟩) h1.mask (fun _ _ _ => andComplIntoBody_keeps hW)
      (AndComplIntoInv { dst with cache := none } v1 v2) hstart
      (fun p s hp hset hinv => hinv.step hW hW' h1' h2 hset ((h1.present p hp).mp hset))
      (fun p s hp hclear hinv => hinv.pass hclear
        (not_not.mp fun hc => Bool.eq_false_iff.mp hclear ((h1.present p hp).mpr hc)))
    have hformed := hinv.toStoreInv.formed h1.small fun w hw => leftWord_of_zero (h1.beyond w hw)
    refine ⟨_, s.changed, by rw [hloop, Option.map_some, Except.map], hformed, ?_⟩
    rw [hinv.changed]
    exact exists_ne_iff fun w hw => by rw [diffWord_of_zero (h1.beyond w hw), h1.beyond w hw]

end AndComplInto

/-! ## What is left -/

section Both

variable {dst src1 src2 : EbitmapDef W} {v v1 v2 r : ℕ → BitVec W} {S S1 S2 T : Finset ℕ}

/-- The call ends, leaves a bitmap for the set `T`, and says whether that is another set than `S`.
Source: `ebitmap.c` ("Return true if any bit in DST has changed") -/
def Outcome (result : Option (Except Failure (EbitmapDef W × Bool))) (S T : Finset ℕ) : Prop :=
  ∃ dst' changed, result = some (.ok (dst', changed)) ∧ Denotes dst' T ∧ (changed = true ↔ T ≠ S)

/-- A call has the outcome exactly if its words and its return value are right. -/
theorem outcome_iff (hW : 0 < W) {result : Option (Except Failure (EbitmapDef W × Bool))} {dst' : EbitmapDef W}
    {changed : Bool} {val : ℕ → BitVec W} (heq : result = some (.ok (dst', changed))) (hformed : Formed dst' val)
    (hS : Words S v) (hT : Words T r) : Outcome result S T ↔ val = r ∧ (changed = true ↔ r ≠ v) := by
  rw [← (words_eq_iff hW hT hS).ne]
  constructor
  · rintro ⟨dst'', changed', heq', ⟨val', hformed', hval'⟩, hflag⟩
    obtain ⟨rfl, rfl⟩ := Prod.mk.inj (Except.ok.inj (Option.some.inj (heq.symm.trans heq')))
    obtain rfl := hformed.toStored.unique hformed'.toStored
    exact ⟨hval'.unique hW hT, hflag⟩
  · rintro ⟨rfl, hflag⟩
    exact ⟨dst', changed, heq, ⟨val, hformed, hT⟩, hflag⟩

/-- A call that replaces the destination when it announces a change has the outcome exactly if it announces the changes.
Source: `ebitmap.c` `ebitmap_ior`, `ebitmap_and_compl` (`if (changed)`)
Kind: L -/
theorem outcome_replaced_iff (hW : 0 < W) {result : Option (Except Failure (EbitmapDef W × Bool))} {dst' : EbitmapDef W}
    {changed : Bool} (heq : result = some (.ok (dst', changed))) (hformed : Formed dst' (if changed then r else v))
    (hS : Words S v) (hT : Words T r) : Outcome result S T ↔ (changed = true ↔ r ≠ v) := by
  rw [outcome_iff hW heq hformed hS hT]
  refine and_iff_right_of_imp fun hflag => ?_
  split_ifs with hchanged
  · rfl
  · exact (not_not.mp fun hc => hchanged (hflag.mpr hc)).symm

/-- What the loop of `ebitmap_ior` announces is a change; it is every change unless the destination has the words of the union and
others.
Source: `ebitmap.c` `ebitmap_ior`
Kind: L -/
theorem ior_announces_iff :
    ((∃ w, orWord v1 v2 w ≠ 0#W ∧ v w ≠ orWord v1 v2 w) ↔ orWord v1 v2 ≠ v) ↔
      (∀ w, v1 w = 0#W → v2 w = 0#W → v w = 0#W) ∨ ∃ w, (v1 w ≠ 0#W ∨ v2 w ≠ 0#W) ∧ v w ≠ v1 w ||| v2 w := by
  have hset : ∀ w, orWord v1 v2 w ≠ 0#W ↔ v1 w ≠ 0#W ∨ v2 w ≠ 0#W := by
    intro w
    rw [ne_eq, orWord_eq_zero_iff, not_and_or]
  constructor
  · intro hiff
    by_cases hex : ∃ w, orWord v1 v2 w ≠ 0#W ∧ v w ≠ orWord v1 v2 w
    · obtain ⟨w, hne, hdiff⟩ := hex
      exact Or.inr ⟨w, (hset w).mp hne, hdiff⟩
    · have hsame : orWord v1 v2 = v := not_not.mp fun hc => hex (hiff.mpr hc)
      refine Or.inl fun w h1 h2 => ?_
      rw [← hsame]
      exact orWord_eq_zero_iff.mpr ⟨h1, h2⟩
  · intro hcond
    refine ⟨fun ⟨w, _, hdiff⟩ hc => hdiff (congrFun hc w).symm, fun hne => ?_⟩
    rcases hcond with hnone | ⟨w, hw, hdiff⟩
    · obtain ⟨w, hdiff⟩ := Function.ne_iff.mp hne
      refine ⟨w, fun hzero => hdiff ?_, Ne.symm hdiff⟩
      obtain ⟨h1, h2⟩ := orWord_eq_zero_iff.mp hzero
      rw [hzero, hnone w h1 h2]
    · exact ⟨w, (hset w).mpr hw, hdiff⟩

/-- What the loop of `ebitmap_and_compl` announces is a change, unless the destination is the difference already and a word of
`src1` becomes zero.
Source: `ebitmap.c` `ebitmap_and_compl`
Kind: L -/
theorem andCompl_announces_iff :
    ((∃ w, v1 w ≠ 0#W ∧ (v w = 0#W ∨ v w ≠ diffWord v1 v2 w)) ↔ diffWord v1 v2 ≠ v) ↔
      (v = diffWord v1 v2 → ∀ w, v1 w ≠ 0#W → diffWord v1 v2 w ≠ 0#W) ∧
        (v ≠ diffWord v1 v2 → ∃ w, v1 w ≠ 0#W ∧ (v w = 0#W ∨ v w ≠ diffWord v1 v2 w)) := by
  by_cases hsame : v = diffWord v1 v2
  · rw [iff_false_right (not_not.mpr hsame.symm), and_iff_left fun hc => absurd hsame hc]
    constructor
    · intro hnone _ w hv1 hzero
      exact hnone ⟨w, hv1, Or.inl (congrFun hsame w ▸ hzero)⟩
    · rintro hall ⟨w, hv1, hzero | hdiff⟩
      · exact hall hsame w hv1 (congrFun hsame w ▸ hzero)
      · exact hdiff (congrFun hsame w)
  · rw [iff_true_right (Ne.symm hsame), and_iff_right fun hc => absurd hc hsame]
    exact (imp_iff_right hsame).symm

/-- What is stored is the difference exactly if each word that stays is in the array at its new place already.
Source: `ebitmap.c` `ebitmap_and_compl_into`
Kind: L -/
theorem leftWord_eq_iff :
    leftWord dst v1 v2 = diffWord v1 v2 ↔
      ∀ w, v1 w ≠ 0#W → v2 w = 0#W → dst.elts (place (diffWord v1 v2) w) = v1 w := by
  constructor
  · intro heq w h1 h2
    have hw := congrFun heq w
    rwa [leftWord, if_pos ⟨h1, h2⟩, diffWord_of_right_zero h2] at hw
  · intro hcond
    funext w
    unfold leftWord
    split_ifs with hstays
    · rw [hcond w hstays.1 hstays.2, diffWord_of_right_zero hstays.2]
    · rfl

/-- **Unions and differences.** `dst |= src` is right. `dst = src1 | src2` is right exactly if a word of the union is not that of
the destination, or the destination has no other words. `dst &= ~src` is right exactly if the array holds, at its place among the
words of the difference, each word that `src` does not have. `dst = src1 & ~src2` is right exactly if, when the destination is the
difference already, no word of `src1` becomes zero, and otherwise one of its words becomes zero or another one than that of the
destination, or is one that the destination does not have.
Source: `ebitmap.c` `ebitmap_ior_into`, `ebitmap_ior`, `ebitmap_and_compl_into`, `ebitmap_and_compl`
Kind: P -/
theorem ebitmap_union_difference_iff (mem : Fresh W) (hW : 0 < W) (hW' : W < 256) (h : Formed dst v) (h1 : Formed src1 v1)
    (h2 : Formed src2 v2) (hS : Words S v) (hS1 : Words S1 v1) (hS2 : Words S2 v2) :
    Outcome (ebitmapIorInto mem src1 src2) S1 (S1 ∪ S2) ∧
      (Outcome (ebitmapIor mem dst src1 src2) S (S1 ∪ S2) ↔
        (∀ w, v1 w = 0#W → v2 w = 0#W → v w = 0#W) ∨ ∃ w, (v1 w ≠ 0#W ∨ v2 w ≠ 0#W) ∧ v w ≠ v1 w ||| v2 w) ∧
      (Outcome (ebitmapAndComplInto src1 src2) S1 (S1 \ S2) ↔
        ∀ w, v1 w ≠ 0#W → v2 w = 0#W → src1.elts (place (diffWord v1 v2) w) = v1 w) ∧
      (Outcome (ebitmapAndCompl mem dst src1 src2) S (S1 \ S2) ↔
        (S = S1 \ S2 → ∀ w, v1 w ≠ 0#W → diffWord v1 v2 w ≠ 0#W) ∧
          (S ≠ S1 \ S2 → ∃ w, v1 w ≠ 0#W ∧ (v w = 0#W ∨ v w ≠ diffWord v1 v2 w))) := by
  have hor : Words (S1 ∪ S2) (orWord v1 v2) := hS1.union hS2
  have hdiff : Words (S1 \ S2) (diffWord v1 v2) := hS1.sdiff hW hS2
  refine ⟨?_, ?_, ?_, ?_⟩
  · obtain ⟨dst', changed, heq, hformed, hflag⟩ := ebitmapIorInto_spec mem hW hW' h1 h2
    exact (outcome_iff hW heq hformed hS1 hor).mpr ⟨rfl, hflag⟩
  · obtain ⟨dst', changed, heq, hflag, hformed⟩ := ebitmapIor_spec mem hW h h1 h2
    rw [outcome_replaced_iff hW heq hformed hS hor, hflag]
    exact ior_announces_iff
  · obtain ⟨dst', changed, heq, hformed, hflag⟩ := ebitmapAndComplInto_spec hW hW' h1 h2
    rw [outcome_iff hW heq hformed hS1 hdiff, and_iff_left hflag]
    exact leftWord_eq_iff
  · obtain ⟨dst', changed, heq, hflag, hformed⟩ := ebitmapAndCompl_spec mem hW hW' h h1 h2
    rw [outcome_replaced_iff hW heq hformed hS hdiff, hflag, (words_eq_iff hW hS hdiff).ne, words_eq_iff hW hS hdiff]
    exact andCompl_announces_iff

end Both

/-! ## Runs of the calls -/

/-- What newly allocated memory may hold. Source: none: example. -/
def freshZero : Fresh 64 := ⟨fun _ => 0#64, fun _ => 0⟩

/-- The word that `threeWords` has and `oneWord` does not. Source: none: example. -/
def firstWord : EbitmapDef 64 := smallMap 1#64 [1#64]

theorem formed_firstWord : Formed firstWord (smallVal 1#64 [1#64]) := formed_small (by decide) (by simp)

theorem words_firstWord : Words {0} (smallVal 1#64 [1#64]) :=
  words_small (k := 1) (by decide) (by decide) (by decide +kernel)

/-- Source: none: the theorem at equal operands. Kind: C -/
theorem ebitmap_union_difference_three_words :
    Outcome (ebitmapIorInto freshZero threeWords threeWords) {0, 129, 258} ({0, 129, 258} ∪ {0, 129, 258}) ∧
      Outcome (ebitmapIor freshZero oneWord threeWords threeWords) {129} ({0, 129, 258} ∪ {0, 129, 258}) ∧
      Outcome (ebitmapAndComplInto threeWords threeWords) {0, 129, 258} ({0, 129, 258} \ {0, 129, 258}) ∧
      Outcome (ebitmapAndCompl freshZero oneWord threeWords threeWords) {129} ({0, 129, 258} \ {0, 129, 258}) := by
  obtain ⟨hinto, hior, hcomplInto, hcompl⟩ := ebitmap_union_difference_iff freshZero (by decide) (by decide) formed_oneWord
    formed_threeWords formed_threeWords words_oneWord words_threeWords words_threeWords
  refine ⟨hinto, hior.mpr (Or.inr ⟨0, by decide, by decide⟩), hcomplInto.mpr fun w h1 h2 => absurd h2 h1,
    hcompl.mpr ⟨fun hsame => absurd hsame (by decide), fun _ => ⟨0, by decide, by decide⟩⟩⟩

/-- A destination with two words more than the union or the difference is left as it is, and a word that is to move up in the array
is lost.
Source: `ebitmap.c` `ebitmap_ior` (`changed |= ...`), `ebitmap_and_compl_into` (`neweltindex++`)
Kind: C -/
theorem ebitmap_union_difference_fail :
    Denotes threeWords {0, 129, 258} ∧ Denotes oneWord {129} ∧ Denotes firstWord {0} ∧
      ¬ Outcome (ebitmapIor freshZero threeWords oneWord oneWord) {0, 129, 258} ({129} ∪ {129}) ∧
      ¬ Outcome (ebitmapAndComplInto threeWords firstWord) {0, 129, 258} ({0, 129, 258} \ {0}) ∧
      ¬ Outcome (ebitmapAndCompl freshZero threeWords oneWord firstWord) {0, 129, 258} ({129} \ {0}) := by
  have hword : ∀ w, smallVal 4#64 [2#64] w ≠ 0#64 → w = 2 := by
    intro w hne
    have hset := (smallVal_ne_zero (by decide) (by simp)).mp hne
    have hbits : ∀ u < 64, (4#64).getLsbD u = true → u = 2 := by decide
    exact hbits w (BitVec.lt_of_getLsbD hset) hset
  refine ⟨⟨_, formed_threeWords, words_threeWords⟩, ⟨_, formed_oneWord, words_oneWord⟩, ⟨_, formed_firstWord, words_firstWord⟩,
    fun hior => ?_, fun hinto => ?_, fun hcompl => ?_⟩
  · have hiff := (ebitmap_union_difference_iff freshZero (by decide) (by decide) formed_threeWords formed_oneWord formed_oneWord
      words_threeWords words_oneWord words_oneWord).2.1
    rcases hiff.mp hior with hnone | ⟨w, hw, hdiff⟩
    · exact absurd (hnone 0 (by decide) (by decide)) (by decide)
    · obtain rfl := hword w (or_self_iff.mp hw)
      exact hdiff (by decide)
  · have hiff := (ebitmap_union_difference_iff freshZero (by decide) (by decide) formed_oneWord formed_threeWords
      formed_firstWord words_oneWord words_threeWords words_firstWord).2.2.1
    exact absurd (hiff.mp hinto 2 (by decide) (by decide)) (by decide)
  · have hiff := (ebitmap_union_difference_iff freshZero (by decide) (by decide) formed_threeWords formed_oneWord
      formed_firstWord words_threeWords words_oneWord words_firstWord).2.2.2
    obtain ⟨w, hw, hdiff⟩ := (hiff.mp hcompl).2 (by decide)
    obtain rfl := hword w hw
    exact absurd hdiff (by decide)

end GccCore.Gcc.Ebitmap
