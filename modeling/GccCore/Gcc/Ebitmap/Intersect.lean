import GccCore.Gcc.Ebitmap.Operands

/-!
# `gcc/ebitmap.c`: intersections

`ebitmap_and` and `ebitmap_and_into` intersect the masks, and then go over the words that are left with one index into each
array. The indices count the words of the intersection, and not those of the operands.

* **What is stored** (`pairedWord`): for the `k`-th common word, the intersection of the `k`-th words of both arrays.
* **When that is the intersection** (`ebitmapAnd_eq`, `ebitmapAndInto_eq`): if these words have the same intersection as the
  common ones, which they have if no word that is absent in one operand comes before a common one.
-/

namespace GccCore.Gcc.Ebitmap

open GccCore.Gcc.Sbitmap GccCore.Lib.BitScan GccCore.Lib.Count

variable {W : ℕ}

/-! ## The code -/

/-- The destination and the indices into the arrays. Source: `ebitmap.c` `ebitmap_and` (local variables). -/
structure AndState (W : ℕ) extends Target W where
  src1eltindex : ℕ
  src2eltindex : ℕ

/-- The body of the loop; `dst` is the first operand. Source: `ebitmap.c` `ebitmap_and_into`. -/
def andIntoBody (src : EbitmapDef W) (i : ℕ) (s : AndState W) : Except Failure (AndState W) := do
  let tmpword ← ebitmapArrayGet src s.src2eltindex
  let word ← ebitmapArrayGet s.dst s.src1eltindex
  .ok ⟨storeWord s.toTarget i (tmpword &&& word), s.src1eltindex + 1, s.src2eltindex + 1⟩

/-- The body of the loop. Source: `ebitmap.c` `ebitmap_and`. -/
def andBody (src1 src2 : EbitmapDef W) (i : ℕ) (s : AndState W) : Except Failure (AndState W) :=
  if src1.wordmask.testBit i && src2.wordmask.testBit i then do
    let tmpword ← ebitmapArrayGet src1 s.src1eltindex
    let word ← ebitmapArrayGet src2 s.src2eltindex
    .ok ⟨storeWord s.toTarget i (tmpword &&& word), s.src1eltindex + 1, s.src2eltindex + 1⟩
  else if src1.wordmask.testBit i then .ok { s with src1eltindex := s.src1eltindex + 1 }
  else .ok { s with src2eltindex := s.src2eltindex + 1 }

/-- The loop over the mask of `dst`, from the start of the arrays. Source: `ebitmap.c` `ebitmap_and`. -/
def andLoop (body : ℕ → AndState W → Except Failure (AndState W)) (dst : EbitmapDef W) :
    Option (Except Failure (EbitmapDef W)) :=
  (executeAll (fun s : AndState W => s.dst.wordmask) body ⟨⟨dst, 0⟩, 0, 0⟩).map fun r =>
    r.map fun s => { s.dst with numwords := s.neweltindex }

/-- `dst &= src`, of two bitmaps. Source: `ebitmap.c` `ebitmap_and_into`. -/
def ebitmapAndInto (dst src : EbitmapDef W) : Option (Except Failure (EbitmapDef W)) :=
  let dst := { dst with cache := none }
  if src.numwords = 0 ∨ dst.numwords = 0 then some (.ok (ebitmapClear dst))
  else
    match sbitmapAAndB dst.wordmask dst.wordmask src.wordmask with
    | none => some (.error .outOfBounds)
    | some wordmask => andLoop (andIntoBody src) { dst with wordmask := wordmask }

/-- `dst = src1 & src2`, of three bitmaps. Source: `ebitmap.c` `ebitmap_and`. -/
def ebitmapAnd (dst src1 src2 : EbitmapDef W) : Option (Except Failure (EbitmapDef W)) :=
  let dst := { dst with cache := none }
  if src1.numwords = 0 ∨ src2.numwords = 0 then some (.ok (ebitmapClear dst))
  else
    let wordmask := sbitmapResize dst.wordmask (min src1.wordmask.nBits src2.wordmask.nBits)
    match sbitmapAAndB wordmask src1.wordmask src2.wordmask with
    | none => some (.error .outOfBounds)
    | some wordmask => andLoop (andBody src1 src2) { dst with wordmask := wordmask }

/-! ## What is stored -/

section Paired

variable {v v1 v2 : ℕ → BitVec W} {map1 map2 : EbitmapDef W}

/-- The number of common words below `w`. Source: `ebitmap.c` `ebitmap_and` (`src1eltindex`, `src2eltindex`). -/
def commonIndex (v1 v2 : ℕ → BitVec W) (w : ℕ) : ℕ := Nat.count (fun u => v1 u ≠ 0#W ∧ v2 u ≠ 0#W) w

/-- The word that is stored for the word `w`: the intersection of the words that stand in both arrays at the place of `w` among
the common words.
Source: `ebitmap.c` `ebitmap_and` (`tmpword`) -/
def pairedWord (map1 map2 : EbitmapDef W) (v1 v2 : ℕ → BitVec W) (w : ℕ) : BitVec W :=
  if v1 w ≠ 0#W ∧ v2 w ≠ 0#W then map1.elts (commonIndex v1 v2 w) &&& map2.elts (commonIndex v1 v2 w) else 0#W

/-- The words that are read have the same intersections as the common words.
Source: `ebitmap.c` `ebitmap_and` -/
def WordsPaired (map1 map2 : EbitmapDef W) (v1 v2 : ℕ → BitVec W) : Prop :=
  ∀ w, v1 w ≠ 0#W → v2 w ≠ 0#W →
    map1.elts (commonIndex v1 v2 w) &&& map2.elts (commonIndex v1 v2 w) = v1 w &&& v2 w

theorem commonIndex_lt_left (h : Stored map1 v1) {w : ℕ} (hw : v1 w ≠ 0#W) : commonIndex v1 v2 w < map1.numwords :=
  lt_of_le_of_lt (Nat.count_mono_left fun _ _ hc => hc.1) (h.place_lt hw)

theorem commonIndex_lt_right (h : Stored map2 v2) {w : ℕ} (hw : v2 w ≠ 0#W) : commonIndex v1 v2 w < map2.numwords :=
  lt_of_le_of_lt (Nat.count_mono_left fun _ _ hc => hc.2) (h.place_lt hw)

theorem commonIndex_self (w : ℕ) : commonIndex v v w = place v w := count_congr fun _ _ => and_self_iff

theorem pairedWord_place_le (w : ℕ) : place (pairedWord map1 map2 v1 v2) w ≤ commonIndex v1 v2 w := by
  refine Nat.count_mono_left fun u _ hne => ?_
  by_contra hnot
  exact hne (if_neg hnot)

/-- **The words that are stored are the intersection** exactly if the words that are read are paired.
Source: `ebitmap.c` `ebitmap_and`
Kind: L -/
theorem pairedWord_eq_iff : pairedWord map1 map2 v1 v2 = (fun w => v1 w &&& v2 w) ↔ WordsPaired map1 map2 v1 v2 := by
  constructor
  · intro heq w h1 h2
    have hw := congrFun heq w
    rwa [pairedWord, if_pos ⟨h1, h2⟩] at hw
  · intro hpaired
    funext w
    unfold pairedWord
    split_ifs with hboth
    · exact hpaired w hboth.1 hboth.2
    · by_cases h1 : v1 w = 0#W
      · rw [h1, BitVec.zero_and]
      · rw [not_not.mp fun h2 => hboth ⟨h1, h2⟩, BitVec.and_zero]

end Paired

/-! ## The loop -/

section Loop

variable {d : EbitmapDef W} {r : ℕ → BitVec W} {c : ℕ → ℕ} {p : ℕ} {s : AndState W}

/-- The state before the word `p`: `c` counts the words that have been read. Source: `ebitmap.c` `ebitmap_and`. -/
structure AndInv (d : EbitmapDef W) (r : ℕ → BitVec W) (c : ℕ → ℕ) (p : ℕ) (s : AndState W) : Prop
    extends StoreInv d r p s.toTarget where
  src1 : s.src1eltindex = c p
  src2 : s.src2eltindex = c p

/-- **The whole loop** stores the words of `r`. Source: `ebitmap.c` `ebitmap_and`. Kind: L -/
theorem andLoop_spec (hW : 0 < W) (hW' : W < 256) {body : ℕ → AndState W → Except Failure (AndState W)}
    (hmask : WellFormed d.wordmask) (hcounted : d.wordmask.popcount.isSome = true) (hsmall : d.wordmask.nBits + W ≤ 2 ^ 32)
    (hr : ∀ w, d.wordmask.has w = false → r w = 0#W) (hc0 : c 0 = 0)
    (hc : ∀ w < d.wordmask.nBits, c (w + 1) = if d.wordmask.testBit w then c w + 1 else c w)
    (hkeep : ∀ i s s', body i s = .ok s' → s'.dst.wordmask.size = s.dst.wordmask.size ∧
      ∀ j > i, s'.dst.wordmask.testBit j = s.dst.wordmask.testBit j)
    (hbody : ∀ p s, p < d.wordmask.nBits → d.wordmask.testBit p = true → AndInv d r c p s →
      body p s = .ok ⟨storeWord s.toTarget p (r p), s.src1eltindex + 1, s.src2eltindex + 1⟩) :
    ∃ d', andLoop body d = some (.ok d') ∧ Formed d' r := by
  have hzero : ∀ w < d.wordmask.nBits, d.wordmask.testBit w = false → r w = 0#W := by
    intro w _ hclear
    refine hr w ?_
    rw [SimpleBitmap.has, hclear, Bool.and_false]
  have hset : ∀ p s, p < d.wordmask.nBits → d.wordmask.testBit p = true → AndInv d r c p s →
      ∃ s', body p s = .ok s' ∧ AndInv d r c (p + 1) s' := by
    intro p s hp hbit h
    have hcp : c (p + 1) = c p + 1 := by rw [hc p hp, if_pos hbit]
    refine ⟨_, hbody p s hp hbit h, h.toStoreInv.store hW hW' hbit, ?_, ?_⟩
    · rw [h.src1, hcp]
    · rw [h.src2, hcp]
  have hclear : ∀ p s, p < d.wordmask.nBits → d.wordmask.testBit p = false → AndInv d r c p s → AndInv d r c (p + 1) s := by
    intro p s hp hbit h
    have hcp : c (p + 1) = c p := by rw [hc p hp, if_neg (Bool.eq_false_iff.mp hbit)]
    exact ⟨h.toStoreInv.pass hbit (hzero p hp hbit), hcp ▸ h.src1, hcp ▸ h.src2⟩
  obtain ⟨s, hloop, hinv⟩ := executeAll_spec hW (fun s : AndState W => s.dst.wordmask) body
    (b := ⟨⟨d, 0⟩, 0, 0⟩) hmask hkeep (AndInv d r c) ⟨StoreInv.start hmask hcounted, hc0.symm, hc0.symm⟩ hset hclear
  have hbeyond : ∀ w, d.wordmask.nBits ≤ w → r w = 0#W := by
    intro w hw
    refine hr w ?_
    rw [SimpleBitmap.has, decide_eq_false (not_lt.mpr hw), Bool.false_and]
  refine ⟨_, ?_, hinv.toStoreInv.formed hsmall hbeyond⟩
  rw [andLoop, hloop]
  rfl

end Loop

/-! ## Both intersections -/

section Both

variable {dst src src1 src2 : EbitmapDef W} {v v1 v2 : ℕ → BitVec W} {S S1 S2 : Finset ℕ}

/-- Nothing is stored if one operand is empty. Source: `ebitmap.c` ("Short circuit the empty bitmap cases"). Kind: L -/
theorem and_of_empty (h1 : Stored src1 v1) (h2 : Stored src2 v2) (hempty : src1.numwords = 0 ∨ src2.numwords = 0) :
    (fun w => v1 w &&& v2 w) = fun _ => 0#W := by
  funext w
  rcases hempty with hzero | hzero
  · have : v1 w = 0#W := by
      by_contra hne
      have := h1.place_lt hne
      omega
    rw [this, BitVec.zero_and]
  · have : v2 w = 0#W := by
      by_contra hne
      have := h2.place_lt hne
      omega
    rw [this, BitVec.and_zero]

/-- The words that are read are counted. Source: `ebitmap.c` `ebitmap_and` (`src1eltindex++`). Kind: L -/
theorem commonIndex_succ (w : ℕ) :
    commonIndex v1 v2 (w + 1) = if v1 w ≠ 0#W ∧ v2 w ≠ 0#W then commonIndex v1 v2 w + 1 else commonIndex v1 v2 w := by
  unfold commonIndex
  rw [Nat.count_succ]
  split_ifs <;> rfl

theorem andIntoBody_keeps (hW : 0 < W) {i : ℕ} {s s' : AndState W} (h : andIntoBody src i s = .ok s') :
    s'.dst.wordmask.size = s.dst.wordmask.size ∧ ∀ j > i, s'.dst.wordmask.testBit j = s.dst.wordmask.testBit j := by
  unfold andIntoBody at h
  cases hget : ebitmapArrayGet src s.src2eltindex with
  | error e => rw [hget] at h; cases h
  | ok tmpword =>
    rw [hget] at h
    cases hget' : ebitmapArrayGet s.dst s.src1eltindex with
    | error e => rw [hget'] at h; cases h
    | ok word =>
      rw [hget'] at h
      obtain rfl := Except.ok.inj h
      obtain ⟨hsize, hbits⟩ := storeWord_keeps hW s.toTarget i (tmpword &&& word)
      exact ⟨hsize, fun j hj => hbits j (by omega)⟩

theorem andBody_keeps (hW : 0 < W) {i : ℕ} {s s' : AndState W} (h : andBody src1 src2 i s = .ok s') :
    s'.dst.wordmask.size = s.dst.wordmask.size ∧ ∀ j > i, s'.dst.wordmask.testBit j = s.dst.wordmask.testBit j := by
  unfold andBody at h
  split_ifs at h
  · cases hget : ebitmapArrayGet src1 s.src1eltindex with
    | error e => rw [hget] at h; cases h
    | ok tmpword =>
      rw [hget] at h
      cases hget' : ebitmapArrayGet src2 s.src2eltindex with
      | error e => rw [hget'] at h; cases h
      | ok word =>
        rw [hget'] at h
        obtain rfl := Except.ok.inj h
        obtain ⟨hsize, hbits⟩ := storeWord_keeps hW s.toTarget i (tmpword &&& word)
        exact ⟨hsize, fun j hj => hbits j (by omega)⟩
  · obtain rfl := Except.ok.inj h
    exact ⟨rfl, fun _ _ => rfl⟩
  · obtain rfl := Except.ok.inj h
    exact ⟨rfl, fun _ _ => rfl⟩

/-- The loop over the intersected mask, if its body reads the words at the indices.
Source: `ebitmap.c` `ebitmap_and`, `ebitmap_and_into`
Kind: L -/
theorem andLoop_paired (hW : 0 < W) (hW' : W < 256) {d : EbitmapDef W}
    {body : ℕ → AndState W → Except Failure (AndState W)}
    (hmask : WellFormed d.wordmask) (hcounted : d.wordmask.popcount.isSome = true) (hsmall : d.wordmask.nBits + W ≤ 2 ^ 32)
    (hhas : ∀ w, d.wordmask.has w = decide (v1 w ≠ 0#W ∧ v2 w ≠ 0#W))
    (hkeep : ∀ i s s', body i s = .ok s' → s'.dst.wordmask.size = s.dst.wordmask.size ∧
      ∀ j > i, s'.dst.wordmask.testBit j = s.dst.wordmask.testBit j)
    (hbody : ∀ p s, v1 p ≠ 0#W → v2 p ≠ 0#W → AndInv d (pairedWord src1 src2 v1 v2) (commonIndex v1 v2) p s →
      body p s = .ok ⟨storeWord s.toTarget p (src1.elts (commonIndex v1 v2 p) &&& src2.elts (commonIndex v1 v2 p)),
        s.src1eltindex + 1, s.src2eltindex + 1⟩) :
    ∃ d', andLoop body d = some (.ok d') ∧ Formed d' (pairedWord src1 src2 v1 v2) := by
  have hset : ∀ w < d.wordmask.nBits, d.wordmask.testBit w = decide (v1 w ≠ 0#W ∧ v2 w ≠ 0#W) := by
    intro w hw
    rw [← hhas w, SimpleBitmap.has, decide_eq_true hw, Bool.true_and]
  refine andLoop_spec (c := commonIndex v1 v2) hW hW' hmask hcounted hsmall (fun w hw => ?_) rfl (fun w hw => ?_) hkeep
    fun p s hp hbit hinv => ?_
  · rw [hhas w] at hw
    exact if_neg (of_decide_eq_false hw)
  · rw [commonIndex_succ, hset w hw]
    by_cases hboth : v1 w ≠ 0#W ∧ v2 w ≠ 0#W
    · rw [if_pos hboth, if_pos (decide_eq_true hboth)]
    · rw [if_neg hboth, if_neg (by rw [decide_eq_false hboth]; exact Bool.false_ne_true)]
  · have hboth : v1 p ≠ 0#W ∧ v2 p ≠ 0#W := of_decide_eq_true ((hset p hp).symm.trans hbit)
    rw [pairedWord, if_pos hboth]
    exact hbody p s hboth.1 hboth.2 hinv

/-- **`ebitmap_and_into`** stores the words that are read. Source: `ebitmap.c` `ebitmap_and_into`. Kind: L -/
theorem ebitmapAndInto_eq (hW : 0 < W) (hW' : W < 256) (h1 : Formed dst v1) (h2 : Formed src v2)
    (hfull : ¬ (src.numwords = 0 ∨ dst.numwords = 0)) (hsize : dst.wordmask.size ≤ src.wordmask.size) :
    ∃ dst', ebitmapAndInto dst src = some (.ok dst') ∧ Formed dst' (pairedWord dst src v1 v2) := by
  obtain ⟨m, hzip, hwf, hn, hsz, hcnt, hbits⟩ := sbitmapZip_spec hW (f := (· &&& ·)) (g := (· && ·))
    (fun _ _ _ => BitVec.getLsbD_and) h1.mask le_rfl hsize
    (fun i hi hlt => by rw [h1.mask.tail i hi hlt, Bool.false_and])
  have hand : sbitmapAAndB dst.wordmask dst.wordmask src.wordmask = some m := hzip
  unfold ebitmapAndInto
  dsimp only
  rw [if_neg hfull, hand]
  refine andLoop_paired hW hW' hwf (hcnt.trans h1.counted) (by dsimp only; rw [hn]; exact h1.small) (fun w => ?_)
    (fun _ _ _ => andIntoBody_keeps hW) fun p s hp1 hp2 hinv => ?_
  · rw [SimpleBitmap.has, hn]
    by_cases hw : w < dst.wordmask.nBits
    · have hin := hw.trans_le (h1.mask.cover hW)
      rw [hbits w hin, h1.mask.testBit_eq_has hin, h2.mask.testBit_eq_has (hin.trans_le (Nat.mul_le_mul_right W hsize)),
        h1.has_eq, h2.has_eq, decide_eq_true hw, Bool.true_and, ← Bool.decide_and]
    · rw [decide_eq_false hw, Bool.false_and, decide_eq_false fun hc => hw (h1.lt_nBits hc.1)]
  · have hlt : commonIndex v1 v2 p < dst.numwords := commonIndex_lt_left h1.toStored hp1
    have hget : ebitmapArrayGet s.dst (commonIndex v1 v2 p) = .ok (dst.elts (commonIndex v1 v2 p)) := by
      have hgrown : dst.nElts ≤ s.dst.nElts := hinv.grown
      have hroom := h1.room
      unfold ebitmapArrayGet
      rw [if_pos (by omega), hinv.rest _ (pairedWord_place_le p)]
    unfold andIntoBody
    rw [hinv.src1, hinv.src2, h2.get (commonIndex_lt_right h2.toStored hp2), hget, BitVec.and_comm]
    rfl

/-- **`ebitmap_and`** stores the words that are read. Source: `ebitmap.c` `ebitmap_and`. Kind: L -/
theorem ebitmapAnd_eq (hW : 0 < W) (hW' : W < 256) (h : Formed dst v) (h1 : Formed src1 v1) (h2 : Formed src2 v2)
    (hfull : ¬ (src1.numwords = 0 ∨ src2.numwords = 0)) :
    ∃ dst', ebitmapAnd dst src1 src2 = some (.ok dst') ∧ Formed dst' (pairedWord src1 src2 v1 v2) := by
  have hsmall : min src1.wordmask.nBits src2.wordmask.nBits + W ≤ 2 ^ 32 := by
    have := h1.small
    omega
  obtain ⟨hwf, hn, hcnt, -⟩ := sbitmapResize_spec hW h.mask hsmall
  have hle1 := hwf.size_le h1.mask (by rw [hn]; exact Nat.min_le_left _ _)
  have hle2 := hwf.size_le h2.mask (by rw [hn]; exact Nat.min_le_right _ _)
  obtain ⟨m, hzip, hwf', hn', hsz, hcnt', hbits⟩ := sbitmapZip_spec hW (f := (· &&& ·)) (g := (· && ·))
    (fun _ _ _ => BitVec.getLsbD_and) hwf hle1 hle2 (fun i hi hlt => by
      rw [h1.mask.testBit_eq_has (hlt.trans_le (Nat.mul_le_mul_right W hle1)),
        h2.mask.testBit_eq_has (hlt.trans_le (Nat.mul_le_mul_right W hle2)), SimpleBitmap.has, SimpleBitmap.has]
      rw [hn] at hi
      rcases le_total src1.wordmask.nBits src2.wordmask.nBits with hle | hle
      · rw [min_eq_left hle] at hi
        rw [decide_eq_false (not_lt.mpr hi), Bool.false_and, Bool.false_and]
      · rw [min_eq_right hle] at hi
        rw [decide_eq_false (not_lt.mpr hi : ¬ i < src2.wordmask.nBits), Bool.false_and, Bool.and_false])
  have hand : sbitmapAAndB (sbitmapResize dst.wordmask (min src1.wordmask.nBits src2.wordmask.nBits)) src1.wordmask
      src2.wordmask = some m := hzip
  rw [hn] at hn'
  unfold ebitmapAnd
  dsimp only
  rw [if_neg hfull, hand]
  refine andLoop_paired hW hW' hwf' (hcnt'.trans (hcnt.trans h.counted)) (by dsimp only; rw [hn']; exact hsmall)
    (fun w => ?_) (fun _ _ _ => andBody_keeps hW) fun p s hp1 hp2 hinv => ?_
  · rw [SimpleBitmap.has, hn']
    by_cases hw : w < min src1.wordmask.nBits src2.wordmask.nBits
    · have hin : w < (sbitmapResize dst.wordmask (min src1.wordmask.nBits src2.wordmask.nBits)).size * W :=
        (hn.symm ▸ hw : w < (sbitmapResize dst.wordmask _).nBits).trans_le (hwf.cover hW)
      rw [hbits w hin, h1.mask.testBit_eq_has (hin.trans_le (Nat.mul_le_mul_right W hle1)),
        h2.mask.testBit_eq_has (hin.trans_le (Nat.mul_le_mul_right W hle2)), h1.has_eq, h2.has_eq, decide_eq_true hw,
        Bool.true_and, ← Bool.decide_and]
    · rw [decide_eq_false hw, Bool.false_and, decide_eq_false fun hc => hw (lt_min (h1.lt_nBits hc.1) (h2.lt_nBits hc.2))]
  · have hset1 := (h1.present p (h1.lt_nBits hp1)).mpr hp1
    have hset2 := (h2.present p (h2.lt_nBits hp2)).mpr hp2
    unfold andBody
    rw [hset1, hset2, hinv.src1, hinv.src2, h1.get (commonIndex_lt_left h1.toStored hp1),
      h2.get (commonIndex_lt_right h2.toStored hp2)]
    rfl

/-- The call ends and leaves a bitmap for the set. -/
def Leaves (r : Option (Except Failure (EbitmapDef W))) (S : Finset ℕ) : Prop :=
  ∃ dst', r = some (.ok dst') ∧ Denotes dst' S

/-- Words that are stored denote the intersection exactly if they are paired. -/
theorem leaves_paired_iff (hW : 0 < W) {r : Option (Except Failure (EbitmapDef W))} {map1 map2 : EbitmapDef W}
    (hwords1 : Words S1 v1) (hwords2 : Words S2 v2)
    (hr : ∃ dst', r = some (.ok dst') ∧ Formed dst' (pairedWord map1 map2 v1 v2)) :
    Leaves r (S1 ∩ S2) ↔ WordsPaired map1 map2 v1 v2 := by
  obtain ⟨dst', rfl, hformed⟩ := hr
  rw [← pairedWord_eq_iff]
  constructor
  · rintro ⟨dst'', heq, val, hformed', hwords⟩
    obtain rfl := Except.ok.inj (Option.some.inj heq)
    rw [hformed.toStored.unique hformed'.toStored]
    exact hwords.unique hW (hwords1.inter hwords2)
  · intro heq
    exact ⟨dst', rfl, _, heq ▸ hformed, hwords1.inter hwords2⟩

/-- An empty operand leaves the empty set. Source: `ebitmap.c` ("Short circuit the empty bitmap cases"). Kind: L -/
theorem leaves_clear (hW : 0 < W) (hW' : W < 256) (h : Formed dst v) (h1 : Stored src1 v1) (h2 : Stored src2 v2)
    (hwords1 : Words S1 v1) (hwords2 : Words S2 v2) (hempty : src1.numwords = 0 ∨ src2.numwords = 0) :
    Leaves (some (.ok (ebitmapClear dst))) (S1 ∩ S2) :=
  ⟨_, rfl, _, ebitmapClear_spec hW hW' h, and_of_empty h1 h2 hempty ▸ hwords1.inter hwords2⟩

/-- **Intersections**: `dst = src1 & src2` denotes the intersection exactly if the words at the indices are paired; for
`src1 &= src2`, moreover, the mask of `src1` must have no more words than that of `src2`, unless an operand is empty.
Source: `ebitmap.c` `ebitmap_and`, `ebitmap_and_into`
Kind: P -/
theorem ebitmap_and_iff (hW : 0 < W) (hW' : W < 256) (h : Formed dst v) (h1 : Formed src1 v1) (h2 : Formed src2 v2)
    (hwords1 : Words S1 v1) (hwords2 : Words S2 v2) :
    (Leaves (ebitmapAnd dst src1 src2) (S1 ∩ S2) ↔ WordsPaired src1 src2 v1 v2) ∧
      (Leaves (ebitmapAndInto src1 src2) (S1 ∩ S2) ↔
        (src1.numwords = 0 ∨ src2.numwords = 0) ∨
          (src1.wordmask.size ≤ src2.wordmask.size ∧ WordsPaired src1 src2 v1 v2)) := by
  have hvacuous : src1.numwords = 0 ∨ src2.numwords = 0 → WordsPaired src1 src2 v1 v2 := by
    rintro hempty w hw1 hw2
    have hlt1 := h1.place_lt hw1
    have hlt2 := h2.place_lt hw2
    omega
  constructor
  · by_cases hempty : src1.numwords = 0 ∨ src2.numwords = 0
    · refine iff_of_true ?_ (hvacuous hempty)
      unfold ebitmapAnd
      dsimp only
      rw [if_pos hempty]
      exact leaves_clear hW hW' h.map_cache h1.toStored h2.toStored hwords1 hwords2 hempty
    · exact leaves_paired_iff hW hwords1 hwords2 (ebitmapAnd_eq hW hW' h h1 h2 hempty)
  · by_cases hempty : src1.numwords = 0 ∨ src2.numwords = 0
    · refine iff_of_true ?_ (Or.inl hempty)
      unfold ebitmapAndInto
      dsimp only
      rw [if_pos hempty.symm]
      exact leaves_clear hW hW' h1.map_cache h1.toStored h2.toStored hwords1 hwords2 hempty
    · rw [or_iff_right hempty]
      by_cases hsize : src1.wordmask.size ≤ src2.wordmask.size
      · rw [leaves_paired_iff hW hwords1 hwords2 (ebitmapAndInto_eq hW hW' h1 h2 (fun hc => hempty hc.symm) hsize)]
        exact (and_iff_right hsize).symm
      · refine iff_of_false ?_ fun hc => hsize hc.1
        rintro ⟨dst', heq, -⟩
        unfold ebitmapAndInto sbitmapAAndB sbitmapZip at heq
        dsimp only at heq
        rw [if_neg fun hc => hempty hc.symm, if_neg fun hc => hsize hc.2] at heq
        cases heq

end Both

/-! ## Runs of the calls -/

/-- Source: none: the theorem at equal operands. Kind: C -/
theorem ebitmap_and_three_words :
    Leaves (ebitmapAnd oneWord threeWords threeWords) {0, 129, 258} ∧
      Leaves (ebitmapAndInto threeWords threeWords) {0, 129, 258} := by
  have hpaired : WordsPaired threeWords threeWords (smallVal 21#64 [1#64, 2#64, 4#64])
      (smallVal 21#64 [1#64, 2#64, 4#64]) := by
    intro w hw _
    rw [commonIndex_self, formed_threeWords.word w hw]
  have hiff := ebitmap_and_iff (by decide) (by decide) formed_oneWord formed_threeWords formed_threeWords words_threeWords
    words_threeWords
  rw [Finset.inter_self] at hiff
  exact ⟨hiff.1.mpr hpaired, hiff.2.mpr (Or.inr ⟨le_rfl, hpaired⟩)⟩

/-- The word that both have is the second of one operand and the first of the other, and the first words of both have no bit in
common: the bit 129 is lost.
Source: `ebitmap.c` `ebitmap_and` (`src1eltindex++`)
Kind: C -/
theorem ebitmap_and_loses_bit :
    Denotes threeWords {0, 129, 258} ∧ Denotes oneWord {129} ∧
      ¬ Leaves (ebitmapAnd oneWord threeWords oneWord) ({0, 129, 258} ∩ {129}) ∧
      ¬ Leaves (ebitmapAndInto threeWords oneWord) ({0, 129, 258} ∩ {129}) := by
  have hnot : ¬ WordsPaired threeWords oneWord (smallVal 21#64 [1#64, 2#64, 4#64]) (smallVal 4#64 [2#64]) := by
    intro hpaired
    exact absurd (hpaired 2 (by decide) (by decide)) (by decide)
  have hiff := ebitmap_and_iff (by decide) (by decide) formed_oneWord formed_threeWords formed_oneWord words_threeWords
    words_oneWord
  refine ⟨⟨_, formed_threeWords, words_threeWords⟩, ⟨_, formed_oneWord, words_oneWord⟩, fun hc => hnot (hiff.1.mp hc),
    fun hc => ?_⟩
  rcases hiff.2.mp hc with hempty | ⟨-, hpaired⟩
  · exact absurd hempty (by decide)
  · exact hnot hpaired

end GccCore.Gcc.Ebitmap
