import GccCore.Gcc.Sbitmap
import Mathlib.Data.Finset.Basic

/-!
# `gcc/ebitmap.c`: bitmaps with an array of nonzero words

The nonzero words of a large bitmap stand next to each other in an array; a mask says which words
these are, and the place of a word is the number of mask bits below it. The last word used is cached by
its address.

* **The array** (`Stored`): `ebitmap_set_bit` and `ebitmap_clear_bit` keep the array and the mask in step
  (`setBit_spec`, `clearBit_spec`).
* **The cache** (`CacheOk`): `ebitmap_clear_bit` leaves it right exactly if the emptied word is behind the
  cached one, or is the cached one with no absent word before it (`CacheSafe`).
* **Runs** (`ebitmap_contract`).
-/

namespace GccCore.Gcc.Ebitmap

open GccCore.Gcc.Sbitmap GccCore.Lib.Count

/-! ## The functions -/

section Model

variable {W : ℕ}

/-- A bitmap. Pointers into `elts` are indices; memory behind the array holds anything.
Source: `ebitmap.h` `struct ebitmap_def` -/
structure EbitmapDef (W : ℕ) where
  nElts : ℕ
  wordmask : SimpleBitmap W
  numwords : ℕ
  cacheindex : ℕ
  elts : ℕ → BitVec W
  cache : Option ℕ

/-- How a call can fail: an assertion, or an access behind the words of the mask.
Source: `ebitmap.c` (`gcc_assert`) -/
inductive Failure
  | assertion
  | outOfBounds
  deriving DecidableEq

/-- Source: `ebitmap.c` `ebitmap_array_grow`. -/
def ebitmapArrayGrow (map : EbitmapDef W) (newsize : ℕ) : EbitmapDef W :=
  if newsize ≤ map.nElts then { map with nElts := newsize }
  else { map with nElts := newsize + newsize / 4 }

/-- Source: `ebitmap.c` `ebitmap_array_maybe_grow`. -/
def ebitmapArrayMaybeGrow (map : EbitmapDef W) (size : ℕ) : EbitmapDef W :=
  if size ≥ map.nElts then ebitmapArrayGrow map (size + 1) else map

/-- Source: `ebitmap.c` `ebitmap_array_get`. -/
def ebitmapArrayGet (map : EbitmapDef W) (idx : ℕ) : Except Failure (BitVec W) :=
  if idx < map.nElts then .ok (map.elts idx) else .error .assertion

/-- A bitmap for `size` bits; `elts`, `mask` and `counts` are what the allocated memory holds.
Source: `ebitmap.c` `ebitmap_alloc` -/
def ebitmapAlloc (size : ℕ) (elts mask : ℕ → BitVec W) (counts : ℕ → ℕ) : EbitmapDef W :=
  let size := if size = 0 then W else size
  { nElts := (size + W - 1) % 2 ^ 32 / W
    wordmask := sbitmapZero (sbitmapAllocWithPopcount W size mask counts)
    numwords := 0
    cacheindex := 0
    elts := elts
    cache := none }

/-- `TEST_BIT` of the mask. Source: `ebitmap.c` (`TEST_BIT (map->wordmask, wordindex)`). -/
def testMask (map : EbitmapDef W) (wordindex : ℕ) : Except Failure Bool :=
  if wordindex / W < map.wordmask.size then .ok (map.wordmask.testBit wordindex)
  else .error .outOfBounds

/-- The place of a word whose mask bit is set: from the cache, or counted.
Source: `ebitmap.c` `ebitmap_clear_bit` (`elt_ptr`) -/
def locate (map : EbitmapDef W) (wordindex : ℕ) : ℕ :=
  match map.cache with
  | some p => if map.cacheindex = wordindex then p else sbitmapPopcount map.wordmask wordindex
  | none => sbitmapPopcount map.wordmask wordindex

/-- The emptied word at `wordindex` is taken out of the array.
Source: `ebitmap.c` `ebitmap_clear_bit` (`if (*(elt_ptr) == 0)`) -/
def removeWord (map : EbitmapDef W) (wordindex : ℕ) : EbitmapDef W :=
  let eltwordindex := sbitmapPopcount map.wordmask wordindex
  { map with
    cache := if map.cache ≠ none ∧ map.cacheindex = eltwordindex then none else map.cache
    wordmask := resetBit map.wordmask wordindex
    elts := fun i =>
      if eltwordindex ≤ i ∧ i < eltwordindex + (map.numwords - eltwordindex) then map.elts (i + 1)
      else map.elts i
    numwords := map.numwords - 1 }

/-- Source: `ebitmap.c` `ebitmap_clear_bit`. -/
def ebitmapClearBit (map : EbitmapDef W) (bit : ℕ) : Except Failure (EbitmapDef W) :=
  let wordindex := bit / W
  if map.numwords = 0 then .ok map
  else if wordindex ≥ map.wordmask.nBits then .ok map
  else do
    let present ← testMask map wordindex
    if present then
      let elt := locate map wordindex
      let word := map.elts elt &&& ~~~(1#W <<< (bit % W))
      let map := { map with elts := Function.update map.elts elt word }
      if word = 0#W then .ok (removeWord map wordindex) else .ok map
    else .ok map

/-- The words from place `count` on move up by one; `i` is the place written next.
Source: `ebitmap.c` `ebitmap_set_bit` (`for (i = map->numwords; i > count; i--)`) -/
def shiftLoop (count : ℕ) : ℕ → EbitmapDef W → Except Failure (EbitmapDef W)
  | 0, map => .ok map
  | i + 1, map =>
    if i + 1 > count then do
      let map := if i + 1 ≥ map.nElts then ebitmapArrayGrow map (i + 2) else map
      let word ← ebitmapArrayGet map i
      shiftLoop count i { map with elts := Function.update map.elts (i + 1) word }
    else .ok map

/-- A zero word is put into the array; its place is returned.
Source: `ebitmap.c` `ebitmap_set_bit` (`if (!TEST_BIT (map->wordmask, wordindex))`) -/
def insertWord (map : EbitmapDef W) (wordindex : ℕ) : Except Failure (EbitmapDef W × ℕ) :=
  let map := { map with wordmask := setBit map.wordmask wordindex }
  let count := sbitmapPopcount map.wordmask wordindex
  if count ≤ map.numwords then do
    let map ← shiftLoop count map.numwords map
    let map := ebitmapArrayMaybeGrow { map with numwords := map.numwords + 1 } count
    .ok ({ map with elts := Function.update map.elts count 0#W }, count)
  else .error .assertion

/-- The mask is resized where it is too short. Source: `ebitmap.c` `ebitmap_set_bit`. -/
def resizeMask (map : EbitmapDef W) (wordindex : ℕ) : EbitmapDef W :=
  if wordindex ≥ map.wordmask.nBits then
    { map with wordmask := sbitmapGrow map.wordmask (wordindex + 1) }
  else map

/-- The place of the word at `wordindex`, which is put into the array if it is not there.
Source: `ebitmap.c` `ebitmap_set_bit` -/
def provideWord (map : EbitmapDef W) (wordindex : ℕ) : Except Failure (EbitmapDef W × ℕ) := do
  let present ← testMask map wordindex
  if present then .ok (map, sbitmapPopcount map.wordmask wordindex) else insertWord map wordindex

/-- Source: `ebitmap.c` `ebitmap_set_bit`. -/
def ebitmapSetBit (map : EbitmapDef W) (bit : ℕ) : Except Failure (EbitmapDef W) :=
  let wordindex := bit / W
  if map.cache ≠ none ∧ map.cacheindex = wordindex then
    let elt := locate map wordindex
    .ok { map with elts := Function.update map.elts elt (map.elts elt ||| (1#W <<< (bit % W))) }
  else do
    let (map, elt) ← provideWord (resizeMask map wordindex) wordindex
    .ok { map with
      elts := Function.update map.elts elt (map.elts elt ||| (1#W <<< (bit % W)))
      cache := some elt
      cacheindex := wordindex }

/-- Source: `ebitmap.c` `ebitmap_bit_p`. -/
def ebitmapBitP (map : EbitmapDef W) (bit : ℕ) : Except Failure (Bool × EbitmapDef W) :=
  let wordindex := bit / W
  if map.numwords = 0 then .ok (false, map)
  else if map.cache ≠ none ∧ map.cacheindex = wordindex then
    .ok ((map.elts (locate map wordindex)).getLsbD (bit % W), map)
  else if wordindex ≥ map.wordmask.nBits then .ok (false, map)
  else do
    let present ← testMask map wordindex
    if present then
      let elt := sbitmapPopcount map.wordmask wordindex
      .ok ((map.elts elt).getLsbD (bit % W), { map with cacheindex := wordindex, cache := some elt })
    else .ok (false, map)

end Model

/-! ## The array and the mask -/

section Storage

variable {W : ℕ} {map : EbitmapDef W} {val : ℕ → BitVec W} {w b : ℕ}

/-- The place of a word among the nonzero ones. Source: `ebitmap.c` (comment). -/
def place (val : ℕ → BitVec W) (w : ℕ) : ℕ := Nat.count (fun u => val u ≠ 0#W) w

/-- **The array holds the nonzero words**: the mask says which ones these are, and each is in its
place.
Source: `ebitmap.c` (comment) -/
structure Stored (map : EbitmapDef W) (val : ℕ → BitVec W) : Prop where
  mask : WellFormed map.wordmask
  present : ∀ w < map.wordmask.nBits, map.wordmask.testBit w = true ↔ val w ≠ 0#W
  beyond : ∀ w, map.wordmask.nBits ≤ w → val w = 0#W
  numwords : map.numwords = place val map.wordmask.nBits
  word : ∀ w, val w ≠ 0#W → map.elts (place val w) = val w

/-- **The cache points at the word it is for.** Source: `ebitmap.h` (`cache`, `cacheindex`). -/
def CacheOk (map : EbitmapDef W) (val : ℕ → BitVec W) : Prop :=
  ∀ p, map.cache = some p → val map.cacheindex ≠ 0#W ∧ p = place val map.cacheindex

theorem Stored.lt_nBits (h : Stored map val) (hw : val w ≠ 0#W) : w < map.wordmask.nBits := by
  by_contra hge
  exact hw (h.beyond w (not_lt.mp hge))

/-- The count of the mask is the place. -/
theorem Stored.popcount_eq (hW : 0 < W) (h : Stored map val) (hw : w ≤ map.wordmask.nBits) :
    sbitmapPopcount map.wordmask w = place val w := by
  rw [popcount_spec hW h.mask hw, place]
  exact count_congr fun u hu => h.present u (hu.trans_le hw)

theorem Stored.testMask_eq (hW : 0 < W) (h : Stored map val) (hw : w < map.wordmask.nBits) :
    testMask map w = .ok (decide (val w ≠ 0#W)) := by
  have hsize := Nat.div_add_mod (map.wordmask.nBits + W - 1) W
  have hmod := Nat.mod_lt (map.wordmask.nBits + W - 1) hW
  rw [← h.mask.size_eq] at hsize
  have hlt : w / W < map.wordmask.size := by
    refine Nat.div_lt_of_lt_mul ?_
    omega
  rw [testMask, if_pos hlt]
  congr 1
  rw [Bool.eq_iff_iff, h.present w hw, decide_eq_true_iff]

/-- A nonzero word is found where it is. -/
theorem Stored.locate_eq (hW : 0 < W) (h : Stored map val) (hc : CacheOk map val)
    (hw : w < map.wordmask.nBits) : locate map w = place val w := by
  unfold locate
  cases hcache : map.cache with
  | none => exact h.popcount_eq hW hw.le
  | some p =>
    dsimp only
    split_ifs with heq
    · rw [← heq]
      exact (hc p hcache).2
    · exact h.popcount_eq hW hw.le

theorem Stored.place_lt (h : Stored map val) (hw : val w ≠ 0#W) : place val w < map.numwords := by
  rw [h.numwords]
  exact Nat.count_strict_mono hw (h.lt_nBits hw)

/-- Different words are in different places. -/
theorem place_inj {u : ℕ} (hw : val w ≠ 0#W) (hu : val u ≠ 0#W) (h : place val w = place val u) :
    w = u := Nat.count_injective hw hu h

/-- Words that stay nonzero keep their places. -/
theorem place_update_ne {x : BitVec W} (hw : val w ≠ 0#W) (hx : x ≠ 0#W) (u : ℕ) :
    place (Function.update val w x) u = place val u := by
  refine count_congr fun v _ => ?_
  by_cases hv : v = w
  · subst hv
    simp [hw, hx]
  · rw [Function.update_of_ne hv]

/-- **A nonzero word changes** to a nonzero word. -/
theorem Stored.overwrite {x : BitVec W} (h : Stored map val) (hw : val w ≠ 0#W) (hx : x ≠ 0#W) :
    Stored { map with elts := Function.update map.elts (place val w) x }
      (Function.update val w x) := by
  refine ⟨h.mask, fun u hu => ?_, fun u hu => ?_, ?_, fun u hu => ?_⟩
  · rw [h.present u hu]
    by_cases huw : u = w
    · subst huw
      simp [hw, hx]
    · rw [Function.update_of_ne huw]
  · have huw : u ≠ w := by
      rintro rfl
      exact hw (h.beyond u hu)
    rw [Function.update_of_ne huw]
    exact h.beyond u hu
  · rw [place_update_ne hw hx]
    exact h.numwords
  · rw [place_update_ne hw hx]
    by_cases huw : u = w
    · subst huw
      simp
    · rw [Function.update_of_ne huw] at hu ⊢
      have hne : place val u ≠ place val w := fun heq => huw (place_inj hu hw heq)
      change Function.update map.elts (place val w) x (place val u) = val u
      rw [Function.update_of_ne hne]
      exact h.word u hu

theorem CacheOk.overwrite {x : BitVec W} {elts : ℕ → BitVec W} (hc : CacheOk map val)
    (hw : val w ≠ 0#W) (hx : x ≠ 0#W) :
    CacheOk { map with elts := elts } (Function.update val w x) := by
  intro p hp
  obtain ⟨hne, rfl⟩ := hc p hp
  refine ⟨?_, (place_update_ne hw hx _).symm⟩
  by_cases hcw : map.cacheindex = w
  · change Function.update val w x map.cacheindex ≠ 0#W
    rw [hcw, Function.update_self]
    exact hx
  · change Function.update val w x map.cacheindex ≠ 0#W
    rw [Function.update_of_ne hcw]
    exact hne

/-! ## Taking a word out -/

/-- The places without the word `w`. -/
theorem place_erase (hw : val w ≠ 0#W) (u : ℕ) :
    place val u = if u ≤ w then place (Function.update val w 0#W) u
      else place (Function.update val w 0#W) u + 1 := by
  have hiff : ∀ v, val v ≠ 0#W ↔ Function.update val w 0#W v ≠ 0#W ∨ v = w := by
    intro v
    by_cases hv : v = w
    · subst hv
      simp [hw]
    · rw [Function.update_of_ne hv]
      simp [hv]
  split_ifs with hu
  · exact count_insert_le hiff hu
  · exact count_insert_lt (by simp) hiff (not_le.mp hu)

/-- **The array without an emptied word.** Source: `ebitmap.c` `ebitmap_clear_bit`. Kind: L -/
theorem Stored.remove (hW : 0 < W) (hW' : W < 256) (h : Stored map val) (hw : val w ≠ 0#W)
    {elts : ℕ → BitVec W} (helts : ∀ i ≠ place val w, elts i = map.elts i) :
    Stored (removeWord { map with elts := elts } w) (Function.update val w 0#W) := by
  have hlt := h.lt_nBits hw
  obtain ⟨hwf, hn, -⟩ := resetBit_spec hW hW' h.mask w
  have hpos : sbitmapPopcount map.wordmask w = place val w := h.popcount_eq hW hlt.le
  have hnum := h.place_lt hw
  have hplace := place_erase hw
  refine ⟨hwf, fun u hu => ?_, fun u hu => ?_, ?_, fun u hu => ?_⟩
  · change (resetBit map.wordmask w).testBit u = true ↔ _
    have hu' : u < map.wordmask.nBits := hn ▸ hu
    rw [testBit_resetBit hW, Bool.and_eq_true, h.present u hu']
    by_cases huw : u = w
    · subst huw
      simp
    · rw [Function.update_of_ne huw]
      simp [huw]
  · have hu' : map.wordmask.nBits ≤ u := hn ▸ hu
    have huw : u ≠ w := by
      rintro rfl
      omega
    rw [Function.update_of_ne huw]
    exact h.beyond u hu'
  · change map.numwords - 1 = place (Function.update val w 0#W) (resetBit map.wordmask w).nBits
    rw [hn, h.numwords, hplace, if_neg (not_le.mpr hlt)]
    exact Nat.add_sub_cancel ..
  · have huw : u ≠ w := by
      rintro rfl
      simp at hu
    rw [Function.update_of_ne huw] at hu ⊢
    change (if sbitmapPopcount map.wordmask w ≤ place (Function.update val w 0#W) u ∧ _ then _ else _)
      = val u
    have hpu := hplace u
    have hltu := h.place_lt hu
    rw [hpos]
    by_cases hle : u ≤ w
    · -- a word before the removed one stays
      rw [if_pos hle] at hpu
      have hbelow : place val u < place val w := Nat.count_strict_mono hu (by omega)
      rw [if_neg (by omega), ← hpu]
      change elts (place val u) = val u
      rw [helts _ (by omega)]
      exact h.word u hu
    · rw [if_neg hle] at hpu
      have habove : place val w < place val u := Nat.count_strict_mono hw (by omega)
      have hin : place val w ≤ place (Function.update val w 0#W) u ∧
          place (Function.update val w 0#W) u < place val w + (map.numwords - place val w) := by
        omega
      rw [if_pos hin, ← hpu]
      change elts (place val u) = val u
      rw [helts _ (by omega)]
      exact h.word u hu

/-- **The cache after a word is gone.** It is right exactly if it was empty, or for a word before, or
for this word where no word before it is absent.
Source: `ebitmap.c` `ebitmap_clear_bit` (`map->cacheindex == eltwordindex`)
Kind: L -/
theorem CacheOk.remove_iff (hW : 0 < W) (h : Stored map val) (hc : CacheOk map val)
    (hw : val w ≠ 0#W) {elts : ℕ → BitVec W} :
    CacheOk (removeWord { map with elts := elts } w) (Function.update val w 0#W) ↔
      map.cache = none ∨ map.cacheindex < w ∨ (map.cacheindex = w ∧ ∀ u < w, val u ≠ 0#W) := by
  have hpos : sbitmapPopcount map.wordmask w = place val w := h.popcount_eq hW (h.lt_nBits hw).le
  have hcount : place val w = w ↔ ∀ u < w, val u ≠ 0#W := Nat.count_iff_forall
  have hle : place val w ≤ w := Nat.count_le _
  rcases Option.eq_none_or_eq_some map.cache with hcache | ⟨p, hcache⟩
  · refine iff_of_true (fun p hp => ?_) (.inl hcache)
    simp [removeWord, hcache] at hp
  obtain ⟨hne, hp⟩ := hc p hcache
  have hplace := place_erase hw map.cacheindex
  by_cases hnull : map.cacheindex = place val w
  · -- the comparison of the source holds, and the cache is dropped
    refine iff_of_true (fun q hq => ?_) (.inr ?_)
    · simp [removeWord, hcache, hpos, hnull] at hq
    · rcases Nat.lt_or_eq_of_le hle with hlt | heq
      · exact .inl (hnull ▸ hlt)
      · exact .inr ⟨hnull.trans heq, hcount.mp heq⟩
  have hkeep : (removeWord { map with elts := elts } w).cache = some p := by
    simp [removeWord, hcache, hpos, hnull]
  have hindex : (removeWord { map with elts := elts } w).cacheindex = map.cacheindex := rfl
  constructor
  · intro hok
    obtain ⟨hne', hp'⟩ := hok p hkeep
    rw [hindex] at hne' hp'
    have hcw : map.cacheindex ≠ w := by
      intro heq
      rw [heq, Function.update_self] at hne'
      exact hne' rfl
    refine .inr (.inl ?_)
    by_contra hge
    rw [if_neg (by omega)] at hplace
    omega
  · rintro (hnone | hlt | ⟨heq, hall⟩)
    · rw [hcache] at hnone
      cases hnone
    · intro q hq
      obtain rfl : p = q := Option.some.inj (hkeep.symm.trans hq)
      rw [if_pos hlt.le] at hplace
      rw [hindex, Function.update_of_ne (Nat.ne_of_lt hlt)]
      exact ⟨hne, hp.trans hplace⟩
    · exact absurd (heq.trans (hcount.mpr hall).symm) hnull

/-! ## Putting a word in -/

/-- **The words make room**, and the array is long enough.
Source: `ebitmap.c` `ebitmap_set_bit` (`for (i = map->numwords; i > count; i--)`)
Kind: L -/
theorem shiftLoop_spec (count i : ℕ) (map : EbitmapDef W) :
    ∃ map', shiftLoop count i map = .ok map' ∧ map'.wordmask = map.wordmask ∧
      map'.numwords = map.numwords ∧
      ∀ k, map'.elts k = if count < k ∧ k ≤ i then map.elts (k - 1) else map.elts k := by
  induction i generalizing map with
  | zero =>
    refine ⟨map, rfl, rfl, rfl, fun k => ?_⟩
    rw [if_neg (by omega)]
  | succ i ih =>
    rw [shiftLoop]
    by_cases hlt : i + 1 > count
    · rw [if_pos hlt]
      have hgrow : ∃ map₁, (if i + 1 ≥ map.nElts then ebitmapArrayGrow map (i + 2) else map) = map₁ ∧
          i < map₁.nElts ∧ map₁.wordmask = map.wordmask ∧ map₁.numwords = map.numwords ∧
          map₁.elts = map.elts := by
        refine ⟨_, rfl, ?_⟩
        split_ifs with hge
        · unfold ebitmapArrayGrow
          split_ifs
          · exact ⟨Nat.lt_add_of_pos_right Nat.two_pos, rfl, rfl, rfl⟩
          · exact ⟨by simp only; omega, rfl, rfl, rfl⟩
        · exact ⟨by omega, rfl, rfl, rfl⟩
      obtain ⟨map₁, heq₁, hlen, hmask₁, hnum₁, helts₁⟩ := hgrow
      obtain ⟨map', heq, hmask, hnum, helts⟩ :=
        ih { map₁ with elts := Function.update map₁.elts (i + 1) (map₁.elts i) }
      simp only [heq₁, ebitmapArrayGet, if_pos hlen, bind, Except.bind]
      refine ⟨map', heq, hmask.trans hmask₁, hnum.trans hnum₁, fun k => ?_⟩
      rw [helts]
      simp only [helts₁, Function.update_apply]
      by_cases hki : k = i + 1
      · subst hki
        rw [if_neg (by omega), if_pos rfl, if_pos ⟨hlt, le_rfl⟩, Nat.add_sub_cancel]
      · by_cases hk : count < k ∧ k ≤ i
        · rw [if_pos hk, if_neg (show ¬ k - 1 = i + 1 by omega),
            if_pos ⟨hk.1, hk.2.trans (Nat.le_succ i)⟩]
        · rw [if_neg hk, if_neg hki, if_neg (show ¬ (count < k ∧ k ≤ i + 1) by omega)]
    · rw [if_neg hlt]
      refine ⟨map, rfl, rfl, rfl, fun k => ?_⟩
      rw [if_neg (by omega)]

/-- The places with the new word `w`. -/
theorem place_insert {x : BitVec W} (hw : val w = 0#W) (hx : x ≠ 0#W) (u : ℕ) :
    place (Function.update val w x) u = if u ≤ w then place val u else place val u + 1 := by
  have hiff : ∀ v, Function.update val w x v ≠ 0#W ↔ val v ≠ 0#W ∨ v = w := by
    intro v
    by_cases hv : v = w
    · subst hv
      simp [hx]
    · rw [Function.update_of_ne hv]
      simp [hv]
  split_ifs with hu
  · exact count_insert_le hiff hu
  · exact count_insert_lt (by simp [hw]) hiff (not_le.mp hu)

/-- **The array with a new word**, whatever nonzero value is then put in its place.
Source: `ebitmap.c` `ebitmap_set_bit`
Kind: L -/
theorem insertWord_spec (hW : 0 < W) (hW' : W < 256) (h : Stored map val)
    (hlt : w < map.wordmask.nBits) (hw : val w = 0#W) {x : BitVec W} (hx : x ≠ 0#W) :
    ∃ map', insertWord map w = .ok (map', place val w) ∧ map'.elts (place val w) = 0#W ∧
      ∀ cache cacheindex, Stored { map' with
        elts := Function.update map'.elts (place val w) x
        cache := cache
        cacheindex := cacheindex } (Function.update val w x) := by
  obtain ⟨hwf, hn, -⟩ := setBit_spec hW hW' h.mask hlt
  -- the new mask bit does not count below itself
  have hpos : sbitmapPopcount (setBit map.wordmask w) w = place val w := by
    rw [popcount_spec hW hwf (hn.symm ▸ hlt.le), place]
    refine count_congr fun u hu => ?_
    rw [testBit_setBit hW, ← h.present u (hu.trans hlt)]
    simp [Nat.ne_of_lt hu]
  have hle : place val w ≤ map.numwords := by
    rw [h.numwords]
    exact Nat.count_monotone _ hlt.le
  obtain ⟨map₁, heq₁, hmask₁, hnum₁, helts₁⟩ :=
    shiftLoop_spec (place val w) map.numwords { map with wordmask := setBit map.wordmask w }
  have hgrow : ∀ m : EbitmapDef W, ∃ k,
      ebitmapArrayMaybeGrow m (place val w) = { m with nElts := k } := by
    intro m
    unfold ebitmapArrayMaybeGrow ebitmapArrayGrow
    split_ifs
    · exact ⟨_, rfl⟩
    · exact ⟨_, rfl⟩
    · exact ⟨m.nElts, rfl⟩
  obtain ⟨k, hk⟩ := hgrow { map₁ with numwords := map₁.numwords + 1 }
  simp only [insertWord, hpos, if_pos hle, heq₁, bind, Except.bind, hk]
  refine ⟨_, rfl, Function.update_self .., fun cache cacheindex => ?_⟩
  have hins := place_insert hw hx
  refine ⟨?_, fun u hu => ?_, fun u hu => ?_, ?_, fun u hu => ?_⟩
  · rw [hmask₁]
    exact hwf
  · rw [hmask₁] at hu ⊢
    rw [testBit_setBit hW, Bool.or_eq_true, h.present u (hn ▸ hu)]
    by_cases huw : u = w
    · subst huw
      simp [hx]
    · rw [Function.update_of_ne huw]
      simp [huw]
  · rw [hmask₁] at hu
    have hu' : map.wordmask.nBits ≤ u := hn ▸ hu
    have huw : u ≠ w := by
      rintro rfl
      omega
    rw [Function.update_of_ne huw]
    exact h.beyond u hu'
  · rw [hmask₁]
    change map₁.numwords + 1 = place (Function.update val w x) (setBit map.wordmask w).nBits
    rw [hn, hnum₁, hins, if_neg (not_le.mpr hlt), ← h.numwords]
  · change Function.update (Function.update map₁.elts (place val w) 0#W) (place val w) x
      (place (Function.update val w x) u) = Function.update val w x u
    rw [Function.update_idem, hins]
    by_cases huw : u = w
    · subst huw
      rw [if_pos le_rfl, Function.update_self, Function.update_self]
    · rw [Function.update_of_ne huw] at hu ⊢
      have hltu := h.place_lt hu
      by_cases hbelow : u ≤ w
      · have hpu : place val u < place val w := Nat.count_strict_mono hu (by omega)
        rw [if_pos hbelow, Function.update_of_ne (Nat.ne_of_lt hpu), helts₁, if_neg (by omega)]
        exact h.word u hu
      · have hpu : place val w ≤ place val u := Nat.count_monotone _ (by omega)
        rw [if_neg hbelow, Function.update_of_ne (by omega), helts₁, if_pos (by omega),
          Nat.add_sub_cancel]
        exact h.word u hu

end Storage

/-! ## The operations -/

section Operations

variable {W : ℕ} {map : EbitmapDef W} {val : ℕ → BitVec W} {w b : ℕ}

/-- A word with a bit set is not zero. -/
theorem set_ne_zero (x : BitVec W) {k : ℕ} (hk : k < W) : x ||| (1#W <<< k) ≠ 0#W := by
  intro h
  have hbit : (x ||| (1#W <<< k)).getLsbD k = true := by
    rw [getLsbD_set x hk]
    simp [hk]
  rw [h, BitVec.getLsbD_zero] at hbit
  cases hbit

/-- A longer mask is the same mask. Source: `ebitmap.c` `ebitmap_set_bit`. Kind: L -/
theorem resizeMask_spec (hW : 0 < W) (h : Stored map val) (hw : w + 1 + W ≤ 2 ^ 32) :
    Stored (resizeMask map w) val ∧ w < (resizeMask map w).wordmask.nBits := by
  unfold resizeMask
  split_ifs with hge
  · have hle : map.wordmask.nBits ≤ w + 1 := hge.trans (Nat.le_succ w)
    obtain ⟨hwf, hold, hnew⟩ := grow_spec hW h.mask hle hw
    refine ⟨⟨hwf, fun u hu => ?_, fun u hu => ?_, ?_, h.word⟩, Nat.lt_succ_self w⟩
    · by_cases hu' : u < map.wordmask.nBits
      · rw [show (sbitmapGrow map.wordmask (w + 1)).testBit u = _ from hold u hu']
        exact h.present u hu'
      · rw [show (sbitmapGrow map.wordmask (w + 1)).testBit u = _ from hnew u (not_lt.mp hu') hu,
          h.beyond u (not_lt.mp hu')]
        simp
    · exact h.beyond u (hle.trans hu)
    · -- no word behind the old mask counts
      change map.numwords = place val (w + 1)
      obtain ⟨d, hd⟩ := Nat.exists_eq_add_of_le hle
      have hrest : Nat.count (fun k => val (map.wordmask.nBits + k) ≠ 0#W) d = 0 := by
        rw [Nat.count_iff_forall_not]
        intro k _
        rw [h.beyond _ (Nat.le_add_right _ k)]
        simp
      rw [hd, place, Nat.count_add, hrest, Nat.add_zero]
      exact h.numwords
  · exact ⟨h, not_le.mp hge⟩

/-- **`ebitmap_set_bit`** sets the bit of its word, and the cache is right.
Source: `ebitmap.c` `ebitmap_set_bit`
Kind: L -/
theorem ebitmapSetBit_spec (hW : 0 < W) (hW' : W < 256) (h : Stored map val) (hc : CacheOk map val)
    (hb : b / W + 1 + W ≤ 2 ^ 32) :
    ∃ map', ebitmapSetBit map b = .ok map' ∧
      Stored map' (Function.update val (b / W) (val (b / W) ||| (1#W <<< (b % W)))) ∧
      CacheOk map' (Function.update val (b / W) (val (b / W) ||| (1#W <<< (b % W)))) := by
  have hx := set_ne_zero (val (b / W)) (Nat.mod_lt b hW)
  unfold ebitmapSetBit
  by_cases hit : map.cache ≠ none ∧ map.cacheindex = b / W
  · obtain ⟨p, hp⟩ := Option.ne_none_iff_exists'.mp hit.1
    have hw : val (b / W) ≠ 0#W := hit.2 ▸ (hc p hp).1
    rw [if_pos hit]
    dsimp only
    rw [h.locate_eq hW hc (h.lt_nBits hw), h.word _ hw]
    exact ⟨_, rfl, h.overwrite hw hx, hc.overwrite hw hx⟩
  · rw [if_neg hit]
    obtain ⟨h₁, hlt⟩ := resizeMask_spec hW h hb
    simp only [provideWord, h₁.testMask_eq hW hlt, bind, Except.bind]
    by_cases hw : val (b / W) = 0#W
    · obtain ⟨map', heq, hzero, hstored⟩ := insertWord_spec hW hW' h₁ hlt hw hx
      simp only [hw, ne_eq, not_true_eq_false, decide_false, Bool.false_eq_true, if_false, heq, hzero]
      rw [hw] at hstored
      refine ⟨_, rfl, hstored _ _, fun p hp => ?_⟩
      obtain rfl := Option.some.inj hp
      rw [hw] at hx
      refine ⟨?_, ?_⟩
      · change Function.update val (b / W) _ (b / W) ≠ 0#W
        rw [Function.update_self]
        exact hx
      · change place val (b / W) = place (Function.update val (b / W) _) (b / W)
        rw [place_insert hw hx, if_pos le_rfl]
    · simp only [hw, ne_eq, not_false_eq_true, decide_true, if_true, h₁.popcount_eq hW hlt.le,
        h₁.word _ hw]
      obtain ⟨hm, hpres, hbey, hnum, hword⟩ := h₁.overwrite hw hx
      refine ⟨_, rfl, ⟨hm, hpres, hbey, hnum, hword⟩, fun p hp => ?_⟩
      obtain rfl := Option.some.inj hp
      refine ⟨?_, ?_⟩
      · change Function.update val (b / W) _ (b / W) ≠ 0#W
        rw [Function.update_self]
        exact hx
      · exact (place_update_ne hw hx _).symm

/-- The word without the bit. -/
def without (x : BitVec W) (k : ℕ) : BitVec W := x &&& ~~~(1#W <<< k)

/-- **When the cache survives** the clearing of a bit: the word does not become zero, or nothing is
cached, or a word before it, or the word itself where no word before it is absent.
Source: `ebitmap.c` `ebitmap_clear_bit` (`map->cacheindex == eltwordindex`) -/
def CacheSafeWord (map : EbitmapDef W) (val : ℕ → BitVec W) (b : ℕ) : Prop :=
  val (b / W) ≠ 0#W → without (val (b / W)) (b % W) = 0#W → map.cache = none ∨
    map.cacheindex < b / W ∨ (map.cacheindex = b / W ∧ ∀ u < b / W, val u ≠ 0#W)

theorem without_zero (k : ℕ) : without (0#W) k = 0#W := by
  refine BitVec.eq_of_getLsbD_eq fun i hi => ?_
  rw [without, BitVec.getLsbD_and, BitVec.getLsbD_zero, Bool.false_and]

/-- **`ebitmap_clear_bit`** clears the bit of its word; the cache is right exactly if it survives.
Source: `ebitmap.c` `ebitmap_clear_bit`
Kind: L -/
theorem ebitmapClearBit_spec (hW : 0 < W) (hW' : W < 256) (h : Stored map val)
    (hc : CacheOk map val) :
    ∃ map', ebitmapClearBit map b = .ok map' ∧
      Stored map' (Function.update val (b / W) (without (val (b / W)) (b % W))) ∧
      (CacheOk map' (Function.update val (b / W) (without (val (b / W)) (b % W))) ↔
        CacheSafeWord map val b) := by
  by_cases hw : val (b / W) = 0#W
  · -- there is nothing to clear
    have hsame : Function.update val (b / W) (without (val (b / W)) (b % W)) = val := by
      rw [hw, without_zero, ← hw, Function.update_eq_self]
    have heq : ebitmapClearBit map b = .ok map := by
      unfold ebitmapClearBit
      dsimp only
      by_cases hnum : map.numwords = 0
      · rw [if_pos hnum]
      · by_cases hge : b / W ≥ map.wordmask.nBits
        · rw [if_neg hnum, if_pos hge]
        · rw [if_neg hnum, if_neg hge]
          simp [h.testMask_eq hW (not_le.mp hge), hw, bind, Except.bind]
    refine ⟨map, heq, ?_, ?_⟩
    · rw [hsame]
      exact h
    · rw [hsame]
      exact iff_of_true hc fun hne => absurd hw hne
  · have hlt := h.lt_nBits hw
    have hnum : map.numwords ≠ 0 := Nat.ne_of_gt (Nat.lt_of_le_of_lt (Nat.zero_le _) (h.place_lt hw))
    unfold ebitmapClearBit
    dsimp only
    rw [if_neg hnum, if_neg (not_le.mpr hlt)]
    simp only [h.testMask_eq hW hlt, bind, Except.bind, hw, ne_eq, not_false_eq_true, decide_true,
      if_true, h.locate_eq hW hc hlt, h.word _ hw]
    rw [show val (b / W) &&& ~~~(1#W <<< (b % W)) = without (val (b / W)) (b % W) from rfl]
    by_cases hz : without (val (b / W)) (b % W) = 0#W
    · rw [if_pos hz, hz]
      refine ⟨_, rfl, h.remove hW hW' hw fun i hi => Function.update_of_ne hi .., ?_⟩
      rw [hc.remove_iff hW h hw]
      exact ⟨fun hok _ _ => hok, fun hsafe => hsafe hw hz⟩
    · rw [if_neg hz]
      refine ⟨_, rfl, h.overwrite hw hz, iff_of_true (hc.overwrite hw hz) fun _ hz' => ?_⟩
      exact absurd hz' hz

/-- **`ebitmap_bit_p`** reads the bit of its word, and the cache is right.
Source: `ebitmap.c` `ebitmap_bit_p`
Kind: L -/
theorem ebitmapBitP_spec (hW : 0 < W) (h : Stored map val) (hc : CacheOk map val) (b : ℕ) :
    ∃ map', ebitmapBitP map b = .ok ((val (b / W)).getLsbD (b % W), map') ∧ Stored map' val ∧
      CacheOk map' val := by
  unfold ebitmapBitP
  dsimp only
  by_cases hw : val (b / W) = 0#W
  · have hfalse : (val (b / W)).getLsbD (b % W) = false := by rw [hw, BitVec.getLsbD_zero]
    have hmiss : ¬ (map.cache ≠ none ∧ map.cacheindex = b / W) := by
      rintro ⟨hne, heq⟩
      obtain ⟨p, hp⟩ := Option.ne_none_iff_exists'.mp hne
      exact (hc p hp).1 (heq ▸ hw)
    refine ⟨map, ?_, h, hc⟩
    rw [hfalse, if_neg hmiss]
    split_ifs with hnum hge
    · rfl
    · rfl
    · simp [h.testMask_eq hW (not_le.mp hge), hw, bind, Except.bind]
  · have hlt := h.lt_nBits hw
    have hnum : map.numwords ≠ 0 := Nat.ne_of_gt (Nat.lt_of_le_of_lt (Nat.zero_le _) (h.place_lt hw))
    rw [if_neg hnum]
    by_cases hit : map.cache ≠ none ∧ map.cacheindex = b / W
    · rw [if_pos hit, h.locate_eq hW hc hlt, h.word _ hw]
      exact ⟨map, rfl, h, hc⟩
    · rw [if_neg hit, if_neg (not_le.mpr hlt)]
      simp only [h.testMask_eq hW hlt, bind, Except.bind, hw, ne_eq, not_false_eq_true, decide_true,
        if_true, h.popcount_eq hW hlt.le, h.word _ hw]
      refine ⟨_, rfl, ⟨h.mask, h.present, h.beyond, h.numwords, h.word⟩, fun p hp => ?_⟩
      obtain rfl := Option.some.inj hp
      exact ⟨hw, rfl⟩

end Operations

/-! ## Runs -/

section Runs

variable {W : ℕ} {map : EbitmapDef W} {val : ℕ → BitVec W} {S : Finset ℕ} {b : ℕ}

/-- The words of a set of bits. -/
def Words (S : Finset ℕ) (val : ℕ → BitVec W) : Prop :=
  ∀ b, b ∈ S ↔ (val (b / W)).getLsbD (b % W) = true

theorem Words.unique (hW : 0 < W) {val' : ℕ → BitVec W} (h : Words S val) (h' : Words S val') :
    val = val' := by
  funext w
  refine BitVec.eq_of_getLsbD_eq fun i hi => ?_
  have hd : (W * w + i) / W = w := by
    rw [Nat.mul_add_div hW, Nat.div_eq_of_lt hi, Nat.add_zero]
  have hm : (W * w + i) % W = i := by
    rw [Nat.mul_add_mod, Nat.mod_eq_of_lt hi]
  have hv := h (W * w + i)
  have hv' := h' (W * w + i)
  rw [hd, hm] at hv hv'
  rw [Bool.eq_iff_iff, ← hv, ← hv']

theorem Words.ne_zero_iff (hW : 0 < W) (h : Words S val) (w : ℕ) :
    val w ≠ 0#W ↔ ∃ x ∈ S, x / W = w := by
  constructor
  · intro hne
    by_contra hnone
    push Not at hnone
    apply hne
    refine BitVec.eq_of_getLsbD_eq fun i hi => ?_
    have hd : (W * w + i) / W = w := by
      rw [Nat.mul_add_div hW, Nat.div_eq_of_lt hi, Nat.add_zero]
    have hm : (W * w + i) % W = i := by
      rw [Nat.mul_add_mod, Nat.mod_eq_of_lt hi]
    have hv := h (W * w + i)
    rw [hd, hm] at hv
    rw [BitVec.getLsbD_zero, ← Bool.not_eq_true, ← hv]
    exact fun hmem => hnone _ hmem hd
  · rintro ⟨x, hx, rfl⟩ hzero
    have := (h x).mp hx
    rw [hzero, BitVec.getLsbD_zero] at this
    cases this

theorem Words.insert (hW : 0 < W) (h : Words S val) (b : ℕ) :
    Words (insert b S)
      (Function.update val (b / W) (val (b / W) ||| (1#W <<< (b % W)))) := by
  intro x
  rw [Finset.mem_insert, h x]
  by_cases hd : x / W = b / W
  · rw [hd, Function.update_self, getLsbD_set _ (Nat.mod_lt b hW)]
    have hiff : x % W = b % W ↔ x = b := ⟨eq_of_div_mod hd, fun heq => by rw [heq]⟩
    simp [hiff, Nat.mod_lt x hW, or_comm]
  · rw [Function.update_of_ne hd]
    have hne : x ≠ b := fun heq => hd (heq ▸ rfl)
    simp [hne]

theorem Words.erase (hW : 0 < W) (h : Words S val) (b : ℕ) :
    Words (S.erase b) (Function.update val (b / W) (without (val (b / W)) (b % W))) := by
  intro x
  rw [Finset.mem_erase, h x]
  by_cases hd : x / W = b / W
  · rw [hd, Function.update_self, without, getLsbD_reset _ (Nat.mod_lt b hW)]
    have hiff : x % W = b % W ↔ x = b := ⟨eq_of_div_mod hd, fun heq => by rw [heq]⟩
    simp [hiff, and_comm]
  · rw [Function.update_of_ne hd]
    have hne : x ≠ b := fun heq => hd (heq ▸ rfl)
    simp [hne]

/-- The calls. Source: `ebitmap.h`. -/
inductive Op
  | setBit (bit : ℕ)
  | clearBit (bit : ℕ)
  | bitP (bit : ℕ)

/-- One call; the result is that of `ebitmap_bit_p`. Source: `ebitmap.c`. -/
def exec (map : EbitmapDef W) : Op → Except Failure (Option Bool × EbitmapDef W)
  | .setBit bit => do
    let map ← ebitmapSetBit map bit
    .ok (none, map)
  | .clearBit bit => do
    let map ← ebitmapClearBit map bit
    .ok (none, map)
  | .bitP bit => do
    let (r, map) ← ebitmapBitP map bit
    .ok (some r, map)

/-- The argument of a call, an `unsigned int`. Source: `ebitmap.h`. -/
def Op.bit : Op → ℕ
  | .setBit bit => bit
  | .clearBit bit => bit
  | .bitP bit => bit

/-- The set of bits after a call. -/
def after (S : Finset ℕ) : Op → Finset ℕ
  | .setBit bit => insert bit S
  | .clearBit bit => S.erase bit
  | .bitP _ => S

/-- What a call should return. -/
def answer (S : Finset ℕ) : Op → Option Bool
  | .bitP bit => some (decide (bit ∈ S))
  | _ => none

/-- **When a call leaves the cache right.** A bit that is the only one of its word may be cleared if
nothing is cached, or a word before its word, or its word itself and no word before it is zero.
Source: `ebitmap.c` `ebitmap_clear_bit` (`map->cacheindex == eltwordindex`) -/
def CacheSafe (map : EbitmapDef W) (S : Finset ℕ) : Op → Prop
  | .clearBit b => b ∈ S → (∀ x ∈ S, x / W = b / W → x = b) → map.cache = none ∨
      map.cacheindex < b / W ∨ (map.cacheindex = b / W ∧ ∀ u < b / W, ∃ x ∈ S, x / W = u)
  | _ => True

/-- **Runs** from `ebitmap_alloc`, whose calls leave the cache right, with the set of bits. -/
inductive Run : EbitmapDef W → Finset ℕ → Prop
  | start {n : ℕ} (hn : n + W ≤ 2 ^ 32) (elts mask : ℕ → BitVec W) (counts : ℕ → ℕ) :
      Run (ebitmapAlloc n elts mask counts) ∅
  | step {map map' : EbitmapDef W} {S : Finset ℕ} {op : Op} {r : Option Bool} :
      Run map S → op.bit < 2 ^ 32 → CacheSafe map S op → exec map op = .ok (r, map') →
      Run map' (after S op)

/-- **The contract**: `ebitmap_bit_p` is membership; the array lists the nonzero words of the set in the
order of the mask; and the cache, if there is one, points at the place of its word.
Source: `ebitmap.c` (comment) -/
def Contract (map : EbitmapDef W) (S : Finset ℕ) : Prop :=
  (∀ b, ∃ map', ebitmapBitP map b = .ok (decide (b ∈ S), map')) ∧
    ∃ val : ℕ → BitVec W, Words S val ∧
      (∀ w, val w ≠ 0#W ↔ w < map.wordmask.nBits ∧ map.wordmask.testBit w = true) ∧
      (List.range map.numwords).map map.elts =
        ((List.range map.wordmask.nBits).filter fun w => map.wordmask.testBit w).map val ∧
      ∀ p, map.cache = some p → map.cacheindex < map.wordmask.nBits ∧
        map.wordmask.testBit map.cacheindex = true ∧
        p = Nat.count (fun w => map.wordmask.testBit w = true) map.cacheindex

theorem Stored.ne_zero_iff (h : Stored map val) (w : ℕ) :
    val w ≠ 0#W ↔ w < map.wordmask.nBits ∧ map.wordmask.testBit w = true := by
  constructor
  · intro hne
    exact ⟨h.lt_nBits hne, (h.present w (h.lt_nBits hne)).mpr hne⟩
  · rintro ⟨hlt, hbit⟩
    exact (h.present w hlt).mp hbit

theorem Stored.place_eq_count (h : Stored map val) {w : ℕ} (hw : w ≤ map.wordmask.nBits) :
    place val w = Nat.count (fun u => map.wordmask.testBit u = true) w :=
  count_congr fun u hu => (h.present u (hu.trans_le hw)).symm

/-- The invariant gives the contract. -/
theorem Stored.contract (hW : 0 < W) (h : Stored map val) (hc : CacheOk map val)
    (hwords : Words S val) : Contract map S := by
  refine ⟨fun b => ?_, val, hwords, h.ne_zero_iff, ?_, fun p hp => ?_⟩
  · obtain ⟨map', heq, -⟩ := ebitmapBitP_spec hW h hc b
    refine ⟨map', ?_⟩
    rw [heq]
    congr 2
    rw [Bool.eq_iff_iff, ← hwords b, decide_eq_true_iff]
  · rw [h.numwords, place, map_range_count]
    have hfilter : (List.range map.wordmask.nBits).filter (fun w => decide (val w ≠ 0#W)) =
        (List.range map.wordmask.nBits).filter fun w => map.wordmask.testBit w := by
      refine List.filter_congr fun w hw => ?_
      rw [Bool.eq_iff_iff, decide_eq_true_iff, h.present w (List.mem_range.mp hw)]
    rw [hfilter]
    refine List.map_congr_left fun w hw => ?_
    obtain ⟨hlt, hbit⟩ := List.mem_filter.mp hw
    exact h.word w ((h.present w (List.mem_range.mp hlt)).mp hbit)
  · obtain ⟨hne, hplace⟩ := hc p hp
    obtain ⟨hlt, hbit⟩ := (h.ne_zero_iff _).mp hne
    exact ⟨hlt, hbit, hplace.trans (h.place_eq_count hlt.le)⟩

/-- The contract gives back the cache. -/
theorem Contract.cacheOk (hW : 0 < W) (h : Stored map val) (hwords : Words S val)
    (hcontract : Contract map S) : CacheOk map val := by
  obtain ⟨-, val', hwords', -, -, hcache⟩ := hcontract
  obtain rfl := hwords.unique hW hwords'
  intro p hp
  obtain ⟨hlt, hbit, hplace⟩ := hcache p hp
  exact ⟨(h.ne_zero_iff _).mpr ⟨hlt, hbit⟩, hplace.trans (h.place_eq_count hlt.le).symm⟩

/-- The condition on words and the one on bits. -/
theorem cacheSafeWord_iff (hW : 0 < W) (hwords : Words S val) :
    CacheSafeWord map val b ↔ CacheSafe map S (.clearBit b) := by
  have honly : (val (b / W) ≠ 0#W ∧ without (val (b / W)) (b % W) = 0#W) ↔
      (b ∈ S ∧ ∀ x ∈ S, x / W = b / W → x = b) := by
    have herase := hwords.erase hW b
    have hiff := herase.ne_zero_iff hW (b / W)
    rw [Function.update_self] at hiff
    constructor
    · rintro ⟨hne, hzero⟩
      have halone : ∀ x ∈ S, x / W = b / W → x = b := by
        intro x hx hd
        by_contra hxb
        exact (hiff.mpr ⟨x, Finset.mem_erase.mpr ⟨hxb, hx⟩, hd⟩) hzero
      obtain ⟨x, hx, hd⟩ := (hwords.ne_zero_iff hW _).mp hne
      exact ⟨halone x hx hd ▸ hx, halone⟩
    · rintro ⟨hb, halone⟩
      refine ⟨(hwords.ne_zero_iff hW _).mpr ⟨b, hb, rfl⟩, ?_⟩
      by_contra hne
      obtain ⟨x, hx, hd⟩ := hiff.mp hne
      obtain ⟨hxb, hxS⟩ := Finset.mem_erase.mp hx
      exact hxb (halone x hxS hd)
  have hall : (∀ u < b / W, val u ≠ 0#W) ↔ ∀ u < b / W, ∃ x ∈ S, x / W = u :=
    forall₂_congr fun u _ => hwords.ne_zero_iff hW u
  rw [CacheSafeWord, CacheSafe, ← hall, ← and_imp, ← and_imp, honly]

/-- **One call** from a state that keeps the contract. Source: `ebitmap.c`. Kind: L -/
theorem step_spec (hW : W = 32 ∨ W = 64) (h : Stored map val) (hc : CacheOk map val)
    (hwords : Words S val) {op : Op} (hop : op.bit < 2 ^ 32) :
    ∃ map' val', exec map op = .ok (answer S op, map') ∧ Stored map' val' ∧ Words (after S op) val' ∧
      (CacheOk map' val' ↔ CacheSafe map S op) := by
  have hpos : 0 < W := by omega
  have hbyte : W < 256 := by omega
  cases op with
  | setBit b =>
    have hb : b / W + 1 + W ≤ 2 ^ 32 := by
      have hop' : b < 2 ^ 32 := hop
      rcases hW with rfl | rfl
      · omega
      · omega
    obtain ⟨map', heq, h', hc'⟩ := ebitmapSetBit_spec hpos hbyte h hc hb
    simp only [exec, heq, bind, Except.bind]
    exact ⟨map', _, rfl, h', hwords.insert hpos b, iff_of_true hc' trivial⟩
  | clearBit b =>
    obtain ⟨map', heq, h', hc'⟩ := ebitmapClearBit_spec (b := b) hpos hbyte h hc
    simp only [exec, heq, bind, Except.bind]
    refine ⟨map', _, rfl, h', hwords.erase hpos b, ?_⟩
    rw [hc', cacheSafeWord_iff hpos hwords]
  | bitP b =>
    obtain ⟨map', heq, h', hc'⟩ := ebitmapBitP_spec hpos h hc b
    simp only [exec, heq, bind, Except.bind]
    refine ⟨map', val, ?_, h', hwords, iff_of_true hc' trivial⟩
    rw [answer]
    congr 3
    rw [Bool.eq_iff_iff, ← hwords b, decide_eq_true_iff]

/-- A new bitmap. Source: `ebitmap.c` `ebitmap_alloc`. Kind: L -/
theorem alloc_spec {n : ℕ} (hW : W = 32 ∨ W = 64) (hn : n + W ≤ 2 ^ 32)
    (elts mask : ℕ → BitVec W) (counts : ℕ → ℕ) :
    Stored (ebitmapAlloc n elts mask counts) fun _ => 0#W := by
  have hpos : 0 < W := by omega
  have hsize : (if n = 0 then W else n) + W ≤ 2 ^ 32 := by
    split_ifs
    · omega
    · exact hn
  obtain ⟨hwf, hzero⟩ := zero_spec hpos hsize mask counts
  refine ⟨hwf, fun w hw => ?_, fun w _ => rfl, ?_, fun w hw => absurd rfl hw⟩
  · rw [show (ebitmapAlloc n elts mask counts).wordmask.testBit w = false from hzero w hw]
    simp
  · have hnone : place (fun _ => 0#W) (ebitmapAlloc n elts mask counts).wordmask.nBits = 0 := by
      rw [place, Nat.count_iff_forall_not]
      exact fun _ _ hne => hne rfl
    exact hnone.symm

/-- The invariant in every state of a run. -/
theorem Run.stored (hW : W = 32 ∨ W = 64) (hrun : Run map S) :
    ∃ val, Stored map val ∧ CacheOk map val ∧ Words S val := by
  induction hrun with
  | start hn elts mask counts =>
    refine ⟨fun _ => 0#W, alloc_spec hW hn elts mask counts, fun p hp => ?_, fun b => ?_⟩
    · cases hp
    · simp
  | step _ hop hsafe hexec ih =>
    obtain ⟨val, h, hc, hwords⟩ := ih
    obtain ⟨map'', val', heq, h', hwords', hc'⟩ := step_spec hW h hc hwords hop
    rw [hexec] at heq
    obtain ⟨-, rfl⟩ := Prod.mk.inj (Except.ok.inj heq)
    exact ⟨val', h', hc'.mpr hsafe, hwords'⟩

/-- **The contract of runs.** It holds in every state of every run whose calls leave the cache right;
there every call returns the right answer, and the next state keeps the contract exactly if the call
leaves the cache right.
Source: `ebitmap.c`
Kind: P -/
theorem ebitmap_contract (hW : W = 32 ∨ W = 64) (hrun : Run map S) :
    Contract map S ∧ ∀ op : Op, op.bit < 2 ^ 32 → ∃ map', exec map op = .ok (answer S op, map') ∧
      (Contract map' (after S op) ↔ CacheSafe map S op) := by
  have hpos : 0 < W := by omega
  obtain ⟨val, h, hc, hwords⟩ := hrun.stored hW
  refine ⟨h.contract hpos hc hwords, fun op hop => ?_⟩
  obtain ⟨map', val', heq, h', hwords', hc'⟩ := step_spec hW h hc hwords hop
  refine ⟨map', heq, ?_⟩
  rw [← hc']
  exact ⟨Contract.cacheOk hpos h' hwords', fun hok => h'.contract hpos hok hwords'⟩

/-- The bitmap for 128 bits on a host with 64-bit words. Source: none: example. -/
def allocated : EbitmapDef 64 := ebitmapAlloc 128 (fun _ => 0#64) (fun _ => 0#64) fun _ => 0

/-- **The contract at work**: bits are set in two words, and the bit of the second is cleared while the first is cached; then a bit
comes into the second word again.
Source: none: example
Kind: C -/
theorem ebitmap_contract_two_words :
    ∃ map : EbitmapDef 64, Run map {3} ∧ Contract map {3} ∧ map.numwords = 1 ∧
      ∃ map', exec map (.setBit 127) = .ok (none, map') ∧ Contract map' {127, 3} := by
  have hexec : ∃ map1 map2 map3, exec allocated (.setBit 70) = .ok (none, map1) ∧ exec map1 (.setBit 3) = .ok (none, map2) ∧
      map2.cacheindex = 0 ∧ exec map2 (.clearBit 70) = .ok (none, map3) ∧ map3.numwords = 1 :=
    ⟨_, _, _, rfl, rfl, rfl, rfl, rfl⟩
  obtain ⟨map1, map2, map3, h1, h2, hcache, h3, hwords⟩ := hexec
  have hset : ∀ (map : EbitmapDef 64) S b, CacheSafe map S (.setBit b) := fun _ _ _ => trivial
  have hrun1 := (Run.start (by decide) _ _ _ : Run allocated ∅).step (by decide) (hset _ _ 70) h1
  have hrun2 := hrun1.step (by decide) (hset _ _ 3) h2
  -- the word before that of bit 70 is cached
  have hsafe : CacheSafe map2 (after (after ∅ (.setBit 70)) (.setBit 3)) (.clearBit 70) := fun _ _ =>
    Or.inr (Or.inl (by rw [hcache]; decide))
  have hrun3 := hrun2.step (by decide) hsafe h3
  have hleft : after (after (after ∅ (.setBit 70)) (.setBit 3)) (.clearBit 70) = {3} := by decide
  rw [hleft] at hrun3
  obtain ⟨hcontract, hcall⟩ := ebitmap_contract (.inr rfl) hrun3
  obtain ⟨map', heq, hiff⟩ := hcall (.setBit 127) (by decide)
  exact ⟨map3, hrun3, hcontract, hwords, map', heq, hiff.mpr trivial⟩

/-- **A stale cache**: bit 64 is set, cleared and set again, and `ebitmap_bit_p` does not see it. The
first clearing leaves the cache at an element that is no longer in the array, and the second setting
goes there.
Source: `ebitmap.c` `ebitmap_clear_bit` (`map->cacheindex == eltwordindex`)
Kind: C -/
theorem ebitmap_loses_bit :
    ((do
      let map ← ebitmapSetBit allocated 64
      let map ← ebitmapClearBit map 64
      let map ← ebitmapSetBit map 64
      ebitmapBitP map 64).map Prod.fst : Except Failure Bool) = .ok false := by
  rfl

end Runs

end GccCore.Gcc.Ebitmap
