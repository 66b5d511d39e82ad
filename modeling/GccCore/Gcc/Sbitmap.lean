import GccCore.Lib.Count
import Mathlib.Algebra.GroupWithZero.Nat
import Mathlib.Logic.Function.Basic

/-!
# `gcc/sbitmap.h`, `gcc/sbitmap.c`: simple bitmaps with population counts

A bitmap of `n_bits` bits in words of `W` bits, and a byte for each word that counts its bits.

* **The cached counts** (`WellFormed`) are kept by setting and clearing single bits and by growing
  (`setBit_spec`, `resetBit_spec`).
* **`sbitmap_popcount`** is the number of set bits below its argument (`popcount_spec`).
-/

namespace GccCore.Gcc.Sbitmap

open GccCore.Lib.Count

/-! ## The functions -/

section Model

variable {W : ℕ}

/-- A bitmap. Memory behind the allocated words holds anything.
Source: `sbitmap.h` `struct simple_bitmap_def` -/
structure SimpleBitmap (W : ℕ) where
  popcount : Option (ℕ → ℕ)
  nBits : ℕ
  size : ℕ
  elms : ℕ → BitVec W

/-- `SBITMAP_SET_SIZE` of an `unsigned int`. Source: `sbitmap.h` `SBITMAP_SET_SIZE`. -/
def sbitmapSetSize (W n : ℕ) : ℕ := (n + W - 1) % 2 ^ 32 / W

/-- The number of ones in a word. Source: `sbitmap.c` `do_popcount`. -/
def doPopcount (x : BitVec W) : ℕ := Nat.count (fun i => x.getLsbD i = true) W

/-- `TEST_BIT`, of a bit within the words. Source: `sbitmap.h` `TEST_BIT`. -/
def SimpleBitmap.testBit (s : SimpleBitmap W) (bitno : ℕ) : Bool := (s.elms (bitno / W)).getLsbD (bitno % W)

/-- The count of one word is changed; counts are bytes. Source: `sbitmap.h` `SET_BIT`. -/
def SimpleBitmap.bump (s : SimpleBitmap W) (ix delta : ℕ) : SimpleBitmap W :=
  { s with popcount := s.popcount.map fun cnt => Function.update cnt ix ((cnt ix + delta) % 256) }

/-- Source: `sbitmap.h` `SET_BIT`. -/
def setBit (map : SimpleBitmap W) (bitno : ℕ) : SimpleBitmap W :=
  let map := if map.testBit bitno then map else map.bump (bitno / W) 1
  { map with
    elms := Function.update map.elms (bitno / W)
      (map.elms (bitno / W) ||| (1#W <<< (bitno % W))) }

/-- Source: `sbitmap.h` `RESET_BIT`. -/
def resetBit (map : SimpleBitmap W) (bitno : ℕ) : SimpleBitmap W :=
  let map := if map.testBit bitno then map.bump (bitno / W) 255 else map
  { map with
    elms := Function.update map.elms (bitno / W)
      (map.elms (bitno / W) &&& ~~~(1#W <<< (bitno % W))) }

/-- A bitmap with a population count whose memory holds `elms` and `counts`.
Source: `sbitmap.c` `sbitmap_alloc_with_popcount` -/
def sbitmapAllocWithPopcount (W nElms : ℕ) (elms : ℕ → BitVec W) (counts : ℕ → ℕ) : SimpleBitmap W :=
  ⟨some counts, nElms, sbitmapSetSize W nElms, elms⟩

/-- Source: `sbitmap.c` `sbitmap_zero`. -/
def sbitmapZero (s : SimpleBitmap W) : SimpleBitmap W :=
  { s with
    elms := fun i => if i < s.size then 0#W else s.elms i
    popcount := s.popcount.map fun cnt i => if i < s.size then 0 else cnt i }

/-- `sbitmap_resize` to more bits, the new ones clear. Source: `sbitmap.c` `sbitmap_resize` (`def` 0,
`n_elms > bmap->n_bits`). -/
def sbitmapGrow (s : SimpleBitmap W) (nElms : ℕ) : SimpleBitmap W :=
  let size := sbitmapSetSize W nElms
  { nBits := nElms
    size := size
    elms := fun i => if s.size ≤ i ∧ i < size then 0#W else s.elms i
    popcount := s.popcount.map fun cnt i => if s.size ≤ i ∧ i < size then 0 else cnt i }

/-- The count of the word `ix`, cached or computed. Source: `sbitmap.c` `sbitmap_popcount` (loop). -/
def wordCount (a : SimpleBitmap W) (ix : ℕ) : ℕ :=
  match a.popcount with
  | some cnt => cnt ix
  | none => doPopcount (a.elms ix)

/-- Source: `sbitmap.c` `sbitmap_popcount`. -/
def sbitmapPopcount (a : SimpleBitmap W) (maxbit : ℕ) : ℕ :=
  if maxbit = 0 then 0
  else
    let maxbit := if maxbit ≥ a.nBits then a.nBits else maxbit
    let lastword := min a.size ((maxbit + 1 + W - 1) / W - 1)
    let count := ((List.range lastword).map (wordCount a)).sum
    if lastword < a.size ∧ maxbit % W ≠ 0 then
      count + doPopcount (a.elms lastword &&& (BitVec.allOnes W >>> (W - maxbit % W)))
    else count

end Model

/-! ## The cached counts -/

section Counts

variable {W : ℕ} {s : SimpleBitmap W} {i j m : ℕ}

/-- The cached counts, where there are any, are right. Source: `sbitmap.c` `sbitmap_verify_popcount`. -/
def CountsRight (s : SimpleBitmap W) : Prop :=
  ∀ cnt, s.popcount = some cnt → ∀ ix < s.size, cnt ix = doPopcount (s.elms ix)

/-- **Well-formed bitmaps**: the words cover the bits, the bits behind the last one are clear, and the
cached counts are right.
Source: `sbitmap.h` -/
structure WellFormed (s : SimpleBitmap W) : Prop where
  size_eq : s.size = (s.nBits + W - 1) / W
  tail : ∀ i, s.nBits ≤ i → i < s.size * W → s.testBit i = false
  counts : CountsRight s

theorem doPopcount_le (x : BitVec W) : doPopcount x ≤ W := Nat.count_le _

theorem doPopcount_zero : doPopcount (0#W) = 0 := by
  rw [doPopcount, Nat.count_iff_forall_not]
  simp

/-- The bits of a word that is set in one place. -/
theorem getLsbD_set (x : BitVec W) {k : ℕ} (hk : k < W) :
    (x ||| (1#W <<< k)).getLsbD i = (x.getLsbD i || (decide (i = k) && decide (i < W))) := by
  rw [BitVec.getLsbD_or, BitVec.getLsbD_shiftLeft, BitVec.getLsbD_one]
  by_cases hi : i = k
  · subst hi
    simp [hk]
    omega
  · by_cases hlt : i < k
    · simp [hi, hlt]
    · have hsub : i - k ≠ 0 := by omega
      simp [hi, hlt, hsub]

/-- The bits of a word that is cleared in one place. -/
theorem getLsbD_reset (x : BitVec W) {k : ℕ} (hk : k < W) :
    (x &&& ~~~(1#W <<< k)).getLsbD i = (x.getLsbD i && !decide (i = k)) := by
  rw [BitVec.getLsbD_and, BitVec.getLsbD_not, BitVec.getLsbD_shiftLeft, BitVec.getLsbD_one]
  by_cases hi : i = k
  · subst hi
    simp [hk]
    omega
  · by_cases hlt : i < W
    · by_cases hik : i < k
      · simp [hi, hlt, hik]
      · have hsub : i - k ≠ 0 := by omega
        simp [hi, hlt, hik, hsub]
    · simp [hlt, BitVec.getLsbD_of_ge x i (by omega)]

theorem setBit_elms (s : SimpleBitmap W) (bitno : ℕ) :
    (setBit s bitno).elms = Function.update s.elms (bitno / W)
      (s.elms (bitno / W) ||| (1#W <<< (bitno % W))) := by
  unfold setBit
  split_ifs <;> rfl

theorem resetBit_elms (s : SimpleBitmap W) (bitno : ℕ) :
    (resetBit s bitno).elms = Function.update s.elms (bitno / W)
      (s.elms (bitno / W) &&& ~~~(1#W <<< (bitno % W))) := by
  unfold resetBit
  split_ifs <;> rfl

/-- Two bits in one place of one word are one bit. -/
theorem eq_of_div_mod (hd : i / W = j / W) (hm : i % W = j % W) : i = j := by
  rw [← Nat.div_add_mod i W, ← Nat.div_add_mod j W, hd, hm]

theorem testBit_setBit (hW : 0 < W) (s : SimpleBitmap W) :
    (setBit s j).testBit i = (s.testBit i || decide (i = j)) := by
  rw [SimpleBitmap.testBit, setBit_elms]
  by_cases hd : i / W = j / W
  · rw [hd, Function.update_self, getLsbD_set _ (Nat.mod_lt j hW), SimpleBitmap.testBit, hd]
    have hlt : i % W < W := Nat.mod_lt i hW
    have hiff : i % W = j % W ↔ i = j := ⟨eq_of_div_mod hd, fun h => by rw [h]⟩
    simp [hlt, hiff]
  · rw [Function.update_of_ne hd]
    have hne : i ≠ j := fun h => hd (h ▸ rfl)
    simp [SimpleBitmap.testBit, hne]

theorem testBit_resetBit (hW : 0 < W) (s : SimpleBitmap W) :
    (resetBit s j).testBit i = (s.testBit i && !decide (i = j)) := by
  rw [SimpleBitmap.testBit, resetBit_elms]
  by_cases hd : i / W = j / W
  · rw [hd, Function.update_self, getLsbD_reset _ (Nat.mod_lt j hW), SimpleBitmap.testBit, hd]
    have hiff : i % W = j % W ↔ i = j := ⟨eq_of_div_mod hd, fun h => by rw [h]⟩
    simp [hiff]
  · rw [Function.update_of_ne hd]
    have hne : i ≠ j := fun h => hd (h ▸ rfl)
    simp [SimpleBitmap.testBit, hne]

/-- A word with one bit more. -/
theorem doPopcount_set (x : BitVec W) {k : ℕ} (hk : k < W) (hx : x.getLsbD k = false) :
    doPopcount (x ||| (1#W <<< k)) = doPopcount x + 1 := by
  refine count_insert_lt (by simp [hx]) (fun i => ?_) hk
  rw [getLsbD_set x hk]
  by_cases hi : i = k
  · simp [hi, hk]
  · simp [hi]

theorem doPopcount_reset (x : BitVec W) {k : ℕ} (hk : k < W) (hx : x.getLsbD k = true) :
    doPopcount x = doPopcount (x &&& ~~~(1#W <<< k)) + 1 := by
  refine count_insert_lt ?_ (fun i => ?_) hk
  · simp [getLsbD_reset x hk]
  · rw [getLsbD_reset x hk]
    by_cases hi : i = k
    · simp [hi, hx]
    · simp [hi]

@[simp] theorem setBit_nBits (s : SimpleBitmap W) (bitno : ℕ) : (setBit s bitno).nBits = s.nBits := by
  unfold setBit
  split_ifs <;> rfl

@[simp] theorem setBit_size (s : SimpleBitmap W) (bitno : ℕ) : (setBit s bitno).size = s.size := by
  unfold setBit
  split_ifs <;> rfl

@[simp] theorem resetBit_nBits (s : SimpleBitmap W) (bitno : ℕ) : (resetBit s bitno).nBits = s.nBits := by
  unfold resetBit
  split_ifs <;> rfl

@[simp] theorem resetBit_size (s : SimpleBitmap W) (bitno : ℕ) : (resetBit s bitno).size = s.size := by
  unfold resetBit
  split_ifs <;> rfl

/-- **`SET_BIT`** keeps the counts right. Source: `sbitmap.h` `SET_BIT`. Kind: L -/
theorem CountsRight.setBit (hW : 0 < W) (hW' : W < 256) (h : CountsRight s) (j : ℕ) : CountsRight (setBit s j) := by
  intro cnt hcnt ix hix
  rw [setBit_size] at hix
  rw [setBit_elms]
  unfold Sbitmap.setBit at hcnt
  by_cases hold : s.testBit j = true
  · -- the bit was set, and the word is as before
    rw [if_pos hold] at hcnt
    have hsame : s.elms (j / W) ||| (1#W <<< (j % W)) = s.elms (j / W) := by
      refine BitVec.eq_of_getLsbD_eq fun i hi => ?_
      rw [getLsbD_set _ (Nat.mod_lt j hW)]
      by_cases him : i = j % W
      · have : (s.elms (j / W)).getLsbD i = true := him ▸ hold
        simp [this]
      · simp [him]
    rw [hsame, Function.update_eq_self]
    exact h cnt hcnt ix hix
  · rw [if_neg hold] at hcnt
    obtain ⟨old, hold', rfl⟩ := Option.map_eq_some_iff.mp hcnt
    have hcount := h old hold'
    by_cases hd : ix = j / W
    · subst hd
      rw [Function.update_self, Function.update_self, hcount _ hix,
        doPopcount_set _ (Nat.mod_lt j hW) (by simpa [SimpleBitmap.testBit] using hold)]
      have hle := doPopcount_le (s.elms (j / W) ||| (1#W <<< (j % W)))
      rw [doPopcount_set _ (Nat.mod_lt j hW) (by simpa [SimpleBitmap.testBit] using hold)] at hle
      exact Nat.mod_eq_of_lt (by omega)
    · rw [Function.update_of_ne hd, Function.update_of_ne hd]
      exact hcount ix hix

/-- **`RESET_BIT`** keeps the counts right. Source: `sbitmap.h` `RESET_BIT`. Kind: L -/
theorem CountsRight.resetBit (hW : 0 < W) (hW' : W < 256) (h : CountsRight s) (j : ℕ) :
    CountsRight (resetBit s j) := by
  intro cnt hcnt ix hix
  rw [resetBit_size] at hix
  rw [resetBit_elms]
  unfold Sbitmap.resetBit at hcnt
  by_cases hold : s.testBit j = true
  · rw [if_pos hold] at hcnt
    obtain ⟨old, hold', rfl⟩ := Option.map_eq_some_iff.mp hcnt
    have hcount := h old hold'
    by_cases hd : ix = j / W
    · subst hd
      have hpred := doPopcount_reset (s.elms (j / W)) (Nat.mod_lt j hW) hold
      have hle := doPopcount_le (s.elms (j / W))
      rw [Function.update_self, Function.update_self, hcount _ hix, hpred]
      omega
    · rw [Function.update_of_ne hd, Function.update_of_ne hd]
      exact hcount ix hix
  · -- the bit was clear, and the word is as before
    rw [if_neg hold] at hcnt
    have hsame : s.elms (j / W) &&& ~~~(1#W <<< (j % W)) = s.elms (j / W) := by
      refine BitVec.eq_of_getLsbD_eq fun i hi => ?_
      rw [getLsbD_reset _ (Nat.mod_lt j hW)]
      by_cases him : i = j % W
      · have : (s.elms (j / W)).getLsbD i = false := by
          rw [him]
          simpa [SimpleBitmap.testBit] using hold
        simp [this]
      · simp [him]
    rw [hsame, Function.update_eq_self]
    exact h cnt hcnt ix hix

/-- Clearing makes the counts right, whatever they were. Source: `sbitmap.c` `sbitmap_zero`. Kind: L -/
theorem countsRight_zero (s : SimpleBitmap W) : CountsRight (sbitmapZero s) := by
  intro cnt hcnt ix hix
  obtain ⟨old, -, rfl⟩ := Option.map_eq_some_iff.mp hcnt
  have hix' : ix < s.size := hix
  have hword : (sbitmapZero s).elms ix = 0#W := if_pos hix'
  rw [hword, doPopcount_zero]
  exact if_pos hix'

/-- New clear words are counted. Source: `sbitmap.c` `sbitmap_resize`. Kind: L -/
theorem CountsRight.grow (h : CountsRight s) (n : ℕ) : CountsRight (sbitmapGrow s n) := by
  intro cnt hcnt ix hix
  obtain ⟨old, hold, rfl⟩ := Option.map_eq_some_iff.mp hcnt
  have helm : (sbitmapGrow s n).elms ix =
      if s.size ≤ ix ∧ ix < sbitmapSetSize W n then 0#W else s.elms ix := rfl
  have hix' : ix < sbitmapSetSize W n := hix
  rw [helm]
  by_cases hnew : s.size ≤ ix ∧ ix < sbitmapSetSize W n
  · simp only [if_pos hnew]
    exact doPopcount_zero.symm
  · simp only [if_neg hnew]
    exact h old hold ix (by omega)

/-- **`SET_BIT`** keeps the bitmap well formed. Source: `sbitmap.h` `SET_BIT`. Kind: L -/
theorem setBit_spec (hW : 0 < W) (hW' : W < 256) (h : WellFormed s) (hj : j < s.nBits) :
    WellFormed (setBit s j) ∧ (setBit s j).nBits = s.nBits ∧ (setBit s j).size = s.size := by
  refine ⟨⟨?_, fun i hi hlt => ?_, CountsRight.setBit hW hW' h.counts j⟩, setBit_nBits s j, setBit_size s j⟩
  · simpa using h.size_eq
  · rw [setBit_nBits] at hi
    rw [setBit_size] at hlt
    rw [testBit_setBit hW, h.tail i hi hlt]
    simp only [Bool.false_or, decide_eq_false_iff_not]
    omega

/-- **`RESET_BIT`** keeps the bitmap well formed. Source: `sbitmap.h` `RESET_BIT`. Kind: L -/
theorem resetBit_spec (hW : 0 < W) (hW' : W < 256) (h : WellFormed s) (j : ℕ) :
    WellFormed (resetBit s j) ∧ (resetBit s j).nBits = s.nBits ∧ (resetBit s j).size = s.size := by
  refine ⟨⟨?_, fun i hi hlt => ?_, CountsRight.resetBit hW hW' h.counts j⟩, resetBit_nBits s j, resetBit_size s j⟩
  · simpa using h.size_eq
  · rw [resetBit_nBits] at hi
    rw [resetBit_size] at hlt
    rw [testBit_resetBit hW, h.tail i hi hlt]
    rfl

/-- A new bitmap, cleared. Source: `sbitmap.c` `sbitmap_alloc_with_popcount`, `sbitmap_zero`. Kind: L -/
theorem zero_spec {n : ℕ} (hW : 0 < W) (hn : n + W ≤ 2 ^ 32) (elms : ℕ → BitVec W) (counts : ℕ → ℕ) :
    WellFormed (sbitmapZero (sbitmapAllocWithPopcount W n elms counts)) ∧
      ∀ i < n, (sbitmapZero (sbitmapAllocWithPopcount W n elms counts)).testBit i = false := by
  have hsize : sbitmapSetSize W n = (n + W - 1) / W := by
    rw [sbitmapSetSize, Nat.mod_eq_of_lt (by omega)]
  have hword : ∀ i < sbitmapSetSize W n * W,
      (sbitmapZero (sbitmapAllocWithPopcount W n elms counts)).testBit i = false := by
    intro i hi
    have hix : i / W < sbitmapSetSize W n := Nat.div_lt_of_lt_mul (by rwa [Nat.mul_comm])
    have hzero : (sbitmapZero (sbitmapAllocWithPopcount W n elms counts)).elms (i / W) = 0#W :=
      if_pos hix
    rw [SimpleBitmap.testBit, hzero, BitVec.getLsbD_zero]
  refine ⟨⟨hsize, fun i _ hi => hword i hi, countsRight_zero _⟩, fun i hi => hword i ?_⟩
  rw [hsize]
  have := Nat.div_add_mod (n + W - 1) W
  have := Nat.mod_lt (n + W - 1) hW
  rw [Nat.mul_comm]
  omega

/-- **Growing** keeps the bits and the counts, and the new bits are clear.
Source: `sbitmap.c` `sbitmap_resize`
Kind: L -/
theorem grow_spec {n : ℕ} (hW : 0 < W) (h : WellFormed s) (hn : s.nBits ≤ n) (hn' : n + W ≤ 2 ^ 32) :
    WellFormed (sbitmapGrow s n) ∧ (∀ i < s.nBits, (sbitmapGrow s n).testBit i = s.testBit i) ∧
      ∀ i, s.nBits ≤ i → i < n → (sbitmapGrow s n).testBit i = false := by
  have hsize : sbitmapSetSize W n = (n + W - 1) / W := by
    rw [sbitmapSetSize, Nat.mod_eq_of_lt (by omega)]
  have hmono : s.size ≤ sbitmapSetSize W n := by
    rw [hsize, h.size_eq]
    exact Nat.div_le_div_right (by omega)
  have hold := Nat.div_add_mod (s.nBits + W - 1) W
  have hold' := Nat.mod_lt (s.nBits + W - 1) hW
  rw [← h.size_eq] at hold
  have hnew := Nat.div_add_mod (n + W - 1) W
  have hnew' := Nat.mod_lt (n + W - 1) hW
  rw [← hsize] at hnew
  -- a bit of an old word is as before, and one of a new word is clear
  have hbit : ∀ i < sbitmapSetSize W n * W, (sbitmapGrow s n).testBit i =
      if i / W < s.size then s.testBit i else false := by
    intro i hi
    have hix : i / W < sbitmapSetSize W n := Nat.div_lt_of_lt_mul (by rwa [Nat.mul_comm])
    have helm : (sbitmapGrow s n).elms (i / W) =
        if s.size ≤ i / W ∧ i / W < sbitmapSetSize W n then 0#W else s.elms (i / W) := rfl
    rw [SimpleBitmap.testBit, helm]
    split_ifs with h1 h2 h3
    · omega
    · rw [BitVec.getLsbD_zero]
    · rfl
    · omega
  have hdiv : ∀ i < s.nBits, i / W < s.size := by
    intro i hi
    refine Nat.div_lt_of_lt_mul ?_
    omega
  have hafter : ∀ i, s.nBits ≤ i → i < sbitmapSetSize W n * W →
      (sbitmapGrow s n).testBit i = false := by
    intro i hi hlt
    rw [hbit i hlt]
    split_ifs with hw
    · refine h.tail i hi ?_
      rw [Nat.div_lt_iff_lt_mul hW] at hw
      exact hw
    · rfl
  have hcover : n ≤ sbitmapSetSize W n * W := by
    rw [Nat.mul_comm]
    omega
  refine ⟨⟨hsize, fun i hi hlt => hafter i (hn.trans hi) hlt, CountsRight.grow h.counts n⟩,
    fun i hi => ?_, fun i hi hlt => hafter i hi (hlt.trans_le hcover)⟩
  rw [hbit i (by omega), if_pos (hdiv i hi)]

/-! ## Counting bits -/

/-- The counts of the first words. Source: `sbitmap.c` `sbitmap_popcount` (loop). Kind: L -/
theorem sum_wordCount (h : CountsRight s) {k : ℕ} (hk : k ≤ s.size) :
    ((List.range k).map (wordCount s)).sum = Nat.count (fun i => s.testBit i = true) (k * W) := by
  induction k with
  | zero => simp
  | succ k ih =>
    have hword : wordCount s k = doPopcount (s.elms k) := by
      unfold wordCount
      cases hp : s.popcount with
      | none => rfl
      | some cnt => exact h cnt hp k hk
    have hbits : Nat.count (fun i => s.testBit (k * W + i) = true) W = doPopcount (s.elms k) := by
      refine count_congr fun i hi => ?_
      have hd : (k * W + i) / W = k := by
        rw [Nat.mul_comm, Nat.mul_add_div (by omega), Nat.div_eq_of_lt hi, Nat.add_zero]
      have hm : (k * W + i) % W = i := by
        rw [Nat.mul_comm, Nat.mul_add_mod, Nat.mod_eq_of_lt hi]
      rw [SimpleBitmap.testBit, hd, hm]
    rw [List.range_succ, List.map_append, List.sum_append, ih (by omega), Nat.succ_mul,
      Nat.count_add, hbits, List.map_singleton, List.sum_singleton, hword]

/-- The low bits of a word. Source: `sbitmap.c` `sbitmap_popcount` (`theword &= ...`). Kind: L -/
theorem doPopcount_low (x : BitVec W) {r : ℕ} (hr : r ≤ W) :
    doPopcount (x &&& (BitVec.allOnes W >>> (W - r))) =
      Nat.count (fun i => x.getLsbD i = true) r := by
  rw [← count_and_lt hr]
  refine count_congr fun i hi => ?_
  rw [BitVec.getLsbD_and, BitVec.getLsbD_ushiftRight, BitVec.getLsbD_allOnes]
  have hiff : W - r + i < W ↔ i < r := by omega
  simp [hiff]

/-- **`sbitmap_popcount`** counts the bits below its argument when the cached counts are right.
Source: `sbitmap.c` `sbitmap_popcount`
Kind: L -/
theorem CountsRight.popcount (hW : 0 < W) (hsize : s.size = (s.nBits + W - 1) / W) (h : CountsRight s)
    (hm : m ≤ s.nBits) :
    sbitmapPopcount s m = Nat.count (fun i => s.testBit i = true) m := by
  unfold sbitmapPopcount
  by_cases hzero : m = 0
  · subst hzero
    simp
  · rw [if_neg hzero]
    have hmax : (if m ≥ s.nBits then s.nBits else m) = m := by
      split_ifs
      · omega
      · rfl
    dsimp only
    rw [hmax]
    have hdm := Nat.div_add_mod m W
    have hcover := Nat.div_add_mod (s.nBits + W - 1) W
    have hcover' := Nat.mod_lt (s.nBits + W - 1) hW
    rw [← hsize] at hcover
    have hlast : (m + 1 + W - 1) / W - 1 = m / W := by
      rw [show m + 1 + W - 1 = m + W by omega, Nat.add_div_right m hW, Nat.succ_sub_one]
    have hle : m / W ≤ s.size := by
      rw [Nat.div_le_iff_le_mul_add_pred hW]
      omega
    rw [hlast, min_eq_right hle, sum_wordCount h hle]
    have hcount : Nat.count (fun i => s.testBit i = true) m =
        Nat.count (fun i => s.testBit i = true) (m / W * W) +
          Nat.count (fun i => (s.elms (m / W)).getLsbD i = true) (m % W) := by
      conv_lhs => rw [← hdm, Nat.mul_comm, Nat.count_add]
      congr 1
      refine count_congr fun i hi => ?_
      have hiW : i < W := hi.trans (Nat.mod_lt m hW)
      have hd : (m / W * W + i) / W = m / W := by
        rw [Nat.mul_comm, Nat.mul_add_div hW, Nat.div_eq_of_lt hiW, Nat.add_zero]
      have hm' : (m / W * W + i) % W = i := by
        rw [Nat.mul_comm, Nat.mul_add_mod, Nat.mod_eq_of_lt hiW]
      rw [SimpleBitmap.testBit, hd, hm']
    rw [hcount]
    by_cases hr : m % W = 0
    · rw [if_neg fun h => h.2 hr, hr, Nat.count_zero, Nat.add_zero]
    · have hlt : m / W < s.size := by
        refine lt_of_le_of_ne hle fun heq => ?_
        rw [← heq] at hcover
        omega
      rw [if_pos ⟨hlt, hr⟩, doPopcount_low _ (Nat.mod_lt m hW).le]

theorem popcount_spec (hW : 0 < W) (h : WellFormed s) (hm : m ≤ s.nBits) :
    sbitmapPopcount s m = Nat.count (fun i => s.testBit i = true) m :=
  CountsRight.popcount hW h.size_eq h.counts hm

end Counts

end GccCore.Gcc.Sbitmap
