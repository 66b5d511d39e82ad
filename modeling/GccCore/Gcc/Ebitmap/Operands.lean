import GccCore.Gcc.Ebitmap
import GccCore.Gcc.Sbitmap.Iterate
import GccCore.Gcc.Sbitmap.Operations

/-!
# `gcc/ebitmap.c`: operands of the operations on whole bitmaps

* **Well-formed bitmaps** (`Formed`): the array holds the nonzero words in the order of the mask, within its bounds, and the mask
  has a population count.
* **Sets** (`Denotes`): a bitmap denotes one set of bits (`Stored.unique`).
* **Arrays that are written word by word** (`Listed`), up to a word of the mask.
-/

namespace GccCore.Gcc.Ebitmap

open GccCore.Gcc.Sbitmap GccCore.Lib.BitScan GccCore.Lib.Count

variable {W : ℕ}

/-! ## The code -/

/-- An access outside of a mask fails. -/
def inBounds {α : Type} : Option α → Except Failure α
  | some a => .ok a
  | none => .error .outOfBounds

/-- The array, grown for the place `idx`, and a word written there. Source: `ebitmap.c` `ebitmap_array_grow_get`. -/
def ebitmapArrayGrowPut (map : EbitmapDef W) (idx : ℕ) (word : BitVec W) : EbitmapDef W :=
  let map := if idx ≥ map.nElts then ebitmapArrayGrow map (idx + 1) else map
  { map with elts := Function.update map.elts idx word }

/-- Source: `ebitmap.c` `ebitmap_clear`, `ebitmap_array_clear`. -/
def ebitmapClear (map : EbitmapDef W) : EbitmapDef W where
  nElts := 0
  wordmask := sbitmapResize (sbitmapZero map.wordmask) 1
  numwords := 0
  cacheindex := 0
  elts := map.elts
  cache := none

/-- A destination whose array is written over while the loop goes on. Source: `ebitmap.c` `ebitmap_and_into`. -/
structure Target (W : ℕ) where
  dst : EbitmapDef W
  neweltindex : ℕ

/-- The word `i` of the result is stored, or taken out of the mask if it is zero.
Source: `ebitmap.c` `ebitmap_and`, `ebitmap_and_compl_into` (`if (tmpword != 0)`) -/
def storeWord (t : Target W) (i : ℕ) (tmpword : BitVec W) : Target W :=
  if tmpword ≠ 0#W then ⟨ebitmapArrayGrowPut t.dst t.neweltindex tmpword, t.neweltindex + 1⟩
  else ⟨{ t.dst with wordmask := resetBit t.dst.wordmask i }, t.neweltindex⟩

/-! ## Places -/

section Places

variable {bmp : EbitmapDef W} {val : ℕ → BitVec W} {p q w : ℕ}

/-- No words, no places. -/
theorem place_eq_of_zero (hpq : p ≤ q) (hzero : ∀ u, p ≤ u → u < q → val u = 0#W) : place val q = place val p := by
  induction q, hpq using Nat.le_induction with
  | base => rfl
  | succ q hle ih =>
    rw [← ih fun u hu hlt => hzero u hu (by omega)]
    unfold place
    rw [Nat.count_succ, if_neg (not_not.mpr (hzero q hle (Nat.lt_succ_self q))), Nat.add_zero]

theorem place_succ (hw : val w ≠ 0#W) : place val (w + 1) = place val w + 1 := by
  unfold place
  rw [Nat.count_succ, if_pos hw]

theorem place_succ_zero (hw : val w = 0#W) : place val (w + 1) = place val w :=
  place_eq_of_zero (Nat.le_succ w) fun u hu hlt => by rwa [show u = w by omega]

/-- Fewer words, lower places. -/
theorem place_mono_left {val' : ℕ → BitVec W} (h : ∀ u, val u ≠ 0#W → val' u ≠ 0#W) (w : ℕ) :
    place val w ≤ place val' w := Nat.count_mono_left fun u _ => h u

/-- Every place of the array is that of a word. -/
theorem exists_place {j n : ℕ} (hj : j < place val n) : ∃ w, val w ≠ 0#W ∧ place val w = j := by
  induction n with
  | zero => exact absurd hj (Nat.not_lt_zero j)
  | succ n ih =>
    by_cases hne : val n = 0#W
    · rw [place_succ_zero hne] at hj
      exact ih hj
    · rw [place_succ hne] at hj
      rcases Nat.lt_or_eq_of_le (Nat.le_of_lt_succ hj) with hlt | heq
      · exact ih hlt
      · exact ⟨n, hne, heq.symm⟩

/-- **The array holds no zeros.** Source: `ebitmap.c` (`gcc_assert (dst->elts[i] != 0)`). Kind: L -/
theorem Stored.elts_ne_zero (h : Stored bmp val) {j : ℕ} (hj : j < bmp.numwords) : bmp.elts j ≠ 0#W := by
  rw [h.numwords] at hj
  obtain ⟨w, hne, rfl⟩ := exists_place hj
  rw [h.word w hne]
  exact hne

/-- The bits of the mask are the nonzero words. -/
theorem Stored.has_iff (h : Stored bmp val) (w : ℕ) : bmp.wordmask.has w = true ↔ val w ≠ 0#W := by
  unfold SimpleBitmap.has
  rw [Bool.and_eq_true, decide_eq_true_iff, h.ne_zero_iff]

theorem Stored.has_eq (h : Stored bmp val) (w : ℕ) : bmp.wordmask.has w = decide (val w ≠ 0#W) := by
  rw [Bool.eq_iff_iff, h.has_iff, decide_eq_true_iff]

/-- **A bitmap has one set of words.** -/
theorem Stored.unique {val' : ℕ → BitVec W} (h : Stored bmp val) (h' : Stored bmp val') : val = val' := by
  have hne : ∀ w, val w ≠ 0#W ↔ val' w ≠ 0#W := fun w => (h.has_iff w).symm.trans (h'.has_iff w)
  have hplace : ∀ w, place val w = place val' w := fun w => count_congr fun u _ => hne u
  funext w
  by_cases hw : val w = 0#W
  · rw [hw]
    exact (not_not.mp fun hc => (hne w).mpr hc hw).symm
  · rw [← h.word w hw, ← h'.word w ((hne w).mp hw), hplace]

end Places

/-! ## Well-formed bitmaps -/

section Formed

variable {map : EbitmapDef W} {val : ℕ → BitVec W} {S T : Finset ℕ}

/-- **Well-formed bitmaps**: the array and the mask agree, the array has room for its words, and the mask is counted; its number
of bits is an `unsigned int`.
Source: `ebitmap.h` `struct ebitmap_def` -/
structure Formed (map : EbitmapDef W) (val : ℕ → BitVec W) : Prop extends Stored map val where
  room : map.numwords ≤ map.nElts
  counted : map.wordmask.popcount.isSome = true
  small : map.wordmask.nBits + W ≤ 2 ^ 32

/-- **The set of bits** of a well-formed bitmap. Source: `ebitmap.c` (comment). -/
def Denotes (map : EbitmapDef W) (S : Finset ℕ) : Prop := ∃ val, Formed map val ∧ Words S val

/-- The cache does not matter. Source: `ebitmap.c` (`dst->cache = NULL`). Kind: L -/
theorem Formed.map_cache (h : Formed map val) : Formed { map with cache := none } val :=
  ⟨⟨h.mask, h.present, h.beyond, h.numwords, h.word⟩, h.room, h.counted, h.small⟩

/-- A word of the array is read. Source: `ebitmap.c` `ebitmap_array_get`. Kind: L -/
theorem Formed.get (h : Formed map val) {j : ℕ} (hj : j < map.numwords) : ebitmapArrayGet map j = .ok (map.elts j) :=
  if_pos (hj.trans_le h.room)

/-- The word at `w` is read from its place. Source: `ebitmap.c` `ebitmap_array_get`. Kind: L -/
theorem Formed.get_place (h : Formed map val) {w : ℕ} (hw : val w ≠ 0#W) :
    ebitmapArrayGet map (place val w) = .ok (val w) := by
  rw [h.get (h.place_lt hw), h.word w hw]

/-- Different words, different sets. -/
theorem words_eq_iff (hW : 0 < W) {val' : ℕ → BitVec W} (h : Words S val) (h' : Words T val') : S = T ↔ val = val' := by
  constructor
  · rintro rfl
    exact h.unique hW h'
  · rintro rfl
    ext b
    exact (h b).trans (h' b).symm

/-- The words of an intersection. -/
theorem Words.inter {val' : ℕ → BitVec W} (h : Words S val) (h' : Words T val') : Words (S ∩ T) fun w => val w &&& val' w := by
  intro b
  rw [Finset.mem_inter, h b, h' b, BitVec.getLsbD_and, Bool.and_eq_true]

/-- The words of a union. -/
theorem Words.union {val' : ℕ → BitVec W} (h : Words S val) (h' : Words T val') : Words (S ∪ T) fun w => val w ||| val' w := by
  intro b
  rw [Finset.mem_union, h b, h' b, BitVec.getLsbD_or, Bool.or_eq_true]

/-- The words of a difference. -/
theorem Words.sdiff (hW : 0 < W) {val' : ℕ → BitVec W} (h : Words S val) (h' : Words T val') :
    Words (S \ T) fun w => val w &&& ~~~val' w := by
  intro b
  rw [Finset.mem_sdiff, h b, h' b, BitVec.getLsbD_and, BitVec.getLsbD_not, decide_eq_true (Nat.mod_lt b hW), Bool.true_and,
    Bool.and_eq_true, Bool.not_eq_true']
  rw [Bool.not_eq_true]

/-- **A cleared bitmap** has no words. Source: `ebitmap.c` `ebitmap_clear`. Kind: L -/
theorem ebitmapClear_spec (hW : 0 < W) (hW' : W < 256) (h : Formed map val) : Formed (ebitmapClear map) fun _ => 0#W := by
  obtain ⟨hwf, hcnt, hzero⟩ := sbitmapZero_spec hW h.mask.size_eq
  obtain ⟨hwf', hn, hcnt', hbits⟩ := sbitmapResize_spec hW hwf (n := 1) (by omega)
  have hnone : ∀ w < (ebitmapClear map).wordmask.nBits, (ebitmapClear map).wordmask.testBit w = false := by
    intro w hw
    have hlt : w < 1 := hn ▸ hw
    have hbit : (ebitmapClear map).wordmask.testBit w = (sbitmapZero map.wordmask).has w := hbits w hlt
    rw [hbit, SimpleBitmap.has]
    by_cases hin : w < map.wordmask.nBits
    · rw [hzero w (hin.trans_le (h.mask.cover hW)), Bool.and_false]
    · rw [show decide (w < (sbitmapZero map.wordmask).nBits) = false from decide_eq_false hin, Bool.false_and]
  refine ⟨⟨hwf', fun w hw => ?_, fun _ _ => rfl, ?_, fun w hw => absurd rfl hw⟩, le_rfl, ?_, ?_⟩
  · rw [hnone w hw]
    exact iff_of_false Bool.false_ne_true fun hc => hc rfl
  · exact (Nat.count_iff_forall_not.mpr fun _ _ hc => hc rfl).symm
  · exact hcnt'.trans (hcnt.trans h.counted)
  · change (sbitmapResize (sbitmapZero map.wordmask) 1).nBits + W ≤ 2 ^ 32
    rw [hn]
    omega

end Formed

/-! ## Arrays that are written word by word -/

section Listed

variable {elts : ℕ → BitVec W} {r : ℕ → BitVec W} {p : ℕ}

/-- The nonzero words below `p` are in the array. -/
def Listed (elts : ℕ → BitVec W) (r : ℕ → BitVec W) (p : ℕ) : Prop := ∀ w < p, r w ≠ 0#W → elts (place r w) = r w

theorem Listed.skip (h : Listed elts r p) (hp : r p = 0#W) : Listed elts r (p + 1) := by
  intro w hw hne
  refine h w ?_ hne
  rcases Nat.lt_or_eq_of_le (Nat.le_of_lt_succ hw) with hlt | rfl
  · exact hlt
  · exact absurd hp hne

/-- A word that is in its place already. -/
theorem Listed.keep (h : Listed elts r p) (hp : elts (place r p) = r p) : Listed elts r (p + 1) := by
  intro w hw hne
  rcases Nat.lt_or_eq_of_le (Nat.le_of_lt_succ hw) with hlt | rfl
  · exact h w hlt hne
  · exact hp

/-- **The next word is written** behind the others. -/
theorem Listed.push (h : Listed elts r p) : Listed (Function.update elts (place r p) (r p)) r (p + 1) := by
  intro w hw hne
  rcases Nat.lt_or_eq_of_le (Nat.le_of_lt_succ hw) with hlt | rfl
  · have hbelow : place r w < place r p := Nat.count_strict_mono hne hlt
    rw [Function.update_of_ne hbelow.ne]
    exact h w hlt hne
  · exact Function.update_self ..

end Listed

/-! ## Destinations that are written over -/

section Store

variable {d : EbitmapDef W} {r : ℕ → BitVec W} {p : ℕ} {t : Target W}

/-- The state before the word `p`: `d` is the destination at the start of the loop, and `r` are the words to be stored.
Source: `ebitmap.c` `ebitmap_and` -/
structure StoreInv (d : EbitmapDef W) (r : ℕ → BitVec W) (p : ℕ) (t : Target W) : Prop where
  new : t.neweltindex = place r p
  listed : Listed t.dst.elts r p
  rest : ∀ j ≥ place r p, t.dst.elts j = d.elts j
  grown : d.nElts ≤ t.dst.nElts
  room : place r p ≤ t.dst.nElts
  mask : WellFormed t.dst.wordmask
  nBits : t.dst.wordmask.nBits = d.wordmask.nBits
  counted : t.dst.wordmask.popcount.isSome = true
  done : ∀ i < p, i < d.wordmask.nBits → t.dst.wordmask.testBit i = decide (r i ≠ 0#W)
  left : ∀ i ≥ p, t.dst.wordmask.testBit i = d.wordmask.testBit i

/-- Growing an array does not make it smaller. Source: `ebitmap.c` `ebitmap_array_grow_get`. Kind: L -/
theorem le_nElts_growPut (map : EbitmapDef W) (idx : ℕ) (word : BitVec W) :
    map.nElts ≤ (ebitmapArrayGrowPut map idx word).nElts ∧ idx < (ebitmapArrayGrowPut map idx word).nElts := by
  unfold ebitmapArrayGrowPut ebitmapArrayGrow
  dsimp only
  split_ifs with hgrow hsmall
  · omega
  · exact ⟨by dsimp only; omega, by dsimp only; omega⟩
  · exact ⟨le_rfl, not_le.mp hgrow⟩

theorem growPut_fields (map : EbitmapDef W) (idx : ℕ) (word : BitVec W) :
    (ebitmapArrayGrowPut map idx word).elts = Function.update map.elts idx word ∧
      (ebitmapArrayGrowPut map idx word).wordmask = map.wordmask := by
  unfold ebitmapArrayGrowPut ebitmapArrayGrow
  dsimp only
  split_ifs <;> exact ⟨rfl, rfl⟩

/-- What a round does to the mask. Source: `ebitmap.c` `ebitmap_and` (`RESET_BIT`). Kind: L -/
theorem storeWord_mask (t : Target W) (i : ℕ) (word : BitVec W) :
    (storeWord t i word).dst.wordmask = if word ≠ 0#W then t.dst.wordmask else resetBit t.dst.wordmask i := by
  unfold storeWord
  split_ifs
  · exact (growPut_fields _ _ _).2
  · rfl

/-- A round leaves the other bits of the mask alone. Source: `ebitmap.c` `ebitmap_and`. Kind: L -/
theorem storeWord_keeps (hW : 0 < W) (t : Target W) (i : ℕ) (word : BitVec W) :
    (storeWord t i word).dst.wordmask.size = t.dst.wordmask.size ∧
      ∀ j ≠ i, (storeWord t i word).dst.wordmask.testBit j = t.dst.wordmask.testBit j := by
  rw [storeWord_mask]
  split_ifs
  · exact ⟨rfl, fun _ _ => rfl⟩
  · refine ⟨?_, fun j hj => ?_⟩
    · unfold resetBit
      dsimp only
      split_ifs <;> rfl
    · rw [testBit_resetBit hW, decide_eq_false hj, Bool.not_false, Bool.and_true]

/-- **One word is stored.** Source: `ebitmap.c` `ebitmap_and` (`if (tmpword != 0)`). Kind: L -/
theorem StoreInv.store (hW : 0 < W) (hW' : W < 256) (h : StoreInv d r p t) (hset : d.wordmask.testBit p = true) :
    StoreInv d r (p + 1) (storeWord t p (r p)) := by
  unfold storeWord
  by_cases hzero : r p = 0#W
  · rw [if_neg (not_not.mpr hzero)]
    obtain ⟨hwf, hn, -⟩ := resetBit_spec hW hW' h.mask p
    have hplace := place_succ_zero hzero
    refine ⟨h.new.trans hplace.symm, h.listed.skip hzero, fun j hj => h.rest j (hplace ▸ hj), h.grown, hplace ▸ h.room, hwf,
      hn.trans h.nBits, ?_, fun i hi hlt => ?_, fun i hi => ?_⟩
    · exact (isSome_resetBit _ _).trans h.counted
    · change (resetBit t.dst.wordmask p).testBit i = _
      rw [testBit_resetBit hW]
      rcases Nat.lt_or_eq_of_le (Nat.le_of_lt_succ hi) with hlt' | rfl
      · rw [h.done i hlt' hlt, decide_eq_false hlt'.ne, Bool.not_false, Bool.and_true]
      · rw [decide_eq_true rfl, Bool.not_true, Bool.and_false, decide_eq_false (not_not.mpr hzero)]
    · change (resetBit t.dst.wordmask p).testBit i = _
      rw [testBit_resetBit hW, decide_eq_false (by omega : ¬ i = p), Bool.not_false, Bool.and_true]
      exact h.left i (by omega)
  · rw [if_pos hzero]
    have hplace := place_succ hzero
    obtain ⟨hle, hlt⟩ := le_nElts_growPut t.dst t.neweltindex (r p)
    obtain ⟨helts, hmask⟩ := growPut_fields t.dst t.neweltindex (r p)
    rw [h.new] at hle hlt helts hmask
    refine ⟨by dsimp only; rw [h.new, hplace], ?_, fun j hj => ?_, ?_, ?_, ?_, ?_, ?_, fun i hi hlt => ?_, fun i hi => ?_⟩
    all_goals
      dsimp only
      rw [h.new]
    · rw [helts]
      exact h.listed.push
    · rw [helts, Function.update_of_ne (by omega)]
      exact h.rest j (by omega)
    · exact h.grown.trans hle
    · rw [hplace]
      exact hlt
    · rw [hmask]
      exact h.mask
    · rw [hmask]
      exact h.nBits
    · rw [hmask]
      exact h.counted
    · rw [hmask]
      rcases Nat.lt_or_eq_of_le (Nat.le_of_lt_succ hi) with hlt' | rfl
      · exact h.done i hlt' hlt
      · rw [h.left i le_rfl, hset, decide_eq_true hzero]
    · rw [hmask]
      exact h.left i (by omega)

/-- **The word in the next place stays** where it is. Source: `ebitmap.c` `ebitmap_and_compl_into` (`neweltindex++`). Kind: L -/
theorem StoreInv.keep (h : StoreInv d r p t) (hset : d.wordmask.testBit p = true) (hne : r p ≠ 0#W)
    (hkeep : d.elts (place r p) = r p) (hroom : place r p < d.nElts) :
    StoreInv d r (p + 1) { t with neweltindex := t.neweltindex + 1 } := by
  have hplace := place_succ hne
  refine ⟨?_, h.listed.keep ((h.rest _ le_rfl).trans hkeep), fun j hj => h.rest j (by omega), h.grown, ?_, h.mask, h.nBits,
    h.counted, fun i hi hlt => ?_, fun i hi => h.left i (by omega)⟩
  · rw [hplace, ← h.new]
  · rw [hplace]
    exact (Nat.succ_le_of_lt hroom).trans h.grown
  · rcases Nat.lt_or_eq_of_le (Nat.le_of_lt_succ hi) with hlt' | rfl
    · exact h.done i hlt' hlt
    · rw [h.left i le_rfl, hset, decide_eq_true hne]

/-- A word that is not in the mask is passed over. -/
theorem StoreInv.pass (h : StoreInv d r p t) (hclear : d.wordmask.testBit p = false) (hzero : r p = 0#W) :
    StoreInv d r (p + 1) t := by
  have hplace := place_succ_zero hzero
  refine ⟨hplace ▸ h.new, h.listed.skip hzero, fun j hj => h.rest j (hplace ▸ hj), h.grown, hplace ▸ h.room, h.mask, h.nBits,
    h.counted, fun i hi hlt => ?_, fun i hi => h.left i (by omega)⟩
  rcases Nat.lt_or_eq_of_le (Nat.le_of_lt_succ hi) with hlt' | rfl
  · exact h.done i hlt' hlt
  · rw [h.left i le_rfl, hclear, decide_eq_false (not_not.mpr hzero)]

/-- Before the loop. -/
theorem StoreInv.start (hmask : WellFormed d.wordmask) (hcounted : d.wordmask.popcount.isSome = true) :
    StoreInv d r 0 ⟨d, 0⟩ :=
  ⟨(Nat.count_zero _).symm, fun w hw => absurd hw (Nat.not_lt_zero w), fun _ _ => rfl, le_rfl,
    (Nat.count_zero _).le.trans (Nat.zero_le _), hmask, rfl, hcounted, fun i hi => absurd hi (Nat.not_lt_zero i),
    fun _ _ => rfl⟩

/-- **After the loop** the destination has the words of `r`. Source: `ebitmap.c` (`dst->numwords = neweltindex`). Kind: L -/
theorem StoreInv.formed (h : StoreInv d r d.wordmask.nBits t) (hsmall : d.wordmask.nBits + W ≤ 2 ^ 32)
    (hbeyond : ∀ w, d.wordmask.nBits ≤ w → r w = 0#W) : Formed { t.dst with numwords := t.neweltindex } r := by
  refine ⟨⟨h.mask, fun w hw => ?_, fun w hw => hbeyond w (h.nBits ▸ hw), ?_, fun w hne => ?_⟩, ?_, h.counted, ?_⟩
  · have hlt : w < d.wordmask.nBits := h.nBits ▸ hw
    change t.dst.wordmask.testBit w = true ↔ _
    rw [h.done w hlt hlt, decide_eq_true_iff]
  · change t.neweltindex = place r t.dst.wordmask.nBits
    rw [h.new, h.nBits]
  · refine h.listed w ?_ hne
    by_contra hge
    exact hne (hbeyond w (not_lt.mp hge))
  · change t.neweltindex ≤ t.dst.nElts
    rw [h.new]
    exact h.room
  · change t.dst.wordmask.nBits + W ≤ 2 ^ 32
    rw [h.nBits]
    exact hsmall

end Store

/-! ## Small bitmaps -/

section Small

variable {m : BitVec 64} {ws : List (BitVec 64)} {w : ℕ}

/-- The bitmap with the words `ws` at the set bits of `m`. Source: none: example. -/
def smallMap (m : BitVec 64) (ws : List (BitVec 64)) : EbitmapDef 64 where
  nElts := ws.length
  wordmask := ⟨some fun i => if i = 0 then doPopcount m else 0, 64, 1, fun i => if i = 0 then m else 0#64⟩
  numwords := ws.length
  cacheindex := 0
  elts := fun i => ws.getD i 0#64
  cache := none

/-- Its words. Source: none: example. -/
def smallVal (m : BitVec 64) (ws : List (BitVec 64)) (w : ℕ) : BitVec 64 :=
  if m.getLsbD w then ws.getD (Nat.count (fun u => m.getLsbD u = true) w) 0#64 else 0#64

theorem smallVal_ne_zero (hlen : ws.length = doPopcount m) (hne : ∀ x ∈ ws, x ≠ 0#64) :
    smallVal m ws w ≠ 0#64 ↔ m.getLsbD w = true := by
  unfold smallVal
  split_ifs with hset
  · refine iff_of_true ?_ hset
    have hlt : Nat.count (fun u => m.getLsbD u = true) w < ws.length := by
      rw [hlen]
      exact Nat.count_strict_mono hset (BitVec.lt_of_getLsbD hset)
    rw [List.getD_eq_getElem?_getD, List.getElem?_eq_getElem hlt, Option.getD_some]
    exact hne _ (List.getElem_mem hlt)
  · exact iff_of_false (fun hc => hc rfl) hset

/-- **They are well formed.** Source: none: example. Kind: L -/
theorem formed_small (hlen : ws.length = doPopcount m) (hne : ∀ x ∈ ws, x ≠ 0#64) :
    Formed (smallMap m ws) (smallVal m ws) := by
  have hiff : ∀ w, smallVal m ws w ≠ 0#64 ↔ m.getLsbD w = true := fun w => smallVal_ne_zero hlen hne
  have hplace : ∀ w, place (smallVal m ws) w = Nat.count (fun u => m.getLsbD u = true) w :=
    fun w => count_congr fun u _ => hiff u
  have hbit : ∀ w < 64, (smallMap m ws).wordmask.testBit w = m.getLsbD w := by
    intro w hw
    unfold SimpleBitmap.testBit
    rw [Nat.div_eq_of_lt hw, Nat.mod_eq_of_lt hw]
    rfl
  have hsize : (smallMap m ws).wordmask.size = (64 + 64 - 1) / 64 := by
    change 1 = _
    decide
  refine ⟨⟨⟨hsize, fun i hi hlt => absurd hlt (not_lt.mpr hi), fun cnt hcnt ix hix => ?_⟩, fun w hw => ?_,
    fun w hw => ?_, ?_, fun w hw => ?_⟩, le_rfl, rfl, ?_⟩
  · obtain rfl := Option.some.inj hcnt
    obtain rfl : ix = 0 := Nat.lt_one_iff.mp hix
    rfl
  · rw [hbit w hw, hiff]
  · have hge : 64 ≤ w := hw
    refine not_not.mp fun hc => ?_
    have := BitVec.lt_of_getLsbD ((hiff w).mp hc)
    omega
  · rw [hplace]
    exact hlen
  · have hset := (hiff w).mp hw
    rw [hplace, smallVal, if_pos hset]
    rfl
  · change 64 + 64 ≤ 2 ^ 32
    decide

/-- Their sets of bits can be computed. Source: none: example. Kind: L -/
theorem words_small {S : Finset ℕ} {k : ℕ} (hm : ∀ w, k ≤ w → w < 64 → m.getLsbD w = false)
    (hS : ∀ b ∈ S, b < k * 64) (hall : ∀ b < k * 64, b ∈ S ↔ (smallVal m ws (b / 64)).getLsbD (b % 64) = true) :
    Words S (smallVal m ws) := by
  intro b
  by_cases hlt : b < k * 64
  · exact hall b hlt
  · have hclear : m.getLsbD (b / 64) = false := by
      by_cases hin : b / 64 < 64
      · exact hm _ ((Nat.le_div_iff_mul_le (by decide)).mpr (not_lt.mp hlt)) hin
      · exact BitVec.getLsbD_of_ge _ _ (not_lt.mp hin)
    rw [smallVal, if_neg (by rw [hclear]; exact Bool.false_ne_true), BitVec.getLsbD_zero]
    exact iff_of_false (fun hc => hlt (hS b hc)) Bool.false_ne_true

/-- Three words, two apart, with one bit each. Source: none: example. -/
def threeWords : EbitmapDef 64 := smallMap 21#64 [1#64, 2#64, 4#64]

theorem formed_threeWords : Formed threeWords (smallVal 21#64 [1#64, 2#64, 4#64]) :=
  formed_small (by decide) (by simp)

theorem words_threeWords : Words {0, 129, 258} (smallVal 21#64 [1#64, 2#64, 4#64]) :=
  words_small (k := 5) (by decide) (by decide) (by decide +kernel)

/-- One word, that in the middle. Source: none: example. -/
def oneWord : EbitmapDef 64 := smallMap 4#64 [2#64]

theorem formed_oneWord : Formed oneWord (smallVal 4#64 [2#64]) := formed_small (by decide) (by simp)

theorem words_oneWord : Words {129} (smallVal 4#64 [2#64]) :=
  words_small (k := 3) (by decide) (by decide) (by decide +kernel)

end Small

end GccCore.Gcc.Ebitmap
