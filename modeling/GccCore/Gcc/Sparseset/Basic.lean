import Mathlib.Data.Finset.Card
import Mathlib.Data.Finset.Image
import Mathlib.Logic.Function.Basic

/-!
# `gcc/sparseset.h`, `gcc/sparseset.c`: sets as two arrays

A set of numbers below `size` is a dense array of its members and a sparse array of their places in
it. Both lie in one block of memory and are never cleared: what is in the set is decided by the two
arrays pointing at each other.

* **The handshake** (`Valid`): which arrays stand for which set.
* **Single sets**: `sparseset_bit_p` is membership (`Valid.bitTest_eq`), and setting, clearing and
  copying are set algebra (`setBit_spec`, `clearBit_spec`, `copyLoop_valid`), during an iteration as
  well.
-/

namespace GccCore.Gcc.Sparseset

/-! ## The functions -/

section Model

/-- A set. The dense array is at the beginning of `elms` and the sparse one `size` words further on.
Source: `sparseset.h` `struct sparseset_def` -/
structure SparseSet where
  elms : ℕ → ℕ
  members : ℕ
  size : ℕ
  iter : ℕ
  iterInc : ℕ
  iterating : Bool

/-- Source: `sparseset.h` (`dense`). -/
def SparseSet.dense (s : SparseSet) (i : ℕ) : ℕ := s.elms i

/-- Source: `sparseset.h` (`sparse`). -/
def SparseSet.sparse (s : SparseSet) (e : ℕ) : ℕ := s.elms (s.size + e)

/-- How a call can fail: an assertion, or a loop that has not ended within the fuel.
Source: `sparseset.h` (`gcc_assert`) -/
inductive Failure
  | assertion
  | diverges
  deriving DecidableEq

/-- The sets of a program, by their addresses. -/
abbrev State := ℕ → SparseSet

/-- Source: `sparseset.h` `sparseset_clear`. -/
def sparsesetClear (s : SparseSet) : SparseSet := { s with members := 0, iterating := false }

/-- The test of `sparseset_bit_p`, without its assertion. Source: `sparseset.h` `sparseset_bit_p`. -/
def bitTest (s : SparseSet) (e : ℕ) : Bool :=
  s.sparse e < s.members && s.dense (s.sparse e) == e

/-- Source: `sparseset.h` `sparseset_bit_p`. -/
def sparsesetBitP (s : SparseSet) (e : ℕ) : Except Failure Bool :=
  if e < s.size then .ok (bitTest s e) else .error .assertion

/-- Source: `sparseset.h` `sparseset_insert_bit`. -/
def sparsesetInsertBit (s : SparseSet) (e idx : ℕ) : SparseSet :=
  { s with elms := Function.update (Function.update s.elms (s.size + e) idx) idx e }

/-- Source: `sparseset.h` `sparseset_set_bit`. -/
def sparsesetSetBit (s : SparseSet) (e : ℕ) : Except Failure SparseSet := do
  let b ← sparsesetBitP s e
  if b then .ok s
  else .ok { sparsesetInsertBit s e s.members with members := s.members + 1 }

/-- Source: `sparseset.h` `sparseset_pop`. -/
def sparsesetPop (s : SparseSet) : Except Failure (ℕ × SparseSet) :=
  let mem := s.members
  if mem = 0 then .error .assertion
  else .ok (s.dense mem, { s with members := mem - 1 })

/-- Source: `sparseset.h` `sparseset_iter_init`. -/
def sparsesetIterInit (s : SparseSet) : SparseSet :=
  { s with iter := 0, iterInc := 1, iterating := true }

/-- Source: `sparseset.h` `sparseset_iter_next`. -/
def sparsesetIterNext (s : SparseSet) : SparseSet :=
  { s with iter := s.iter + s.iterInc, iterInc := 1 }

/-- The loop of the macro, after `sparseset_iter_init`.
Source: `sparseset.h` `EXECUTE_IF_SET_IN_SPARSESET` -/
def iterLoop (p : ℕ) (body : State → ℕ → Except Failure State) : ℕ → State → Except Failure State
  | 0, _ => .error .diverges
  | fuel + 1, st =>
    if (st p).iterating = true ∧ (st p).iter < (st p).members then do
      let st ← body st ((st p).dense (st p).iter)
      iterLoop p body fuel (Function.update st p (sparsesetIterNext (st p)))
    else .ok (Function.update st p { st p with iterating := false })

/-- Source: `sparseset.h` `EXECUTE_IF_SET_IN_SPARSESET`. -/
def executeIfSet (fuel : ℕ) (st : State) (p : ℕ) (body : State → ℕ → Except Failure State) :
    Except Failure State :=
  iterLoop p body fuel (Function.update st p (sparsesetIterInit (st p)))

/-- Source: `sparseset.c` `sparseset_swap`. -/
def sparsesetSwap (s : SparseSet) (idx1 idx2 : ℕ) : SparseSet :=
  let tmp := s.dense idx2
  let s := sparsesetInsertBit s (s.dense idx1) idx2
  sparsesetInsertBit s tmp idx1

/-- The set and the index to overwrite, after the adjustment for a running iteration.
Source: `sparseset.c` `sparseset_clear_bit` (`if (s->iterating && idx <= iter)`) -/
def adjustIter (s : SparseSet) (idx : ℕ) : SparseSet × ℕ :=
  if s.iterating = true ∧ idx ≤ s.iter then
    if idx < s.iter then ({ sparsesetSwap s idx s.iter with iterInc := 0 }, s.iter)
    else ({ s with iterInc := 0 }, idx)
  else (s, idx)

/-- Source: `sparseset.c` `sparseset_clear_bit`. -/
def sparsesetClearBit (s : SparseSet) (e : ℕ) : Except Failure SparseSet := do
  let b ← sparsesetBitP s e
  if b then
    let mem := s.members - 1
    let (s, idx) := adjustIter s (s.sparse e)
    .ok { sparsesetInsertBit s (s.dense mem) idx with members := mem }
  else .ok s

/-- The first `i` members are copied. Source: `sparseset.c` `sparseset_copy` (`for`). -/
def copyLoop (s : SparseSet) (d : SparseSet) : ℕ → SparseSet
  | 0 => d
  | i + 1 => sparsesetInsertBit (copyLoop s d i) (s.dense i) i

/-- Source: `sparseset.c` `sparseset_copy`. -/
def sparsesetCopy (st : State) (d s : ℕ) : State :=
  if d = s then st
  else Function.update st d
    { copyLoop (st s) (sparsesetClear (st d)) (st s).members with members := (st s).members }

/-- The body of a loop that sets bits of `d` under a condition. Source: `sparseset.c`. -/
def setIf (d : ℕ) (cond : State → ℕ → Except Failure Bool) (st : State) (e : ℕ) :
    Except Failure State := do
  let b ← cond st e
  if b then
    let s ← sparsesetSetBit (st d) e
    .ok (Function.update st d s)
  else .ok st

/-- The body of a loop that clears bits of `d` under a condition. Source: `sparseset.c`. -/
def clearIf (d : ℕ) (cond : State → ℕ → Except Failure Bool) (st : State) (e : ℕ) :
    Except Failure State := do
  let b ← cond st e
  if b then
    let s ← sparsesetClearBit (st d) e
    .ok (Function.update st d s)
  else .ok st

/-- `sparseset_bit_p (s, e)`, or its negation, as a condition. Source: `sparseset.c`. -/
def bitIs (s : ℕ) (value : Bool) (st : State) (e : ℕ) : Except Failure Bool := do
  let b ← sparsesetBitP (st s) e
  .ok (b == value)

/-- Source: `sparseset.c` `sparseset_and`. -/
def sparsesetAnd (fuel : ℕ) (st : State) (d a b : ℕ) : Except Failure State :=
  if a = b then
    if d ≠ a then .ok (sparsesetCopy st d a) else .ok st
  else if d = a ∨ d = b then
    let s := if d = a then b else a
    executeIfSet fuel st d (clearIf d (bitIs s false))
  else
    let sml := if (st a).members < (st b).members then a else b
    let lrg := if (st a).members < (st b).members then b else a
    let st := Function.update st d (sparsesetClear (st d))
    executeIfSet fuel st sml (setIf d (bitIs lrg true))

/-- Source: `sparseset.c` `sparseset_and_compl`. -/
def sparsesetAndCompl (fuel : ℕ) (st : State) (d a b : ℕ) : Except Failure State :=
  if a = b then .ok (Function.update st d (sparsesetClear (st d)))
  else if d = b then .error .assertion
  else if d = a then
    if (st d).members < (st b).members then executeIfSet fuel st d (clearIf d (bitIs b true))
    else executeIfSet fuel st b (clearIf d fun _ _ => .ok true)
  else
    let st := Function.update st d (sparsesetClear (st d))
    executeIfSet fuel st a (setIf d (bitIs b false))

/-- Source: `sparseset.c` `sparseset_ior`. -/
def sparsesetIor (fuel : ℕ) (st : State) (d a b : ℕ) : Except Failure State :=
  if a = b then .ok (sparsesetCopy st d a)
  else if d = b then executeIfSet fuel st a (setIf d fun _ _ => .ok true)
  else
    let st := if d ≠ a then sparsesetCopy st d a else st
    executeIfSet fuel st b (setIf d fun _ _ => .ok true)

end Model

/-! ## One set -/

section OneSet

variable {s t : SparseSet} {S T : Finset ℕ} {e i j : ℕ}

/-- **The handshake**: the members are in the first places of the dense array, and the sparse array
knows where.
Source: `sparseset.h` -/
structure Valid (s : SparseSet) (S : Finset ℕ) : Prop where
  le_size : s.members ≤ s.size
  lt_size : ∀ i < s.members, s.dense i < s.size
  back : ∀ i < s.members, s.sparse (s.dense i) = i
  mem_iff : ∀ e, e ∈ S ↔ ∃ i < s.members, s.dense i = e

theorem Valid.dense_mem (h : Valid s S) (hi : i < s.members) : s.dense i ∈ S :=
  (h.mem_iff _).mpr ⟨i, hi, rfl⟩

theorem Valid.dense_inj (h : Valid s S) (hi : i < s.members) (hj : j < s.members)
    (hij : s.dense i = s.dense j) : i = j := by
  rw [← h.back i hi, ← h.back j hj, hij]

/-- A member and its place. -/
theorem Valid.place (h : Valid s S) (he : e ∈ S) :
    s.sparse e < s.members ∧ s.dense (s.sparse e) = e := by
  obtain ⟨i, hi, rfl⟩ := (h.mem_iff e).mp he
  rw [h.back i hi]
  exact ⟨hi, rfl⟩

theorem Valid.mem_lt_size (h : Valid s S) (he : e ∈ S) : e < s.size := by
  obtain ⟨i, hi, rfl⟩ := (h.mem_iff e).mp he
  exact h.lt_size i hi

/-- The dense array lists the set. -/
theorem Valid.listing (h : Valid s S) :
    ((List.range s.members).map s.dense).Nodup ∧ ((List.range s.members).map s.dense).toFinset = S := by
  constructor
  · refine List.Nodup.map_on (fun i hi j hj hij => ?_) List.nodup_range
    exact h.dense_inj (List.mem_range.mp hi) (List.mem_range.mp hj) hij
  · ext e
    rw [h.mem_iff]
    simp

theorem Valid.card_eq (h : Valid s S) : S.card = s.members := by
  obtain ⟨hnd, hset⟩ := h.listing
  rw [← hset, List.toFinset_card_of_nodup hnd, List.length_map, List.length_range]

/-- **`sparseset_bit_p` is membership**, whatever the sparse array holds for others.
Source: `sparseset.h` `sparseset_bit_p`
Kind: L -/
theorem Valid.bitTest_eq (h : Valid s S) (e : ℕ) : bitTest s e = decide (e ∈ S) := by
  unfold bitTest
  by_cases he : e ∈ S
  · obtain ⟨hlt, heq⟩ := h.place he
    simp [he, hlt, heq]
  · have hnot : ¬ (s.sparse e < s.members ∧ s.dense (s.sparse e) = e) :=
      fun hboth => he ((h.mem_iff e).mpr ⟨_, hboth⟩)
    simpa [he] using hnot

theorem Valid.bitP_eq (h : Valid s S) (he : e < s.size) :
    sparsesetBitP s e = .ok (decide (e ∈ S)) := by
  rw [sparsesetBitP, if_pos he, h.bitTest_eq]

/-- A cleared set. Source: `sparseset.h` `sparseset_clear`. Kind: L -/
theorem clear_spec (s : SparseSet) : Valid (sparsesetClear s) ∅ := by
  refine ⟨Nat.zero_le _, fun i hi => ?_, fun i hi => ?_, fun e => ?_⟩
  · exact absurd hi (Nat.not_lt_zero i)
  · exact absurd hi (Nat.not_lt_zero i)
  · simp [sparsesetClear]

/-- The dense array after an insertion. Source: `sparseset.h` `sparseset_insert_bit`. Kind: L -/
theorem dense_insertBit (s : SparseSet) (e : ℕ) {idx : ℕ} (hi : i < s.size) :
    (sparsesetInsertBit s e idx).dense i = if i = idx then e else s.dense i := by
  simp only [SparseSet.dense, sparsesetInsertBit, Function.update_apply]
  split_ifs with h1 h2
  · rfl
  · omega
  · rfl

/-- The sparse array after an insertion at a place of the dense one.
Source: `sparseset.h` `sparseset_insert_bit`
Kind: L -/
theorem sparse_insertBit (s : SparseSet) (e x : ℕ) {idx : ℕ} (hidx : idx < s.size) :
    (sparsesetInsertBit s e idx).sparse x = if x = e then idx else s.sparse x := by
  simp only [SparseSet.sparse, sparsesetInsertBit, Function.update_apply, Nat.add_left_cancel_iff]
  rw [if_neg (by omega)]

/-- **`sparseset_set_bit`** adds the element. Source: `sparseset.h` `sparseset_set_bit`. Kind: L -/
theorem setBit_spec (h : Valid s S) (he : e < s.size) :
    ∃ t, sparsesetSetBit s e = .ok t ∧ Valid t (insert e S) ∧ t.size = s.size ∧
      t.iterating = s.iterating := by
  simp only [sparsesetSetBit, h.bitP_eq he, bind, Except.bind]
  by_cases heS : e ∈ S
  · simp only [heS, decide_true, if_true, Finset.insert_eq_of_mem]
    exact ⟨s, rfl, h, rfl, rfl⟩
  · simp only [heS, decide_false, Bool.false_eq_true, if_false]
    refine ⟨_, rfl, ?_, rfl, rfl⟩
    -- there is room for one more
    have hroom : s.members < s.size := by
      have hsub : insert e S ⊆ Finset.range s.size := by
        intro x hx
        rcases Finset.mem_insert.mp hx with rfl | hx
        · exact Finset.mem_range.mpr he
        · exact Finset.mem_range.mpr (h.mem_lt_size hx)
      have hcard := Finset.card_le_card hsub
      rwa [Finset.card_insert_of_notMem heS, h.card_eq, Finset.card_range] at hcard
    have hdense : ∀ i < s.members + 1, (sparsesetInsertBit s e s.members).dense i =
        if i = s.members then e else s.dense i :=
      fun i hi => dense_insertBit s e (by omega)
    have hsparse := fun x => sparse_insertBit s e x hroom
    refine ⟨hroom, fun i hi => ?_, fun i hi => ?_, fun x => ?_⟩
    · change (sparsesetInsertBit s e s.members).dense i < s.size
      rw [hdense i hi]
      split_ifs with him
      · exact he
      · exact h.lt_size i (Nat.lt_of_le_of_ne (Nat.le_of_lt_succ hi) him)
    · change (sparsesetInsertBit s e s.members).sparse
        ((sparsesetInsertBit s e s.members).dense i) = i
      rw [hdense i hi, hsparse]
      by_cases him : i = s.members
      · rw [if_pos him, if_pos rfl, him]
      · have hi' : i < s.members := Nat.lt_of_le_of_ne (Nat.le_of_lt_succ hi) him
        have hne : s.dense i ≠ e := fun heq => heS (heq ▸ h.dense_mem hi')
        rw [if_neg him, if_neg hne, h.back i hi']
    · rw [Finset.mem_insert, h.mem_iff]
      constructor
      · rintro (rfl | ⟨i, hi, rfl⟩)
        · exact ⟨s.members, Nat.lt_succ_self _, (hdense _ (Nat.lt_succ_self _)).trans (if_pos rfl)⟩
        · refine ⟨i, Nat.lt_succ_of_lt hi, (hdense i (Nat.lt_succ_of_lt hi)).trans ?_⟩
          rw [if_neg (Nat.ne_of_lt hi)]
      · rintro ⟨i, hi, hx⟩
        have hx' := (hdense i hi).symm.trans hx
        split_ifs at hx' with him
        · exact .inl hx'.symm
        · exact .inr ⟨i, Nat.lt_of_le_of_ne (Nat.le_of_lt_succ hi) him, hx'⟩

/-- **Swapping two members** changes the order only. Source: `sparseset.c` `sparseset_swap`. Kind: L -/
theorem swap_spec (h : Valid s S) (hi : i < s.members) (hj : j < s.members) (hij : i ≠ j) :
    Valid (sparsesetSwap s i j) S ∧ (sparsesetSwap s i j).dense j = s.dense i ∧
      ∀ k < s.size, k ≠ i → k ≠ j → (sparsesetSwap s i j).dense k = s.dense k := by
  have hi' : i < s.size := hi.trans_le h.le_size
  have hj' : j < s.size := hj.trans_le h.le_size
  have hdense : ∀ k < s.size, (sparsesetSwap s i j).dense k =
      if k = i then s.dense j else if k = j then s.dense i else s.dense k := by
    intro k hk
    rw [sparsesetSwap, dense_insertBit _ _ (show k < (sparsesetInsertBit s _ _).size from hk),
      dense_insertBit s _ hk]
  have hsparse : ∀ x, (sparsesetSwap s i j).sparse x =
      if x = s.dense j then i else if x = s.dense i then j else s.sparse x := by
    intro x
    rw [sparsesetSwap, sparse_insertBit _ _ _ (show i < (sparsesetInsertBit s _ _).size from hi'),
      sparse_insertBit s _ _ hj']
  -- the place where an element is found, before and after
  have hperm : ∀ k < s.members, (sparsesetSwap s i j).dense k =
      s.dense (if k = i then j else if k = j then i else k) := by
    intro k hk
    rw [hdense k (hk.trans_le h.le_size)]
    split_ifs <;> rfl
  refine ⟨⟨h.le_size, fun k hk => ?_, fun k hk => ?_, fun x => ?_⟩, ?_, fun k hk hki hkj => ?_⟩
  · change (sparsesetSwap s i j).dense k < s.size
    rw [hperm k hk]
    apply h.lt_size
    split_ifs
    · exact hj
    · exact hi
    · exact hk
  · have hk' : k < s.members := hk
    rw [hsparse, hdense k (hk'.trans_le h.le_size)]
    by_cases hki : k = i
    · rw [if_pos hki, if_pos rfl, hki]
    · by_cases hkj : k = j
      · have hne : s.dense i ≠ s.dense j := fun heq => hij (h.dense_inj hi hj heq)
        rw [if_neg hki, if_pos hkj, if_neg hne, if_pos rfl, hkj]
      · have hni : s.dense k ≠ s.dense i := fun heq => hki (h.dense_inj hk' hi heq)
        have hnj : s.dense k ≠ s.dense j := fun heq => hkj (h.dense_inj hk' hj heq)
        rw [if_neg hki, if_neg hkj, if_neg hnj, if_neg hni, h.back k hk']
  · rw [h.mem_iff]
    change _ ↔ ∃ k < s.members, (sparsesetSwap s i j).dense k = x
    constructor
    · rintro ⟨k, hk, rfl⟩
      refine ⟨if k = i then j else if k = j then i else k, ?_, ?_⟩
      · split_ifs
        · exact hj
        · exact hi
        · exact hk
      · by_cases hki : k = i
        · rw [if_pos hki, hperm j hj, if_neg (Ne.symm hij), if_pos rfl, hki]
        · by_cases hkj : k = j
          · rw [if_neg hki, if_pos hkj, hperm i hi, if_pos rfl, hkj]
          · rw [if_neg hki, if_neg hkj, hperm k hk, if_neg hki, if_neg hkj]
    · rintro ⟨k, hk, rfl⟩
      rw [hperm k hk]
      refine ⟨_, ?_, rfl⟩
      split_ifs
      · exact hj
      · exact hi
      · exact hk
  · rw [hdense j hj', if_neg (Ne.symm hij), if_pos rfl]
  · rw [hdense k hk, if_neg hki, if_neg hkj]

/-- **The last member takes the place** of the one that goes.
Source: `sparseset.c` `sparseset_clear_bit` (`sparseset_insert_bit (s, s->dense[mem], idx)`)
Kind: L -/
theorem removeAt_spec (h : Valid s S) (hi : i < s.members) :
    Valid { sparsesetInsertBit s (s.dense (s.members - 1)) i with members := s.members - 1 }
        (S.erase (s.dense i)) ∧
      ∀ k < i, (sparsesetInsertBit s (s.dense (s.members - 1)) i).dense k = s.dense k := by
  have hle := h.le_size
  have hlast : s.members - 1 < s.members := by omega
  have hdense : ∀ k < s.size, (sparsesetInsertBit s (s.dense (s.members - 1)) i).dense k =
      if k = i then s.dense (s.members - 1) else s.dense k := fun k hk => dense_insertBit s _ hk
  have hsparse := fun x => sparse_insertBit s (s.dense (s.members - 1)) x (hi.trans_le hle)
  refine ⟨⟨?_, fun k hk => ?_, fun k hk => ?_, fun x => ?_⟩, fun k hk => ?_⟩
  · exact (Nat.sub_le _ _).trans hle
  · change k < s.members - 1 at hk
    change (sparsesetInsertBit s (s.dense (s.members - 1)) i).dense k < s.size
    rw [hdense k (by omega)]
    split_ifs
    · exact h.lt_size _ hlast
    · exact h.lt_size k (by omega)
  · change k < s.members - 1 at hk
    change (sparsesetInsertBit s (s.dense (s.members - 1)) i).sparse
      ((sparsesetInsertBit s (s.dense (s.members - 1)) i).dense k) = k
    rw [hsparse, hdense k (by omega)]
    by_cases hki : k = i
    · rw [if_pos hki, if_pos rfl, hki]
    · have hne : s.dense k ≠ s.dense (s.members - 1) := by
        intro heq
        have := h.dense_inj (by omega) hlast heq
        omega
      rw [if_neg hki, if_neg hne, h.back k (by omega)]
  · rw [Finset.mem_erase, h.mem_iff]
    change _ ↔ ∃ k < s.members - 1, (sparsesetInsertBit s (s.dense (s.members - 1)) i).dense k = x
    constructor
    · rintro ⟨hne, k, hk, rfl⟩
      have hki : k ≠ i := fun heq => hne (heq ▸ rfl)
      by_cases hkl : k = s.members - 1
      · refine ⟨i, by omega, ?_⟩
        rw [hdense i (hi.trans_le hle), if_pos rfl, hkl]
      · refine ⟨k, by omega, ?_⟩
        rw [hdense k (hk.trans_le hle), if_neg hki]
    · rintro ⟨k, hk, rfl⟩
      rw [hdense k (by omega)]
      by_cases hki : k = i
      · rw [if_pos hki]
        refine ⟨fun heq => ?_, s.members - 1, hlast, rfl⟩
        have := h.dense_inj hlast hi heq
        omega
      · rw [if_neg hki]
        refine ⟨fun heq => hki (h.dense_inj (by omega) hi heq), k, by omega, rfl⟩
  · rw [hdense k (by omega), if_neg (Nat.ne_of_lt hk)]

/-- A set with the same arrays and the same number of members. -/
theorem Valid.congr (h : Valid s S) (helms : t.elms = s.elms) (hmem : t.members = s.members)
    (hsize : t.size = s.size) : Valid t S := by
  obtain ⟨elms, members, size, iter, iterInc, iterating⟩ := t
  obtain rfl : elms = s.elms := helms
  obtain rfl : members = s.members := hmem
  obtain rfl : size = s.size := hsize
  exact ⟨h.le_size, h.lt_size, h.back, h.mem_iff⟩

/-- **The adjustment** for a running iteration brings the element to the current index, if it is not
behind it.
Source: `sparseset.c` `sparseset_clear_bit`
Kind: L -/
theorem adjustIter_spec (h : Valid s S) (hi : i < s.members)
    (hiter : s.iterating = true → s.iter < s.members) :
    Valid (adjustIter s i).1 S ∧ (adjustIter s i).2 < s.members ∧
      (adjustIter s i).1.dense (adjustIter s i).2 = s.dense i ∧
      (adjustIter s i).1.members = s.members ∧ (adjustIter s i).1.size = s.size ∧
      (adjustIter s i).1.iterating = s.iterating ∧ (adjustIter s i).1.iter = s.iter := by
  unfold adjustIter
  by_cases hit : s.iterating = true ∧ i ≤ s.iter
  · rw [if_pos hit]
    by_cases hlt : i < s.iter
    · rw [if_pos hlt]
      obtain ⟨hv, hd, -⟩ := swap_spec h hi (hiter hit.1) (Nat.ne_of_lt hlt)
      exact ⟨hv.congr rfl rfl rfl, hiter hit.1, hd, rfl, rfl, rfl, rfl⟩
    · rw [if_neg hlt]
      exact ⟨h.congr rfl rfl rfl, hi, rfl, rfl, rfl, rfl, rfl⟩
  · rw [if_neg hit]
    exact ⟨h, hi, rfl, rfl, rfl, rfl, rfl⟩

/-- **`sparseset_clear_bit`** takes the element out, during an iteration as well.
Source: `sparseset.c` `sparseset_clear_bit`
Kind: L -/
theorem clearBit_spec (h : Valid s S) (he : e < s.size)
    (hiter : s.iterating = true → s.iter < s.members) :
    ∃ t, sparsesetClearBit s e = .ok t ∧ Valid t (S.erase e) ∧ t.size = s.size ∧
      t.iterating = s.iterating ∧ t.iter = s.iter := by
  simp only [sparsesetClearBit, h.bitP_eq he, bind, Except.bind]
  by_cases heS : e ∈ S
  · simp only [heS, decide_true, if_true]
    obtain ⟨hplace, hdense⟩ := h.place heS
    obtain ⟨hv, hidx, hd, hmem, hsize, hit, hit'⟩ := adjustIter_spec h hplace hiter
    rw [← hmem] at hidx
    obtain ⟨hv', -⟩ := removeAt_spec hv hidx
    rw [hd, hdense, hmem] at hv'
    refine ⟨_, rfl, hv', hsize, hit, hit'⟩
  · simp only [heS, decide_false, Bool.false_eq_true, if_false, not_false_iff, Finset.erase_eq_of_notMem]
    exact ⟨s, rfl, h, rfl, rfl, rfl⟩

/-- The element at the current index of an iteration is taken out, and the next one comes to its
place.
Source: `sparseset.c` `sparseset_clear_bit`
Kind: L -/
theorem clearBit_current (h : Valid s S) (hit : s.iterating = true) (hlt : s.iter < s.members) :
    ∃ t, sparsesetClearBit s (s.dense s.iter) = .ok t ∧ Valid t (S.erase (s.dense s.iter)) ∧
      t.size = s.size ∧ t.iterating = true ∧ t.iter = s.iter ∧ t.iterInc = 0 ∧
      t.members = s.members - 1 ∧ ∀ k < s.iter, t.dense k = s.dense k := by
  have heS := h.dense_mem hlt
  simp only [sparsesetClearBit, h.bitP_eq (h.lt_size _ hlt), bind, Except.bind]
  simp only [heS, decide_true, if_true, h.back _ hlt]
  have hadj : adjustIter s s.iter = ({ s with iterInc := 0 }, s.iter) := by
    rw [adjustIter, if_pos ⟨hit, le_rfl⟩, if_neg (lt_irrefl _)]
  rw [hadj]
  obtain ⟨hv, hbelow⟩ := removeAt_spec h hlt
  exact ⟨_, rfl, hv.congr rfl rfl rfl, rfl, hit, rfl, rfl, rfl, hbelow⟩

/-! ## Copies -/

/-- The copied part of the arrays. Source: `sparseset.c` `sparseset_copy`. Kind: L -/
theorem copyLoop_spec (h : Valid s S) {d : SparseSet} (hsize : d.size = s.size) (hi : i ≤ s.members) :
    (copyLoop s d i).size = s.size ∧ (copyLoop s d i).iterating = d.iterating ∧
      (∀ k < i, (copyLoop s d i).dense k = s.dense k) ∧
      ∀ k < i, (copyLoop s d i).sparse (s.dense k) = k := by
  induction i with
  | zero =>
    refine ⟨hsize, rfl, fun k hk => ?_, fun k hk => ?_⟩
    · exact absurd hk (Nat.not_lt_zero k)
    · exact absurd hk (Nat.not_lt_zero k)
  | succ i ih =>
    obtain ⟨hsz, hit, hdense, hsparse⟩ := ih (Nat.le_of_succ_le hi)
    have hle := h.le_size
    rw [copyLoop]
    refine ⟨hsz, hit, fun k hk => ?_, fun k hk => ?_⟩
    · rw [dense_insertBit _ _ (by omega)]
      split_ifs with hki
      · rw [hki]
      · exact hdense k (by omega)
    · rw [sparse_insertBit _ _ _ (by omega)]
      split_ifs with hki
      · exact h.dense_inj (by omega) (by omega) hki.symm
      · refine hsparse k ?_
        have hne : k ≠ i := fun heq => hki (heq ▸ rfl)
        omega

/-- **A copy** holds the same set. Source: `sparseset.c` `sparseset_copy`. Kind: L -/
theorem copyLoop_valid (h : Valid s S) {d : SparseSet} (hsize : d.size = s.size) :
    Valid { copyLoop s d s.members with members := s.members } S := by
  obtain ⟨hsz, -, hdense, hsparse⟩ := copyLoop_spec h hsize le_rfl
  refine ⟨?_, fun k hk => ?_, fun k hk => ?_, fun x => ?_⟩
  · change s.members ≤ (copyLoop s d s.members).size
    rw [hsz]
    exact h.le_size
  · change (copyLoop s d s.members).dense k < (copyLoop s d s.members).size
    rw [hsz, hdense k hk]
    exact h.lt_size k hk
  · change (copyLoop s d s.members).sparse ((copyLoop s d s.members).dense k) = k
    rw [hdense k hk]
    exact hsparse k hk
  · rw [h.mem_iff]
    constructor
    · rintro ⟨k, hk, rfl⟩
      exact ⟨k, hk, hdense k hk⟩
    · rintro ⟨k, hk, rfl⟩
      exact ⟨k, hk, (hdense k hk).symm⟩

end OneSet

end GccCore.Gcc.Sparseset
