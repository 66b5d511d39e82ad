import GccCore.Iberty.Hashtab.Primes
import GccCore.Lib.OpenAddressing

/-!
# `libiberty/hashtab.c`: the table

The functions of the expandable hash table, over element pointers of any type with the table's own
`hash_f` and `eq_f`. A slot pointer is the slot's index; the pointers 0 and 1 that mark empty and
deleted entries are constructors of their own. Loops take fuel.

* **Probing** (`findLoop_eq`, `slotLoop_eq`, `emptySlotLoop_eq`): every probe loop ends at the first slot
  of the way that stops it.
-/

namespace GccCore.Iberty.Hashtab

open GccCore.Lib.OpenAddressing

/-- The table. `size` and the counts are `size_t`, the statistics `unsigned int`.
Source: `hashtab.h` `struct htab` -/
structure Htab (α : Type) where
  entries : ℕ → Entry α
  size : ℕ
  nElements : ℕ
  nDeleted : ℕ
  searches : BitVec 32
  collisions : BitVec 32
  sizePrimeIndex : Fin 30

/-- `enum insert_option`. Source: `hashtab.h`. -/
inductive InsertOption
  | NO_INSERT
  | INSERT
  deriving DecidableEq

section Model

variable {α σ : Type} (hashF : α → Hashval) (eqF : α → α → Bool)

/-- The number of live elements. Source: `hashtab.c` `htab_elements`. -/
def htabElements (htab : Htab α) : ℕ := htab.nElements - htab.nDeleted

/-- A new table in storage that `alloc_f` has cleared.
Source: `hashtab.c` `htab_create_alloc`, `htab_create` -/
def htabCreate (size : ℕ) : Except Failure (Htab α) := do
  let sizePrimeIndex ← higherPrimeIndex size
  .ok { entries := fun _ => .empty
        size := primeSize sizePrimeIndex
        nElements := 0
        nDeleted := 0
        searches := 0
        collisions := 0
        sizePrimeIndex }

/-- The next index of a probe loop. The sum is one of 32-bit numbers.
Source: `hashtab.c` (`index += hash2; if (index >= size) index -= size;`) -/
def advance (hash2 : Hashval) (size : ℕ) (index : Hashval) : Hashval :=
  let index := index + hash2
  if size ≤ index.toNat then index - BitVec.ofNat 32 size else index

/-- An entry at which a search for `element` returns.
Source: `hashtab.c` `htab_find_with_hash` (`entry == HTAB_EMPTY_ENTRY || ...`) -/
def returnsAt (element : α) : Entry α → Bool
  | .empty => true
  | .deleted => false
  | .live a => eqF a element

/-- Source: `hashtab.c` `htab_find_with_hash` (`for (;;)`). -/
def findLoop (htab : Htab α) (element : α) (hash2 : Hashval) :
    ℕ → Hashval → BitVec 32 → Except Failure (Entry α × BitVec 32)
  | 0, _, _ => .error .diverges
  | fuel + 1, index, collisions =>
    let index := advance hash2 htab.size index
    let entry := htab.entries index.toNat
    if returnsAt eqF element entry then .ok (entry, collisions + 1)
    else findLoop htab element hash2 fuel index (collisions + 1)

/-- The entry equal to `element`, or the empty one.
Source: `hashtab.c` `htab_find_with_hash` -/
def htabFindWithHash (fuel : ℕ) (htab : Htab α) (element : α) (hash : Hashval) :
    Except Failure (Entry α × Htab α) :=
  let htab := { htab with searches := htab.searches + 1 }
  let index := htabMod hash htab.sizePrimeIndex
  let entry := htab.entries index.toNat
  if returnsAt eqF element entry then .ok (entry, htab)
  else do
    let hash2 := htabModM2 hash htab.sizePrimeIndex
    let (entry, collisions) ← findLoop eqF htab element hash2 fuel index htab.collisions
    .ok (entry, { htab with collisions })

/-- Source: `hashtab.c` `htab_find`. -/
def htabFind (fuel : ℕ) (htab : Htab α) (element : α) : Except Failure (Entry α × Htab α) :=
  htabFindWithHash eqF fuel htab element (hashF element)

/-- Where the search for a slot ends: at an equal element, or at an empty entry with the first
deleted slot that was passed.
Source: `hashtab.c` `htab_find_slot_with_hash` (`return &htab->entries[index]`, `empty_entry`) -/
inductive SlotStop
  | found (index : Hashval)
  | emptyEntry (index : Hashval) (firstDeletedSlot : Option Hashval)

/-- Source: `hashtab.c` `htab_find_slot_with_hash` (`for (;;)`). -/
def slotLoop (htab : Htab α) (element : α) (hash2 : Hashval) :
    ℕ → Hashval → Option Hashval → BitVec 32 → Except Failure (SlotStop × BitVec 32)
  | 0, _, _, _ => .error .diverges
  | fuel + 1, index, firstDeletedSlot, collisions =>
    let index := advance hash2 htab.size index
    match htab.entries index.toNat with
    | .empty => .ok (.emptyEntry index firstDeletedSlot, collisions + 1)
    | .deleted =>
      slotLoop htab element hash2 fuel index (firstDeletedSlot.or (some index)) (collisions + 1)
    | .live a =>
      if eqF a element then .ok (.found index, collisions + 1)
      else slotLoop htab element hash2 fuel index firstDeletedSlot (collisions + 1)

/-- The search of `htab_find_slot_with_hash`, from the first index on.
Source: `hashtab.c` `htab_find_slot_with_hash` -/
def slotSearch (fuel : ℕ) (htab : Htab α) (element : α) (hash : Hashval) :
    Except Failure (SlotStop × BitVec 32) :=
  let index := htabMod hash htab.sizePrimeIndex
  let hash2 := htabModM2 hash htab.sizePrimeIndex
  match htab.entries index.toNat with
  | .empty => .ok (.emptyEntry index none, htab.collisions)
  | .deleted => slotLoop eqF htab element hash2 fuel index (some index) htab.collisions
  | .live a =>
    if eqF a element then .ok (.found index, htab.collisions)
    else slotLoop eqF htab element hash2 fuel index none htab.collisions

/-- Source: `hashtab.c` `find_empty_slot_for_expand` (`for (;;)`). -/
def emptySlotLoop (htab : Htab α) (hash2 : Hashval) : ℕ → Hashval → Except Failure Hashval
  | 0, _ => .error .diverges
  | fuel + 1, index =>
    let index := advance hash2 htab.size index
    match htab.entries index.toNat with
    | .empty => .ok index
    | .deleted => .error .abort
    | .live _ => emptySlotLoop htab hash2 fuel index

/-- Source: `hashtab.c` `find_empty_slot_for_expand`. -/
def findEmptySlotForExpand (fuel : ℕ) (htab : Htab α) (hash : Hashval) :
    Except Failure Hashval :=
  let index := htabMod hash htab.sizePrimeIndex
  match htab.entries index.toNat with
  | .empty => .ok index
  | .deleted => .error .abort
  | .live _ => emptySlotLoop htab (htabModM2 hash htab.sizePrimeIndex) fuel index

/-- The table after the first `k` of the old entries have been put into it.
Source: `hashtab.c` `htab_expand` (`do ... while (p < olimit)`) -/
def reinsert (fuel : ℕ) (oentries : ℕ → Entry α) (htab : Htab α) : ℕ → Except Failure (Htab α)
  | 0 => .ok htab
  | k + 1 => do
    let htab ← reinsert fuel oentries htab k
    match oentries k with
    | .live x =>
      let q ← findEmptySlotForExpand fuel htab (hashF x)
      .ok { htab with entries := Function.update htab.entries q.toNat (.live x) }
    | _ => .ok htab

/-- The table after removal of unused elements is either too full or too empty.
Source: `hashtab.c` `htab_expand` -/
def resizes (htab : Htab α) : Bool :=
  let elts := htabElements htab
  elts * 2 > htab.size || (elts * 8 < htab.size && htab.size > 32)

/-- The row and the size of the new table.
Source: `hashtab.c` `htab_expand` (`nindex`, `nsize`) -/
def newSize (htab : Htab α) : Except Failure (Fin 30 × ℕ) :=
  if resizes htab then do
    let nindex ← higherPrimeIndex (htabElements htab * 2)
    .ok (nindex, primeSize nindex)
  else .ok (htab.sizePrimeIndex, htab.size)

/-- Rehashing; `alloc` says whether the allocator returns storage.
Source: `hashtab.c` `htab_expand` -/
def htabExpand (fuel : ℕ) (alloc : Bool) (htab : Htab α) : Except Failure (Bool × Htab α) := do
  let (nindex, nsize) ← newSize htab
  if alloc then
    let nhtab := { htab with
      entries := fun _ => .empty
      size := nsize
      sizePrimeIndex := nindex
      nElements := htab.nElements - htab.nDeleted
      nDeleted := 0 }
    let nhtab ← reinsert hashF fuel htab.entries nhtab htab.size
    .ok (true, nhtab)
  else .ok (false, htab)

/-- Rehashing if the table is to take an element and is three quarters full.
Source: `hashtab.c` `htab_find_slot_with_hash` -/
def expandForInsert (fuel : ℕ) (alloc : Bool) (htab : Htab α) (insert : InsertOption) :
    Except Failure (Bool × Htab α) :=
  if insert = .INSERT ∧ htab.size * 3 ≤ htab.nElements * 4 then htabExpand hashF fuel alloc htab
  else .ok (true, htab)

/-- The slot of an element equal to `element`; failing that, `NULL`, or with `INSERT` the slot in
which the caller is to store it.
Source: `hashtab.c` `htab_find_slot_with_hash` -/
def htabFindSlotWithHash (fuel : ℕ) (alloc : Bool) (htab : Htab α) (element : α) (hash : Hashval)
    (insert : InsertOption) : Except Failure (Option ℕ × Htab α) := do
  let (expanded, htab) ← expandForInsert hashF fuel alloc htab insert
  if expanded then
    let htab := { htab with searches := htab.searches + 1 }
    let (stop, collisions) ← slotSearch eqF fuel htab element hash
    let htab := { htab with collisions }
    match stop with
    | .found index => .ok (some index.toNat, htab)
    | .emptyEntry index firstDeletedSlot =>
      match insert, firstDeletedSlot with
      | .NO_INSERT, _ => .ok (none, htab)
      | .INSERT, some slot =>
        .ok (some slot.toNat, { htab with
          nDeleted := htab.nDeleted - 1
          entries := Function.update htab.entries slot.toNat .empty })
      | .INSERT, none => .ok (some index.toNat, { htab with nElements := htab.nElements + 1 })
  else .ok (none, htab)

/-- Source: `hashtab.c` `htab_find_slot`. -/
def htabFindSlot (fuel : ℕ) (alloc : Bool) (htab : Htab α) (element : α)
    (insert : InsertOption) : Except Failure (Option ℕ × Htab α) :=
  htabFindSlotWithHash hashF eqF fuel alloc htab element (hashF element) insert

/-- A caller's insertion: `element` is stored into the slot that is returned, or if `replace` is not
set only into an empty one.
Source: `hashtab.c` `htab_find_slot_with_hash` ("then write the value you want into the returned
slot") -/
def insertElement (fuel : ℕ) (alloc replace : Bool) (htab : Htab α) (element : α) :
    Except Failure (Option ℕ × Htab α) := do
  let (slot, htab) ← htabFindSlot hashF eqF fuel alloc htab element .INSERT
  match slot with
  | none => .ok (none, htab)
  | some i =>
    if replace || !(htab.entries i).isLive then
      .ok (some i, { htab with entries := Function.update htab.entries i (.live element) })
    else .ok (some i, htab)

/-- Clears a slot; the element is handed to `del_f`.
Source: `hashtab.c` `htab_clear_slot` -/
def htabClearSlot (htab : Htab α) (slot : ℕ) : Except Failure (α × Htab α) :=
  if htab.size ≤ slot then .error .abort
  else match htab.entries slot with
    | .live a => .ok (a, { htab with
        entries := Function.update htab.entries slot .deleted
        nDeleted := htab.nDeleted + 1 })
    | _ => .error .abort

/-- The elements of the slots below `k`, from the last down.
Source: `hashtab.c` `htab_empty` (`for (i = size - 1; i >= 0; i--)`) -/
def liveDown (entries : ℕ → Entry α) : ℕ → List α
  | 0 => []
  | k + 1 => match entries k with
    | .live a => a :: liveDown entries k
    | _ => liveDown entries k

/-- Clears the table, giving up a large array for a small one. The elements handed to `del_f` are
returned: the loop's index is an `int`, so that it sees no slot of a table of `2 ^ 31` or more. If
the small array is not obtained the table is left without one.
Source: `hashtab.c` `htab_empty`, with `sizeof (PTR)` a parameter -/
def htabEmpty (sizeofPtr : ℕ) (alloc : Bool) (htab : Htab α) : Except Failure (List α × Htab α) := do
  let freed := if htab.size - 1 < 2 ^ 31 then liveDown htab.entries htab.size else []
  if htab.size > 1024 * 1024 / sizeofPtr then
    let nindex ← higherPrimeIndex (1024 / sizeofPtr)
    if alloc then
      .ok (freed, { htab with
        entries := fun _ => .empty
        size := primeSize nindex
        sizePrimeIndex := nindex
        nDeleted := 0
        nElements := 0 })
    else .error .noMemory
  else .ok (freed, { htab with entries := fun _ => .empty, nDeleted := 0, nElements := 0 })

/-- What a traversal's callback does with an entry: it may clear the slot it is given, it says
whether to go on, and it updates `info`.
Source: `hashtab.h` `htab_trav` -/
structure CallbackResult (σ : Type) where
  goOn : Bool
  clear : Bool
  info : σ

/-- What a traversal has seen and done. Source: `hashtab.c` `htab_traverse_noresize`. -/
structure Traversal (α σ : Type) where
  visited : List α
  freed : List α
  info : σ

/-- The callback's own call of `htab_clear_slot`, if it makes one.
Source: `hashtab.h` `htab_trav` -/
def callbackClear (clear : Bool) (htab : Htab α) (slot : ℕ) : Except Failure (List α × Htab α) :=
  if clear then do
    let (a, htab) ← htabClearSlot htab slot
    .ok ([a], htab)
  else .ok ([], htab)

/-- The traversal of `k` slots from `slot` on.
Source: `hashtab.c` `htab_traverse_noresize` (`do ... while (++slot < limit)`) -/
def traverseLoop (callback : α → σ → CallbackResult σ) :
    ℕ → ℕ → σ → Htab α → Except Failure (Traversal α σ × Htab α)
  | 0, _, info, htab => .ok (⟨[], [], info⟩, htab)
  | k + 1, slot, info, htab =>
    match htab.entries slot with
    | .live x => do
      let result := callback x info
      let (freed, htab) ← callbackClear result.clear htab slot
      if result.goOn then
        let (rest, htab) ← traverseLoop callback k (slot + 1) result.info htab
        .ok (⟨x :: rest.visited, freed ++ rest.freed, rest.info⟩, htab)
      else .ok (⟨[x], freed, result.info⟩, htab)
    | _ => traverseLoop callback k (slot + 1) info htab

/-- Source: `hashtab.c` `htab_traverse_noresize`. -/
def htabTraverseNoresize (callback : α → σ → CallbackResult σ) (info : σ) (htab : Htab α) :
    Except Failure (Traversal α σ × Htab α) :=
  traverseLoop callback htab.size 0 info htab

/-- Rehashing if the table is too empty. Source: `hashtab.c` `htab_traverse`. -/
def expandForTraverse (fuel : ℕ) (alloc : Bool) (htab : Htab α) :
    Except Failure (Bool × Htab α) :=
  if htabElements htab * 8 < htab.size then htabExpand hashF fuel alloc htab else .ok (true, htab)

/-- Source: `hashtab.c` `htab_traverse`. -/
def htabTraverse (fuel : ℕ) (alloc : Bool) (callback : α → σ → CallbackResult σ) (info : σ)
    (htab : Htab α) : Except Failure (Traversal α σ × Htab α) := do
  let (_, htab) ← expandForTraverse hashF fuel alloc htab
  htabTraverseNoresize callback info htab

end Model

/-! ## Probing -/

section Probing

variable {α : Type} {hashF : α → Hashval} {eqF : α → α → Bool} {htab : Htab α} {element : α}
  {hash hash2 index : Hashval}

/-- The `k`-th slot on the way of a hash through the table of row `i`.
Source: `hashtab.c` (`htab_mod`, `htab_mod_m2`, and the probe loops) -/
def probe (i : Fin 30) (hash : Hashval) (k : ℕ) : ℕ :=
  let p := primeSize i
  (hash.toNat % p + k * (1 + hash.toNat % (p - 2))) % p

theorem probe_lt (i : Fin 30) (hash : Hashval) (k : ℕ) :
    probe i hash k < primeSize i := by
  have hge : 7 ≤ primeSize i := (prime_bounds i).1
  exact Nat.mod_lt _ (by omega)

/-- **The stride visits all slots.** Source: `hashtab.c` `htab_mod_m2`. Kind: L -/
theorem probe_covers (i : Fin 30) (hash : Hashval) (slot : ℕ)
    (hslot : slot < primeSize i) :
    ∃ k < primeSize i, probe i hash k = slot := by
  have hge : 7 ≤ primeSize i := (prime_bounds i).1
  have hmod := Nat.mod_lt hash.toNat (y := primeSize i - 2) (by omega)
  have hprime : (primeSize i).Prime := prime_primeTab i
  exact stride_covers hprime (by omega) (by omega) _ hslot

/-- The table's size is its row's, and no sum of two indices leaves 32 bits.
Source: `hashtab.c` (`size`, `size_prime_index`) -/
structure Sized (htab : Htab α) : Prop where
  size_eq : htab.size = primeTab[htab.sizePrimeIndex].prime.toNat
  size_le : htab.size ≤ 2147483647

/-- One step of a probe loop, without overflow. Source: `hashtab.c` (`index += hash2`). Kind: L -/
theorem advance_toNat {size : ℕ} (hsize : size ≤ 2147483647) (hindex : index.toNat < size)
    (hhash2 : hash2.toNat < size) :
    (advance hash2 size index).toNat = (index.toNat + hash2.toNat) % size := by
  have hsum : (index + hash2).toNat = index.toNat + hash2.toNat := by
    rw [BitVec.toNat_add]
    exact Nat.mod_eq_of_lt (by omega)
  have hofNat : (BitVec.ofNat 32 size).toNat = size := Nat.mod_eq_of_lt (by omega)
  simp only [advance]
  by_cases hge : size ≤ (index + hash2).toNat
  · rw [if_pos hge, BitVec.toNat_sub_of_le (BitVec.le_def.mpr (by rwa [hofNat])), hofNat, hsum,
      Nat.mod_eq_sub_mod (by omega), Nat.mod_eq_of_lt (by omega)]
  · rw [if_neg hge, hsum, Nat.mod_eq_of_lt (by omega)]

/-- **The loop's indices** are the slots of the way. Source: `hashtab.c` (the probe loops).
Kind: L -/
theorem iterate_advance_toNat (hs : Sized htab) (hash : Hashval) (k : ℕ) :
    ((advance (htabModM2 hash htab.sizePrimeIndex) htab.size)^[k]
      (htabMod hash htab.sizePrimeIndex)).toNat = probe htab.sizePrimeIndex hash k := by
  have hge := (prime_bounds htab.sizePrimeIndex).1
  have hmod := Nat.mod_lt hash.toNat (y := primeTab[htab.sizePrimeIndex].prime.toNat - 2) (by omega)
  induction k with
  | zero => simp [probe, primeSize, htabMod_toNat]
  | succ k ih =>
    rw [Function.iterate_succ_apply', advance_toNat hs.size_le, ih, htabModM2_toNat, hs.size_eq]
    · simp only [probe]
      rw [Nat.mod_add_mod, add_assoc, ← add_one_mul]
    · rw [ih, hs.size_eq]
      exact probe_lt ..
    · rw [htabModM2_toNat, hs.size_eq]
      omega

/-- A loop of `htab_find_with_hash` ends at the first entry at which it returns.
Source: `hashtab.c` `htab_find_with_hash`
Kind: L -/
theorem findLoop_eq {fuel k : ℕ} (htab : Htab α) (collisions : BitVec 32) (hfuel : k < fuel)
    (hstop : returnsAt eqF element
      (htab.entries ((advance hash2 htab.size)^[k + 1] index).toNat) = true)
    (hbefore : ∀ j < k, returnsAt eqF element
      (htab.entries ((advance hash2 htab.size)^[j + 1] index).toNat) = false) :
    ∃ c, findLoop eqF htab element hash2 fuel index collisions =
      .ok (htab.entries ((advance hash2 htab.size)^[k + 1] index).toNat, c) := by
  induction k generalizing index fuel collisions with
  | zero =>
    obtain ⟨fuel, rfl⟩ := Nat.exists_eq_add_of_lt hfuel
    rw [Function.iterate_succ_apply, Function.iterate_zero_apply] at hstop ⊢
    exact ⟨collisions + 1, by simp only [findLoop]; rw [if_pos hstop]⟩
  | succ k ih =>
    obtain ⟨fuel, rfl⟩ := Nat.exists_eq_add_of_lt hfuel
    have hfirst := hbefore 0 (by omega)
    rw [Function.iterate_succ_apply, Function.iterate_zero_apply] at hfirst
    rw [Function.iterate_succ_apply] at hstop ⊢
    simp only [findLoop, hfirst, Bool.false_eq_true, if_false]
    apply ih _ (by omega) hstop
    intro j hj
    exact hbefore (j + 1) (by omega)

/-- The loop of `htab_find_slot_with_hash` ends there too, with a deleted slot that it was given or
that it passed.
Source: `hashtab.c` `htab_find_slot_with_hash`
Kind: L -/
theorem slotLoop_eq {fuel k : ℕ} (htab : Htab α) (first : Option Hashval) (collisions : BitVec 32)
    (hfuel : k < fuel)
    (hstop : returnsAt eqF element
      (htab.entries ((advance hash2 htab.size)^[k + 1] index).toNat) = true)
    (hbefore : ∀ j < k, returnsAt eqF element
      (htab.entries ((advance hash2 htab.size)^[j + 1] index).toNat) = false) :
    ∃ stop c, slotLoop eqF htab element hash2 fuel index first collisions = .ok (stop, c) ∧
      ((stop = .found ((advance hash2 htab.size)^[k + 1] index) ∧
          (htab.entries ((advance hash2 htab.size)^[k + 1] index).toNat).isLive = true) ∨
        ∃ fd, stop = .emptyEntry ((advance hash2 htab.size)^[k + 1] index) fd ∧
          htab.entries ((advance hash2 htab.size)^[k + 1] index).toNat = .empty ∧
          ∀ s, fd = some s → first = some s ∨
            ∃ j < k, s = (advance hash2 htab.size)^[j + 1] index ∧
              htab.entries s.toNat = .deleted) := by
  induction k generalizing index fuel first collisions with
  | zero =>
    obtain ⟨fuel, rfl⟩ := Nat.exists_eq_add_of_lt hfuel
    rw [Function.iterate_succ_apply, Function.iterate_zero_apply] at hstop ⊢
    simp only [slotLoop]
    cases hentry : htab.entries (advance hash2 htab.size index).toNat with
    | empty => exact ⟨_, _, rfl, .inr ⟨first, rfl, rfl, fun s hs => .inl hs⟩⟩
    | deleted => simp [hentry, returnsAt] at hstop
    | live a =>
      simp only [hentry, returnsAt] at hstop
      exact ⟨_, _, by simp only [hstop, if_true]; rfl, .inl ⟨rfl, rfl⟩⟩
  | succ k ih =>
    obtain ⟨fuel, rfl⟩ := Nat.exists_eq_add_of_lt hfuel
    have hfirst := hbefore 0 (by omega)
    rw [Function.iterate_succ_apply, Function.iterate_zero_apply] at hfirst
    rw [Function.iterate_succ_apply] at hstop ⊢
    have hih := fun f c => @ih (advance hash2 htab.size index) (k + 1 + fuel) f c (by omega) hstop
      fun j hj => hbefore (j + 1) (by omega)
    simp only [slotLoop]
    cases hentry : htab.entries (advance hash2 htab.size index).toNat with
    | empty => simp [hentry, returnsAt] at hfirst
    | deleted =>
      obtain ⟨stop, c, heq, hcases⟩ := hih (first.or (some (advance hash2 htab.size index)))
        (collisions + 1)
      refine ⟨stop, c, heq, hcases.imp_right ?_⟩
      rintro ⟨fd, rfl, hempty, hfd⟩
      refine ⟨fd, rfl, hempty, fun s hs => ?_⟩
      rcases hfd s hs with hor | ⟨j, hj, hsj, hdel⟩
      · rcases first with _ | s'
        · obtain rfl : advance hash2 htab.size index = s := by simpa using hor
          exact .inr ⟨0, by omega, rfl, hentry⟩
        · exact .inl (by simpa using hor)
      · exact .inr ⟨j + 1, by omega, hsj, hdel⟩
    | live a =>
      simp only [hentry, returnsAt] at hfirst
      obtain ⟨stop, c, heq, hcases⟩ := hih first (collisions + 1)
      refine ⟨stop, c, by simpa only [hfirst, Bool.false_eq_true, if_false] using heq,
        hcases.imp_right ?_⟩
      rintro ⟨fd, rfl, hempty, hfd⟩
      refine ⟨fd, rfl, hempty, fun s hs => (hfd s hs).imp_right ?_⟩
      rintro ⟨j, hj, hsj, hdel⟩
      exact ⟨j + 1, by omega, hsj, hdel⟩

/-- The loop of `find_empty_slot_for_expand` ends at the first empty slot if it meets no deleted one.
Source: `hashtab.c` `find_empty_slot_for_expand`
Kind: L -/
theorem emptySlotLoop_eq {fuel k : ℕ} (hfuel : k < fuel)
    (hstop : htab.entries ((advance hash2 htab.size)^[k + 1] index).toNat = .empty)
    (hbefore : ∀ j < k, (htab.entries ((advance hash2 htab.size)^[j + 1] index).toNat).isLive) :
    emptySlotLoop htab hash2 fuel index = .ok ((advance hash2 htab.size)^[k + 1] index) := by
  induction k generalizing index fuel with
  | zero =>
    obtain ⟨fuel, rfl⟩ := Nat.exists_eq_add_of_lt hfuel
    rw [Function.iterate_succ_apply, Function.iterate_zero_apply] at hstop ⊢
    simp only [emptySlotLoop, hstop]
  | succ k ih =>
    obtain ⟨fuel, rfl⟩ := Nat.exists_eq_add_of_lt hfuel
    obtain ⟨a, ha⟩ := Entry.isLive_iff.mp (hbefore 0 (by omega))
    rw [Function.iterate_succ_apply, Function.iterate_zero_apply] at ha
    rw [Function.iterate_succ_apply] at hstop ⊢
    simp only [emptySlotLoop, ha]
    apply ih (by omega) hstop
    intro j hj
    exact hbefore (j + 1) (by omega)

end Probing

end GccCore.Iberty.Hashtab
