import GccCore.Lib.OpenAddressing
import Mathlib.Data.BitVec
import Mathlib.Tactic.Ring

/-!
# `libcpp/symtab.c`: the table of identifiers

An open hash table of a power of two slots that knows how to hash a string and how to compare it with an entry. Nodes have the
address that `alloc_node` gave them; the pointers `NULL` and `DELETED` are constructors of their own. Loops take fuel.

* **The code** (`htLookupWithHash`, `htExpand`, `htPurge`, `htForall`), with its 32-bit arithmetic.
* **The way of a hash** (`probe`, `probe_covers`): the second hash is odd, so every slot is visited.
* **The search** (`search_spec`, `emptySlot_spec`) ends, at the node of the string or at a slot on its way.
-/

namespace GccCore.Cpp.Symtab

open GccCore.Lib.OpenAddressing

/-! ## The code -/

/-- A node, with its characters and the null character behind them. Source: `symtab.h` `struct ht_identifier`. -/
structure HtIdentifier where
  address : ℕ
  str : List UInt8
  len : BitVec 32
  hashValue : BitVec 32
  deriving DecidableEq

/-- The table; `allocated` nodes were handed out. Source: `symtab.h` `struct ht`. -/
structure HashTable where
  entries : ℕ → Entry HtIdentifier
  nslots : BitVec 32
  nelements : BitVec 32
  searches : BitVec 32
  collisions : BitVec 32
  allocated : ℕ

/-- Source: `symtab.h` `enum ht_lookup_option`. -/
inductive HtLookupOption
  | HT_NO_INSERT
  | HT_ALLOC
  deriving DecidableEq

/-- Source: `symtab.c` `calc_hash`, `symtab.h` `HT_HASHSTEP`, `HT_HASHFINISH`. -/
def calcHash (str : List UInt8) : BitVec 32 :=
  str.foldl (fun r c => r * 67 + (BitVec.ofNat 32 c.toNat - 113)) 0 + BitVec.ofNat 32 str.length

/-- Source: `symtab.c` `ht_create`. -/
def htCreate (order : ℕ) : HashTable where
  entries := fun _ => .empty
  nslots := BitVec.ofNat 32 (1 <<< order)
  nelements := 0
  searches := 0
  collisions := 0
  allocated := 0

/-- The second hash. "hash2 must be odd, so we're guaranteed to visit every possible location in the table during rehashing."
Source: `symtab.c` (`hash2 = ((hash * 17) & sizemask) | 1`) -/
def hash2 (hash sizemask : BitVec 32) : BitVec 32 := (hash * 17 &&& sizemask) ||| 1

/-- The test for the node of a string: `memcmp` reads as many characters as the string has.
Source: `symtab.c` `ht_lookup_with_hash` -/
def isNodeOf (str : List UInt8) (hash : BitVec 32) (node : HtIdentifier) : Bool :=
  node.hashValue == hash && node.len == BitVec.ofNat 32 str.length && node.str.take str.length == str

/-- Where a search ends: at a node, or at an empty slot with `deleted_index`. Source: `symtab.c` `ht_lookup_with_hash`. -/
inductive Stop
  | found (node : HtIdentifier)
  | free (index deletedIndex : BitVec 32)

/-- A deleted slot is noted only if the first slot was a deleted one. Source: `symtab.c` `ht_lookup_with_hash` (`for (;;)`). -/
def searchLoop (table : HashTable) (str : List UInt8) (hash : BitVec 32) :
    ℕ → BitVec 32 → BitVec 32 → BitVec 32 → Option (Stop × BitVec 32)
  | 0, _, _, _ => none
  | fuel + 1, index, deletedIndex, collisions =>
    let index := (index + hash2 hash (table.nslots - 1)) &&& (table.nslots - 1)
    match table.entries index.toNat with
    | .empty => some (.free index deletedIndex, collisions + 1)
    | .deleted =>
      searchLoop table str hash fuel index (if deletedIndex ≠ table.nslots then index else deletedIndex) (collisions + 1)
    | .live node =>
      if isNodeOf str hash node then some (.found node, collisions + 1)
      else searchLoop table str hash fuel index deletedIndex (collisions + 1)

/-- The search from the first slot on. Source: `symtab.c` `ht_lookup_with_hash`. -/
def search (fuel : ℕ) (table : HashTable) (str : List UInt8) (hash : BitVec 32) : Option (Stop × BitVec 32) :=
  let index := hash &&& (table.nslots - 1)
  match table.entries index.toNat with
  | .empty => some (.free index table.nslots, table.collisions)
  | .deleted => searchLoop table str hash fuel index index table.collisions
  | .live node =>
    if isNodeOf str hash node then some (.found node, table.collisions)
    else searchLoop table str hash fuel index table.nslots table.collisions

/-- Source: `symtab.c` `ht_expand` (`do ... while (nentries[index])`). -/
def emptySlotLoop (nentries : ℕ → Entry HtIdentifier) (hash sizemask : BitVec 32) : ℕ → BitVec 32 → Option (BitVec 32)
  | 0, _ => none
  | fuel + 1, index =>
    let index := (index + hash2 hash sizemask) &&& sizemask
    if (nentries index.toNat).isUsed then emptySlotLoop nentries hash sizemask fuel index else some index

/-- The slot for a node in the new array. Source: `symtab.c` `ht_expand`. -/
def emptySlot (fuel : ℕ) (nentries : ℕ → Entry HtIdentifier) (hash sizemask : BitVec 32) : Option (BitVec 32) :=
  let index := hash &&& sizemask
  if (nentries index.toNat).isUsed then emptySlotLoop nentries hash sizemask fuel index else some index

/-- The new array after the first `k` slots of the old one. Source: `symtab.c` `ht_expand` (`do ... while (++p < limit)`). -/
def rehash (fuel : ℕ) (entries : ℕ → Entry HtIdentifier) (sizemask : BitVec 32) : ℕ → Option (ℕ → Entry HtIdentifier)
  | 0 => some fun _ => .empty
  | k + 1 => do
    let nentries ← rehash fuel entries sizemask k
    match entries k with
    | .live node =>
      let index ← emptySlot fuel nentries node.hashValue sizemask
      some (Function.update nentries index.toNat (.live node))
    | _ => some nentries

/-- Source: `symtab.c` `ht_expand`. -/
def htExpand (fuel : ℕ) (table : HashTable) : Option HashTable := do
  let size := table.nslots * 2
  let nentries ← rehash fuel table.entries (size - 1) table.nslots.toNat
  some { table with entries := nentries, nslots := size }

/-- The new node in its slot. Source: `symtab.c` `ht_lookup_with_hash`. -/
def storeNode (table : HashTable) (str : List UInt8) (hash index : BitVec 32) : HtIdentifier × HashTable :=
  let node : HtIdentifier := ⟨table.allocated, str ++ [0], BitVec.ofNat 32 str.length, hash⟩
  (node, { table with
    entries := Function.update table.entries index.toNat (.live node)
    nelements := table.nelements + 1
    allocated := table.allocated + 1 })

/-- The new node in its slot, in a table that is expanded when it gets full. Source: `symtab.c` `ht_lookup_with_hash`. -/
def insertNode (fuel : ℕ) (table : HashTable) (str : List UInt8) (hash index : BitVec 32) :
    Option (Option HtIdentifier × HashTable) :=
  let (node, table) := storeNode table str hash index
  if (table.nslots * 3).toNat ≤ (table.nelements * 4).toNat then
    (htExpand fuel table).map fun table => (some node, table)
  else some (some node, table)

/-- The node of a string, or `NULL`. Source: `symtab.c` `ht_lookup_with_hash`. -/
def htLookupWithHash (fuel : ℕ) (table : HashTable) (str : List UInt8) (hash : BitVec 32) (insert : HtLookupOption) :
    Option (Option HtIdentifier × HashTable) := do
  let (stop, collisions) ← search fuel table str hash
  let table := { table with searches := table.searches + 1, collisions := collisions }
  match stop with
  | .found node => some (some node, table)
  | .free index deletedIndex =>
    if insert = .HT_NO_INSERT then some (none, table)
    else insertNode fuel table str hash (if deletedIndex ≠ table.nslots then deletedIndex else index)

/-- An entry after the callback: a node is removed if it returns true. Source: `symtab.c` `ht_purge`. -/
def purged (cb : HtIdentifier → Bool) : Entry HtIdentifier → Entry HtIdentifier
  | .live node => if cb node then .deleted else .live node
  | e => e

/-- Source: `symtab.c` `ht_purge`. -/
def htPurge (table : HashTable) (cb : HtIdentifier → Bool) : HashTable :=
  { table with entries := fun i => if i < table.nslots.toNat then purged cb (table.entries i) else table.entries i }

/-- Source: `symtab.c` `ht_forall` (`if (*p && *p != DELETED)`). -/
def liveNode : Entry HtIdentifier → Option HtIdentifier
  | .live node => some node
  | _ => none

/-- The nodes that the callback is given, up to the first for which it returns zero. Source: `symtab.c` `ht_forall`. -/
def htForall (table : HashTable) (cb : HtIdentifier → Bool) : List HtIdentifier :=
  let nodes := (List.range table.nslots.toNat).filterMap fun i => liveNode (table.entries i)
  nodes.takeWhile cb ++ (nodes.dropWhile cb).take 1

/-! ## The way of a hash -/

section Probing

/-- The slots that a search for a hash visits, in a table of `2 ^ k` slots. Source: `symtab.c`. -/
def probe (k : ℕ) (hash : BitVec 32) (j : ℕ) : ℕ :=
  (hash.toNat + j * (hash2 hash (BitVec.ofNat 32 (2 ^ k - 1))).toNat) % 2 ^ k

variable {k : ℕ}

theorem toNat_and_mask (hk : k ≤ 32) (x : BitVec 32) : (x &&& BitVec.ofNat 32 (2 ^ k - 1)).toNat = x.toNat % 2 ^ k := by
  have hlt : 2 ^ k - 1 < 2 ^ 32 := by
    have := Nat.pow_le_pow_right (n := 2) (by decide) hk
    have := Nat.two_pow_pos k
    omega
  rw [BitVec.toNat_and, BitVec.toNat_ofNat, Nat.mod_eq_of_lt hlt, Nat.and_two_pow_sub_one_eq_mod]

/-- The second hash is odd. Source: `symtab.c` ("hash2 must be odd"). Kind: L -/
theorem hash2_odd (hash sizemask : BitVec 32) : (hash2 hash sizemask).toNat % 2 = 1 := by
  have hbit : (hash2 hash sizemask).toNat.testBit 0 = true := by
    rw [hash2, BitVec.toNat_or, Nat.testBit_or, show (1 : BitVec 32).toNat = 1 from rfl]
    simp
  simpa [Nat.testBit_zero] using hbit

theorem probe_lt (hash : BitVec 32) (j : ℕ) : probe k hash j < 2 ^ k := Nat.mod_lt _ (Nat.two_pow_pos k)

/-- **Every slot is visited.** Source: `symtab.c` ("hash2 must be odd, ..."). Kind: L -/
theorem probe_covers (hash : BitVec 32) {i : ℕ} (hi : i < 2 ^ k) : ∃ j < 2 ^ k, probe k hash j = i := by
  have hodd := hash2_odd hash (BitVec.ofNat 32 (2 ^ k - 1))
  refine stride_covers_of_coprime (Nat.Coprime.pow_right k ?_) hash.toNat hi
  exact Nat.coprime_two_right.mpr (Nat.odd_iff.mpr hodd)

theorem probe_zero (hk : k ≤ 32) (hash : BitVec 32) : (hash &&& BitVec.ofNat 32 (2 ^ k - 1)).toNat = probe k hash 0 := by
  rw [toNat_and_mask hk, probe, Nat.zero_mul, Nat.add_zero]

/-- One step on the way. The sum may leave 32 bits, and the mask takes it back. Source: `symtab.c`. Kind: L -/
theorem probe_succ (hk : k ≤ 32) {hash index : BitVec 32} {j : ℕ} (hindex : index.toNat = probe k hash j) :
    ((index + hash2 hash (BitVec.ofNat 32 (2 ^ k - 1))) &&& BitVec.ofNat 32 (2 ^ k - 1)).toNat = probe k hash (j + 1) := by
  rw [toNat_and_mask hk, BitVec.toNat_add, Nat.mod_mod_of_dvd _ (Nat.pow_dvd_pow 2 hk), hindex, probe, probe,
    Nat.mod_add_mod, Nat.succ_mul, Nat.add_assoc]

end Probing

/-! ## The search -/

section Searching

variable {table : HashTable} {k fuel : ℕ} {str : List UInt8} {hash : BitVec 32}

/-- A table of `2 ^ k` slots. Source: `symtab.h` (`unsigned int nslots`). -/
structure Sized (table : HashTable) (k : ℕ) : Prop where
  nslots_eq : table.nslots.toNat = 2 ^ k
  order_le : k ≤ 30

theorem sizemask_eq {nslots : BitVec 32} (h : nslots.toNat = 2 ^ k) : nslots - 1 = BitVec.ofNat 32 (2 ^ k - 1) := by
  have hpos := Nat.two_pow_pos k
  have hlt : 2 ^ k < 2 ^ 32 := h ▸ nslots.isLt
  apply BitVec.eq_of_toNat_eq
  rw [BitVec.toNat_sub, h, BitVec.toNat_ofNat, show (1 : BitVec 32).toNat = 1 from rfl, Nat.mod_eq_of_lt (by omega : 2 ^ k - 1 < _)]
  omega

/-- The search for a string ends at an entry. Source: `symtab.c` `ht_lookup_with_hash`. -/
def stopsAt (str : List UInt8) (hash : BitVec 32) : Entry HtIdentifier → Bool
  | .empty => true
  | .deleted => false
  | .live node => isNodeOf str hash node

/-- What `deleted_index` says after the first `j` slots. Source: `symtab.c` `ht_lookup_with_hash`. -/
def Noted (table : HashTable) (k : ℕ) (hash : BitVec 32) (j : ℕ) (deletedIndex : BitVec 32) : Prop :=
  deletedIndex = table.nslots ∨
    ∃ i < j, deletedIndex.toNat = probe k hash i ∧ table.entries (probe k hash i) = .deleted

/-- The search ended at the slot `j` of its way. Source: `symtab.c` `ht_lookup_with_hash`. -/
def EndsAt (table : HashTable) (k : ℕ) (str : List UInt8) (hash : BitVec 32) (j : ℕ) : Stop → Prop
  | .found node => table.entries (probe k hash j) = .live node ∧ isNodeOf str hash node = true
  | .free index deletedIndex =>
    table.entries (probe k hash j) = .empty ∧ index.toNat = probe k hash j ∧ Noted table k hash j deletedIndex

theorem Noted.succ {j : ℕ} {deletedIndex : BitVec 32} (h : Noted table k hash j deletedIndex) :
    Noted table k hash (j + 1) deletedIndex := by
  rcases h with h | ⟨i, hi, h⟩
  · exact .inl h
  · exact .inr ⟨i, by omega, h⟩

/-- The loop ends at the first slot that stops the search. Source: `symtab.c` `ht_lookup_with_hash` (`for (;;)`). Kind: L -/
theorem searchLoop_spec (hs : Sized table k) {d : ℕ} : ∀ {fuel j : ℕ} {index deletedIndex : BitVec 32} (collisions : BitVec 32),
    d < fuel → index.toNat = probe k hash j → Noted table k hash (j + 1) deletedIndex →
    (∀ i < j + 1 + d, stopsAt str hash (table.entries (probe k hash i)) = false) →
    stopsAt str hash (table.entries (probe k hash (j + 1 + d))) = true →
    ∃ stop c, searchLoop table str hash fuel index deletedIndex collisions = some (stop, c) ∧
      EndsAt table k str hash (j + 1 + d) stop := by
  have hk : k ≤ 32 := by have := hs.order_le; omega
  induction d with
  | zero =>
    intro fuel j index deletedIndex collisions hfuel hindex hnoted hbefore hstop
    obtain ⟨fuel, rfl⟩ := Nat.exists_eq_succ_of_ne_zero hfuel.ne'
    have hnext := probe_succ hk hindex
    simp only [searchLoop, sizemask_eq hs.nslots_eq, hnext]
    rw [Nat.add_zero] at hstop ⊢
    cases hentry : table.entries (probe k hash (j + 1)) with
    | empty => exact ⟨_, _, rfl, hentry, hnext, hnoted⟩
    | deleted =>
      rw [hentry] at hstop
      cases hstop
    | live node =>
      rw [hentry] at hstop
      exact ⟨_, _, if_pos hstop, hentry, hstop⟩
  | succ d ih =>
    intro fuel j index deletedIndex collisions hfuel hindex hnoted hbefore hstop
    obtain ⟨fuel, rfl⟩ := Nat.exists_eq_succ_of_ne_zero (by omega : fuel ≠ 0)
    have hnext := probe_succ hk hindex
    have hpass := hbefore (j + 1) (by omega)
    have hsum : j + 1 + (d + 1) = j + 1 + 1 + d := by omega
    rw [hsum] at hbefore hstop ⊢
    simp only [searchLoop, sizemask_eq hs.nslots_eq, hnext]
    rw [← sizemask_eq hs.nslots_eq] at hnext ⊢
    cases hentry : table.entries (probe k hash (j + 1)) with
    | empty =>
      rw [hentry] at hpass
      cases hpass
    | deleted =>
      refine ih _ (by omega) hnext ?_ hbefore hstop
      split
      · exact .inr ⟨j + 1, by omega, hnext, hentry⟩
      · exact hnoted.succ
    | live node =>
      rw [hentry, stopsAt] at hpass
      simp only [hpass, Bool.false_eq_true, if_false]
      exact ih _ (by omega) hnext hnoted.succ hbefore hstop

/-- **A search ends**, at the first slot that stops it. Source: `symtab.c` `ht_lookup_with_hash`. Kind: P -/
theorem search_spec (hs : Sized table k) (hfuel : 2 ^ k ≤ fuel)
    (hused : count Entry.isUsed table.entries (2 ^ k) < 2 ^ k) (str : List UInt8) (hash : BitVec 32) :
    ∃ stop c j, search fuel table str hash = some (stop, c) ∧ EndsAt table k str hash j stop ∧
      ∀ i < j, stopsAt str hash (table.entries (probe k hash i)) = false := by
  have hk : k ≤ 32 := by have := hs.order_le; omega
  obtain ⟨j, hj, hstop, hbefore⟩ := exists_firstStop (h := hash)
    (P := fun e => stopsAt str hash e = true) rfl (fun i hi => probe_covers hash hi) (exists_empty hused)
  simp only [Bool.not_eq_true] at hbefore
  have hfirst := probe_zero hk hash
  rw [← sizemask_eq hs.nslots_eq] at hfirst
  rcases j with _ | j
  · rw [search]
    simp only [hfirst]
    cases hentry : table.entries (probe k hash 0) with
    | empty => exact ⟨_, _, 0, rfl, ⟨hentry, hfirst, .inl rfl⟩, hbefore⟩
    | deleted =>
      rw [hentry] at hstop
      cases hstop
    | live node =>
      rw [hentry] at hstop
      exact ⟨_, _, 0, if_pos hstop, ⟨hentry, hstop⟩, hbefore⟩
  · have hpass := hbefore 0 (Nat.succ_pos j)
    have hsum : j + 1 = 0 + 1 + j := by omega
    rw [hsum] at hstop hbefore
    rw [search]
    simp only [hfirst]
    cases hentry : table.entries (probe k hash 0) with
    | empty =>
      rw [hentry] at hpass
      cases hpass
    | deleted =>
      obtain ⟨stop, c, hloop, hends⟩ := searchLoop_spec hs table.collisions (by omega : j < fuel) hfirst
        (.inr ⟨0, Nat.one_pos, hfirst, hentry⟩) hbefore hstop
      exact ⟨stop, c, _, hloop, hends, hbefore⟩
    | live node =>
      rw [hentry, stopsAt] at hpass
      simp only [hpass, Bool.false_eq_true, if_false]
      obtain ⟨stop, c, hloop, hends⟩ := searchLoop_spec hs table.collisions (by omega : j < fuel) hfirst
        (.inl rfl) hbefore hstop
      exact ⟨stop, c, _, hloop, hends, hbefore⟩

/-- The slot that a new node is put into is not live, and on the way. Source: `symtab.c` `ht_lookup_with_hash`. Kind: L -/
theorem EndsAt.slot (hs : Sized table k) {j : ℕ} {index deletedIndex : BitVec 32}
    (h : EndsAt table k str hash j (.free index deletedIndex))
    (hbefore : ∀ i < j, stopsAt str hash (table.entries (probe k hash i)) = false) {slot : BitVec 32}
    (hslot : slot = if deletedIndex ≠ table.nslots then deletedIndex else index) :
    slot.toNat < 2 ^ k ∧ (table.entries slot.toNat).isLive = false ∧ OnChain (probe k) table.entries hash slot.toNat := by
  obtain ⟨hempty, hindex, hnoted⟩ := h
  have hfull : ∀ i < j, table.entries (probe k hash i) ≠ .empty := by
    intro i hi hentry
    have := hbefore i hi
    rw [hentry] at this
    cases this
  rcases hnoted with heq | ⟨i, hi, hdeleted, hentry⟩
  · rw [if_neg (by rw [heq]; simp)] at hslot
    rw [hslot, hindex, hempty]
    exact ⟨probe_lt hash j, rfl, j, rfl, hfull⟩
  · have hne : deletedIndex ≠ table.nslots := by
      rintro rfl
      have := probe_lt (k := k) hash i
      rw [← hdeleted, hs.nslots_eq] at this
      exact lt_irrefl _ this
    rw [if_pos hne] at hslot
    rw [hslot, hdeleted, hentry]
    exact ⟨probe_lt hash i, rfl, i, rfl, fun i' hi' => hfull i' (hi'.trans hi)⟩

/-- The loop ends at the first empty slot. Source: `symtab.c` `ht_expand` (`do ... while (nentries[index])`). Kind: L -/
theorem emptySlotLoop_spec (hk : k ≤ 32) {nentries : ℕ → Entry HtIdentifier} {d : ℕ} : ∀ {fuel j : ℕ} {index : BitVec 32},
    d < fuel → index.toNat = probe k hash j → (∀ i < j + 1 + d, nentries (probe k hash i) ≠ .empty) →
    nentries (probe k hash (j + 1 + d)) = .empty →
    ∃ index', emptySlotLoop nentries hash (BitVec.ofNat 32 (2 ^ k - 1)) fuel index = some index' ∧
      index'.toNat = probe k hash (j + 1 + d) := by
  induction d with
  | zero =>
    intro fuel j index hfuel hindex hbefore hstop
    obtain ⟨fuel, rfl⟩ := Nat.exists_eq_succ_of_ne_zero hfuel.ne'
    have hnext := probe_succ hk hindex
    rw [Nat.add_zero] at hstop ⊢
    refine ⟨_, ?_, hnext⟩
    simp only [emptySlotLoop, hnext, hstop]
    rfl
  | succ d ih =>
    intro fuel j index hfuel hindex hbefore hstop
    obtain ⟨fuel, rfl⟩ := Nat.exists_eq_succ_of_ne_zero (by omega : fuel ≠ 0)
    have hnext := probe_succ hk hindex
    have hpass : (nentries (probe k hash (j + 1))).isUsed = true := by
      rw [← Bool.not_eq_false, Entry.isUsed_eq_false]
      exact hbefore (j + 1) (by omega)
    have hsum : j + 1 + (d + 1) = j + 1 + 1 + d := by omega
    rw [hsum] at hbefore hstop ⊢
    simp only [emptySlotLoop, hnext, hpass, if_true]
    exact ih (by omega) hnext hbefore hstop

/-- **The slot for a node in the new array**: the first empty one of its way. Source: `symtab.c` `ht_expand`. Kind: L -/
theorem emptySlot_spec (hk : k ≤ 32) (hfuel : 2 ^ k ≤ fuel) {nentries : ℕ → Entry HtIdentifier}
    (hused : count Entry.isUsed nentries (2 ^ k) < 2 ^ k) (hash : BitVec 32) :
    ∃ index, emptySlot fuel nentries hash (BitVec.ofNat 32 (2 ^ k - 1)) = some index ∧
      index.toNat < 2 ^ k ∧ nentries index.toNat = .empty ∧ OnChain (probe k) nentries hash index.toNat := by
  obtain ⟨j, hj, hstop, hbefore⟩ := exists_firstStop (h := hash)
    (P := fun e => e = .empty) rfl (fun i hi => probe_covers hash hi) (exists_empty hused)
  obtain ⟨index, hreach, hat⟩ : ∃ index, emptySlot fuel nentries hash (BitVec.ofNat 32 (2 ^ k - 1)) = some index ∧
      index.toNat = probe k hash j := by
    have hfirst := probe_zero hk hash
    rw [emptySlot]
    rcases j with _ | j
    · have hempty : (nentries (probe k hash 0)).isUsed = false := Entry.isUsed_eq_false.mpr hstop
      simp only [hfirst, hempty, Bool.false_eq_true, if_false]
      exact ⟨_, rfl, hfirst⟩
    · have hpass : (nentries (probe k hash 0)).isUsed = true := by
        rw [← Bool.not_eq_false, Entry.isUsed_eq_false]
        exact hbefore 0 (Nat.succ_pos j)
      have hsum : j + 1 = 0 + 1 + j := by omega
      rw [hsum] at hstop hbefore ⊢
      simp only [hfirst, hpass, if_true]
      exact emptySlotLoop_spec hk (by omega) hfirst hbefore hstop
  refine ⟨index, hreach, ?_, ?_, ?_⟩
  · exact hat ▸ probe_lt hash j
  · exact hat ▸ hstop
  · exact hat ▸ ⟨j, rfl, hbefore⟩

end Searching

end GccCore.Cpp.Symtab
