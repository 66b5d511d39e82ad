import GccCore.Cpp.Symtab.Table

/-!
# `libcpp/symtab.c`: the table as an interner

* **The abstract interner** (`Names`): a string has an address or none, and no two strings share one.
* **The invariant** (`Holds`): the table holds one node for each named string, where a search finds it.
* **Whole runs** (`symtab_contract`): lookups and purges in any order return the nodes of the interner, through every
  expansion of the table, and `ht_forall` then meets every node once.
-/

namespace GccCore.Cpp.Symtab

open GccCore.Lib.OpenAddressing

/-! ## The interner -/

/-- The node of a string. Source: `symtab.c` `ht_lookup_with_hash`. -/
def nodeOf (hash : List UInt8 → BitVec 32) (str : List UInt8) (address : ℕ) : HtIdentifier :=
  ⟨address, str ++ [0], BitVec.ofNat 32 str.length, hash str⟩

/-- The addresses of the strings seen so far: all were handed out, and each to one string. -/
structure Names where
  address : List UInt8 → Option ℕ
  next : ℕ
  address_lt : ∀ s a, address s = some a → a < next
  injective : ∀ s t a, address s = some a → address t = some a → s = t

namespace Names

def init : Names where
  address := fun _ => none
  next := 0
  address_lt := fun _ _ h => by cases h
  injective := fun _ _ _ h => by cases h

/-- A string is given the next address. -/
def intern (names : Names) (str : List UInt8) : Names where
  address := Function.update names.address str (some names.next)
  next := names.next + 1
  address_lt := by
    intro s a h
    rw [Function.update_apply] at h
    split at h
    · simp only [Option.some.injEq] at h
      omega
    · have := names.address_lt s a h
      omega
  injective := by
    intro s t a hs ht
    rw [Function.update_apply] at hs ht
    split at hs <;> split at ht
    · simp_all
    · simp only [Option.some.injEq] at hs
      have := names.address_lt t a ht
      omega
    · simp only [Option.some.injEq] at ht
      have := names.address_lt s a hs
      omega
    · exact names.injective s t a hs ht

/-- The strings of the nodes that the callback picks lose their addresses. -/
def purge (hash : List UInt8 → BitVec 32) (names : Names) (cb : HtIdentifier → Bool) : Names where
  address := fun s => (names.address s).filter fun a => !cb (nodeOf hash s a)
  next := names.next
  address_lt := fun s a h => names.address_lt s a (Option.filter_eq_some_iff.mp h).1
  injective := fun s t a hs ht =>
    names.injective s t a (Option.filter_eq_some_iff.mp hs).1 (Option.filter_eq_some_iff.mp ht).1

/-- A string is looked up, and named if it is new and `insert` says so. -/
def lookup (hash : List UInt8 → BitVec 32) (names : Names) (str : List UInt8) (insert : HtLookupOption) :
    Option HtIdentifier × Names :=
  match names.address str, insert with
  | some a, _ => (some (nodeOf hash str a), names)
  | none, .HT_NO_INSERT => (none, names)
  | none, .HT_ALLOC => (some (nodeOf hash str names.next), names.intern str)

end Names

/-! ## The invariant -/

/-- **The invariant**: a node for each named string, on unbroken ways. Elements are counted and never discounted, so that
`nelements` bounds the slots in use.
Source: `symtab.c` -/
structure Holds (hash : List UInt8 → BitVec 32) (table : HashTable) (k : ℕ) (names : Names) : Prop extends Sized table k where
  used_le : count Entry.isUsed table.entries (2 ^ k) ≤ table.nelements.toNat
  chained : Chained (probe k) HtIdentifier.hashValue table.entries (2 ^ k)
  distinct : Distinct (fun a b => a.str = b.str) table.entries (2 ^ k)
  elements_eq : liveSet table.entries (2 ^ k) = {node | ∃ s a, names.address s = some a ∧ node = nodeOf hash s a}
  allocated_eq : table.allocated = names.next
  short : ∀ s a, names.address s = some a → s.length < 2 ^ 32

/-- Less than three quarters of the slots were ever filled. Source: `symtab.c` ("Must expand the string table."). -/
def Loaded (table : HashTable) (k : ℕ) : Prop := table.nelements.toNat * 4 < 3 * 2 ^ k

section Invariant

variable {hash : List UInt8 → BitVec 32} {table : HashTable} {k fuel : ℕ} {names : Names} {str : List UInt8}

/-- The test for the node of a string tells the strings apart. Source: `symtab.c` `ht_lookup_with_hash`. Kind: L -/
theorem isNodeOf_nodeOf {s t : List UInt8} (hs : s.length < 2 ^ 32) (ht : t.length < 2 ^ 32) (a : ℕ) :
    isNodeOf s (hash s) (nodeOf hash t a) = true ↔ t = s := by
  simp only [isNodeOf, nodeOf, Bool.and_eq_true, beq_iff_eq]
  constructor
  · rintro ⟨⟨-, hlen⟩, hmem⟩
    have : t.length = s.length := by
      have := congrArg BitVec.toNat hlen
      rwa [BitVec.toNat_ofNat, BitVec.toNat_ofNat, Nat.mod_eq_of_lt ht, Nat.mod_eq_of_lt hs] at this
    rwa [← this, List.take_left'  rfl] at hmem
  · rintro rfl
    simp

theorem holds_htCreate (hk : k ≤ 30) : Holds hash (htCreate k) k .init := by
  have hslots : (htCreate k).nslots.toNat = 2 ^ k := by
    have : 2 ^ k < 2 ^ 32 := Nat.pow_lt_pow_right (by omega) (by omega)
    rw [htCreate, BitVec.toNat_ofNat, Nat.one_shiftLeft, Nat.mod_eq_of_lt this]
  refine ⟨⟨hslots, hk⟩, ?_, chained_empty, distinct_empty, ?_, rfl, ?_⟩
  · exact (count_eq_zero fun i _ => rfl).le
  · show liveSet (fun _ => Entry.empty) _ = _
    rw [liveSet_empty]
    ext node
    simp [Names.init]
  · intro s a h
    cases h

/-- Every live node is the node of a named string. Source: `symtab.c`. Kind: L -/
theorem Holds.live (h : Holds hash table k names) {i : ℕ} (hi : i < 2 ^ k) {node : HtIdentifier}
    (hnode : table.entries i = .live node) : ∃ s a, names.address s = some a ∧ node = nodeOf hash s a := by
  have : node ∈ liveSet table.entries (2 ^ k) := ⟨i, hi, hnode⟩
  rwa [h.elements_eq] at this

theorem Holds.counters (h : Holds hash table k names) (searches collisions : BitVec 32) :
    Holds hash { table with searches := searches, collisions := collisions } k names :=
  ⟨⟨h.nslots_eq, h.order_le⟩, h.used_le, h.chained, h.distinct, h.elements_eq, h.allocated_eq, h.short⟩

/-- A node that was found is that of the string. Source: `symtab.c` `ht_lookup_with_hash` (`return node`). Kind: L -/
theorem Holds.found (h : Holds hash table k names) (hstr : str.length < 2 ^ 32) {j : ℕ} {node : HtIdentifier}
    (hends : EndsAt table k str (hash str) j (.found node)) : ∃ a, names.address str = some a ∧ node = nodeOf hash str a := by
  obtain ⟨hentry, htest⟩ := hends
  obtain ⟨s, a, hs, rfl⟩ := h.live (probe_lt _ j) hentry
  rw [isNodeOf_nodeOf hstr (h.short s a hs)] at htest
  subst htest
  exact ⟨a, hs, rfl⟩

/-- A search that ends at an empty slot was for a string without a node. Source: `symtab.c` `ht_lookup_with_hash`. Kind: L -/
theorem Holds.notFound (h : Holds hash table k names) (hstr : str.length < 2 ^ 32) {j : ℕ} {index deletedIndex : BitVec 32}
    (hends : EndsAt table k str (hash str) j (.free index deletedIndex))
    (hbefore : ∀ i < j, stopsAt str (hash str) (table.entries (probe k (hash str) i)) = false) : names.address str = none := by
  rw [Option.eq_none_iff_forall_not_mem]
  intro a ha
  have hmem : nodeOf hash str a ∈ liveSet table.entries (2 ^ k) := by
    rw [h.elements_eq]
    exact ⟨str, a, ha, rfl⟩
  obtain ⟨i, hi, hentry⟩ := hmem
  refine search_complete (P := fun e => stopsAt str (hash str) e = true) h.chained hi hentry rfl ?_ ?_ hends.1
  · exact (isNodeOf_nodeOf hstr hstr a).mpr rfl
  · intro j' hj' hstops
    exact absurd hstops (Bool.eq_false_iff.mp (hbefore j' hj'))

/-- **A new node in a slot on its way.** Source: `symtab.c` `ht_lookup_with_hash`. Kind: P -/
theorem Holds.storeNode (h : Holds hash table k names) (hstr : str.length < 2 ^ 32) (hnew : names.address str = none)
    (hcount : table.nelements.toNat + 1 < 2 ^ 32) {slot : BitVec 32} (hslot : slot.toNat < 2 ^ k)
    (hfree : (table.entries slot.toNat).isLive = false) (hchain : OnChain (probe k) table.entries (hash str) slot.toNat) :
    Holds hash (storeNode table str (hash str) slot).2 k (names.intern str) := by
  have hnelements : (table.nelements + 1).toNat = table.nelements.toNat + 1 := by
    rw [BitVec.toNat_add, show (1 : BitVec 32).toNat = 1 from rfl, Nat.mod_eq_of_lt hcount]
  refine ⟨⟨h.nslots_eq, h.order_le⟩, ?_, ?_, ?_, ?_, ?_, ?_⟩
  · simp only [Symtab.storeNode, hnelements]
    have hupdate := @count_update _ Entry.isUsed table.entries (2 ^ k) slot.toNat
      (.live (nodeOf hash str table.allocated)) hslot
    have hused := h.used_le
    simp only [Entry.isUsed, if_true] at hupdate
    simp only [nodeOf] at hupdate
    omega
  · refine h.chained.update (by simp) ?_
    intro a ha
    rw [Entry.live.injEq] at ha
    subst ha
    exact hchain
  · refine h.distinct.update_live fun i hi _ b hb => ?_
    obtain ⟨s, a, hs, rfl⟩ := h.live hi hb
    have hne : s ≠ str := by
      rintro rfl
      rw [hnew] at hs
      cases hs
    simp [nodeOf, hne, Ne.symm hne]
  · simp only [Symtab.storeNode]
    rw [liveSet_update_live hslot, setOf_ne_of_not_live hfree, h.elements_eq, h.allocated_eq]
    ext node
    simp only [Set.mem_insert_iff, Set.mem_ofPred_eq, Names.intern, Function.update_apply]
    constructor
    · rintro (rfl | ⟨s, a, hs, rfl⟩)
      · exact ⟨str, names.next, by simp, rfl⟩
      · refine ⟨s, a, ?_, rfl⟩
        rw [if_neg, hs]
        rintro rfl
        rw [hnew] at hs
        cases hs
    · rintro ⟨s, a, hs, rfl⟩
      split at hs
      · simp only [Option.some.injEq] at hs
        subst hs
        left
        subst_vars
        rfl
      · exact .inr ⟨s, a, hs, rfl⟩
  · simp [Symtab.storeNode, Names.intern, h.allocated_eq]
  · intro s a hs
    simp only [Names.intern, Function.update_apply] at hs
    split at hs
    · subst_vars
      exact hstr
    · exact h.short s a hs

/-- The entries that were passed are in the new array. Source: `symtab.c` `ht_expand` (`do ... while (++p < limit)`). Kind: L -/
theorem Holds.rehash (h : Holds hash table k names) (hfuel : 2 ^ (k + 1) ≤ fuel) {n : ℕ} (hn : n ≤ 2 ^ k) :
    ∃ nentries, rehash fuel table.entries (BitVec.ofNat 32 (2 ^ (k + 1) - 1)) n = some nentries ∧
      Refilled (probe (k + 1)) HtIdentifier.hashValue (fun a b => a.str = b.str) table.entries n nentries (2 ^ (k + 1)) := by
  have hk := h.order_le
  induction n with
  | zero => exact ⟨_, rfl, refilled_zero⟩
  | succ n ih =>
    obtain ⟨nentries, hrehash, hrefilled⟩ := ih (by omega)
    simp only [Symtab.rehash, hrehash, Option.bind_eq_bind, Option.bind_some]
    cases hentry : table.entries n with
    | empty => exact ⟨_, rfl, hrefilled.skip (by rw [hentry]; rfl)⟩
    | deleted => exact ⟨_, rfl, hrefilled.skip (by rw [hentry]; rfl)⟩
    | live node =>
      have hused : count Entry.isUsed nentries (2 ^ (k + 1)) < 2 ^ (k + 1) := by
        have hlive : count Entry.isLive table.entries n ≤ n := Nat.count_le _
        have hdouble : 2 ^ (k + 1) = 2 * 2 ^ k := Nat.pow_succ'
        rw [hrefilled.count_eq]
        omega
      obtain ⟨index, hslot, hindex, hempty, hchain⟩ := emptySlot_spec (by omega) hfuel hused node.hashValue
      have hdistinct : Distinct (fun a b => a.str = b.str) table.entries (n + 1) :=
        fun i hi j hj => h.distinct i (by omega) j (by omega)
      simp only [hslot, Option.bind_some]
      exact ⟨_, rfl, hrefilled.store hdistinct hentry hindex hempty hchain⟩

/-- **The table of twice the size holds the same nodes.** Source: `symtab.c` `ht_expand`. Kind: P -/
theorem Holds.expand (h : Holds hash table k names) (hk : k < 30) (hfuel : 2 ^ (k + 1) ≤ fuel) :
    ∃ table', htExpand fuel table = some table' ∧ Holds hash table' (k + 1) names ∧ table'.nelements = table.nelements := by
  have hsize : (table.nslots * 2).toNat = 2 ^ (k + 1) := by
    have : 2 ^ (k + 1) < 2 ^ 32 := Nat.pow_lt_pow_right (by omega) (by omega)
    rw [BitVec.toNat_mul, h.nslots_eq, show (2 : BitVec 32).toNat = 2 from rfl, ← pow_succ, Nat.mod_eq_of_lt this]
  obtain ⟨nentries, hrehash, hrefilled⟩ := h.rehash hfuel le_rfl
  have hused : count Entry.isUsed nentries (2 ^ (k + 1)) ≤ table.nelements.toNat := by
    have hused := @count_isUsed _ table.entries (2 ^ k)
    have := h.used_le
    rw [hrefilled.count_eq]
    omega
  refine ⟨{ table with entries := nentries, nslots := table.nslots * 2 }, ?_, ?_, rfl⟩
  · rw [htExpand, sizemask_eq hsize, h.nslots_eq, hrehash]
    rfl
  · exact ⟨⟨hsize, by omega⟩, hused, hrefilled.chained, hrefilled.distinct, hrefilled.elements_eq.trans h.elements_eq,
      h.allocated_eq, h.short⟩

/-- **A new node**, and the table that is expanded for it. Source: `symtab.c` `ht_lookup_with_hash`. Kind: P -/
theorem Holds.insertNode (h : Holds hash table k names) (hload : Loaded table k) (hfuel : 2 ^ 30 ≤ fuel)
    (hstr : str.length < 2 ^ 32) (hnew : names.address str = none) (hfew : table.nelements.toNat + 1 < 3 * 2 ^ 28)
    {slot : BitVec 32} (hslot : slot.toNat < 2 ^ k) (hfree : (table.entries slot.toNat).isLive = false)
    (hchain : OnChain (probe k) table.entries (hash str) slot.toNat) :
    ∃ table' k', insertNode fuel table str (hash str) slot = some (some (nodeOf hash str names.next), table') ∧
      Holds hash table' k' (names.intern str) ∧ Loaded table' k' ∧
      table'.nelements.toNat = table.nelements.toNat + 1 := by
  have hk := h.order_le
  have hpow : 2 ^ k ≤ 2 ^ 30 := Nat.pow_le_pow_right (by omega) hk
  have hpos := Nat.two_pow_pos k
  rw [Loaded] at hload
  have hstored := h.storeNode hstr hnew (by omega) hslot hfree hchain
  have hnode : (Symtab.storeNode table str (hash str) slot).1 = nodeOf hash str names.next := by
    rw [← h.allocated_eq]
    rfl
  have hnelements : (Symtab.storeNode table str (hash str) slot).2.nelements.toNat = table.nelements.toNat + 1 := by
    rw [Symtab.storeNode, BitVec.toNat_add, show (1 : BitVec 32).toNat = 1 from rfl, Nat.mod_eq_of_lt (by omega)]
  rw [Symtab.insertNode]
  generalize Symtab.storeNode table str (hash str) slot = stored at hstored hnode hnelements ⊢
  obtain ⟨node, table'⟩ := stored
  dsimp only at hstored hnode hnelements ⊢
  have hfull : (table'.nslots * 3).toNat ≤ (table'.nelements * 4).toNat ↔ 3 * 2 ^ k ≤ (table.nelements.toNat + 1) * 4 := by
    rw [BitVec.toNat_mul, BitVec.toNat_mul, hnelements, hstored.nslots_eq, show (3 : BitVec 32).toNat = 3 from rfl,
      show (4 : BitVec 32).toNat = 4 from rfl, Nat.mod_eq_of_lt (by omega), Nat.mod_eq_of_lt (by omega), mul_comm]
  rw [hnode]
  split_ifs with hexpand
  · rw [hfull] at hexpand
    -- a table of `2 ^ 30` slots is not full yet
    have hsmall : k < 30 := by
      rcases Nat.lt_or_eq_of_le hk with hlt | rfl <;> omega
    have hdouble : 2 ^ (k + 1) = 2 * 2 ^ k := Nat.pow_succ'
    have hgrown : 2 ^ (k + 1) ≤ 2 ^ 30 := Nat.pow_le_pow_right (by omega) hsmall
    obtain ⟨table'', hex, hholds, hcount⟩ := hstored.expand hsmall (hgrown.trans hfuel)
    rw [hex]
    refine ⟨table'', k + 1, rfl, hholds, ?_, by rw [hcount, hnelements]⟩
    rw [Loaded, hcount, hnelements, hdouble]
    rcases Nat.lt_or_eq_of_le hpos with hlt | heq <;> omega
  · rw [hfull] at hexpand
    refine ⟨table', k, rfl, hstored, ?_, hnelements⟩
    rw [Loaded, hnelements]
    omega

/-- **A lookup returns what the interner does.** Source: `symtab.c` `ht_lookup_with_hash`. Kind: P -/
theorem Holds.lookup (h : Holds hash table k names) (hload : Loaded table k) (hfuel : 2 ^ 30 ≤ fuel)
    (hstr : str.length < 2 ^ 32) (insert : HtLookupOption)
    (hfew : table.nelements.toNat + (if insert = .HT_ALLOC then 1 else 0) < 3 * 2 ^ 28) :
    ∃ table' k', htLookupWithHash fuel table str (hash str) insert = some ((names.lookup hash str insert).1, table') ∧
      Holds hash table' k' (names.lookup hash str insert).2 ∧ Loaded table' k' ∧
      table'.nelements.toNat ≤ table.nelements.toNat + if insert = .HT_ALLOC then 1 else 0 := by
  have hpow : 2 ^ k ≤ 2 ^ 30 := Nat.pow_le_pow_right (by omega) h.order_le
  have hused : count Entry.isUsed table.entries (2 ^ k) < 2 ^ k := by
    have := h.used_le
    rw [Loaded] at hload
    omega
  obtain ⟨stop, c, j, hsearch, hends, hbefore⟩ := search_spec h.toSized (hpow.trans hfuel) hused str (hash str)
  have hcounted := h.counters (table.searches + 1) c
  simp only [htLookupWithHash, hsearch, Option.bind_eq_bind, Option.bind_some]
  cases stop with
  | found node =>
    obtain ⟨a, ha, rfl⟩ := h.found hstr hends
    simp only [Names.lookup, ha]
    exact ⟨_, k, rfl, hcounted, hload, Nat.le_add_right _ _⟩
  | free index deletedIndex =>
    have hnew := h.notFound hstr hends hbefore
    cases insert with
    | HT_NO_INSERT =>
      simp only [Names.lookup, hnew, if_true]
      exact ⟨_, k, rfl, hcounted, hload, Nat.le_add_right _ _⟩
    | HT_ALLOC =>
      obtain ⟨hslot, hfree, hchain⟩ := hends.slot h.toSized hbefore rfl
      obtain ⟨table', k', hinsert, hholds, hload', hcount⟩ := hcounted.insertNode hload hfuel hstr hnew hfew hslot hfree hchain
      simp only [Names.lookup, hnew, reduceCtorEq, if_false, if_true]
      exact ⟨table', k', hinsert, hholds, hload', hcount.le⟩

/-- **A purge** forgets the strings of the nodes that the callback picks. Source: `symtab.c` `ht_purge`. Kind: P -/
theorem Holds.purge (h : Holds hash table k names) (cb : HtIdentifier → Bool) :
    Holds hash (htPurge table cb) k (names.purge hash cb) := by
  have hentries : ∀ i < 2 ^ k, (htPurge table cb).entries i = purged cb (table.entries i) := by
    intro i hi
    rw [← h.nslots_eq] at hi
    exact if_pos hi
  have hthinned : Thinned table.entries (htPurge table cb).entries := by
    constructor
    · intro i
      simp only [htPurge]
      cases table.entries i <;> simp only [purged] <;> split_ifs <;> rfl
    · intro i a ha
      simp only [htPurge] at ha
      cases hentry : table.entries i <;> simp only [hentry, purged] at ha <;> split_ifs at ha <;> exact ha
  refine ⟨⟨h.nslots_eq, h.order_le⟩, hthinned.count_eq.trans_le h.used_le, hthinned.chained h.chained, h.distinct.thinned hthinned,
    ?_, h.allocated_eq, ?_⟩
  · ext node
    constructor
    · rintro ⟨i, hi, hnode⟩
      have hlive := hthinned.live_of i _ hnode
      obtain ⟨s, a, hs, rfl⟩ := h.live hi hlive
      rw [hentries i hi, hlive, purged] at hnode
      refine ⟨s, a, ?_, rfl⟩
      rw [Names.purge, Option.filter_eq_some_iff]
      refine ⟨hs, ?_⟩
      split_ifs at hnode with hcb
      simpa using hcb
    · rintro ⟨s, a, hs, rfl⟩
      obtain ⟨hs, hcb⟩ := Option.filter_eq_some_iff.mp hs
      have hmem : nodeOf hash s a ∈ liveSet table.entries (2 ^ k) := by
        rw [h.elements_eq]
        exact ⟨s, a, hs, rfl⟩
      obtain ⟨i, hi, hnode⟩ := hmem
      refine ⟨i, hi, ?_⟩
      rw [hentries i hi, hnode, purged, if_neg (by simpa using hcb)]
  · intro s a hs
    exact h.short s a (Option.filter_eq_some_iff.mp hs).1

end Invariant

/-! ## Whole runs -/

/-- A call of the table's interface. Source: `symtab.h`. -/
inductive Call
  | lookup (str : List UInt8) (insert : HtLookupOption)
  | purge (cb : HtIdentifier → Bool)

/-- A call that can add a node. Source: `symtab.h` `HT_ALLOC`. -/
def Call.allocates : Call → Bool
  | .lookup _ .HT_ALLOC => true
  | _ => false

/-- The strings are shorter than `4G`, as `len` can hold. Source: `symtab.h` (`unsigned int len`). -/
def Call.Short : Call → Prop
  | .lookup str _ => str.length < 2 ^ 32
  | .purge _ => True

/-- What the calls return, and the table after them. Source: `symtab.c`. -/
def runCode (fuel : ℕ) (hash : List UInt8 → BitVec 32) (table : HashTable) :
    List Call → Option (List (Option HtIdentifier) × HashTable)
  | [] => some ([], table)
  | .purge cb :: calls => runCode fuel hash (htPurge table cb) calls
  | .lookup str insert :: calls => do
    let (node, table) ← htLookupWithHash fuel table str (hash str) insert
    let (nodes, table) ← runCode fuel hash table calls
    some (node :: nodes, table)

/-- What the calls return of the interner. -/
def Names.run (hash : List UInt8 → BitVec 32) (names : Names) : List Call → List (Option HtIdentifier) × Names
  | [] => ([], names)
  | .purge cb :: calls => (names.purge hash cb).run hash calls
  | .lookup str insert :: calls =>
    let (node, names) := names.lookup hash str insert
    let (nodes, names) := names.run hash calls
    (node :: nodes, names)

section Runs

variable {hash : List UInt8 → BitVec 32} {table : HashTable} {k fuel : ℕ} {names : Names}

/-- **A run keeps the invariant** and returns what the interner does. Source: `symtab.c`. Kind: P -/
theorem Holds.run (hfuel : 2 ^ 30 ≤ fuel) (calls : List Call) (hshort : ∀ call ∈ calls, call.Short)
    (h : Holds hash table k names) (hload : Loaded table k)
    (hfew : table.nelements.toNat + calls.countP Call.allocates < 3 * 2 ^ 28) :
    ∃ table' k', runCode fuel hash table calls = some ((names.run hash calls).1, table') ∧
      Holds hash table' k' (names.run hash calls).2 := by
  induction calls generalizing table k names with
  | nil => exact ⟨table, k, rfl, h⟩
  | cons call calls ih =>
    rw [List.forall_mem_cons] at hshort
    rw [List.countP_cons] at hfew
    cases call with
    | purge cb => exact ih hshort.2 (h.purge cb) hload (by rwa [if_neg (by simp [Call.allocates]), Nat.add_zero] at hfew)
    | lookup str insert =>
      have hallocates : Call.allocates (.lookup str insert) = true ↔ insert = .HT_ALLOC := by
        cases insert <;> simp [Call.allocates]
      simp only [hallocates] at hfew
      obtain ⟨table₁, k₁, hlookup, hholds, hload₁, hcount⟩ := h.lookup hload hfuel hshort.1 insert (by omega)
      obtain ⟨table₂, k₂, hrun, hend⟩ := ih hshort.2 hholds hload₁ (by omega)
      refine ⟨table₂, k₂, ?_, hend⟩
      simp only [runCode, Names.run, hlookup, hrun, Option.bind_eq_bind, Option.bind_some]

/-- **`ht_forall` meets every node once.** Source: `symtab.c` `ht_forall`. Kind: P -/
theorem Holds.forall_nodes (h : Holds hash table k names) :
    (htForall table fun _ => true).Nodup ∧
      ∀ node, node ∈ htForall table (fun _ => true) ↔ ∃ s a, names.address s = some a ∧ node = nodeOf hash s a := by
  have hall : htForall table (fun _ => true) = (List.range (2 ^ k)).filterMap fun i => liveNode (table.entries i) := by
    have hstart (nodes : List HtIdentifier) : nodes.takeWhile (fun _ => true) ++ (nodes.dropWhile fun _ => true).take 1 = nodes := by
      induction nodes with
      | nil => rfl
      | cons node nodes ih => simpa using ih
    rw [htForall, hstart, h.nslots_eq]
  have hlive (i : ℕ) (node : HtIdentifier) : liveNode (table.entries i) = some node ↔ table.entries i = .live node := by
    cases table.entries i <;> simp [liveNode]
  rw [hall]
  constructor
  · rw [List.Nodup, List.pairwise_filterMap]
    refine List.nodup_range.imp_of_mem fun {i j} hi hj hne a ha b hb => ?_
    rw [List.mem_range] at hi hj
    rw [hlive] at ha hb
    rintro rfl
    exact hne (h.distinct i hi j hj a a ha hb rfl)
  · intro node
    have hmem : node ∈ liveSet table.entries (2 ^ k) ↔ ∃ s a, names.address s = some a ∧ node = nodeOf hash s a := by
      rw [h.elements_eq]
      rfl
    rw [← hmem, List.mem_filterMap]
    simp only [List.mem_range, hlive]
    rfl

/-- **The table interns.** Lookups and purges in any order, of strings hashed in any way, return what the interner does:
one node for a string as long as it is not purged, through every expansion of the table. `ht_forall` then meets the node of
every named string once.
Source: `symtab.c` `ht_lookup_with_hash`, `ht_expand`, `ht_purge`, `ht_forall`
Kind: P -/
theorem symtab_contract (hash : List UInt8 → BitVec 32) {order fuel : ℕ} (horder : order ≤ 30) (hfuel : 2 ^ 30 ≤ fuel)
    (calls : List Call) (hshort : ∀ call ∈ calls, call.Short) (hfew : calls.countP Call.allocates < 3 * 2 ^ 28) :
    ∃ table, runCode fuel hash (htCreate order) calls = some ((Names.init.run hash calls).1, table) ∧
      (htForall table fun _ => true).Nodup ∧
      ∀ node, node ∈ htForall table (fun _ => true) ↔
        ∃ s a, (Names.init.run hash calls).2.address s = some a ∧ node = nodeOf hash s a := by
  have hcount : (htCreate order).nelements.toNat = 0 := rfl
  have hload : Loaded (htCreate order) order := by
    have := Nat.two_pow_pos order
    rw [Loaded, hcount]
    omega
  obtain ⟨table, k, hrun, hholds⟩ := (holds_htCreate horder).run hfuel calls hshort hload (by rwa [hcount, Nat.zero_add])
  exact ⟨table, hrun, hholds.forall_nodes⟩

/-- A string is named, found, purged and named again. Source: `symtab.c`. Kind: C -/
theorem symtab_contract_renamed :
    ∃ table, runCode (2 ^ 30) calcHash (htCreate 14)
        [.lookup [97] .HT_ALLOC, .lookup [97] .HT_NO_INSERT, .purge fun _ => true, .lookup [97] .HT_NO_INSERT,
          .lookup [97] .HT_ALLOC] =
      some ([some (nodeOf calcHash [97] 0), some (nodeOf calcHash [97] 0), none, some (nodeOf calcHash [97] 1)], table) := by
  obtain ⟨table, hrun, -⟩ := symtab_contract calcHash (by omega : 14 ≤ 30) (le_refl (2 ^ 30))
    [.lookup [97] .HT_ALLOC, .lookup [97] .HT_NO_INSERT, .purge fun _ => true, .lookup [97] .HT_NO_INSERT,
      .lookup [97] .HT_ALLOC] (by simp [Call.Short]) (by simp [Call.allocates, List.countP_cons])
  exact ⟨table, hrun⟩

end Runs

end GccCore.Cpp.Symtab
