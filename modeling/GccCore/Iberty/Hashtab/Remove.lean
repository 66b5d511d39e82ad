import GccCore.Iberty.Hashtab.Contract

/-!
# `libiberty/hashtab.c`: removing an element

`htab_remove_elt_with_hash` searches for a slot without insertion and reads the slot it gets.

* **The search** (`slotSearch_of_way`, `slotSearch_found`): it stops at the slot of an equal live
  element if one lies on the way, and it stops at nothing else that it returns.
* **The defect** (`htabRemoveElt_iff`): with no equal element the search returns `NULL`, which is read
  through. The function does what its comment says if and only if the table holds an equal element.
-/

namespace GccCore.Iberty.Hashtab

open GccCore.Lib.OpenAddressing

section Model

variable {α : Type} (hashF : α → Hashval) (eqF : α → α → Bool)

/-- How a removal comes back, if it does: having read through a `NULL` slot, or with what was handed
to `del_f`.
Source: `hashtab.c` `htab_remove_elt_with_hash` -/
inductive Removal (α : Type)
  | nullDereference
  | returned (freed : Option (Entry α)) (htab : Htab α)

/-- Source: `hashtab.c` `htab_remove_elt_with_hash`. -/
def htabRemoveEltWithHash (fuel : ℕ) (htab : Htab α) (element : α) (hash : Hashval) :
    Except Failure (Removal α) := do
  -- without insertion the table is not expanded, so that no storage is asked for
  let (slot, htab) ← htabFindSlotWithHash hashF eqF fuel false htab element hash .NO_INSERT
  match slot with
  | none => .ok .nullDereference
  | some slot =>
    match htab.entries slot with
    | .empty => .ok (.returned none htab)
    | entry =>
      .ok (.returned (some entry) { htab with
        entries := Function.update htab.entries slot .deleted
        nDeleted := htab.nDeleted + 1 })

end Model

/-! ## The search without insertion -/

section Search

variable {α : Type} {hashF : α → Hashval} {eqF : α → α → Bool} {htab : Htab α} {element : α}
  {hash : Hashval}

/-- The index after `k` steps of a probe loop, as the loop computes it.
Source: `hashtab.c` (the probe loops) -/
def wayIndex (htab : Htab α) (hash : Hashval) (k : ℕ) : Hashval :=
  (advance (htabModM2 hash htab.sizePrimeIndex) htab.size)^[k] (htabMod hash htab.sizePrimeIndex)

/-- What a search relies on, in a table of any size: the live elements are met on their ways before
any empty slot, and no two of them are equal.
Source: `hashtab.c` -/
structure Searchable (hashF : α → Hashval) (eqF : α → α → Bool) (htab : Htab α) : Prop where
  size_eq : htab.size = primeSize htab.sizePrimeIndex
  chained : Chained (fun hash k => (wayIndex htab hash k).toNat) hashF htab.entries htab.size
  distinct : Distinct (fun a b => eqF a b = true) htab.entries htab.size

/-- **The tables of all runs can be searched.** Source: `hashtab.c`. Kind: L -/
theorem Wf.searchable (hw : Wf hashF eqF htab) : Searchable hashF eqF htab := by
  refine ⟨hw.size_eq, ?_, hw.distinct⟩
  have hway : (fun hash k => (wayIndex htab hash k).toNat) = probe htab.sizePrimeIndex := by
    funext hash k
    exact iterate_advance_toNat hw.toSized hash k
  rw [hway]
  exact hw.chained

/-- No index leaves the table, not even where the sum of two indices wraps around.
Source: `hashtab.c` (`index += hash2; if (index >= size) index -= size;`)
Kind: L -/
theorem Searchable.wayIndex_lt (hs : Searchable hashF eqF htab) (hash : Hashval) (k : ℕ) :
    (wayIndex htab hash k).toNat < htab.size := by
  have hge : 7 ≤ primeSize htab.sizePrimeIndex := (prime_bounds htab.sizePrimeIndex).1
  have hlt : htab.size < 2 ^ 32 := by
    rw [hs.size_eq]
    exact BitVec.isLt _
  induction k with
  | zero =>
    rw [wayIndex, Function.iterate_zero_apply, htabMod_toNat, hs.size_eq]
    exact Nat.mod_lt _ (Nat.zero_lt_of_lt hge)
  | succ k ih =>
    rw [wayIndex, Function.iterate_succ_apply', ← wayIndex]
    have hstep : (htabModM2 hash htab.sizePrimeIndex).toNat < htab.size := by
      rw [htabModM2_toNat, hs.size_eq]
      have hmod := Nat.mod_lt hash.toNat (y := primeSize htab.sizePrimeIndex - 2) (by omega)
      simp only [primeSize] at hge hmod ⊢
      omega
    simp only [advance]
    split_ifs with hwrap
    · have hofNat : (BitVec.ofNat 32 htab.size).toNat = htab.size := Nat.mod_eq_of_lt hlt
      rw [BitVec.toNat_sub_of_le (BitVec.le_def.mpr (by rwa [hofNat])), hofNat]
      have hsum : (wayIndex htab hash k + htabModM2 hash htab.sizePrimeIndex).toNat ≤
          (wayIndex htab hash k).toNat + (htabModM2 hash htab.sizePrimeIndex).toNat := by
        rw [BitVec.toNat_add]
        exact Nat.mod_le _ _
      omega
    · omega

/-- The search stops at the first slot of the way at which it can, if that slot is live.
Source: `hashtab.c` `htab_find_slot_with_hash`
Kind: L -/
theorem slotSearch_of_way {fuel k : ℕ} (hfuel : k ≤ fuel) {a : α}
    (hlive : htab.entries (wayIndex htab hash k).toNat = .live a) (heq : eqF a element = true)
    (hbefore : ∀ j < k, returnsAt eqF element (htab.entries (wayIndex htab hash j).toNat) = false) :
    ∃ c, slotSearch eqF fuel htab element hash = .ok (.found (wayIndex htab hash k), c) := by
  rcases k with _ | k
  · rw [wayIndex, Function.iterate_zero_apply] at hlive ⊢
    simp only [slotSearch, hlive, heq, if_true]
    exact ⟨_, rfl⟩
  · have hloop : ∀ first, ∃ c, slotLoop eqF htab element (htabModM2 hash htab.sizePrimeIndex) fuel
        (htabMod hash htab.sizePrimeIndex) first htab.collisions =
          .ok (.found (wayIndex htab hash (k + 1)), c) := by
      intro first
      have hstop : returnsAt eqF element (htab.entries (wayIndex htab hash (k + 1)).toNat) = true := by
        rw [hlive]
        exact heq
      obtain ⟨stop, c, hrun, hcases⟩ := slotLoop_eq htab first htab.collisions
        (show k < fuel by omega) hstop fun j hj => hbefore (j + 1) (by omega)
      rcases hcases with ⟨rfl, -⟩ | ⟨fd, -, hempty, -⟩
      · exact ⟨c, hrun⟩
      · have hlive' : htab.entries (wayIndex htab hash (k + 1)).toNat = .empty := hempty
        rw [hlive] at hlive'
        cases hlive'
    have hfirst := hbefore 0 (by omega)
    rw [wayIndex, Function.iterate_zero_apply] at hfirst
    simp only [slotSearch]
    cases hentry : htab.entries (htabMod hash htab.sizePrimeIndex).toNat with
    | empty => simp [hentry, returnsAt] at hfirst
    | deleted => exact hloop _
    | live b =>
      simp only [hentry, returnsAt] at hfirst
      simp only [hfirst, Bool.false_eq_true, if_false]
      exact hloop _

/-- **What the loop returns as found** is an equal live element.
Source: `hashtab.c` `htab_find_slot_with_hash`
Kind: L -/
theorem slotLoop_found {fuel : ℕ} {hash2 index i : Hashval} {first : Option Hashval}
    {collisions c : BitVec 32}
    (hrun : slotLoop eqF htab element hash2 fuel index first collisions = .ok (.found i, c)) :
    ∃ k a, i = (advance hash2 htab.size)^[k] index ∧ htab.entries i.toNat = .live a ∧
      eqF a element = true := by
  induction fuel generalizing index first collisions with
  | zero => cases hrun
  | succ fuel ih =>
    have hnext : ∀ {f c'}, slotLoop eqF htab element hash2 fuel (advance hash2 htab.size index) f c' =
        .ok (.found i, c) → ∃ k a, i = (advance hash2 htab.size)^[k] index ∧
          htab.entries i.toNat = .live a ∧ eqF a element = true := by
      intro f c' h
      obtain ⟨k, a, hi, ha⟩ := ih h
      exact ⟨k + 1, a, hi, ha⟩
    simp only [slotLoop] at hrun
    cases hentry : htab.entries (advance hash2 htab.size index).toNat with
    | empty => simp [hentry] at hrun
    | deleted =>
      simp only [hentry] at hrun
      exact hnext hrun
    | live a =>
      simp only [hentry] at hrun
      by_cases heq : eqF a element = true
      · simp only [heq, if_true, Except.ok.injEq, Prod.mk.injEq, SlotStop.found.injEq] at hrun
        obtain ⟨rfl, -⟩ := hrun
        exact ⟨1, a, rfl, hentry, heq⟩
      · rw [if_neg heq] at hrun
        exact hnext hrun

/-- **What the search returns as found** is an equal live element.
Source: `hashtab.c` `htab_find_slot_with_hash`
Kind: L -/
theorem slotSearch_found {fuel : ℕ} {i : Hashval} {c : BitVec 32}
    (hrun : slotSearch eqF fuel htab element hash = .ok (.found i, c)) :
    ∃ k a, i = wayIndex htab hash k ∧ htab.entries i.toNat = .live a ∧ eqF a element = true := by
  simp only [slotSearch] at hrun
  cases hentry : htab.entries (htabMod hash htab.sizePrimeIndex).toNat with
  | empty => simp [hentry] at hrun
  | deleted =>
    simp only [hentry] at hrun
    exact slotLoop_found hrun
  | live a =>
    simp only [hentry] at hrun
    by_cases heq : eqF a element = true
    · simp only [heq, if_true, Except.ok.injEq, Prod.mk.injEq, SlotStop.found.injEq] at hrun
      obtain ⟨rfl, -⟩ := hrun
      exact ⟨0, a, rfl, hentry, heq⟩
    · rw [if_neg heq] at hrun
      exact slotLoop_found hrun

/-- The search does not read the statistics. Source: `hashtab.c` `htab_find_slot_with_hash`.
Kind: L -/
theorem slotSearch_searches (fuel : ℕ) (searches : BitVec 32) :
    slotSearch eqF fuel { htab with searches := searches } element hash =
      slotSearch eqF fuel htab element hash := by
  have hloop : ∀ fuel hash2 index first c,
      slotLoop eqF { htab with searches := searches } element hash2 fuel index first c =
        slotLoop eqF htab element hash2 fuel index first c := by
    intro fuel
    induction fuel with
    | zero => intros; rfl
    | succ fuel ih =>
      intro hash2 index first c
      simp only [slotLoop, ih]
  simp only [slotSearch, hloop]

/-- **Every equal element is found**, whatever the fuel from some point on.
Source: `hashtab.c` `htab_find_slot_with_hash`
Kind: L -/
theorem Searchable.exists_found (hs : Searchable hashF eqF htab) (he : IsEquality hashF eqF)
    {i : ℕ} {a : α} (hi : i < htab.size) (ha : htab.entries i = .live a)
    (heq : eqF a element = true) :
    ∃ k, ∀ fuel ≥ k, ∃ j c, slotSearch eqF fuel htab element (hashF element) = .ok (.found j, c) ∧
      j.toNat = i := by
  classical
  obtain ⟨k, hk, hnonempty⟩ := hs.chained i hi a ha
  rw [he.hash_eq a element heq] at hk hnonempty
  dsimp only at hk hnonempty
  have hex : ∃ k, returnsAt eqF element
      (htab.entries (wayIndex htab (hashF element) k).toNat) = true :=
    ⟨k, by rw [hk, ha]; exact heq⟩
  have hle : Nat.find hex ≤ k := Nat.find_min' hex (by rw [hk, ha]; exact heq)
  have hstop := Nat.find_spec hex
  have hbefore : ∀ j < Nat.find hex, returnsAt eqF element
      (htab.entries (wayIndex htab (hashF element) j).toNat) = false :=
    fun j hj => Bool.eq_false_iff.mpr (Nat.find_min hex hj)
  -- the first stop is live: before the slot i no slot of the way is empty
  have hne : htab.entries (wayIndex htab (hashF element) (Nat.find hex)).toNat ≠ .empty := by
    rcases Nat.lt_or_eq_of_le hle with hlt | heq'
    · exact hnonempty _ hlt
    · rw [heq', hk, ha]
      exact fun h => by cases h
  cases hentry : htab.entries (wayIndex htab (hashF element) (Nat.find hex)).toNat with
  | empty => exact absurd hentry hne
  | deleted =>
    rw [hentry] at hstop
    cases hstop
  | live b =>
    rw [hentry] at hstop
    refine ⟨Nat.find hex, fun fuel hfuel => ?_⟩
    obtain ⟨c, hrun⟩ := slotSearch_of_way hfuel hentry hstop hbefore
    refine ⟨_, c, hrun, ?_⟩
    exact hs.distinct _ (hs.wayIndex_lt _ _) i hi b a hentry ha
      (he.trans b element a hstop (he.symm a element heq))

end Search

/-! ## Removing -/

section Removing

variable {α : Type} {hashF : α → Hashval} {eqF : α → α → Bool} {htab : Htab α} {element : α}

/-- What the function is to do: an equal live element is handed to `del_f` and its slot is marked as
deleted; without one nothing changes but the statistics.
Source: `hashtab.c` `htab_remove_elt_with_hash` ("If there is no matching element in the hash table,
this function does nothing") -/
structure Removes (eqF : α → α → Bool) (htab : Htab α) (element : α) (freed : Option (Entry α))
    (htab' : Htab α) : Prop where
  present : ∀ i < htab.size, ∀ a, htab.entries i = .live a → eqF a element = true →
    freed = some (.live a) ∧ ∃ s c, htab' = { htab with
      entries := Function.update htab.entries i .deleted
      nDeleted := htab.nDeleted + 1
      searches := s
      collisions := c }
  absent : (∀ a ∈ elements htab, eqF a element = false) → freed = none ∧ SameSlots htab htab'

/-- The removal when the search has found a live element.
Source: `hashtab.c` `htab_remove_elt_with_hash`
Kind: L -/
theorem htabRemoveEltWithHash_of_found {fuel : ℕ} {hash i : Hashval} {c : BitVec 32} {a : α}
    (hrun : slotSearch eqF fuel htab element hash = .ok (.found i, c))
    (ha : htab.entries i.toNat = .live a) :
    htabRemoveEltWithHash hashF eqF fuel htab element hash =
      .ok (.returned (some (.live a)) { htab with
        entries := Function.update htab.entries i.toNat .deleted
        nDeleted := htab.nDeleted + 1
        searches := htab.searches + 1
        collisions := c }) := by
  simp only [htabRemoveEltWithHash, htabFindSlotWithHash, expandForInsert]
  simp only [reduceCtorEq, false_and, if_false, bind, Except.bind, if_true, slotSearch_searches, hrun,
    ha]

/-- Where the removal returns, the search has found an equal live element.
Source: `hashtab.c` `htab_remove_elt_with_hash`
Kind: L -/
theorem found_of_htabRemoveEltWithHash {fuel : ℕ} {hash : Hashval} {freed : Option (Entry α)}
    {htab' : Htab α}
    (hrun : htabRemoveEltWithHash hashF eqF fuel htab element hash =
      .ok (.returned freed htab')) :
    ∃ i c, slotSearch eqF fuel htab element hash = .ok (.found i, c) := by
  simp only [htabRemoveEltWithHash, htabFindSlotWithHash, expandForInsert] at hrun
  simp only [reduceCtorEq, false_and, if_false, bind, Except.bind, if_true,
    slotSearch_searches] at hrun
  cases hstop : slotSearch eqF fuel htab element hash with
  | error e => simp [hstop] at hrun
  | ok stop =>
    obtain ⟨stop, c⟩ := stop
    cases stop with
    | found i => exact ⟨i, c, rfl⟩
    | emptyEntry i first => simp [hstop] at hrun

/-- **The removal does what it says if and only if there is something to remove**, in every table
that can be searched and for every element.
Source: `hashtab.c` `htab_remove_elt_with_hash`, `htab_find_slot_with_hash`
Kind: P -/
theorem htabRemoveElt_iff (hs : Searchable hashF eqF htab) (he : IsEquality hashF eqF)
    (element : α) :
    (∃ n, ∀ fuel ≥ n, ∃ freed htab',
        htabRemoveEltWithHash hashF eqF fuel htab element (hashF element) =
          .ok (.returned freed htab') ∧ Removes eqF htab element freed htab') ↔
      ∃ a ∈ elements htab, eqF a element = true := by
  constructor
  · rintro ⟨n, hrun⟩
    obtain ⟨freed, htab', hrun, -⟩ := hrun n le_rfl
    obtain ⟨i, c, hsearch⟩ := found_of_htabRemoveEltWithHash hrun
    obtain ⟨k, a, rfl, ha, heq⟩ := slotSearch_found hsearch
    exact ⟨a, ⟨_, hs.wayIndex_lt _ _, ha⟩, heq⟩
  · rintro ⟨a, ⟨i, hi, ha⟩, heq⟩
    obtain ⟨k, hfound⟩ := hs.exists_found he hi ha heq
    refine ⟨k, fun fuel hfuel => ?_⟩
    obtain ⟨j, c, hsearch, rfl⟩ := hfound fuel hfuel
    refine ⟨_, _, htabRemoveEltWithHash_of_found hsearch ha, fun i hi' b hb heqb => ?_, fun h => ?_⟩
    · -- no other slot holds an equal element
      obtain rfl : i = j.toNat := hs.distinct i hi' _ hi b a hb ha
        (he.trans b element a heqb (he.symm a element heq))
      rw [ha] at hb
      exact ⟨congrArg some (hb ▸ rfl), _, _, rfl⟩
    · have := h a ⟨_, hi, ha⟩
      rw [heq] at this
      cases this

/-- The table of size 7 that holds the number 10, from which 10 is removed. -/
theorem htabRemoveElt_iff_ten :
    ∃ htab : Htab ℕ, htab.entries 3 = .live 10 ∧
      Searchable (fun n => BitVec.ofNat 32 n) (fun a b => a == b) htab ∧
      ((∃ n, ∀ fuel ≥ n, ∃ freed htab',
        htabRemoveEltWithHash (fun n => BitVec.ofNat 32 n) (fun a b => a == b) fuel htab 10
            (BitVec.ofNat 32 10) = .ok (.returned freed htab') ∧
          Removes (fun a b => a == b) htab 10 freed htab') ↔
        ∃ a ∈ elements htab, (a == 10) = true) := by
  have he : IsEquality (fun n : ℕ => BitVec.ofNat 32 n) (fun a b => a == b) := by
    refine ⟨?_, ?_, ?_, ?_⟩ <;> intros <;> simp_all
  have h0 : htabCreate (α := ℕ) 5 = .ok ⟨fun _ => .empty, 7, 0, 0, 0, 0, 0⟩ := rfl
  have hlimit : WithinLimit (⟨fun _ => .empty, 7, 0, 0, 0, 0, 0⟩ : Htab ℕ)
      (.insert 10 true true : Op ℕ Unit) := fun hfull => absurd hfull (by simp)
  have h1 : htabStep (σ := Unit) (fun n => BitVec.ofNat 32 n) (fun a b => a == b) 2147483647 8
      ⟨fun _ => .empty, 7, 0, 0, 0, 0, 0⟩ (.insert (10 : ℕ) true true) =
      .ok (.slot (some 3),
        ⟨Function.update (fun _ => .empty) 3 (.live 10), 7, 1, 0, 1, 0, 0⟩) := rfl
  have hs := (((Reaches.create (by omega) h0).step hlimit h1).wf he le_rfl).1.searchable
  exact ⟨_, rfl, hs, htabRemoveElt_iff hs he 10⟩

/-- **A new table**, from which 10 is removed: the slot that is read is `NULL`, with any fuel.
Source: `hashtab.c` `htab_remove_elt_with_hash`
Kind: C -/
theorem htabRemoveElt_null :
    ∃ htab : Htab ℕ, htabCreate 5 = .ok htab ∧
      (∀ fuel, htabRemoveEltWithHash (fun n => BitVec.ofNat 32 n) (fun a b => a == b) fuel htab 10
        (BitVec.ofNat 32 10) = .ok .nullDereference) ∧
      ¬ ∃ n, ∀ fuel ≥ n, ∃ freed htab',
        htabRemoveEltWithHash (fun n => BitVec.ofNat 32 n) (fun a b => a == b) fuel htab 10
            (BitVec.ofNat 32 10) = .ok (.returned freed htab') ∧
          Removes (fun a b => a == b) htab 10 freed htab' := by
  have hnull : ∀ fuel, htabRemoveEltWithHash (fun n => BitVec.ofNat 32 n) (fun a b => a == b) fuel
      (⟨fun _ => .empty, 7, 0, 0, 0, 0, 0⟩ : Htab ℕ) 10 (BitVec.ofNat 32 10) =
        .ok .nullDereference := fun _ => rfl
  refine ⟨⟨fun _ => .empty, 7, 0, 0, 0, 0, 0⟩, rfl, hnull, ?_⟩
  rintro ⟨n, hrun⟩
  obtain ⟨freed, htab', hret, -⟩ := hrun n le_rfl
  rw [hnull n] at hret
  cases hret

end Removing

end GccCore.Iberty.Hashtab
