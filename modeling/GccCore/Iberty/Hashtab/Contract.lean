import GccCore.Iberty.Hashtab.Table

/-!
# `libiberty/hashtab.c`: the table as a set

* **The invariant** (`Wf`): the counts count, a slot is empty, no chain is broken and no two live
  entries are equal. Every operation keeps it (`htabExpand_spec`,
  `insertElement_spec`, `htabClearSlot_spec`, `htabEmpty_spec`, `htabTraverse_spec`).
* **Whole runs** (`htab_contract`): every state of a run stands for the set that the run computes, as
  long as the table is never given the last size of `prime_tab`.
* **The last size** (`htab_diverges_at_last_size`): there the sum of two indices leaves 32 bits, and
  an insertion can probe the same slots for ever.
-/

namespace GccCore.Iberty.Hashtab

open GccCore.Lib.OpenAddressing

/-- `eq_f` is an equality under which equal elements hash equally.
Source: `hashtab.h` (`htab_hash`, `htab_eq`) -/
structure IsEquality {α : Type} (hashF : α → Hashval) (eqF : α → α → Bool) : Prop where
  refl : ∀ a, eqF a a = true
  symm : ∀ a b, eqF a b = true → eqF b a = true
  trans : ∀ a b c, eqF a b = true → eqF b c = true → eqF a c = true
  hash_eq : ∀ a b, eqF a b = true → hashF a = hashF b

/-- **The invariant of the table.** Source: `hashtab.c`. -/
structure Wf {α : Type} (hashF : α → Hashval) (eqF : α → α → Bool) (htab : Htab α) : Prop
    extends Sized htab where
  elements_eq : htab.nElements = count Entry.isUsed htab.entries htab.size
  deleted_eq : htab.nDeleted = count Entry.isDeleted htab.entries htab.size
  elements_lt : htab.nElements < htab.size
  chained : Chained (probe htab.sizePrimeIndex) hashF htab.entries htab.size
  distinct : Distinct (fun a b => eqF a b = true) htab.entries htab.size

/-- The set that a table stands for. -/
def elements {α : Type} (htab : Htab α) : Set α := liveSet htab.entries htab.size

/-- Two tables that differ in the statistics only. Source: `hashtab.c` (`searches`, `collisions`). -/
def SameSlots {α : Type} (htab htab' : Htab α) : Prop :=
  ∃ s c, htab' = { htab with searches := s, collisions := c }

section Searching

variable {α : Type} {hashF : α → Hashval} {eqF : α → α → Bool} {htab htab' : Htab α}

theorem Wf.of_sameSlots (hw : Wf hashF eqF htab) (hsame : SameSlots htab htab') :
    Wf hashF eqF htab' := by
  obtain ⟨s, c, rfl⟩ := hsame
  exact ⟨⟨hw.size_eq, hw.size_le⟩, hw.elements_eq, hw.deleted_eq, hw.elements_lt, hw.chained,
    hw.distinct⟩

theorem SameSlots.elements_eq (hsame : SameSlots htab htab') : elements htab' = elements htab := by
  obtain ⟨s, c, rfl⟩ := hsame
  rfl

/-- In a table with an empty slot every search has a first slot at which it returns.
Source: `hashtab.c` (the probe loops)
Kind: L -/
theorem Sized.exists_stop (hs : Sized htab)
    (hused : count Entry.isUsed htab.entries htab.size < htab.size) (hash : Hashval)
    (stop : Entry α → Bool) (hstop : stop .empty = true) :
    ∃ k < htab.size, stop (htab.entries (probe htab.sizePrimeIndex hash k)) = true ∧
      ∀ j < k, stop (htab.entries (probe htab.sizePrimeIndex hash j)) = false := by
  have hcover : ∀ i < htab.size, ∃ k < htab.size, probe htab.sizePrimeIndex hash k = i := by
    rw [hs.size_eq]
    exact probe_covers htab.sizePrimeIndex hash
  obtain ⟨k, hk, hat, hbefore⟩ := exists_firstStop (P := fun e => stop e = true) hstop hcover
    (exists_empty hused)
  exact ⟨k, hk, hat, fun j hj => Bool.eq_false_iff.mpr (hbefore j hj)⟩

/-- What a search for `element` along its own way has found at its first stop.
Source: `hashtab.c` (the probe loops)
Kind: L -/
theorem Wf.stop_cases (hw : Wf hashF eqF htab) (he : IsEquality hashF eqF) (element : α) {k : ℕ}
    (hstop : returnsAt eqF element
      (htab.entries (probe htab.sizePrimeIndex (hashF element) k)) = true)
    (hbefore : ∀ j < k, returnsAt eqF element
      (htab.entries (probe htab.sizePrimeIndex (hashF element) j)) = false) :
    (∃ a, htab.entries (probe htab.sizePrimeIndex (hashF element) k) = .live a ∧
        eqF a element = true) ∨
      (htab.entries (probe htab.sizePrimeIndex (hashF element) k) = .empty ∧
        ∀ a ∈ elements htab, eqF a element = false) := by
  cases hentry : htab.entries (probe htab.sizePrimeIndex (hashF element) k) with
  | live a => exact .inl ⟨a, rfl, by simpa [hentry, returnsAt] using hstop⟩
  | deleted => simp [hentry, returnsAt] at hstop
  | empty =>
    refine .inr ⟨rfl, ?_⟩
    rintro a ⟨i, hi, ha⟩
    by_contra heq
    rw [Bool.not_eq_false] at heq
    exact search_complete (P := fun e => returnsAt eqF element e = true) hw.chained hi ha
      (he.hash_eq a element heq) heq (fun j hj => by rw [hbefore j hj]; simp) hentry

/-- **Finding**: the search ends, on an equal live element if there is one.
Source: `hashtab.c` `htab_find`
Kind: P -/
theorem htabFind_spec (hw : Wf hashF eqF htab) (he : IsEquality hashF eqF) {fuel : ℕ}
    (hfuel : htab.size ≤ fuel) (element : α) :
    ∃ entry htab', htabFind hashF eqF fuel htab element = .ok (entry, htab') ∧
      SameSlots htab htab' ∧
      ((∃ a ∈ elements htab, entry = .live a ∧ eqF a element = true) ∨
        (entry = .empty ∧ ∀ a ∈ elements htab, eqF a element = false)) := by
  obtain ⟨k, hk, hstop, hbefore⟩ := hw.exists_stop (hw.elements_eq ▸ hw.elements_lt) (hashF element)
    (returnsAt eqF element) rfl
  have hprobe : probe htab.sizePrimeIndex (hashF element) k < htab.size := by
    rw [hw.size_eq]
    exact probe_lt ..
  have hcases : ((∃ a ∈ elements htab,
        htab.entries (probe htab.sizePrimeIndex (hashF element) k) = .live a ∧
        eqF a element = true) ∨
      (htab.entries (probe htab.sizePrimeIndex (hashF element) k) = .empty ∧
        ∀ a ∈ elements htab, eqF a element = false)) := by
    rcases hw.stop_cases he element hstop hbefore with ⟨a, ha, heq⟩ | hnone
    · exact .inl ⟨a, ⟨_, hprobe, ha⟩, ha, heq⟩
    · exact .inr hnone
  have hindex := iterate_advance_toNat hw.toSized (hashF element)
  simp only [htabFind, htabFindWithHash]
  rcases k with _ | k
  · have h0 := hindex 0
    rw [Function.iterate_zero_apply] at h0
    rw [h0, if_pos hstop]
    exact ⟨_, _, rfl, ⟨_, _, rfl⟩, hcases⟩
  · have h0 := hbefore 0 (by omega)
    rw [← hindex 0, Function.iterate_zero_apply] at h0
    rw [if_neg (by rw [h0]; simp)]
    rw [← hindex (k + 1)] at hstop hcases
    obtain ⟨c, hloop⟩ := findLoop_eq { htab with searches := htab.searches + 1 }
      htab.collisions (show k < fuel by omega) hstop (fun j hj => by
        have := hbefore (j + 1) (by omega)
        rwa [← hindex] at this)
    simp only [hloop, bind, Except.bind]
    exact ⟨_, _, rfl, ⟨_, _, rfl⟩, hcases⟩

/-- The slot can take an element of this hash: it is on its way. -/
def Fits (htab : Htab α) (hash : Hashval) (e : Entry α) (s : Hashval) : Prop :=
  s.toNat < htab.size ∧ htab.entries s.toNat = e ∧
    OnChain (probe htab.sizePrimeIndex) htab.entries hash s.toNat

/-- What the search for a slot is to bring: the slot of an equal element or, if none is live, the
first empty slot of the way with a deleted slot that lies before it.
Source: `hashtab.c` `htab_find_slot_with_hash` -/
def SlotStop.Right (hashF : α → Hashval) (eqF : α → α → Bool) (htab : Htab α) (element : α) :
    SlotStop → Prop
  | .found index => index.toNat < htab.size ∧
      ∃ a, htab.entries index.toNat = .live a ∧ eqF a element = true
  | .emptyEntry index firstDeletedSlot => (∀ a ∈ elements htab, eqF a element = false) ∧
      Fits htab (hashF element) .empty index ∧
      ∀ s, firstDeletedSlot = some s → Fits htab (hashF element) .deleted s

/-- **Finding a slot.** Source: `hashtab.c` `htab_find_slot_with_hash`. Kind: L -/
theorem slotSearch_spec (hw : Wf hashF eqF htab) (he : IsEquality hashF eqF) {fuel : ℕ}
    (hfuel : htab.size ≤ fuel) (element : α) :
    ∃ stop c, slotSearch eqF fuel htab element (hashF element) = .ok (stop, c) ∧
      stop.Right hashF eqF htab element := by
  obtain ⟨k, hk, hstop, hbefore⟩ := hw.exists_stop (hw.elements_eq ▸ hw.elements_lt) (hashF element)
    (returnsAt eqF element) rfl
  have hlt : ∀ j, probe htab.sizePrimeIndex (hashF element) j < htab.size := by
    intro j
    rw [hw.size_eq]
    exact probe_lt ..
  -- no slot before the stop is empty, so each of them and the stop itself are on the way
  have hchain : ∀ j ≤ k, OnChain (probe htab.sizePrimeIndex) htab.entries (hashF element)
      (probe htab.sizePrimeIndex (hashF element) j) := by
    intro j hj
    refine ⟨j, rfl, fun i hi hempty => ?_⟩
    have := hbefore i (by omega)
    simp [hempty, returnsAt] at this
  have hcases := hw.stop_cases he element hstop hbefore
  have hindex := iterate_advance_toNat hw.toSized (hashF element)
  have h0 := hindex 0
  rw [Function.iterate_zero_apply] at h0
  rcases k with _ | k
  · simp only [slotSearch, h0]
    rcases hcases with ⟨a, ha, heq⟩ | ⟨hempty, hnone⟩
    · simp only [ha, heq, if_true]
      exact ⟨_, _, rfl, h0 ▸ hlt 0, a, h0 ▸ ha, heq⟩
    · simp only [hempty]
      refine ⟨_, _, rfl, hnone, ⟨h0 ▸ hlt 0, h0 ▸ hempty, h0 ▸ hchain 0 le_rfl⟩, fun s hs => ?_⟩
      cases hs
  · -- the loop, entered with or without a deleted first slot
    have hloop : ∀ first : Option Hashval,
        (∀ s, first = some s → Fits htab (hashF element) .deleted s) →
        ∃ stop c, slotLoop eqF htab element (htabModM2 (hashF element) htab.sizePrimeIndex) fuel
            (htabMod (hashF element) htab.sizePrimeIndex) first htab.collisions = .ok (stop, c) ∧
          stop.Right hashF eqF htab element := by
      intro first hfirst
      obtain ⟨stop, c, heq, hstopcases⟩ := slotLoop_eq htab first htab.collisions
        (show k < fuel by omega) (by rw [hindex]; exact hstop) (fun j hj => by
          rw [hindex]
          exact hbefore (j + 1) (by omega))
      refine ⟨stop, c, heq, ?_⟩
      rcases hstopcases with ⟨rfl, hlive⟩ | ⟨fd, rfl, hempty, hfd⟩
      · obtain ⟨a, ha⟩ := Entry.isLive_iff.mp hlive
        rw [hindex] at ha
        rcases hcases with ⟨b, hb, heqb⟩ | ⟨hempty, -⟩
        · rw [← hindex] at hb
          refine ⟨?_, b, hb, heqb⟩
          rw [hindex]
          exact hlt _
        · simp [ha] at hempty
      · rw [hindex] at hempty
        rcases hcases with ⟨b, hb, -⟩ | ⟨-, hnone⟩
        · simp [hb] at hempty
        · refine ⟨hnone, ?_, fun s hs => ?_⟩
          · unfold Fits
            rw [hindex]
            exact ⟨hlt _, hempty, hchain _ le_rfl⟩
          · rcases hfd s hs with hgiven | ⟨j, hj, rfl, hdel⟩
            · exact hfirst s hgiven
            · unfold Fits
              rw [hindex] at hdel ⊢
              exact ⟨hlt _, hdel, hchain _ (by omega)⟩
    have hfirststop := hbefore 0 (by omega)
    simp only [slotSearch, h0]
    cases hentry : htab.entries (probe htab.sizePrimeIndex (hashF element) 0) with
    | empty => simp [hentry, returnsAt] at hfirststop
    | deleted =>
      apply hloop
      rintro s ⟨⟩
      unfold Fits
      rw [h0]
      exact ⟨hlt 0, hentry, hchain 0 (by omega)⟩
    | live a =>
      simp only [hentry, returnsAt] at hfirststop
      simp only [hfirststop, Bool.false_eq_true, if_false]
      apply hloop
      rintro s ⟨⟩

end Searching

/-! ## Rehashing -/

section Rehashing

variable {α : Type} {hashF : α → Hashval} {eqF : α → α → Bool} {htab : Htab α}

/-- The search for an empty slot ends at one on the element's way.
Source: `hashtab.c` `find_empty_slot_for_expand`
Kind: L -/
theorem findEmptySlotForExpand_spec (hs : Sized htab)
    (hused : count Entry.isUsed htab.entries htab.size < htab.size)
    (hdel : ∀ i < htab.size, htab.entries i ≠ .deleted) {fuel : ℕ} (hfuel : htab.size ≤ fuel)
    (hash : Hashval) :
    ∃ q, findEmptySlotForExpand fuel htab hash = .ok q ∧ Fits htab hash .empty q := by
  obtain ⟨k, hk, hstop, hbefore⟩ := hs.exists_stop hused hash (fun e => !e.isUsed) rfl
  simp only [Bool.not_eq_true', Bool.not_eq_false', Entry.isUsed_eq_false] at hstop hbefore
  have hlt : ∀ j, probe htab.sizePrimeIndex hash j < htab.size := by
    intro j
    rw [hs.size_eq]
    exact probe_lt ..
  have hlive : ∀ j < k, (htab.entries (probe htab.sizePrimeIndex hash j)).isLive = true := by
    intro j hj
    have hne := hdel _ (hlt j)
    have := hbefore j hj
    cases hentry : htab.entries (probe htab.sizePrimeIndex hash j) with
    | live a => rfl
    | empty => simp [hentry, Entry.isUsed] at this
    | deleted => exact absurd hentry hne
  have hchain : OnChain (probe htab.sizePrimeIndex) htab.entries hash
      (probe htab.sizePrimeIndex hash k) := by
    refine ⟨k, rfl, fun j hj hempty => ?_⟩
    have := hlive j hj
    simp [hempty, Entry.isLive] at this
  have hindex := iterate_advance_toNat hs hash
  have h0 := hindex 0
  rw [Function.iterate_zero_apply] at h0
  rcases k with _ | k
  · refine ⟨htabMod hash htab.sizePrimeIndex, ?_, h0 ▸ hlt 0, h0 ▸ hstop, h0 ▸ hchain⟩
    simp only [findEmptySlotForExpand, h0, hstop]
  · obtain ⟨a, ha⟩ := Entry.isLive_iff.mp (hlive 0 (by omega))
    refine ⟨(advance (htabModM2 hash htab.sizePrimeIndex) htab.size)^[k + 1]
      (htabMod hash htab.sizePrimeIndex), ?_, ?_⟩
    · simp only [findEmptySlotForExpand, h0, ha]
      apply emptySlotLoop_eq (by omega) (by rw [hindex]; exact hstop)
      intro j hj
      rw [hindex]
      exact hlive (j + 1) (by omega)
    · unfold Fits
      rw [hindex]
      exact ⟨hlt _, hstop, hchain⟩

/-- **The rehash loop** puts all live entries into the new table.
Source: `hashtab.c` `htab_expand` (`do ... while (p < olimit)`)
Kind: L -/
theorem reinsert_spec {oentries : ℕ → Entry α} {osize fuel : ℕ} (hs : Sized htab)
    (hfuel : htab.size ≤ fuel) (hd : Distinct (fun a b => eqF a b = true) oentries osize)
    (hcount : count Entry.isLive oentries osize < htab.size)
    (hempty : htab.entries = fun _ => .empty) {k : ℕ} (hk : k ≤ osize) :
    ∃ e, reinsert hashF fuel oentries htab k = .ok { htab with entries := e } ∧
      Refilled (probe htab.sizePrimeIndex) hashF (fun a b => eqF a b = true) oentries k e htab.size := by
  induction k with
  | zero =>
    refine ⟨htab.entries, rfl, ?_⟩
    rw [hempty]
    exact refilled_zero
  | succ k ih =>
    obtain ⟨e, heq, hr⟩ := ih (by omega)
    have hd' : Distinct (fun a b => eqF a b = true) oentries (k + 1) :=
      fun i hi j hj => hd i (by omega) j (by omega)
    simp only [reinsert, heq, bind, Except.bind]
    cases hx : oentries k with
    | live x =>
      have hused : count Entry.isUsed e htab.size < htab.size := by
        have := @count_mono _ Entry.isLive oentries osize k (by omega)
        rw [hr.count_eq]
        omega
      obtain ⟨q, hq, hqlt, hqempty, hchain⟩ := @findEmptySlotForExpand_spec _ { htab with entries := e }
        ⟨hs.size_eq, hs.size_le⟩ hused hr.no_deleted _ hfuel (hashF x)
      simp only [hq]
      exact ⟨_, rfl, hr.store hd' hx hqlt hqempty hchain⟩
    | empty | deleted => exact ⟨e, rfl, hr.skip (by rw [hx]; rfl)⟩

/-- The size `htab_expand` chooses: twice the elements fit, and it is not the last of the table.
Source: `hashtab.c` `htab_expand`
Kind: L -/
theorem newSize_spec (hs : Sized htab) (hlimit : htabElements htab * 2 ≤ 2147483647) :
    ∃ nindex : Fin 30, newSize htab = .ok (nindex, primeTab[nindex].prime.toNat) ∧
      primeTab[nindex].prime.toNat ≤ 2147483647 ∧
      htabElements htab * 2 ≤ primeTab[nindex].prime.toNat := by
  by_cases hres : resizes htab = true
  · obtain ⟨i, hi, hle, hbelow⟩ := @higherPrimeIndex_spec (htabElements htab * 2) (by omega)
    refine ⟨i, ?_, prime_le_of_higherPrimeIndex hlimit hbelow, hle⟩
    rw [newSize, if_pos hres, hi]
    rfl
  · refine ⟨htab.sizePrimeIndex, by rw [newSize, if_neg hres, hs.size_eq],
      hs.size_eq ▸ hs.size_le, ?_⟩
    rw [← hs.size_eq]
    simp only [resizes, Bool.or_eq_true, decide_eq_true_eq, not_or] at hres
    omega

/-- **Rehashing** keeps the elements, drops the deleted slots and leaves the table half empty.
Source: `hashtab.c` `htab_expand`
Kind: P -/
theorem htabExpand_spec (hw : Wf hashF eqF htab) {fuel : ℕ} (hfuel : 2147483647 ≤ fuel)
    (hlimit : htabElements htab * 2 ≤ 2147483647) :
    ∃ nhtab, htabExpand hashF fuel true htab = .ok (true, nhtab) ∧ Wf hashF eqF nhtab ∧
      elements nhtab = elements htab ∧ nhtab.nElements * 2 ≤ nhtab.size := by
  obtain ⟨nindex, hsize, hle, hhalf⟩ := newSize_spec hw.toSized hlimit
  have hge := (prime_bounds nindex).1
  have helts : htabElements htab = count Entry.isLive htab.entries htab.size := by
    rw [htabElements, hw.elements_eq, hw.deleted_eq, count_isUsed]
    omega
  simp only [htabExpand, hsize, bind, Except.bind, if_true]
  obtain ⟨e, heq, hr⟩ := @reinsert_spec α hashF eqF
    { htab with
      entries := fun _ => .empty
      size := primeTab[nindex].prime.toNat
      sizePrimeIndex := nindex
      nElements := htab.nElements - htab.nDeleted
      nDeleted := 0 } htab.entries htab.size fuel ⟨rfl, hle⟩ (hle.trans hfuel) hw.distinct
    (by rw [← helts]; dsimp only; omega) rfl htab.size le_rfl
  simp only [heq]
  have hdel : count Entry.isDeleted e primeTab[nindex].prime.toNat = 0 := by
    refine count_eq_zero fun i hi => ?_
    have := hr.no_deleted i hi
    cases he : e i with
    | deleted => exact absurd he this
    | empty | live => rfl
  refine ⟨_, rfl, ⟨⟨rfl, hle⟩, ?_, hdel.symm, ?_, hr.chained, hr.distinct⟩, hr.elements_eq, ?_⟩
  · exact helts.trans hr.count_eq.symm
  · change htabElements htab < primeTab[nindex].prime.toNat
    omega
  · change htabElements htab * 2 ≤ primeTab[nindex].prime.toNat
    omega

end Rehashing

/-! ## The operations -/

section Operations

variable {α σ : Type} {hashF : α → Hashval} {eqF : α → α → Bool} {htab : Htab α}

/-- Storing an element on its way keeps the invariant. -/
theorem Wf.store (hw : Wf hashF eqF htab) {x : α} {i nElements nDeleted : ℕ} (hi : i < htab.size)
    (hchain : OnChain (probe htab.sizePrimeIndex) htab.entries (hashF x) i)
    (hx : ∀ j < htab.size, j ≠ i → ∀ b, htab.entries j = .live b →
      ¬ eqF x b = true ∧ ¬ eqF b x = true)
    (hused : nElements + (if (htab.entries i).isUsed then 1 else 0) = htab.nElements + 1)
    (hdel : nDeleted + (if (htab.entries i).isDeleted then 1 else 0) = htab.nDeleted)
    (hlt : nElements < htab.size) (searches collisions : BitVec 32) :
    Wf hashF eqF { htab with
      entries := Function.update htab.entries i (.live x)
      nElements := nElements
      nDeleted := nDeleted
      searches := searches
      collisions := collisions } := by
  refine ⟨⟨hw.size_eq, hw.size_le⟩, ?_, ?_, hlt, ?_, hw.distinct.update_live hx⟩
  · have hcount := @count_update _ Entry.isUsed htab.entries htab.size i (.live x) hi
    rw [← hw.elements_eq, if_pos (show (Entry.live x).isUsed = true from rfl), ← hused] at hcount
    dsimp only
    omega
  · have hcount := @count_update _ Entry.isDeleted htab.entries htab.size i (.live x) hi
    rw [← hw.deleted_eq, if_neg (show ¬ (Entry.live x).isDeleted = true by simp [Entry.isDeleted]),
      ← hdel] at hcount
    dsimp only
    omega
  · refine hw.chained.update (by simp) fun a ha => ?_
    rw [Entry.live.injEq] at ha
    exact ha ▸ hchain

/-- The set after an insertion: the elements equal to `x` make room for it, or keep it out. -/
def insertSet (eqF : α → α → Bool) (replace : Bool) (S : Set α) (x : α) : Set α :=
  if replace then insert x {a ∈ S | eqF a x = false}
  else S ∪ {a | a = x ∧ ∀ b ∈ S, eqF b x = false}

/-- With room for one more element, an insertion without rehashing.
Source: `hashtab.c` `htab_find_slot_with_hash`
Kind: L -/
theorem storeFound_spec (hw : Wf hashF eqF htab) (he : IsEquality hashF eqF) {x a : α} {i : ℕ}
    (hi : i < htab.size) (ha : htab.entries i = .live a) (heq : eqF a x = true)
    (searches collisions : BitVec 32) :
    Wf hashF eqF { htab with
        entries := Function.update htab.entries i (.live x)
        searches := searches
        collisions := collisions } ∧
      liveSet (Function.update htab.entries i (.live x)) htab.size =
        insertSet eqF true (elements htab) x := by
  constructor
  · refine hw.store hi ?_ ?_ ?_ ?_ hw.elements_lt searches collisions
    · rw [← he.hash_eq a x heq]
      exact hw.chained i hi a ha
    · intro j hj hji b hb
      constructor
      · intro hxb
        exact hji (hw.distinct i hi j hj a b ha hb (he.trans a x b heq hxb)).symm
      · intro hbx
        exact hji (hw.distinct j hj i hi b a hb ha (he.trans b x a hbx (he.symm a x heq)))
    · rw [ha]
      rfl
    · rw [ha]
      rfl
  · rw [liveSet_update_live hi, setOf_ne_of_live he.refl hw.distinct hi ha, insertSet, if_pos rfl]
    congr 1
    ext b
    refine and_congr_right fun _ => ?_
    rw [← Bool.not_eq_true, not_iff_not]
    exact ⟨fun hba => he.trans b a x hba heq, fun hbx => he.trans b x a hbx (he.symm a x heq)⟩

/-- The set when no element equal to the new one is live. -/
theorem insertSet_of_forall {S : Set α} {x : α} (replace : Bool)
    (hnone : ∀ a ∈ S, eqF a x = false) : insertSet eqF replace S x = insert x S := by
  cases replace with
  | true =>
    have hset : {a ∈ S | eqF a x = false} = S := by
      ext a
      exact ⟨fun h => h.1, fun h => ⟨h, hnone a h⟩⟩
    rw [insertSet, if_pos rfl, hset]
  | false =>
    ext a
    simp only [insertSet, Bool.false_eq_true, if_false, Set.mem_union, Set.mem_ofPred_eq,
      Set.mem_insert_iff]
    constructor
    · rintro (ha | ⟨ha, -⟩)
      · exact .inr ha
      · exact .inl ha
    · rintro (ha | ha)
      · exact .inr ⟨ha, hnone⟩
      · exact .inl ha

/-- The set when an element equal to the new one is live and stays. -/
theorem insertSet_of_mem {S : Set α} {x a : α} (ha : a ∈ S) (heq : eqF a x = true) :
    insertSet eqF false S x = S := by
  ext b
  simp only [insertSet, Bool.false_eq_true, if_false, Set.mem_union, Set.mem_ofPred_eq,
    or_iff_left_iff_imp]
  rintro ⟨-, hnone⟩
  simp [hnone a ha] at heq

/-- Rehashing before an insertion makes room. Source: `hashtab.c` `htab_find_slot_with_hash`.
Kind: L -/
theorem expandForInsert_spec (hw : Wf hashF eqF htab) {fuel : ℕ} (hfuel : 2147483647 ≤ fuel)
    (hlimit : htab.size * 3 ≤ htab.nElements * 4 → htabElements htab * 2 ≤ 2147483647)
    (alloc : Bool) :
    ∃ expanded nhtab, expandForInsert hashF fuel alloc htab .INSERT = .ok (expanded, nhtab) ∧
      Wf hashF eqF nhtab ∧ elements nhtab = elements htab ∧
      (expanded = true → nhtab.nElements + 1 < nhtab.size) := by
  have hge := (prime_bounds htab.sizePrimeIndex).1
  rw [← hw.size_eq] at hge
  by_cases hfull : htab.size * 3 ≤ htab.nElements * 4
  · rw [expandForInsert, if_pos ⟨rfl, hfull⟩]
    cases alloc with
    | true =>
      obtain ⟨nhtab, heq, hw', hset, hhalf⟩ := htabExpand_spec hw hfuel (hlimit hfull)
      refine ⟨true, nhtab, heq, hw', hset, fun _ => ?_⟩
      have hge' := (prime_bounds nhtab.sizePrimeIndex).1
      rw [← hw'.size_eq] at hge'
      omega
    | false =>
      obtain ⟨nindex, hsize, -⟩ := newSize_spec hw.toSized (hlimit hfull)
      refine ⟨false, htab, ?_, hw, rfl, by simp⟩
      simp only [htabExpand, hsize, bind, Except.bind, Bool.false_eq_true, if_false]
  · rw [expandForInsert, if_neg fun h => hfull h.2]
    exact ⟨true, htab, rfl, hw, rfl, fun _ => by omega⟩

/-- **Insertion**: unless storage was refused, the set takes the element.
Source: `hashtab.c` `htab_find_slot`
Kind: P -/
theorem insertElement_spec (hw : Wf hashF eqF htab) (he : IsEquality hashF eqF) {fuel : ℕ}
    (hfuel : 2147483647 ≤ fuel)
    (hlimit : htab.size * 3 ≤ htab.nElements * 4 → htabElements htab * 2 ≤ 2147483647)
    (alloc replace : Bool) (x : α) :
    ∃ slot nhtab, insertElement hashF eqF fuel alloc replace htab x = .ok (slot, nhtab) ∧
      Wf hashF eqF nhtab ∧
      elements nhtab = if slot.isSome then insertSet eqF replace (elements htab) x
        else elements htab := by
  obtain ⟨expanded, htab1, hexp, hw1, hset1, hroom⟩ := expandForInsert_spec hw hfuel hlimit alloc
  rw [← hset1]
  cases expanded with
  | false =>
    refine ⟨none, htab1, ?_, hw1, rfl⟩
    simp [insertElement, htabFindSlot, htabFindSlotWithHash, hexp, bind, Except.bind]
  | true =>
    have hroom := hroom rfl
    have hw2 : Wf hashF eqF { htab1 with searches := htab1.searches + 1 } :=
      hw1.of_sameSlots ⟨_, _, rfl⟩
    obtain ⟨stop, c, hsearch, hright⟩ := slotSearch_spec hw2 he (hw1.size_le.trans hfuel) x
    simp only [insertElement, htabFindSlot, htabFindSlotWithHash, hexp, hsearch, bind, Except.bind,
      if_true]
    cases stop with
    | found index =>
      obtain ⟨hi, a, ha, heq⟩ := hright
      have hlive : (htab1.entries index.toNat).isLive = true := Entry.isLive_iff.mpr ⟨a, ha⟩
      simp only [hlive, Bool.not_true, Bool.or_false]
      cases replace with
      | true =>
        simp only [if_true]
        exact ⟨_, _, rfl, storeFound_spec hw1 he hi ha heq _ _⟩
      | false =>
        simp only [Bool.false_eq_true, if_false]
        refine ⟨_, _, rfl, hw2.of_sameSlots ⟨_, _, rfl⟩, ?_⟩
        have hmem : a ∈ elements htab1 := ⟨_, hi, ha⟩
        exact (insertSet_of_mem hmem heq).symm
    | emptyEntry index fd =>
      obtain ⟨hnone, ⟨hi, hempty, hchain⟩, hfd⟩ := hright
      have hset := insertSet_of_forall (S := elements htab1) replace hnone
      have hother : ∀ j < htab1.size, ∀ b, htab1.entries j = .live b →
          ¬ eqF x b = true ∧ ¬ eqF b x = true := by
        intro j hj b hb
        have hbx := hnone b ⟨j, hj, hb⟩
        refine ⟨fun hxb => ?_, by simp [hbx]⟩
        rw [he.symm x b hxb] at hbx
        simp at hbx
      cases fd with
      | none =>
        have hlive : (htab1.entries index.toNat).isLive = false := by
          rw [show htab1.entries index.toNat = _ from hempty]
          rfl
        simp only [hlive, Bool.not_false, Bool.or_true, if_true]
        refine ⟨_, _, rfl, ?_, ?_⟩
        · exact hw1.store hi hchain (fun j hj _ => hother j hj) (by rw [hempty]; simp [Entry.isUsed])
            (by rw [hempty]; simp [Entry.isDeleted]) hroom _ _
        · rw [hset]
          exact (liveSet_update_live hi).trans
            (congrArg (insert x) (setOf_ne_of_not_live (by rw [hempty]; rfl)))
      | some s =>
        obtain ⟨hs, hdel, hchain⟩ := hfd s rfl
        dsimp only at hs hdel
        have hpos : 0 < htab1.nDeleted := by
          rw [hw1.deleted_eq]
          have := @count_update _ Entry.isDeleted htab1.entries htab1.size s.toNat .empty hs
          simp only [hdel, Entry.isDeleted, if_true, Bool.false_eq_true, if_false] at this
          omega
        have hlive : (Entry.empty : Entry α).isLive = false := rfl
        simp only [Function.update_self, hlive, Bool.not_false, Bool.or_true, if_true,
          Function.update_idem]
        refine ⟨_, _, rfl, ?_, ?_⟩
        · exact hw1.store hs hchain (fun j hj _ => hother j hj) (by rw [hdel]; simp [Entry.isUsed])
            (by rw [hdel]; simp [Entry.isDeleted]; omega) hw1.elements_lt _ _
        · rw [hset]
          exact (liveSet_update_live hs).trans
            (congrArg (insert x) (setOf_ne_of_not_live (by rw [hdel]; rfl)))

/-- **Clearing a slot** takes its element out of the set.
Source: `hashtab.c` `htab_clear_slot`
Kind: P -/
theorem htabClearSlot_spec (hw : Wf hashF eqF htab) (he : IsEquality hashF eqF) {slot : ℕ} {a : α}
    (hslot : slot < htab.size) (ha : htab.entries slot = .live a) :
    ∃ nhtab, htabClearSlot htab slot = .ok (a, nhtab) ∧ Wf hashF eqF nhtab ∧
      elements nhtab = elements htab \ {a} ∧ nhtab.size = htab.size ∧
      ∀ j ≠ slot, nhtab.entries j = htab.entries j := by
  rw [htabClearSlot, if_neg (not_le.mpr hslot)]
  simp only [ha]
  refine ⟨_, rfl, ⟨⟨hw.size_eq, hw.size_le⟩, ?_, ?_, hw.elements_lt, ?_, hw.distinct.update_deleted⟩,
    ?_, rfl, fun j hj => Function.update_of_ne hj _ _⟩
  · have hcount := @count_update _ Entry.isUsed htab.entries htab.size slot .deleted hslot
    rw [ha, ← hw.elements_eq] at hcount
    exact (Nat.add_right_cancel hcount).symm
  · have hcount := @count_update _ Entry.isDeleted htab.entries htab.size slot .deleted hslot
    rw [ha, ← hw.deleted_eq] at hcount
    exact hcount.symm
  · refine hw.chained.update (by simp) fun b hb => ?_
    cases hb
  · refine (liveSet_update_deleted).trans ?_
    rw [setOf_ne_of_live he.refl hw.distinct hslot ha]
    ext b
    constructor
    · rintro ⟨hb, hne⟩
      refine ⟨hb, ?_⟩
      rintro rfl
      exact hne (he.refl b)
    · rintro ⟨⟨j, hj, hb⟩, hne⟩
      refine ⟨⟨j, hj, hb⟩, fun hba => hne ?_⟩
      obtain rfl := hw.distinct j hj slot hslot b a hb ha hba
      rw [hb, Entry.live.injEq] at ha
      exact ha

/-- An empty table keeps the invariant. Source: `hashtab.c` `htab_create`, `htab_empty`. Kind: L -/
theorem wf_empty (i : Fin 30) (hle : primeSize i ≤ 2147483647)
    (searches collisions : BitVec 32) :
    Wf hashF eqF ⟨fun _ => .empty, primeSize i, 0, 0, searches, collisions, i⟩ := by
  have hge : 7 ≤ primeSize i := (prime_bounds i).1
  refine ⟨⟨rfl, hle⟩, ?_, ?_, ?_, chained_empty, distinct_empty⟩
  · exact (count_eq_zero fun _ _ => rfl).symm
  · exact (count_eq_zero fun _ _ => rfl).symm
  · dsimp only
    omega

/-- **Clearing the table.** Source: `hashtab.c` `htab_empty`. Kind: P -/
theorem htabEmpty_spec (hw : Wf hashF eqF htab) {sizeofPtr : ℕ} {alloc : Bool}
    (halloc : htab.size > 1024 * 1024 / sizeofPtr → alloc = true) :
    ∃ freed nhtab, htabEmpty sizeofPtr alloc htab = .ok (freed, nhtab) ∧ Wf hashF eqF nhtab ∧
      elements nhtab = ∅ := by
  have hsmall : 1024 / sizeofPtr ≤ 1024 := Nat.div_le_self _ _
  obtain ⟨i, hi, -, hbelow⟩ := @higherPrimeIndex_spec (1024 / sizeofPtr) (by omega)
  have hle := prime_le_of_higherPrimeIndex (by omega) hbelow
  simp only [htabEmpty, hi, bind, Except.bind]
  by_cases hlarge : htab.size > 1024 * 1024 / sizeofPtr
  · simp only [if_pos hlarge, halloc hlarge, if_true]
    exact ⟨_, _, rfl, wf_empty i hle _ _, liveSet_empty⟩
  · simp only [if_neg hlarge]
    refine ⟨_, _, rfl, ?_, liveSet_empty⟩
    have hle' : primeTab[htab.sizePrimeIndex].prime.toNat ≤ 2147483647 := hw.size_eq ▸ hw.size_le
    rw [hw.size_eq]
    exact wf_empty htab.sizePrimeIndex hle' _ _

/-- The elements of `k` slots from `slot` on, in order. Source: `hashtab.c`
`htab_traverse_noresize`. -/
def liveUp (entries : ℕ → Entry α) : ℕ → ℕ → List α
  | 0, _ => []
  | k + 1, slot => match entries slot with
    | .live a => a :: liveUp entries k (slot + 1)
    | _ => liveUp entries k (slot + 1)

theorem liveUp_congr {e e' : ℕ → Entry α} {k slot : ℕ} (h : ∀ j, slot ≤ j → e j = e' j) :
    liveUp e k slot = liveUp e' k slot := by
  induction k generalizing slot with
  | zero => rfl
  | succ k ih =>
    simp only [liveUp]
    rw [h slot le_rfl, ih fun j hj => h j (by omega)]

/-- **The traversal loop** calls back for the elements in the order of the slots, and takes those
cleared out of the set.
Source: `hashtab.c` `htab_traverse_noresize`
Kind: L -/
theorem traverseLoop_spec (he : IsEquality hashF eqF) (callback : α → σ → CallbackResult σ)
    {k slot : ℕ} (info : σ) (hw : Wf hashF eqF htab) (hk : slot + k = htab.size) :
    ∃ t nhtab, traverseLoop callback k slot info htab = .ok (t, nhtab) ∧ Wf hashF eqF nhtab ∧
      elements nhtab = elements htab \ {a | a ∈ t.freed} ∧ t.freed.Sublist t.visited ∧
      t.visited <+: liveUp htab.entries k slot ∧
      ((∀ a i, (callback a i).goOn = true) → t.visited = liveUp htab.entries k slot) := by
  induction k generalizing slot info htab with
  | zero => exact ⟨_, _, rfl, hw, by simp, List.nil_sublist _, List.nil_prefix, fun _ => rfl⟩
  | succ k ih =>
    simp only [traverseLoop, liveUp]
    cases hx : htab.entries slot with
    | empty | deleted => exact ih info hw (by omega)
    | live x =>
      -- what the callback does to the slot
      obtain ⟨freed, htab1, hclear, hw1, hset1, hsub, hsize, hsame⟩ :
          ∃ freed htab1, callbackClear (callback x info).clear htab slot = .ok (freed, htab1) ∧
            Wf hashF eqF htab1 ∧ elements htab1 = elements htab \ {a | a ∈ freed} ∧
            freed.Sublist [x] ∧ htab1.size = htab.size ∧
            ∀ j ≠ slot, htab1.entries j = htab.entries j := by
        cases (callback x info).clear with
        | false => exact ⟨[], htab, rfl, hw, by simp, List.nil_sublist _, rfl, fun _ _ => rfl⟩
        | true =>
          obtain ⟨nhtab, heq, hw', hset, hsize, hsame⟩ := htabClearSlot_spec hw he (by omega) hx
          refine ⟨[x], nhtab, ?_, hw', ?_, List.Sublist.refl _, hsize, hsame⟩
          · simp only [callbackClear, heq, bind, Except.bind, if_true]
          · rw [hset]
            congr 1
            ext a
            simp
      have hrest : liveUp htab1.entries k (slot + 1) = liveUp htab.entries k (slot + 1) :=
        liveUp_congr fun j hj => hsame j (by omega)
      simp only [hclear, bind, Except.bind]
      cases hgo : (callback x info).goOn with
      | false =>
        simp only [Bool.false_eq_true, if_false]
        refine ⟨_, _, rfl, hw1, hset1, hsub, ?_, fun hall => ?_⟩
        · exact List.cons_prefix_cons.mpr ⟨rfl, List.nil_prefix⟩
        · rw [hall] at hgo
          cases hgo
      | true =>
        obtain ⟨t, nhtab, heq, hw', hset, hsublist, hpre, hfull⟩ :=
          ih (callback x info).info hw1 (show slot + 1 + k = htab1.size by omega)
        simp only [heq, if_true]
        refine ⟨⟨x :: t.visited, freed ++ t.freed, t.info⟩, _, rfl, hw', ?_, hsub.append hsublist,
          ?_, fun hall => ?_⟩
        · rw [hset, hset1]
          ext a
          simp only [Set.mem_sdiff, Set.mem_ofPred_eq, List.mem_append, not_or, and_assoc]
        · exact List.cons_prefix_cons.mpr ⟨rfl, hrest ▸ hpre⟩
        · dsimp only
          rw [hfull hall, hrest]

theorem mem_liveUp {entries : ℕ → Entry α} {k slot : ℕ} {a : α} :
    a ∈ liveUp entries k slot ↔ ∃ i, slot ≤ i ∧ i < slot + k ∧ entries i = .live a := by
  induction k generalizing slot with
  | zero =>
    simp only [liveUp, List.not_mem_nil, false_iff]
    rintro ⟨i, h1, h2, -⟩
    omega
  | succ k ih =>
    have hsplit : (∃ i, slot ≤ i ∧ i < slot + (k + 1) ∧ entries i = .live a) ↔
        entries slot = .live a ∨ ∃ i, slot + 1 ≤ i ∧ i < slot + 1 + k ∧ entries i = .live a := by
      constructor
      · rintro ⟨i, h1, h2, hi⟩
        rcases Nat.eq_or_lt_of_le h1 with rfl | hlt
        · exact .inl hi
        · exact .inr ⟨i, hlt, by omega, hi⟩
      · rintro (h0 | ⟨i, h1, h2, hi⟩)
        · exact ⟨slot, le_rfl, by omega, h0⟩
        · exact ⟨i, by omega, by omega, hi⟩
    rw [hsplit, ← ih, liveUp]
    cases hx : entries slot with
    | empty | deleted => simp
    | live x => simp [eq_comm]

/-- **Traversal**: it calls back for live elements only, for all of them unless a callback stops it,
and takes those cleared out of the set.
Source: `hashtab.c` `htab_traverse`
Kind: P -/
theorem htabTraverse_spec (hw : Wf hashF eqF htab) (he : IsEquality hashF eqF) {fuel : ℕ}
    (hfuel : 2147483647 ≤ fuel) (alloc : Bool) (callback : α → σ → CallbackResult σ) (info : σ) :
    ∃ t nhtab, htabTraverse hashF fuel alloc callback info htab = .ok (t, nhtab) ∧
      Wf hashF eqF nhtab ∧ elements nhtab = elements htab \ {a | a ∈ t.freed} ∧
      t.freed.Sublist t.visited ∧ (∀ a ∈ t.visited, a ∈ elements htab) ∧
      ((∀ a i, (callback a i).goOn = true) → ∀ a ∈ elements htab, a ∈ t.visited) := by
  obtain ⟨expanded, htab1, hexp, hw1, hset1⟩ : ∃ expanded htab1,
      expandForTraverse hashF fuel alloc htab = .ok (expanded, htab1) ∧ Wf hashF eqF htab1 ∧
        elements htab1 = elements htab := by
    by_cases hlow : htabElements htab * 8 < htab.size
    · have hsize := hw.size_le
      have hlimit : htabElements htab * 2 ≤ 2147483647 := by omega
      rw [expandForTraverse, if_pos hlow]
      cases alloc with
      | true =>
        obtain ⟨nhtab, heq, hw', hset, -⟩ := htabExpand_spec hw hfuel hlimit
        exact ⟨true, nhtab, heq, hw', hset⟩
      | false =>
        obtain ⟨nindex, hnew, -⟩ := newSize_spec hw.toSized hlimit
        refine ⟨false, htab, ?_, hw, rfl⟩
        simp only [htabExpand, hnew, bind, Except.bind, Bool.false_eq_true, if_false]
    · rw [expandForTraverse, if_neg hlow]
      exact ⟨true, htab, rfl, hw, rfl⟩
  obtain ⟨t, nhtab, heq, hw', hset, hsub, hpre, hfull⟩ :=
    traverseLoop_spec he callback info hw1 (zero_add htab1.size)
  have hmem : ∀ a, a ∈ liveUp htab1.entries htab1.size 0 ↔ a ∈ elements htab := by
    intro a
    rw [mem_liveUp, ← hset1]
    simp [elements, liveSet]
  refine ⟨t, nhtab, ?_, hw', hset1 ▸ hset, hsub, fun a ha => ?_, fun hall a ha => ?_⟩
  · simp only [htabTraverse, hexp, bind, Except.bind, htabTraverseNoresize, heq]
  · exact (hmem a).mp (hpre.subset ha)
  · rw [hfull hall]
    exact (hmem a).mpr ha

end Operations

/-! ## Runs -/

section Runs

variable {α σ : Type}

/-- A call that a user of the table makes. Source: `hashtab.h`. -/
inductive Op (α σ : Type)
  | insert (x : α) (alloc replace : Bool)
  | clearSlot (slot : ℕ)
  | find (x : α)
  | empty (alloc : Bool)
  | traverse (callback : α → σ → CallbackResult σ) (info : σ) (alloc : Bool)

/-- What a call brings back: a slot, an entry, or what it passed to `del_f` and to the callback.
Source: `hashtab.h` -/
inductive Response (α σ : Type)
  | slot (s : Option ℕ)
  | entry (e : Entry α)
  | freed (l : List α)
  | traversed (t : Traversal α σ)

/-- One call. Source: `hashtab.c`. -/
def htabStep (hashF : α → Hashval) (eqF : α → α → Bool) (fuel sizeofPtr : ℕ) (htab : Htab α) :
    Op α σ → Except Failure (Response α σ × Htab α)
  | .insert x alloc replace => do
    let (s, htab) ← insertElement hashF eqF fuel alloc replace htab x
    .ok (.slot s, htab)
  | .clearSlot slot => do
    let (a, htab) ← htabClearSlot htab slot
    .ok (.freed [a], htab)
  | .find x => do
    let (e, htab) ← htabFind hashF eqF fuel htab x
    .ok (.entry e, htab)
  | .empty alloc => do
    let (l, htab) ← htabEmpty sizeofPtr alloc htab
    .ok (.freed l, htab)
  | .traverse callback info alloc => do
    let (t, htab) ← htabTraverse hashF fuel alloc callback info htab
    .ok (.traversed t, htab)

/-- What a call makes of the set. -/
def setStep (eqF : α → α → Bool) (S : Set α) : Op α σ → Response α σ → Set α
  | .insert x _ replace, .slot (some _) => insertSet eqF replace S x
  | .clearSlot _, .freed l => S \ {a | a ∈ l}
  | .empty _, .freed _ => ∅
  | .traverse .., .traversed t => S \ {a | a ∈ t.freed}
  | _, _ => S

/-- A call that does not make the table grow to the last size of `prime_tab`: only an insertion into
a table that is three quarters full can.
Source: `hashtab.c` `htab_find_slot_with_hash`, `htab_expand` -/
def WithinLimit (htab : Htab α) : Op α σ → Prop
  | .insert .. => htab.size * 3 ≤ htab.nElements * 4 → htabElements htab * 2 ≤ 2147483647
  | _ => True

/-- What a call asks of its surroundings: `htab_clear_slot` a live slot (it aborts otherwise), and
`htab_empty` of a large table the storage for a smaller one.
Source: `hashtab.c` `htab_clear_slot`, `htab_empty` -/
def Valid (sizeofPtr : ℕ) (htab : Htab α) : Op α σ → Prop
  | .clearSlot slot => slot < htab.size ∧ (htab.entries slot).isLive = true
  | .empty alloc => htab.size > 1024 * 1024 / sizeofPtr → alloc = true
  | _ => True

/-- The states of a run, with the set that the calls have computed.
Source: `hashtab.c` -/
inductive Reaches (σ : Type) (hashF : α → Hashval) (eqF : α → α → Bool) (fuel sizeofPtr : ℕ) :
    Htab α → Set α → Prop
  | create {n : ℕ} {htab : Htab α} (hn : n ≤ 2147483647) (hcreate : htabCreate n = .ok htab) :
    Reaches σ hashF eqF fuel sizeofPtr htab ∅
  | step {htab htab' : Htab α} {S : Set α} {op : Op α σ} {r : Response α σ}
    (hrun : Reaches σ hashF eqF fuel sizeofPtr htab S) (hlimit : WithinLimit htab op)
    (hstep : htabStep hashF eqF fuel sizeofPtr htab op = .ok (r, htab')) :
    Reaches σ hashF eqF fuel sizeofPtr htab' (setStep eqF S op r)

/-- **A new table** is empty. Source: `hashtab.c` `htab_create`. Kind: L -/
theorem htabCreate_spec (hashF : α → Hashval) (eqF : α → α → Bool) {n : ℕ} (hn : n ≤ 2147483647) :
    ∃ htab : Htab α, htabCreate n = .ok htab ∧ Wf hashF eqF htab ∧ elements htab = ∅ := by
  obtain ⟨i, hi, -, hbelow⟩ := @higherPrimeIndex_spec n (by omega)
  refine ⟨_, ?_, wf_empty i (prime_le_of_higherPrimeIndex hn hbelow) 0 0, liveSet_empty⟩
  simp only [htabCreate, hi, bind, Except.bind]

/-- **One call** of a valid run returns and keeps the invariant and the set.
Source: `hashtab.c`
Kind: L -/
theorem htabStep_spec {hashF : α → Hashval} {eqF : α → α → Bool} (he : IsEquality hashF eqF)
    {fuel : ℕ} (hfuel : 2147483647 ≤ fuel) (sizeofPtr : ℕ) {htab : Htab α}
    (hw : Wf hashF eqF htab) (op : Op α σ) (hlimit : WithinLimit htab op)
    (hvalid : Valid sizeofPtr htab op) :
    ∃ r htab', htabStep hashF eqF fuel sizeofPtr htab op = .ok (r, htab') ∧ Wf hashF eqF htab' ∧
      elements htab' = setStep eqF (elements htab) op r := by
  cases op with
  | insert x alloc replace =>
    obtain ⟨slot, htab', heq, hw', hset⟩ := insertElement_spec hw he hfuel hlimit alloc replace x
    refine ⟨.slot slot, htab', ?_, hw', ?_⟩
    · simp only [htabStep, heq, bind, Except.bind]
    · rw [hset]
      cases slot with
      | none => rfl
      | some i => rfl
  | clearSlot slot =>
    obtain ⟨a, ha⟩ := Entry.isLive_iff.mp hvalid.2
    obtain ⟨htab', heq, hw', hset, -⟩ := htabClearSlot_spec hw he hvalid.1 ha
    refine ⟨.freed [a], htab', ?_, hw', ?_⟩
    · simp only [htabStep, heq, bind, Except.bind]
    · rw [hset]
      simp only [setStep]
      congr 1
      ext b
      simp
  | find x =>
    obtain ⟨e, htab', heq, hsame, -⟩ := htabFind_spec hw he (hw.size_le.trans hfuel) x
    refine ⟨.entry e, htab', ?_, hw.of_sameSlots hsame, hsame.elements_eq⟩
    simp only [htabStep, heq, bind, Except.bind]
  | empty alloc =>
    obtain ⟨l, htab', heq, hw', hset⟩ := htabEmpty_spec hw hvalid
    refine ⟨.freed l, htab', ?_, hw', hset⟩
    simp only [htabStep, heq, bind, Except.bind]
  | traverse callback info alloc =>
    obtain ⟨t, htab', heq, hw', hset, -⟩ := htabTraverse_spec hw he hfuel alloc callback info
    refine ⟨.traversed t, htab', ?_, hw', hset⟩
    simp only [htabStep, heq, bind, Except.bind]

/-- A call that returned was valid. Source: `hashtab.c` `htab_clear_slot`, `htab_empty`. Kind: L -/
theorem valid_of_ok {hashF : α → Hashval} {eqF : α → α → Bool} {fuel sizeofPtr : ℕ}
    {htab htab' : Htab α} {op : Op α σ} {r : Response α σ}
    (hstep : htabStep hashF eqF fuel sizeofPtr htab op = .ok (r, htab')) :
    Valid sizeofPtr htab op := by
  cases op with
  | insert | find | traverse => trivial
  | clearSlot slot =>
    simp only [htabStep, htabClearSlot] at hstep
    by_cases hslot : htab.size ≤ slot
    · rw [if_pos hslot] at hstep
      cases hstep
    · rw [if_neg hslot] at hstep
      refine ⟨not_le.mp hslot, ?_⟩
      cases hentry : htab.entries slot with
      | live a => rfl
      | empty | deleted =>
        rw [hentry] at hstep
        cases hstep
  | empty alloc =>
    intro hlarge
    by_contra halloc
    obtain ⟨i, hi, -⟩ := @higherPrimeIndex_spec (1024 / sizeofPtr)
      ((Nat.div_le_self _ _).trans (by omega))
    simp only [htabStep, htabEmpty, if_pos hlarge, hi, if_neg halloc] at hstep
    cases hstep

/-- **The invariant of a run.** Source: `hashtab.c`. Kind: L -/
theorem Reaches.wf {hashF : α → Hashval} {eqF : α → α → Bool} (he : IsEquality hashF eqF)
    {fuel : ℕ} (hfuel : 2147483647 ≤ fuel) {sizeofPtr : ℕ} {htab : Htab α} {S : Set α}
    (hrun : Reaches σ hashF eqF fuel sizeofPtr htab S) :
    Wf hashF eqF htab ∧ elements htab = S := by
  induction hrun with
  | create hn hcreate =>
    obtain ⟨htab', hcreate', hw, hset⟩ := htabCreate_spec hashF eqF hn
    obtain rfl := Except.ok.inj (hcreate.symm.trans hcreate')
    exact ⟨hw, hset⟩
  | step hrun hlimit hstep ih =>
    obtain ⟨hw, rfl⟩ := ih
    obtain ⟨r', htab', hstep', hw', hset⟩ :=
      htabStep_spec he hfuel sizeofPtr hw _ hlimit (valid_of_ok hstep)
    obtain ⟨rfl, rfl⟩ := Prod.mk.inj (Except.ok.inj (hstep.symm.trans hstep'))
    exact ⟨hw', hset⟩

/-- What the table promises about the set `S` that a run has computed: a search finds an equal
element exactly if there is one; `htab_elements` counts the set, whose elements are those of the live
slots, no two of them equal; a slot is empty and every way visits all slots; and every valid call
returns.
Source: `hashtab.c` -/
structure Contract (σ : Type) (hashF : α → Hashval) (eqF : α → α → Bool) (fuel sizeofPtr : ℕ)
    (htab : Htab α) (S : Set α) : Prop where
  find : ∀ x, ∃ entry htab', htabFind hashF eqF fuel htab x = .ok (entry, htab') ∧
    ((∃ a ∈ S, entry = .live a ∧ eqF a x = true) ∨ (entry = .empty ∧ ∀ a ∈ S, eqF a x = false))
  count : S.Finite ∧ htabElements htab = S.ncard
  live : ∀ a, a ∈ S ↔ ∃ i < htab.size, htab.entries i = .live a
  distinct : ∀ i < htab.size, ∀ j < htab.size, ∀ a b, htab.entries i = .live a →
    htab.entries j = .live b → eqF a b = true → i = j
  empty : ∃ i < htab.size, htab.entries i = .empty
  visits : ∀ hash, ∀ i < htab.size, ∃ k < htab.size,
    ((advance (htabModM2 hash htab.sizePrimeIndex) htab.size)^[k]
      (htabMod hash htab.sizePrimeIndex)).toNat = i
  returns : ∀ op : Op α σ, WithinLimit htab op → Valid sizeofPtr htab op →
    ∃ r htab', htabStep hashF eqF fuel sizeofPtr htab op = .ok (r, htab')

/-- **The hash table is a set**: in every run of a table that is created with at most `2 ^ 31 - 1`
slots asked for and whose insertions never make it grow to the last size, every state keeps the
contract, with fuel for one round of the slots.
Source: `hashtab.c`
Kind: P -/
theorem htab_contract {hashF : α → Hashval} {eqF : α → α → Bool} (he : IsEquality hashF eqF)
    {fuel : ℕ} (hfuel : 2147483647 ≤ fuel) {sizeofPtr : ℕ} {htab : Htab α} {S : Set α}
    (hrun : Reaches σ hashF eqF fuel sizeofPtr htab S) :
    Contract σ hashF eqF fuel sizeofPtr htab S := by
  obtain ⟨hw, rfl⟩ := hrun.wf he hfuel
  obtain ⟨hfin, hcard⟩ := ncard_liveSet he.refl hw.distinct
  refine ⟨fun x => ?_, ⟨hfin, ?_⟩, fun a => Iff.rfl, hw.distinct,
    exists_empty (hw.elements_eq ▸ hw.elements_lt), fun hash i hi => ?_, fun op hlimit hvalid => ?_⟩
  · obtain ⟨entry, htab', heq, -, hcases⟩ := htabFind_spec hw he (hw.size_le.trans hfuel) x
    exact ⟨entry, htab', heq, hcases⟩
  · change htabElements htab = (liveSet htab.entries htab.size).ncard
    rw [hcard, htabElements, hw.elements_eq, hw.deleted_eq, count_isUsed]
    omega
  · rw [hw.size_eq] at hi
    obtain ⟨k, hk, hki⟩ := probe_covers htab.sizePrimeIndex hash i hi
    refine ⟨k, hw.size_eq ▸ hk, ?_⟩
    rw [iterate_advance_toNat hw.toSized]
    exact hki
  · obtain ⟨r, htab', heq, -⟩ := htabStep_spec he hfuel sizeofPtr hw op hlimit hvalid
    exact ⟨r, htab', heq⟩

/-- In a table of 7 slots, 17 collides with 10; 10 is cleared, and 24 collides with what is left of 10 and takes its slot. -/
theorem htab_contract_collision :
    ∃ htab : Htab ℕ,
      Reaches Unit (fun n => BitVec.ofNat 32 n) (fun a b => a == b) 2147483647 8 htab {17, 24} ∧
      Contract Unit (fun n => BitVec.ofNat 32 n) (fun a b => a == b) 2147483647 8 htab {17, 24} ∧
      htabElements htab = 2 ∧ htab.entries 3 = .live 24 := by
  have he : IsEquality (fun n : ℕ => BitVec.ofNat 32 n) (fun a b => a == b) := by
    refine ⟨?_, ?_, ?_, ?_⟩ <;> intros <;> simp_all
  have h0 : htabCreate 5 = .ok (⟨fun _ => .empty, 7, 0, 0, 0, 0, 0⟩ : Htab ℕ) := rfl
  have h1 : htabStep (fun n => BitVec.ofNat 32 n) (fun a b => a == b) 2147483647 8
      ⟨fun _ => .empty, 7, 0, 0, 0, 0, 0⟩ (.insert 10 true true : Op ℕ Unit) =
      .ok (.slot (some 3), ⟨Function.update (fun _ => .empty) 3 (.live 10), 7, 1, 0, 1, 0, 0⟩) := rfl
  have h2 : htabStep (fun n => BitVec.ofNat 32 n) (fun a b => a == b) 2147483647 8
      ⟨Function.update (fun _ => .empty) 3 (.live 10), 7, 1, 0, 1, 0, 0⟩ (.insert 17 true true : Op ℕ Unit) =
      .ok (.slot (some 6), ⟨Function.update (Function.update (fun _ => .empty) 3 (.live 10)) 6 (.live 17),
        7, 2, 0, 2, 1, 0⟩) := rfl
  have h3 : htabStep (fun n => BitVec.ofNat 32 n) (fun a b => a == b) 2147483647 8
      ⟨Function.update (Function.update (fun _ => .empty) 3 (.live 10)) 6 (.live 17), 7, 2, 0, 2, 1, 0⟩
      (.clearSlot 3 : Op ℕ Unit) = .ok (.freed [10],
        ⟨Function.update (Function.update (Function.update (fun _ => .empty) 3 (.live 10)) 6 (.live 17)) 3 .deleted,
          7, 2, 1, 2, 1, 0⟩) := rfl
  have h4 : htabStep (fun n => BitVec.ofNat 32 n) (fun a b => a == b) 2147483647 8
      ⟨Function.update (Function.update (Function.update (fun _ => .empty) 3 (.live 10)) 6 (.live 17)) 3 .deleted,
        7, 2, 1, 2, 1, 0⟩ (.insert 24 true true : Op ℕ Unit) = .ok (.slot (some 3),
        ⟨Function.update (Function.update (Function.update (Function.update (Function.update (fun _ => .empty) 3
          (.live 10)) 6 (.live 17)) 3 .deleted) 3 .empty) 3 (.live 24), 7, 2, 0, 3, 2, 0⟩) := rfl
  have hroom : ∀ (htab : Htab ℕ) (x : ℕ), htab.size = 7 → htab.nElements ≤ 2 →
      WithinLimit htab (.insert x true true : Op ℕ Unit) :=
    fun htab x hsize hle (hfull : htab.size * 3 ≤ htab.nElements * 4) => absurd hfull (by omega)
  have hclear : ∀ {htab : Htab ℕ}, WithinLimit htab (.clearSlot 3 : Op ℕ Unit) := trivial
  have hrun := ((((Reaches.create (by omega) h0).step (hroom _ 10 rfl (by decide)) h1).step
    (hroom _ 17 rfl (by decide)) h2).step hclear h3).step (hroom _ 24 rfl (by decide)) h4
  have hset : setStep (fun a b => a == b) (setStep (fun a b => a == b) (setStep (fun a b => a == b)
      (setStep (fun a b => a == b) ∅ (.insert 10 true true : Op ℕ Unit) (.slot (some 3)))
      (.insert 17 true true : Op ℕ Unit) (.slot (some 6))) (.clearSlot 3 : Op ℕ Unit) (.freed [10]))
      (.insert 24 true true : Op ℕ Unit) (.slot (some 3)) = {17, 24} := by
    ext a
    simp only [setStep, insertSet, if_true]
    simp
    omega
  rw [hset] at hrun
  exact ⟨_, hrun, htab_contract he le_rfl hrun, rfl, rfl⟩

/-- An insertion without rehashing, by what the search for a slot brings: a loop that does not end,
or an empty slot with no deleted one before it.
Source: `hashtab.c` `htab_find_slot_with_hash`
Kind: L -/
theorem insertElement_of_search {hashF : α → Hashval} {eqF : α → α → Bool} {fuel : ℕ}
    {htab : Htab α} {x : α} (hroom : ¬ htab.size * 3 ≤ htab.nElements * 4) :
    let search := slotSearch eqF fuel { htab with searches := htab.searches + 1 } x (hashF x)
    (search = .error .diverges →
      insertElement hashF eqF fuel true true htab x = .error .diverges) ∧
    ∀ index c, search = .ok (.emptyEntry index none, c) →
      insertElement hashF eqF fuel true true htab x = .ok (some index.toNat, { htab with
        entries := Function.update htab.entries index.toNat (.live x)
        nElements := htab.nElements + 1
        searches := htab.searches + 1
        collisions := c }) := by
  have hexp : expandForInsert hashF fuel true htab .INSERT = .ok (true, htab) :=
    if_neg fun h => hroom h.2
  constructor
  · intro hsearch
    simp only [insertElement, htabFindSlot, htabFindSlotWithHash, hexp, hsearch, bind, Except.bind,
      if_true]
  · intro index c hsearch
    simp only [insertElement, htabFindSlot, htabFindSlotWithHash, hexp, hsearch, bind, Except.bind,
      if_true, Bool.true_or]

/-- A table of the last size in `prime_tab`. Source: `hashtab.c`. -/
def lastSize (entries : ℕ → Entry ℕ) (nElements : ℕ) (searches collisions : BitVec 32) : Htab ℕ :=
  ⟨entries, 4294967291, nElements, 0, searches, collisions, 29⟩

/-- One hash for all elements. -/
def collidingHash : ℕ → Hashval := fun _ => 2147483647

/-- The slots after the first of the colliding insertions. -/
def slots1 : ℕ → Entry ℕ := Function.update (fun _ => .empty) 2147483647 (.live 0)

/-- The slots after the second. -/
def slots2 : ℕ → Entry ℕ := Function.update slots1 4 (.live 1)

/-- The slots after the third. -/
def slots3 : ℕ → Entry ℕ := Function.update slots2 2147483652 (.live 2)

/-- The way of the colliding hash at the last size. Source: `hashtab.c` (`htab_mod`, `htab_mod_m2`,
`index += hash2`). Kind: L -/
theorem colliding_way :
    htabMod 2147483647 29 = 2147483647 ∧ htabModM2 2147483647 29 = 2147483648 ∧
      advance 2147483648 4294967291 2147483647 = 4 ∧
      advance 2147483648 4294967291 4 = 2147483652 ∧
      advance 2147483648 4294967291 2147483652 = 4 := by decide

/-- The three insertions that return. Source: `hashtab.c` `htab_find_slot_with_hash`. Kind: L -/
theorem colliding_insertions :
    insertElement collidingHash (fun a b => a == b) 4 true true (lastSize (fun _ => .empty) 0 0 0)
        0 = .ok (some 2147483647, lastSize slots1 1 1 0) ∧
      insertElement collidingHash (fun a b => a == b) 4 true true (lastSize slots1 1 1 0) 1 =
        .ok (some 4, lastSize slots2 2 2 1) ∧
      insertElement collidingHash (fun a b => a == b) 4 true true (lastSize slots2 2 2 1) 2 =
        .ok (some 2147483652, lastSize slots3 3 3 3) := by
  obtain ⟨hmod, hmod2, hadv1, hadv2, -⟩ := colliding_way
  refine ⟨?_, ?_, ?_⟩
  · refine (insertElement_of_search (by decide)).2 2147483647 0 ?_
    simp only [slotSearch, lastSize, collidingHash, hmod]
  · refine (insertElement_of_search (by decide)).2 4 1 ?_
    simp only [slotSearch, lastSize, collidingHash, hmod, hmod2, slotLoop, hadv1]
    rfl
  · refine (insertElement_of_search (by decide)).2 2147483652 3 ?_
    simp only [slotSearch, lastSize, collidingHash, hmod, hmod2, slotLoop, hadv1, hadv2]
    rfl

/-- The loop steps from slot 4 to slot `2 ^ 31 + 4` and back.
Source: `hashtab.c` `htab_find_slot_with_hash` (`index += hash2`)
Kind: L -/
theorem colliding_loop (fuel : ℕ) (collisions : BitVec 32) :
    slotLoop (fun a b => a == b) (lastSize slots3 3 4 3) 3 2147483648 fuel 4 none collisions =
        .error .diverges ∧
      slotLoop (fun a b => a == b) (lastSize slots3 3 4 3) 3 2147483648 fuel 2147483652 none
        collisions = .error .diverges := by
  obtain ⟨-, -, -, hadv2, hadv3⟩ := colliding_way
  induction fuel generalizing collisions with
  | zero => exact ⟨rfl, rfl⟩
  | succ fuel ih =>
    obtain ⟨ih4, ih2⟩ := ih (collisions + 1)
    constructor
    · simp only [slotLoop, lastSize, hadv2]
      exact ih2
    · simp only [slotLoop, lastSize, hadv3]
      exact ih4

/-- The fourth search does not end. Source: `hashtab.c` `htab_find_slot_with_hash`. Kind: L -/
theorem colliding_search (fuel : ℕ) :
    slotSearch (fun a b => a == b) fuel (lastSize slots3 3 4 3) 3 2147483647 =
      .error .diverges := by
  obtain ⟨hmod, hmod2, hadv1, -⟩ := colliding_way
  have h0 : slots3 (2147483647 : Hashval).toNat = .live 0 := by simp [slots3, slots2, slots1]
  have h1 : slots3 (4 : Hashval).toNat = .live 1 := by simp [slots3, slots2]
  have hne0 : ((0 : ℕ) == 3) = false := rfl
  have hne1 : ((1 : ℕ) == 3) = false := rfl
  cases fuel with
  | zero =>
    simp only [slotSearch, lastSize, hmod, slotLoop, h0, hne0, Bool.false_eq_true, if_false]
  | succ fuel =>
    simp only [slotSearch, lastSize, hmod, hmod2, slotLoop, hadv1, h0, h1, hne0, hne1,
      Bool.false_eq_true, if_false]
    exact (colliding_loop fuel 4).1

/-- **At the last size an insertion need not return**: four elements share the hash `2 ^ 31 - 1`,
the stride is `2 ^ 31`, and once `index += hash2` has wrapped around the loop sees the slots 4 and
`2 ^ 31 + 4` only, whatever the fuel, in a table that is all but empty.
Source: `hashtab.c` `htab_find_slot_with_hash`
Kind: C -/
theorem htab_diverges_at_last_size :
    IsEquality collidingHash (fun a b => a == b) ∧ ∃ t0 t1 t2 t3 : Htab ℕ,
      htabCreate (2 ^ 31) = .ok t0 ∧
      insertElement collidingHash (fun a b => a == b) 4 true true t0 0 =
        .ok (some 2147483647, t1) ∧
      insertElement collidingHash (fun a b => a == b) 4 true true t1 1 = .ok (some 4, t2) ∧
      insertElement collidingHash (fun a b => a == b) 4 true true t2 2 =
        .ok (some 2147483652, t3) ∧
      htabElements t3 = 3 ∧ t3.size = 4294967291 ∧
      ∀ fuel, insertElement collidingHash (fun a b => a == b) fuel true true t3 3 =
        .error .diverges := by
  have he : IsEquality collidingHash (fun a b => a == b) := by
    refine ⟨?_, ?_, ?_, ?_⟩ <;> intros <;> simp_all [collidingHash]
  obtain ⟨h1, h2, h3⟩ := colliding_insertions
  have h0 : htabCreate (2 ^ 31) = .ok (lastSize (fun _ => .empty) 0 0 0) := rfl
  refine ⟨he, _, _, _, _, h0, h1, h2, h3, rfl, rfl, fun fuel => ?_⟩
  have hroom : ¬ (lastSize slots3 3 3 3).size * 3 ≤ (lastSize slots3 3 3 3).nElements * 4 := by
    decide
  exact (insertElement_of_search hroom).1 (colliding_search fuel)

end Runs

end GccCore.Iberty.Hashtab
