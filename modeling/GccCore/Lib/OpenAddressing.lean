import Mathlib.Data.ZMod.Units
import Mathlib.Data.Nat.Prime.Basic
import Mathlib.Data.Nat.Count
import Mathlib.Data.Set.Card

/-!
# Open addressing

Tables of slots that are searched along a probe sequence: a slot is empty, was deleted, or holds a
live element.

* **A search finds what is there** (`exists_firstStop`, `search_complete`): some slot is empty, so
  the search stops; it stops on an equal element if one is live.
* **Chains survive updates** (`Chained.update`, `Thinned.chained`): filling or deleting slots empties none.
* **Rehashing** (`Refilled.store`): the elements move one by one into a new table.
* **Counting** (`count_update`, `ncard_liveSet`): the live elements, as slots and as a set.
* **A stride prime to the number of slots visits every slot** (`stride_covers_of_coprime`), as one below a
  prime does (`stride_covers`).
-/

namespace GccCore.Lib.OpenAddressing

/-- What a slot holds. -/
inductive Entry (α : Type*)
  | empty
  | deleted
  | live (a : α)
  deriving DecidableEq

/-- The slot holds an element. -/
def Entry.isLive {α : Type*} : Entry α → Bool
  | .live _ => true
  | _ => false

/-- The slot's element was deleted. -/
def Entry.isDeleted {α : Type*} : Entry α → Bool
  | .deleted => true
  | _ => false

/-- The slot is in use, by an element or by what is left of one. -/
def Entry.isUsed {α : Type*} : Entry α → Bool
  | .empty => false
  | _ => true

@[simp]
theorem Entry.isLive_iff {α : Type*} {e : Entry α} : e.isLive = true ↔ ∃ a, e = .live a := by
  cases e <;> simp [Entry.isLive]

@[simp]
theorem Entry.isUsed_eq_false {α : Type*} {e : Entry α} : e.isUsed = false ↔ e = .empty := by
  cases e <;> simp [Entry.isUsed]

/-! ## Counting slots -/

section Counting

variable {α : Type*} {p : Entry α → Bool} {tab tab' : ℕ → Entry α} {n i : ℕ} {e : Entry α}

/-- The number of slots below `n` whose entry satisfies `p`. -/
def count (p : Entry α → Bool) (tab : ℕ → Entry α) (n : ℕ) : ℕ :=
  Nat.count (fun i => p (tab i) = true) n

theorem count_succ : count p tab (n + 1) = count p tab n + if p (tab n) then 1 else 0 :=
  Nat.count_succ _ _

theorem count_congr (h : ∀ i < n, tab i = tab' i) : count p tab n = count p tab' n := by
  induction n with
  | zero => rfl
  | succ n ih =>
    rw [count_succ, count_succ, ih fun i hi => h i (by omega), h n (by omega)]

/-- **One slot changes**: the count moves by what leaves and what comes. -/
theorem count_update (hi : i < n) :
    count p (Function.update tab i e) n + (if p (tab i) then 1 else 0) =
      count p tab n + if p e then 1 else 0 := by
  induction n with
  | zero => exact absurd hi (by omega)
  | succ n ih =>
    rw [count_succ, count_succ]
    rcases Nat.lt_succ_iff_lt_or_eq.mp hi with hlt | rfl
    · have := ih hlt
      rw [Function.update_of_ne (by omega)]
      omega
    · have : count p (Function.update tab i e) i = count p tab i :=
        count_congr fun j hj => Function.update_of_ne (by omega) _ _
      rw [this, Function.update_self]
      omega

theorem count_mono {m : ℕ} (h : m ≤ n) : count p tab m ≤ count p tab n :=
  Nat.count_monotone _ h

theorem count_eq_zero (h : ∀ i < n, p (tab i) = false) : count p tab n = 0 := by
  induction n with
  | zero => rfl
  | succ n ih => simp [count_succ, ih fun i hi => h i (by omega), h n (by omega)]

/-- A slot in use is live or deleted. -/
theorem count_isUsed :
    count Entry.isUsed tab n = count Entry.isLive tab n + count Entry.isDeleted tab n := by
  induction n with
  | zero => rfl
  | succ n ih =>
    rw [count_succ, count_succ, count_succ, ih]
    cases tab n <;> simp [Entry.isUsed, Entry.isLive, Entry.isDeleted] <;> omega

/-- Fewer slots in use than there are slots leave an empty one. -/
theorem exists_empty (h : count Entry.isUsed tab n < n) : ∃ i < n, tab i = .empty := by
  by_contra hne
  push Not at hne
  apply h.ne
  refine Nat.count_iff_forall.mpr fun i hi => ?_
  rw [← Bool.not_eq_false, Entry.isUsed_eq_false]
  exact hne i hi

end Counting

/-! ## Chains -/

section Chains

variable {α H : Type*} {probe : H → ℕ → ℕ} {hash : α → H} {tab : ℕ → Entry α} {n i : ℕ}
  {e : Entry α}

/-- The slot `i` is met on the way of `h` before any empty slot. -/
def OnChain (probe : H → ℕ → ℕ) (tab : ℕ → Entry α) (h : H) (i : ℕ) : Prop :=
  ∃ k, probe h k = i ∧ ∀ j < k, tab (probe h j) ≠ .empty

/-- **Chains are unbroken**: every live element is met on its way before any empty slot. -/
def Chained (probe : H → ℕ → ℕ) (hash : α → H) (tab : ℕ → Entry α) (n : ℕ) : Prop :=
  ∀ i < n, ∀ a, tab i = .live a → OnChain probe tab (hash a) i

theorem chained_empty : Chained probe hash (fun _ => Entry.empty) n := by
  intro i _ a ha
  cases ha

/-- A slot that is not emptied breaks no way. -/
theorem OnChain.update {h : H} {i' : ℕ} (hne : e ≠ .empty) (hc : OnChain probe tab h i') :
    OnChain probe (Function.update tab i e) h i' := by
  obtain ⟨k, hk, hbefore⟩ := hc
  refine ⟨k, hk, fun j hj => ?_⟩
  by_cases hji : probe h j = i
  · rwa [hji, Function.update_self]
  · rw [Function.update_of_ne hji]
    exact hbefore j hj

/-- Filling or deleting a slot keeps the chains, if what fills it is on its own way. -/
theorem Chained.update (hc : Chained probe hash tab n) (hne : e ≠ .empty)
    (hx : ∀ a, e = .live a → OnChain probe tab (hash a) i) :
    Chained probe hash (Function.update tab i e) n := by
  intro j hj a ha
  apply OnChain.update hne
  by_cases hji : j = i
  · subst hji
    rw [Function.update_self] at ha
    exact hx a ha
  · rw [Function.update_of_ne hji] at ha
    exact hc j hj a ha

/-- **A search stops**: with an empty slot on a way that visits all slots, there is a first slot at
which a test that holds of empty slots holds. -/
theorem exists_firstStop {h : H} {P : Entry α → Prop} (hP : P .empty)
    (hcover : ∀ i < n, ∃ k < n, probe h k = i) (hempty : ∃ i < n, tab i = .empty) :
    ∃ k < n, P (tab (probe h k)) ∧ ∀ j < k, ¬ P (tab (probe h j)) := by
  classical
  obtain ⟨i, hi, hti⟩ := hempty
  obtain ⟨k, hk, hki⟩ := hcover i hi
  have hex : ∃ k, P (tab (probe h k)) := ⟨k, by rw [hki, hti]; exact hP⟩
  refine ⟨Nat.find hex, ?_, Nat.find_spec hex, fun j hj => Nat.find_min hex hj⟩
  have : Nat.find hex ≤ k := Nat.find_min' hex (by rw [hki, hti]; exact hP)
  omega

/-- **A search finds what is there**: if a live element on this way passes the test, the first stop
is no empty slot. -/
theorem search_complete {h : H} {P : Entry α → Prop} {a : α} {k : ℕ}
    (hc : Chained probe hash tab n) (hi : i < n) (ha : tab i = .live a) (hh : hash a = h)
    (hpass : P (.live a)) (hfirst : ∀ j < k, ¬ P (tab (probe h j))) :
    tab (probe h k) ≠ .empty := by
  obtain ⟨k', hk', hbefore⟩ := hc i hi a ha
  rw [hh] at hk' hbefore
  have hle : k ≤ k' := by
    by_contra hlt
    apply hfirst k' (by omega)
    rw [hk', ha]
    exact hpass
  rcases Nat.lt_or_eq_of_le hle with hlt | rfl
  · exact hbefore k hlt
  · rw [hk', ha]
    simp

/-- The slots that are used stay used, and what is live was live before: elements were only deleted. -/
structure Thinned (tab tab' : ℕ → Entry α) : Prop where
  used_eq : ∀ i, (tab' i).isUsed = (tab i).isUsed
  live_of : ∀ i a, tab' i = .live a → tab i = .live a

section Thinning

variable {tab' : ℕ → Entry α} {eq : α → α → Prop}

theorem Thinned.count_eq (ht : Thinned tab tab') : count Entry.isUsed tab' n = count Entry.isUsed tab n := by
  induction n with
  | zero => rfl
  | succ n ih => rw [count_succ, count_succ, ih, ht.used_eq]

/-- Deleting breaks no chain. -/
theorem Thinned.chained (ht : Thinned tab tab') (hc : Chained probe hash tab n) : Chained probe hash tab' n := by
  intro i hi a ha
  obtain ⟨k, hk, hbefore⟩ := hc i hi a (ht.live_of i a ha)
  refine ⟨k, hk, fun j hj hempty => hbefore j hj ?_⟩
  rwa [← Entry.isUsed_eq_false, ← ht.used_eq, Entry.isUsed_eq_false]

end Thinning

end Chains

/-! ## The elements of a table -/

section Elements

variable {α : Type*} {eq : α → α → Prop} {tab : ℕ → Entry α} {n i : ℕ} {x : α}

/-- The live elements. -/
def liveSet (tab : ℕ → Entry α) (n : ℕ) : Set α :=
  {a | ∃ i < n, tab i = .live a}

/-- No two slots hold equal elements. -/
def Distinct (eq : α → α → Prop) (tab : ℕ → Entry α) (n : ℕ) : Prop :=
  ∀ i < n, ∀ j < n, ∀ a b, tab i = .live a → tab j = .live b → eq a b → i = j

theorem distinct_empty : Distinct eq (fun _ => Entry.empty) n := by
  intro i _ j _ a b ha
  cases ha

/-- A slot is filled with an element that equals no other. -/
theorem Distinct.update_live (hd : Distinct eq tab n)
    (hx : ∀ j < n, j ≠ i → ∀ b, tab j = .live b → ¬ eq x b ∧ ¬ eq b x) :
    Distinct eq (Function.update tab i (.live x)) n := by
  intro j hj k hk a b ha hb hab
  by_cases hji : j = i <;> by_cases hki : k = i
  · omega
  · rw [hji, Function.update_self, Entry.live.injEq] at ha
    rw [Function.update_of_ne hki] at hb
    subst ha
    exact absurd hab (hx k hk hki b hb).1
  · rw [hki, Function.update_self, Entry.live.injEq] at hb
    rw [Function.update_of_ne hji] at ha
    subst hb
    exact absurd hab (hx j hj hji a ha).2
  · rw [Function.update_of_ne hji] at ha
    rw [Function.update_of_ne hki] at hb
    exact hd j hj k hk a b ha hb hab

theorem Distinct.update_deleted (hd : Distinct eq tab n) :
    Distinct eq (Function.update tab i .deleted) n := by
  intro j hj k hk a b ha hb hab
  have hji : j ≠ i := by
    rintro rfl
    simp at ha
  have hki : k ≠ i := by
    rintro rfl
    simp at hb
  rw [Function.update_of_ne hji] at ha
  rw [Function.update_of_ne hki] at hb
  exact hd j hj k hk a b ha hb hab

theorem Distinct.thinned {tab' : ℕ → Entry α} (hd : Distinct eq tab n) (ht : Thinned tab tab') : Distinct eq tab' n :=
  fun i hi j hj a b ha hb hab => hd i hi j hj a b (ht.live_of i a ha) (ht.live_of j b hb) hab

theorem liveSet_zero : liveSet tab 0 = (∅ : Set α) := by
  ext a
  simp [liveSet]

/-- The elements of one more slot. -/
theorem liveSet_succ : liveSet tab (n + 1) = {a | tab n = .live a} ∪ liveSet tab n := by
  ext b
  simp only [liveSet, Set.mem_ofPred_eq, Set.mem_union]
  constructor
  · rintro ⟨i, hi, hb⟩
    rcases Nat.lt_succ_iff_lt_or_eq.mp hi with hlt | rfl
    · exact .inr ⟨i, hlt, hb⟩
    · exact .inl hb
  · rintro (hb | ⟨i, hi, hb⟩)
    · exact ⟨n, by omega, hb⟩
    · exact ⟨i, by omega, hb⟩

theorem liveSet_empty : liveSet (fun _ => Entry.empty) n = (∅ : Set α) := by
  ext a
  simp [liveSet]

/-- The elements after a slot is filled. -/
theorem liveSet_update_live (hi : i < n) :
    liveSet (Function.update tab i (.live x)) n =
      insert x {a | ∃ j < n, j ≠ i ∧ tab j = .live a} := by
  ext a
  simp only [liveSet, Set.mem_ofPred_eq, Set.mem_insert_iff]
  constructor
  · rintro ⟨j, hj, ha⟩
    by_cases hji : j = i
    · rw [hji, Function.update_self, Entry.live.injEq] at ha
      exact .inl ha.symm
    · rw [Function.update_of_ne hji] at ha
      exact .inr ⟨j, hj, hji, ha⟩
  · rintro (rfl | ⟨j, hj, hji, ha⟩)
    · exact ⟨i, hi, Function.update_self ..⟩
    · exact ⟨j, hj, by rwa [Function.update_of_ne hji]⟩

/-- The elements after a slot is deleted. -/
theorem liveSet_update_deleted :
    liveSet (Function.update tab i .deleted) n = {a | ∃ j < n, j ≠ i ∧ tab j = .live a} := by
  ext a
  simp only [liveSet, Set.mem_ofPred_eq]
  constructor
  · rintro ⟨j, hj, ha⟩
    have hji : j ≠ i := by
      rintro rfl
      simp at ha
    rw [Function.update_of_ne hji] at ha
    exact ⟨j, hj, hji, ha⟩
  · rintro ⟨j, hj, hji, ha⟩
    exact ⟨j, hj, by rwa [Function.update_of_ne hji]⟩

/-- A slot that holds no element takes none away. -/
theorem setOf_ne_of_not_live (hi : (tab i).isLive = false) :
    {a | ∃ j < n, j ≠ i ∧ tab j = .live a} = liveSet tab n := by
  ext a
  constructor
  · rintro ⟨j, hj, -, ha⟩
    exact ⟨j, hj, ha⟩
  · rintro ⟨j, hj, ha⟩
    refine ⟨j, hj, ?_, ha⟩
    rintro rfl
    simp [ha, Entry.isLive] at hi

/-- Without its slot, the elements are those not equal to the one it holds. -/
theorem setOf_ne_of_live (hrefl : ∀ a, eq a a) (hd : Distinct eq tab n) (hi : i < n)
    (hx : tab i = .live x) :
    {a | ∃ j < n, j ≠ i ∧ tab j = .live a} = {a ∈ liveSet tab n | ¬ eq a x} := by
  ext a
  constructor
  · rintro ⟨j, hj, hji, ha⟩
    exact ⟨⟨j, hj, ha⟩, fun hax => hji (hd j hj i hi a x ha hx hax)⟩
  · rintro ⟨⟨j, hj, ha⟩, hax⟩
    refine ⟨j, hj, ?_, ha⟩
    rintro rfl
    rw [hx, Entry.live.injEq] at ha
    exact hax (ha ▸ hrefl x)

/-- **Slots and elements**: distinct slots hold distinct elements, so there are as many. -/
theorem ncard_liveSet (hrefl : ∀ a, eq a a) (hd : Distinct eq tab n) :
    (liveSet tab n).Finite ∧ (liveSet tab n).ncard = count Entry.isLive tab n := by
  induction n with
  | zero =>
    rw [liveSet_zero, Set.ncard_empty]
    exact ⟨Set.finite_empty, rfl⟩
  | succ n ih =>
    obtain ⟨hfin, hcard⟩ := ih fun i hi j hj => hd i (by omega) j (by omega)
    rw [count_succ, liveSet_succ]
    cases hn : tab n with
    | live a =>
      have hnot : a ∉ liveSet tab n := by
        rintro ⟨i, hi, ha⟩
        have := hd i (by omega) n (by omega) a a ha hn (hrefl a)
        omega
      have hset : {b | Entry.live a = Entry.live b} ∪ liveSet tab n = insert a (liveSet tab n) := by
        ext b
        simp [eq_comm]
      rw [hset, Set.ncard_insert_of_notMem hnot hfin, hcard]
      exact ⟨hfin.insert a, rfl⟩
    | empty | deleted =>
      simp only [reduceCtorEq, Set.ofPred_false, Set.empty_union]
      rw [hcard]
      exact ⟨hfin, rfl⟩

end Elements

/-! ## Rehashing -/

section Rehashing

variable {α H : Type*} {probe : H → ℕ → ℕ} {hash : α → H} {eq : α → α → Prop} {old tab : ℕ → Entry α}
  {k n i : ℕ} {x : α}

/-- A new table while the old entries are put into it: the first `k` of them are there, and nothing is deleted. -/
structure Refilled (probe : H → ℕ → ℕ) (hash : α → H) (eq : α → α → Prop) (old : ℕ → Entry α) (k : ℕ)
    (tab : ℕ → Entry α) (n : ℕ) : Prop where
  no_deleted : ∀ i < n, tab i ≠ .deleted
  count_eq : count Entry.isUsed tab n = count Entry.isLive old k
  elements_eq : liveSet tab n = liveSet old k
  chained : Chained probe hash tab n
  distinct : Distinct eq tab n

theorem refilled_zero : Refilled probe hash eq old 0 (fun _ => .empty) n := by
  refine ⟨fun i _ => by simp, count_eq_zero fun i _ => rfl, ?_, chained_empty, distinct_empty⟩
  rw [liveSet_empty, liveSet_zero]

/-- A slot that holds no element is passed over. -/
theorem Refilled.skip (h : Refilled probe hash eq old k tab n) (hk : (old k).isLive = false) :
    Refilled probe hash eq old (k + 1) tab n := by
  have hnone : {a | old k = .live a} = (∅ : Set α) := by
    ext a
    simp only [Set.mem_ofPred_eq, Set.mem_empty_iff_false, iff_false]
    intro ha
    rw [ha] at hk
    cases hk
  refine ⟨h.no_deleted, ?_, ?_, h.chained, h.distinct⟩
  · rw [h.count_eq, count_succ, hk]
    rfl
  · rw [h.elements_eq, liveSet_succ, hnone, Set.empty_union]

/-- One more element is put into an empty slot on its way. -/
theorem Refilled.store (h : Refilled probe hash eq old k tab n) (hd : Distinct eq old (k + 1)) (hx : old k = .live x)
    (hi : i < n) (hempty : tab i = .empty) (hchain : OnChain probe tab (hash x) i) :
    Refilled probe hash eq old (k + 1) (Function.update tab i (.live x)) n := by
  refine ⟨fun j hj => ?_, ?_, ?_, ?_, ?_⟩
  · by_cases hji : j = i
    · rw [hji, Function.update_self]
      simp
    · rw [Function.update_of_ne hji]
      exact h.no_deleted j hj
  · have hcount := @count_update _ Entry.isUsed tab n i (.live x) hi
    rw [hempty] at hcount
    simpa [count_succ, hx, Entry.isLive, Entry.isUsed, h.count_eq] using hcount
  · have hone : {a | Entry.live x = Entry.live a} = {x} := by
      ext a
      simp [eq_comm]
    rw [liveSet_succ, hx, hone, ← h.elements_eq, liveSet_update_live hi,
      setOf_ne_of_not_live (by rw [hempty]; rfl)]
    rfl
  · refine h.chained.update (by simp) fun a ha => ?_
    rw [Entry.live.injEq] at ha
    exact ha ▸ hchain
  · refine h.distinct.update_live fun j hj _ b hb => ?_
    -- the other element stood in another slot of the old table
    obtain ⟨j', hj', hb'⟩ : b ∈ liveSet old k := h.elements_eq ▸ ⟨j, hj, hb⟩
    constructor
    · intro heq
      have := hd k (Nat.lt_succ_self k) j' (by omega) x b hx hb' heq
      omega
    · intro heq
      have := hd j' (by omega) k (Nat.lt_succ_self k) b x hb' hx heq
      omega

end Rehashing

/-! ## Double hashing -/

/-- **A stride prime to the number of slots visits every slot.** -/
theorem stride_covers_of_coprime {n s i : ℕ} (hs : s.Coprime n) (start : ℕ) (hi : i < n) :
    ∃ k < n, (start + k * s) % n = i := by
  have : NeZero n := ⟨by omega⟩
  let u := ZMod.unitOfCoprime s hs
  refine ⟨(((i : ZMod n) - start) * (u⁻¹ : (ZMod n)ˣ)).val, ZMod.val_lt _, ?_⟩
  have hu : (s : ZMod n) = u := (ZMod.coe_unitOfCoprime s hs).symm
  have hcast : ((start + (((i : ZMod n) - start) * (u⁻¹ : (ZMod n)ˣ)).val * s : ℕ) : ZMod n) = i := by
    push_cast
    rw [ZMod.natCast_zmod_val, hu, mul_assoc, Units.inv_mul, mul_one, add_sub_cancel]
  have := (ZMod.natCast_eq_natCast_iff' _ _ _).mp hcast
  rwa [Nat.mod_eq_of_lt hi] at this

/-- **A stride below a prime visits every slot.** -/
theorem stride_covers {p s i : ℕ} (hp : p.Prime) (hs : 0 < s) (hsp : s < p) (start : ℕ)
    (hi : i < p) : ∃ k < p, (start + k * s) % p = i :=
  stride_covers_of_coprime (Nat.coprime_of_lt_prime hs.ne' hsp hp).symm start hi

end GccCore.Lib.OpenAddressing
