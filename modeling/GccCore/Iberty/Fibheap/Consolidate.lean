import GccCore.Iberty.Fibheap.Forest
import Mathlib.Algebra.BigOperators.Group.Finset.Piecewise
import Mathlib.Algebra.Order.BigOperators.Group.Finset
import Mathlib.Algebra.Order.Ring.GeomSum

/-!
# `libiberty/fibheap.c`: consolidation

`fibheap_consolidate` takes the roots out one by one and links those of equal degree through an array
indexed by the degree.

* **The potential** (`potential`): the sum of `2 ^ degree` over the roots. A link of two roots of one
  degree does not change it.
* **The array is large enough exactly if the potential is below `2 ^ D`** (`consolidate_spec`):
  a root of degree `D` weighs that much, and roots of different degrees
  below `D` weigh less together.
-/

namespace GccCore.Iberty.Fibheap

open GccCore.Lib.Ring

section Consolidation

variable {δ : Type} {mem mem' : Mem δ} {N R X : Finset ℕ} {arr : ℕ → Option ℕ} {heap : FibHeap}
  {sizeofLong x y d : ℕ}

/-- The weight of the roots. -/
def potential (mem : Mem δ) (N : Finset ℕ) : ℕ := ∑ a ∈ tops mem N, 2 ^ (mem a).degree

/-- **The state of the loops**: the parentless nodes are the roots `R` still in the root list, the
nodes `X` in hand, and those in the array, each in the place of its degree. All but the first are
their own neighbours.
Source: `fibheap.c` `fibheap_consolidate` -/
structure Merging (sizeofLong : ℕ) (mem : Mem δ) (N R : Finset ℕ) (arr : ℕ → Option ℕ)
    (X : Finset ℕ) : Prop where
  forest : Forest mem N none
  tops_iff : ∀ a, a ∈ tops mem N ↔ a ∈ R ∨ a ∈ X ∨ ∃ d, arr d = some a
  ring : Linked mem R
  root_ne : ∀ a ∈ R, a ∉ X ∧ ∀ d, arr d ≠ some a
  hand_ne : ∀ a ∈ X, ∀ d, arr d ≠ some a
  hand : ∀ a ∈ X, (mem a).left = a ∧ (mem a).right = a
  entry : ∀ d a, arr d = some a →
    (mem a).degree = d ∧ d < 1 + 8 * sizeofLong ∧ (mem a).left = a ∧ (mem a).right = a

/-- The nodes of the state are roots. -/
theorem Merging.mem_of_entry (h : Merging sizeofLong mem N R arr X) (hy : arr d = some y) :
    y ∈ tops mem N := (h.tops_iff y).mpr (.inr (.inr ⟨d, hy⟩))

/-- **A link** of the tree in hand with the one in the array, whichever is below.
Source: `fibheap.c` `fibheap_consolidate` (`fibheap_link (heap, y, x); a[d] = NULL; d++;`)
Kind: L -/
theorem Merging.link (h : Merging sizeofLong mem N R arr {x}) (hdeg : (mem x).degree = d)
    (hy : arr d = some y) {p c : ℕ} (hpc : (p = x ∧ c = y) ∨ (p = y ∧ c = x))
    (hkey : (mem p).key ≤ (mem c).key) :
    Merging sizeofLong (fibheapLink mem c p) N R (Function.update arr d none) {p} ∧
      (fibheapLink mem c p p).degree = d + 1 ∧
      potential (fibheapLink mem c p) N = potential mem N ∧
      SameContents mem (fibheapLink mem c p) N ∧
      (tops (fibheapLink mem c p) N).card + 1 = (tops mem N).card := by
  have hxX : x ∈ ({x} : Finset ℕ) := Finset.mem_singleton_self x
  have hxtop : x ∈ tops mem N := (h.tops_iff x).mpr (.inr (.inl hxX))
  have hytop := h.mem_of_entry hy
  obtain ⟨hydeg, -, hyself⟩ := h.entry d y hy
  have hxy : x ≠ y := fun heq => h.hand_ne x hxX d (heq ▸ hy)
  -- both are roots of degree `d` outside the root list, and their own neighbours
  have hboth : ∀ a, a = x ∨ a = y → a ∈ tops mem N ∧ (mem a).degree = d ∧ a ∉ R ∧
      ((mem a).left = a ∧ (mem a).right = a) := by
    rintro a (rfl | rfl)
    · exact ⟨hxtop, hdeg, fun hR => (h.root_ne a hR).1 hxX, h.hand a hxX⟩
    · exact ⟨hytop, hydeg, fun hR => (h.root_ne a hR).2 d hy, hyself⟩
  have hp : p = x ∨ p = y := hpc.imp And.left And.left
  have hc : c = x ∨ c = y := by
    rcases hpc with h | h
    · exact .inr h.2
    · exact .inl h.2
  have hpne : p ≠ c := by
    rcases hpc with ⟨rfl, rfl⟩ | ⟨rfl, rfl⟩
    · exact hxy
    · exact hxy.symm
  obtain ⟨hptop, hpdeg, hpR, hpself⟩ := hboth p hp
  obtain ⟨hctop, hcdeg, hcR, hcself⟩ := hboth c hc
  obtain ⟨hforest, htops, hsame, hdegp, hdegne, hlinks⟩ :=
    link_spec h.forest hptop hctop hpne hkey hcself
  -- another entry of the array is another node
  have hentry : ∀ d' a, Function.update arr d none d' = some a →
      arr d' = some a ∧ a ≠ p ∧ a ≠ c := by
    intro d' a ha
    have hd' : d' ≠ d := by
      rintro rfl
      simp at ha
    rw [Function.update_of_ne hd'] at ha
    have hne : ∀ b, b = x ∨ b = y → a ≠ b := by
      intro b hb hab
      apply hd'
      rw [← (h.entry d' a ha).1, hab, (hboth b hb).2.1]
    exact ⟨ha, hne p hp, hne c hc⟩
  refine ⟨⟨hforest, fun a => ?_, ?_, ?_, ?_, ?_, ?_⟩, by rw [hdegp, hpdeg], ?_, hsame, ?_⟩
  · rw [htops, Finset.mem_erase, h.tops_iff, Finset.mem_singleton, Finset.mem_singleton]
    constructor
    · rintro ⟨hac, haR | rfl | ⟨d', hd'⟩⟩
      · exact .inl haR
      · refine .inr (.inl ?_)
        rcases hpc with ⟨rfl, -⟩ | ⟨-, rfl⟩
        · rfl
        · exact absurd rfl hac
      · by_cases hdd : d' = d
        · subst hdd
          obtain rfl : y = a := Option.some.inj (hy.symm.trans hd')
          refine .inr (.inl ?_)
          rcases hpc with ⟨-, rfl⟩ | ⟨rfl, -⟩
          · exact absurd rfl hac
          · rfl
        · exact .inr (.inr ⟨d', by rwa [Function.update_of_ne hdd]⟩)
    · rintro (haR | rfl | ⟨d', hd'⟩)
      · exact ⟨fun hac => hcR (hac ▸ haR), .inl haR⟩
      · refine ⟨hpne, .inr ?_⟩
        rcases hp with rfl | rfl
        · exact .inl rfl
        · exact .inr ⟨d, hy⟩
      · obtain ⟨ha, -, hac⟩ := hentry d' a hd'
        exact ⟨hac, .inr (.inr ⟨d', ha⟩)⟩
  · refine h.ring.congr fun a ha => hlinks a ((h.tops_iff a).mpr (.inl ha)) ?_
    exact fun hac => hcR (hac ▸ ha)
  · intro a ha
    refine ⟨fun hap => hpR ?_, fun d' hd' => (h.root_ne a ha).2 d' (hentry d' a hd').1⟩
    rwa [← Finset.mem_singleton.mp hap]
  · intro a ha d' hd'
    exact (hentry d' a hd').2.1 (Finset.mem_singleton.mp ha)
  · intro a ha
    obtain rfl := Finset.mem_singleton.mp ha
    obtain ⟨hl, hr⟩ := hlinks a hptop hpne
    exact ⟨hl.trans hpself.1, hr.trans hpself.2⟩
  · intro d' a hd'
    obtain ⟨ha, hap, hac⟩ := hentry d' a hd'
    obtain ⟨hd, hlt, hl, hr⟩ := h.entry d' a ha
    obtain ⟨hl', hr'⟩ := hlinks a (h.mem_of_entry ha) hac
    exact ⟨(hdegne a hap).trans hd, hlt, hl'.trans hl, hr'.trans hr⟩
  · -- two weights of `2 ^ d` become one of `2 ^ (d + 1)`
    have hpe : p ∈ (tops mem N).erase c := Finset.mem_erase.mpr ⟨hpne, hptop⟩
    have hrest : ∑ a ∈ ((tops mem N).erase c).erase p, 2 ^ (fibheapLink mem c p a).degree =
        ∑ a ∈ ((tops mem N).erase c).erase p, 2 ^ (mem a).degree := by
      refine Finset.sum_congr rfl fun a ha => ?_
      rw [hdegne a (Finset.ne_of_mem_erase ha)]
    rw [potential, potential, htops, ← Finset.add_sum_erase _ _ hpe,
      ← Finset.add_sum_erase _ (fun a => 2 ^ (mem a).degree) hctop,
      ← Finset.add_sum_erase _ (fun a => 2 ^ (mem a).degree) hpe, hrest, hdegp, hpdeg, hcdeg,
      pow_succ]
    omega
  · rw [htops]
    exact Finset.card_erase_add_one hctop

/-- A root of degree `d` weighs `2 ^ d`. -/
theorem le_potential (hx : x ∈ tops mem N) : 2 ^ (mem x).degree ≤ potential mem N :=
  Finset.single_le_sum (f := fun a => 2 ^ (mem a).degree) (fun _ _ => Nat.zero_le _) hx

/-- One round of the loop links the tree in hand and the one of its degree, the root with the lower key on top.
Source: `fibheap.c` `fibheap_consolidate` (`while (a[d] != NULL)`)
Kind: L -/
theorem linkLoop_link (mem : Mem δ) {y : ℕ} (hd : d < 1 + 8 * sizeofLong) (hy : arr d = some y) (fuel : ℕ) :
    ∃ p c, (p = x ∧ c = y ∨ p = y ∧ c = x) ∧ (mem p).key ≤ (mem c).key ∧
      linkLoop sizeofLong (fuel + 1) mem arr x d =
        linkLoop sizeofLong fuel (fibheapLink mem c p) (Function.update arr d none) p (d + 1) := by
  rw [linkLoop, if_pos hd, hy]
  simp only [fibheapCompare]
  by_cases hlt : (mem x).key < (mem y).key
  · exact ⟨x, y, .inl ⟨rfl, rfl⟩, hlt.le, by simp [hlt]⟩
  · by_cases hgt : (mem x).key > (mem y).key
    · exact ⟨y, x, .inr ⟨rfl, rfl⟩, hgt.le, by simp [hlt, hgt]⟩
    · exact ⟨x, y, .inl ⟨rfl, rfl⟩, not_lt.mp hgt, by simp [hlt, hgt]⟩

/-- **The inner loop** ends with a free place for the tree in hand, or past the array.
Source: `fibheap.c` `fibheap_consolidate` (`while (a[d] != NULL)`)
Kind: L -/
theorem linkLoop_spec {fuel : ℕ} (h : Merging sizeofLong mem N R arr {x})
    (hdeg : (mem x).degree = d) (hfuel : (tops mem N).card < fuel) :
    (∃ mem' arr' x' d', linkLoop sizeofLong fuel mem arr x d = .ok (mem', arr', x', d') ∧
        Merging sizeofLong mem' N R arr' {x'} ∧ (mem' x').degree = d' ∧ arr' d' = none ∧
        d' < 1 + 8 * sizeofLong ∧ potential mem' N = potential mem N ∧ SameContents mem mem' N) ∨
      (linkLoop sizeofLong fuel mem arr x d = .error .outOfBounds ∧
        2 ^ (1 + 8 * sizeofLong) ≤ potential mem N) := by
  induction fuel generalizing mem arr x d with
  | zero => omega
  | succ fuel ih =>
    have hxtop : x ∈ tops mem N :=
      (h.tops_iff x).mpr (.inr (.inl (Finset.mem_singleton_self x)))
    by_cases hd : d < 1 + 8 * sizeofLong
    · cases hy : arr d with
      | none =>
        rw [linkLoop, if_pos hd, hy]
        exact .inl ⟨mem, arr, x, d, rfl, h, hdeg, hy, hd, rfl, SameContents.refl mem N⟩
      | some y =>
        -- one more link, and the rest of the loop
        obtain ⟨p, c, hpc, hkey, hstep⟩ := linkLoop_link mem hd hy fuel
        rw [hstep]
        obtain ⟨hm, hdeg', hpot, hsame, hcard⟩ := h.link hdeg hy hpc hkey
        rcases ih hm hdeg' (by omega) with
          ⟨mem', arr', x', d', heq, hm', hd', hfree, hlt, hpot', hsame'⟩ | ⟨heq, hbig⟩
        · exact .inl ⟨mem', arr', x', d', heq, hm', hd', hfree, hlt, hpot'.trans hpot,
            hsame.trans hsame'⟩
        · exact .inr ⟨heq, hpot ▸ hbig⟩
    · rw [linkLoop, if_neg hd]
      refine .inr ⟨rfl, le_trans ?_ (le_potential hxtop)⟩
      rw [hdeg]
      exact Nat.pow_le_pow_right (by omega) (not_lt.mp hd)

theorem Relinked.potential_eq {s : Finset ℕ} (h : Relinked mem mem' s) (N : Finset ℕ) :
    potential mem' N = potential mem N := by
  rw [potential, potential, h.tops_eq]
  exact Finset.sum_congr rfl fun a _ => by rw [h.degree]

/-- A root is taken out of the root list and in hand.
Source: `fibheap.c` `fibheap_consolidate` (`fibheap_rem_root (heap, w)`)
Kind: L -/
theorem Merging.take {w : ℕ} (h : Merging sizeofLong mem N R arr ∅) (hw : w ∈ R)
    (hrel : Relinked mem mem' R) (hring : Linked mem' (R.erase w))
    (hself : (mem' w).left = w ∧ (mem' w).right = w) :
    Merging sizeofLong mem' N (R.erase w) arr {w} := by
  have hRtops : R ⊆ tops mem N := fun a ha => (h.tops_iff a).mpr (.inl ha)
  refine ⟨h.forest.relinked hrel hRtops, fun a => ?_, hring, fun a ha => ?_, fun a ha => ?_,
    fun a ha => ?_, fun d a had => ?_⟩
  · rw [hrel.tops_eq, h.tops_iff, Finset.mem_erase, Finset.mem_singleton]
    constructor
    · rintro (haR | ha | hentry)
      · by_cases haw : a = w
        · exact .inr (.inl haw)
        · exact .inl ⟨haw, haR⟩
      · exact absurd ha (Finset.notMem_empty a)
      · exact .inr (.inr hentry)
    · rintro (⟨-, haR⟩ | rfl | hentry)
      · exact .inl haR
      · exact .inl hw
      · exact .inr (.inr hentry)
  · obtain ⟨haw, haR⟩ := Finset.mem_erase.mp ha
    exact ⟨fun h' => haw (Finset.mem_singleton.mp h'), (h.root_ne a haR).2⟩
  · obtain rfl := Finset.mem_singleton.mp ha
    exact (h.root_ne a hw).2
  · obtain rfl := Finset.mem_singleton.mp ha
    exact hself
  · have haR : a ∉ R := fun haR => (h.root_ne a haR).2 d had
    rw [hrel.1 a haR]
    exact h.entry d a had

/-- The tree in hand goes to its place. Source: `fibheap.c` `fibheap_consolidate` (`a[d] = x`).
Kind: L -/
theorem Merging.put (h : Merging sizeofLong mem N R arr {x}) (hdeg : (mem x).degree = d)
    (hfree : arr d = none) (hd : d < 1 + 8 * sizeofLong) :
    Merging sizeofLong mem N R (Function.update arr d (some x)) ∅ := by
  have hxX : x ∈ ({x} : Finset ℕ) := Finset.mem_singleton_self x
  have hentry : ∀ d' a, Function.update arr d (some x) d' = some a →
      (d' = d ∧ a = x) ∨ (d' ≠ d ∧ arr d' = some a) := by
    intro d' a ha
    by_cases hdd : d' = d
    · subst hdd
      rw [Function.update_self] at ha
      exact .inl ⟨rfl, (Option.some.inj ha).symm⟩
    · rw [Function.update_of_ne hdd] at ha
      exact .inr ⟨hdd, ha⟩
  refine ⟨h.forest, fun a => ?_, h.ring, fun a ha => ⟨Finset.notMem_empty a, fun d' hd' => ?_⟩,
    fun a ha => absurd ha (Finset.notMem_empty a), fun a ha => absurd ha (Finset.notMem_empty a),
    fun d' a hd' => ?_⟩
  · rw [h.tops_iff, Finset.mem_singleton]
    constructor
    · rintro (haR | rfl | ⟨d', hd'⟩)
      · exact .inl haR
      · exact .inr (.inr ⟨d, Function.update_self ..⟩)
      · have hdd : d' ≠ d := by
          rintro rfl
          rw [hfree] at hd'
          cases hd'
        exact .inr (.inr ⟨d', by rwa [Function.update_of_ne hdd]⟩)
    · rintro (haR | ha | ⟨d', hd'⟩)
      · exact .inl haR
      · exact absurd ha (Finset.notMem_empty a)
      · rcases hentry d' a hd' with ⟨-, rfl⟩ | ⟨-, hd'⟩
        · exact .inr (.inl rfl)
        · exact .inr (.inr ⟨d', hd'⟩)
  · rcases hentry d' a hd' with ⟨-, rfl⟩ | ⟨-, hd'⟩
    · exact (h.root_ne a ha).1 hxX
    · exact (h.root_ne a ha).2 d' hd'
  · rcases hentry d' a hd' with ⟨rfl, rfl⟩ | ⟨-, hd'⟩
    · exact ⟨hdeg, hd, h.hand a hxX⟩
    · exact h.entry d' a hd'

/-- **The outer loop** brings all roots into the array, or leaves it.
Source: `fibheap.c` `fibheap_consolidate` (`while ((w = heap->root) != NULL)`)
Kind: L -/
theorem rootLoop_spec {linkFuel fuel : ℕ} (h : Merging sizeofLong mem N R arr ∅)
    (hroot : PointsInto heap.root R) (hlink : N.card < linkFuel) (hfuel : R.card < fuel) :
    (∃ mem' heap' arr', rootLoop sizeofLong linkFuel fuel mem heap arr = .ok (mem', heap', arr') ∧
        Merging sizeofLong mem' N ∅ arr' ∅ ∧ heap'.root = none ∧ heap'.nodes = heap.nodes ∧
        potential mem' N = potential mem N ∧ SameContents mem mem' N) ∨
      (rootLoop sizeofLong linkFuel fuel mem heap arr = .error .outOfBounds ∧
        2 ^ (1 + 8 * sizeofLong) ≤ potential mem N) := by
  induction fuel generalizing mem heap arr R with
  | zero => omega
  | succ fuel ih =>
    rw [rootLoop]
    cases hr : heap.root with
    | none =>
      rw [hr] at hroot
      obtain rfl : R = ∅ := hroot
      exact .inl ⟨mem, heap, arr, rfl, h, hr, rfl, rfl, SameContents.refl mem N⟩
    | some w =>
      rw [hr] at hroot
      have hRtops : R ⊆ tops mem N := fun a ha => (h.tops_iff a).mpr (.inl ha)
      have hwtop := mem_tops.mp (hRtops hroot)
      have hR : RootRing mem heap R := ⟨h.ring, hr ▸ hroot⟩
      obtain ⟨hrel, hring, hself, -, hnodes⟩ :=
        remRoot_spec hR hroot hwtop.2
      have hm := h.take hroot hrel hring.1 hself
      have hpot := hrel.potential_eq N
      have hsame := hrel.sameContents (hRtops.trans (Finset.filter_subset _ _))
      have hcard : (tops (fibheapRemRoot mem heap w).1 N).card < linkFuel :=
        lt_of_le_of_lt (Finset.card_le_card (Finset.filter_subset _ _)) hlink
      dsimp only
      rcases linkLoop_spec hm rfl hcard with
        ⟨mem2, arr2, x, d, heq, hm2, hdeg, hfree, hd, hpot2, hsame2⟩ | ⟨heq, hbig⟩
      · have hput := hm2.put hdeg hfree hd
        have hcard' : (R.erase w).card < fuel := by
          rw [Finset.card_erase_of_mem hroot]
          have := Finset.card_pos.mpr ⟨w, hroot⟩
          omega
        simp only [heq, bind, Except.bind]
        rcases ih hput hring.2 hcard' with
          ⟨mem', heap', arr', heq', hm', hroot', hnodes', hpot', hsame'⟩ | ⟨heq', hbig⟩
        · exact .inl ⟨mem', heap', arr', heq', hm', hroot', hnodes'.trans hnodes,
            hpot'.trans (hpot2.trans hpot), hsame.trans (hsame2.trans hsame')⟩
        · refine .inr ⟨heq', ?_⟩
          rwa [hpot2, hpot] at hbig
      · simp only [heq, bind, Except.bind]
        refine .inr ⟨trivial, ?_⟩
        rwa [hpot] at hbig

/-! ## Putting the trees back -/

/-- The roots of degree below `i`. Source: `fibheap.c` `fibheap_consolidate` (`i`). -/
def lowTops (mem : Mem δ) (N : Finset ℕ) (i : ℕ) : Finset ℕ :=
  (tops mem N).filter fun a => (mem a).degree < i

/-- One more place of the array. -/
theorem Merging.lowTops_succ (h : Merging sizeofLong mem N ∅ arr ∅) (i : ℕ) :
    lowTops mem N (i + 1) = (arr i).elim (lowTops mem N i) fun x => insert x (lowTops mem N i) := by
  -- a root of degree `i` is the entry at `i`
  have hentry : ∀ a, a ∈ tops mem N ∧ (mem a).degree = i ↔ arr i = some a := by
    intro a
    constructor
    · rintro ⟨ha, hdeg⟩
      rcases (h.tops_iff a).mp ha with ha | ha | ⟨d, hd⟩
      · exact absurd ha (Finset.notMem_empty a)
      · exact absurd ha (Finset.notMem_empty a)
      · rw [← hdeg, (h.entry d a hd).1]
        exact hd
    · intro ha
      exact ⟨h.mem_of_entry ha, (h.entry i a ha).1⟩
  ext a
  have ha := hentry a
  cases harr : arr i with
  | none =>
    rw [harr] at ha
    simp only [lowTops, Finset.mem_filter, Option.elim_none]
    constructor
    · rintro ⟨htop, hlt⟩
      have hne : (mem a).degree ≠ i := fun heq => Option.some_ne_none a (ha.mp ⟨htop, heq⟩).symm
      exact ⟨htop, by omega⟩
    · rintro ⟨htop, hlt⟩
      exact ⟨htop, by omega⟩
  | some x =>
    rw [harr, Option.some_inj] at ha
    simp only [lowTops, Finset.mem_filter, Option.elim_some, Finset.mem_insert]
    constructor
    · rintro ⟨htop, hlt⟩
      by_cases heq : (mem a).degree = i
      · exact .inl (ha.mp ⟨htop, heq⟩).symm
      · exact .inr ⟨htop, by omega⟩
    · rintro (rfl | ⟨htop, hlt⟩)
      · obtain ⟨htop, heq⟩ := ha.mpr rfl
        exact ⟨htop, by omega⟩
      · exact ⟨htop, by omega⟩

/-- A new node is compared with the least one so far. -/
theorem Least.insert {s : Finset ℕ} {m : ℕ} (h : Least mem (some m) s)
    (hkey : ∀ a, (mem' a).key = (mem a).key) :
    ((mem' x).key < (mem' m).key → Least mem' (some x) (insert x s)) ∧
      (¬ (mem' x).key < (mem' m).key → Least mem' (some m) (insert x s)) := by
  refine ⟨fun hlt => ⟨Finset.mem_insert_self x s, ?_⟩,
    fun hge => ⟨Finset.mem_insert_of_mem h.1, ?_⟩⟩
  · intro a ha
    rcases Finset.mem_insert.mp ha with rfl | ha
    · exact le_rfl
    · refine hlt.le.trans ?_
      rw [hkey, hkey]
      exact h.2 a ha
  · intro a ha
    rcases Finset.mem_insert.mp ha with rfl | ha
    · exact not_lt.mp hge
    · rw [hkey, hkey]
      exact h.2 a ha

/-- The only node is the least one. -/
theorem least_singleton (mem : Mem δ) (x : ℕ) : Least mem (some x) {x} := by
  refine ⟨Finset.mem_singleton_self x, ?_⟩
  intro a ha
  rw [Finset.mem_singleton.mp ha]

theorem fibheapCompare_neg (mem : Mem δ) (a b : ℕ) :
    fibheapCompare mem a b < 0 ↔ (mem a).key < (mem b).key := by
  unfold fibheapCompare
  split_ifs <;> simp [*]

/-- **The last loop** makes the entries of the array the root list.
Source: `fibheap.c` `fibheap_consolidate` (`for (i = 0; i < D; i++)`)
Kind: L -/
theorem collectLoop_spec (h : Merging sizeofLong mem N ∅ arr ∅) (hroot : heap.root = none) (i : ℕ) :
    Relinked mem (collectLoop arr mem heap i).1 (lowTops mem N i) ∧
      RootRing (collectLoop arr mem heap i).1 (collectLoop arr mem heap i).2 (lowTops mem N i) ∧
      Least (collectLoop arr mem heap i).1 (collectLoop arr mem heap i).2.min (lowTops mem N i) ∧
      (collectLoop arr mem heap i).2.nodes = heap.nodes := by
  induction i with
  | zero =>
    have hempty : lowTops mem N 0 = ∅ := Finset.filter_false_of_mem fun a _ => Nat.not_lt_zero _
    rw [hempty, collectLoop]
    refine ⟨Relinked.refl mem ∅, ⟨isRing_empty, ?_⟩, rfl, rfl⟩
    change PointsInto heap.root ∅
    rw [hroot]
    rfl
  | succ i ih =>
    obtain ⟨hrel, hring, hleast, hnodes⟩ := ih
    rw [h.lowTops_succ i, collectLoop]
    generalize collectLoop arr mem heap i = r at hrel hring hleast hnodes
    obtain ⟨mem1, heap1⟩ := r
    cases harr : arr i with
    | none => exact ⟨hrel, hring, hleast, hnodes⟩
    | some x =>
      have hx : x ∉ lowTops mem N i := by
        intro hx
        have := (Finset.mem_filter.mp hx).2
        rw [(h.entry i x harr).1] at this
        exact lt_irrefl i this
      obtain ⟨hrel2, hring2, hmin2, hnodes2⟩ := insRoot_spec hring hx
      have hrel' := hrel.trans hrel2 (Finset.subset_insert x _)
      have hnodes' := hnodes2.trans hnodes
      simp only [Option.elim_some, fibheapCompare_neg]
      dsimp only at hmin2 hleast
      rw [← hmin2] at hleast
      generalize fibheapInsRoot mem1 heap1 x = r at hrel2 hrel' hring2 hmin2 hnodes' hleast
      obtain ⟨mem2, heap2⟩ := r
      dsimp only at hrel2 hrel' hring2 hmin2 hnodes' hleast ⊢
      cases hm : heap2.min with
      | none =>
        rw [hm] at hleast
        have hempty : lowTops mem N i = ∅ := hleast
        rw [hempty] at hring2 hrel' ⊢
        exact ⟨hrel', hring2, least_singleton mem2 x, hnodes'⟩
      | some m =>
        rw [hm] at hleast
        obtain ⟨hpos, hneg⟩ := hleast.insert hrel2.key
        dsimp only
        split_ifs with hlt
        · exact ⟨hrel', hring2, hpos hlt, hnodes'⟩
        · exact ⟨hrel', hring2, hm ▸ hneg hlt, hnodes'⟩

/-! ## The whole of it -/

/-- The state before the first root is taken. Source: `fibheap.c` `fibheap_consolidate`. Kind: L -/
theorem Merging.start (hf : Forest mem N none) (hring : Linked mem (tops mem N)) :
    Merging sizeofLong mem N (tops mem N) (fun _ => none) ∅ := by
  refine ⟨hf, fun a => ?_, hring, fun a _ => ⟨Finset.notMem_empty a, fun d hd => ?_⟩,
    fun a ha => absurd ha (Finset.notMem_empty a), fun a ha => absurd ha (Finset.notMem_empty a),
    fun d a hd => ?_⟩
  · constructor
    · exact .inl
    · rintro (ha | ha | ⟨d, hd⟩)
      · exact ha
      · exact absurd ha (Finset.notMem_empty a)
      · cases hd
  · cases hd
  · cases hd

/-- Trees of different degrees below `D` weigh less than `2 ^ D`. -/
theorem Merging.potential_lt (h : Merging sizeofLong mem N ∅ arr ∅) :
    potential mem N < 2 ^ (1 + 8 * sizeofLong) := by
  have hentry : ∀ a ∈ tops mem N, arr (mem a).degree = some a := by
    intro a ha
    rcases (h.tops_iff a).mp ha with ha | ha | ⟨d, hd⟩
    · exact absurd ha (Finset.notMem_empty a)
    · exact absurd ha (Finset.notMem_empty a)
    · rw [(h.entry d a hd).1]
      exact hd
  have hinj : Set.InjOn (fun a => (mem a).degree) (tops mem N) := by
    intro a ha b hb hab
    have hab' : (mem a).degree = (mem b).degree := hab
    have ha' := hentry a ha
    rw [hab', hentry b hb] at ha'
    exact (Option.some.inj ha').symm
  rw [potential, ← Finset.sum_image (f := fun d => 2 ^ d) hinj]
  refine Nat.geomSum_lt le_rfl fun d hd => ?_
  obtain ⟨a, ha, rfl⟩ := Finset.mem_image.mp hd
  exact (h.entry _ a (hentry a ha)).2.1

/-- **`fibheap_consolidate`** rebuilds the heap if the roots are light enough for the array, and
indexes past it if they are not.
Source: `fibheap.c` `fibheap_consolidate`
Kind: L -/
theorem consolidate_spec {fuel : ℕ} (hf : Forest mem N none) (hR : RootRing mem heap (tops mem N))
    (hnodes : heap.nodes = N.card) (hfuel : N.card < fuel) :
    (potential mem N < 2 ^ (1 + 8 * sizeofLong) →
      ∃ mem' heap', fibheapConsolidate sizeofLong fuel mem heap = .ok (mem', heap') ∧
        HeapInv mem' heap' N ∧ SameContents mem mem' N) ∧
    (2 ^ (1 + 8 * sizeofLong) ≤ potential mem N →
      fibheapConsolidate sizeofLong fuel mem heap = .error .outOfBounds) := by
  have hcard : (tops mem N).card < fuel :=
    lt_of_le_of_lt (Finset.card_le_card (Finset.filter_subset _ _)) hfuel
  rw [fibheapConsolidate]
  rcases rootLoop_spec (Merging.start hf hR.1) hR.2 hfuel hcard with
    ⟨mem1, heap1, arr, heq, hm, hroot, hnodes1, hpot, hsame⟩ | ⟨heq, hbig⟩
  · refine ⟨fun _ => ?_, fun hbig => ?_⟩
    · obtain ⟨hrel, hring, hleast, hnodes2⟩ := collectLoop_spec hm hroot (1 + 8 * sizeofLong)
      -- all degrees are below the length of the array
      have hlow : lowTops mem1 N (1 + 8 * sizeofLong) = tops mem1 N := by
        refine Finset.filter_true_of_mem fun a ha => ?_
        rcases (hm.tops_iff a).mp ha with ha | ha | ⟨d, hd⟩
        · exact absurd ha (Finset.notMem_empty a)
        · exact absurd ha (Finset.notMem_empty a)
        · rw [(hm.entry d a hd).1]
          exact (hm.entry d a hd).2.1
      rw [hlow] at hrel hring hleast
      refine ⟨_, _, by rw [heq]; rfl, ⟨hm.forest.relinked hrel subset_rfl, ?_, ?_, ?_⟩,
        hsame.trans (hrel.sameContents (Finset.filter_subset _ _))⟩
      · rw [hrel.tops_eq]
        exact hring
      · rw [hrel.tops_eq]
        exact hleast
      · rw [hnodes2, hnodes1, hnodes]
    · have := hm.potential_lt
      omega
  · refine ⟨fun hsmall => absurd hbig (not_le.mpr hsmall), fun _ => ?_⟩
    rw [heq]
    rfl

end Consolidation

end GccCore.Iberty.Fibheap
