import GccCore.Iberty.Fibheap.Delete
import GccCore.Lib.FibTree
import Mathlib.Data.Set.Card

/-!
# `libiberty/fibheap.c`: the bound on the degrees

A node of degree `d` has at least `fib (d + 2)` descendants, so that the array of
`fibheap_consolidate` is long enough for every heap that can be built.

* **What the marks record** (`Graded`): among the children of a node at most `t` have a degree, plus
  one for a mark, below `t`. A link adds a child whose degree is the number of the others and clears
  its mark; a child that loses a child of its own is marked, or cut if it is marked already.
* **Each function keeps it**, up to the one node that has lost a child and is not marked yet, from
  which `fibheap_cascading_cut` starts (`Graded.cascadingCut`).
* **Runs** (`fibheap_degree_bound`): the bound holds after every run, and no call on a heap of at
  most `fib (3 + 8 * sizeof (long))` nodes indexes past the array.
-/

namespace GccCore.Iberty.Fibheap

open GccCore.Lib.FibTree

/-! ## What the marks record -/

section Grading

variable {δ : Type} {mem mem' mem'' : Mem δ} {heap : FibHeap} {N N' : Finset ℕ} {e e' : Option ℕ}
  {x y node : ℕ}

/-- The degree of a child, with one for a mark, and one for the child `e` that has lost a child which
is not recorded yet.
Source: `fibheap.h` (`degree`, `mark`) -/
def worth (mem : Mem δ) (e : Option ℕ) (c : ℕ) : ℕ :=
  (mem c).degree + (mem c).mark.toNat + if e = some c then 1 else 0

/-- **The grading**: for every `t`, at most `t` children of a node are worth less than `t`.
Source: `fibheap.h` (`mark`) -/
def Graded (mem : Mem δ) (N : Finset ℕ) (e : Option ℕ) : Prop :=
  ∀ x ∈ N, Spread (kids mem N x) (worth mem e)

/-- Nodes may leave and lose their parents, and the others may be worth more. -/
theorem Graded.mono (h : Graded mem N e) (hN : N' ⊆ N)
    (hparent : ∀ a ∈ N', ∀ p, (mem' a).parent = some p →
      (mem a).parent = some p ∧ worth mem e a ≤ worth mem' e' a) : Graded mem' N' e' := by
  intro x hx
  refine (h x (hN hx)).mono (fun a ha => ?_) fun a ha => ?_
  · obtain ⟨haN, hap⟩ := mem_kids.mp ha
    exact mem_kids.mpr ⟨hN haN, (hparent a haN x hap).1⟩
  · obtain ⟨haN, hap⟩ := mem_kids.mp ha
    exact (hparent a haN x hap).2

/-- **The size of a tree**: at least `fib (d + 2)` for a root of degree `d`. -/
theorem Graded.fib_le (hg : Graded mem N none) (hf : Shape mem N none) (hx : x ∈ N) :
    Nat.fib ((mem x).degree + 2) ≤ (below (fun a => (mem a).parent) N x).card := by
  obtain ⟨rank, hrank⟩ := hf.rank
  have hdegree : ∀ a ∈ N, (mem a).degree = (children (fun a => (mem a).parent) N a).card :=
    fun a ha => (hf.node a ha (by simp)).degree
  rw [hdegree x hx]
  refine fib_le_card_below hf.parent_mem hrank (fun a ha => ?_) hx
  refine (hg a ha).mono subset_rfl fun c hc => ?_
  rw [← hdegree c (mem_kids.mp hc).1, worth, if_neg (by simp)]
  have := Bool.toNat_le (mem c).mark
  omega

/-- The degrees are below the index of the Fibonacci number that bounds the number of nodes. -/
theorem Graded.fib_le_card (hg : Graded mem N none) (hf : Shape mem N none) (hx : x ∈ N) {d : ℕ}
    (hd : d ≤ (mem x).degree) : Nat.fib (d + 2) ≤ N.card := by
  calc Nat.fib (d + 2)
      ≤ Nat.fib ((mem x).degree + 2) := Nat.fib_mono (by omega)
    _ ≤ (below (fun a => (mem a).parent) N x).card := hg.fib_le hf hx
    _ ≤ N.card := Finset.card_le_card fun a ha => (mem_below.mp ha).1

/-! ## Functions that leave degrees and marks -/

/-- Parents may be lost, and degrees and marks are kept. -/
structure Loosened (mem mem' : Mem δ) : Prop where
  parent : ∀ a p, (mem' a).parent = some p → (mem a).parent = some p
  degree : ∀ a, (mem' a).degree = (mem a).degree
  mark : ∀ a, (mem' a).mark = (mem a).mark

theorem Loosened.trans (h : Loosened mem mem') (h' : Loosened mem' mem'') : Loosened mem mem'' :=
  ⟨fun a p hp => h.parent a p (h'.parent a p hp), fun a => (h'.degree a).trans (h.degree a),
    fun a => (h'.mark a).trans (h.mark a)⟩

theorem Graded.loosened (h : Graded mem N e) (hl : Loosened mem mem') (hN : N' ⊆ N) :
    Graded mem' N' e := by
  refine h.mono hN fun a _ p hp => ⟨hl.parent a p hp, ?_⟩
  rw [worth, worth, hl.degree, hl.mark]

/-- An assignment to one node. -/
theorem loosened_modify (mem : Mem δ) (p : ℕ) {f : FibNode δ → FibNode δ}
    (hparent : ∀ n q, (f n).parent = some q → n.parent = some q)
    (hdegree : ∀ n, (f n).degree = n.degree) (hmark : ∀ n, (f n).mark = n.mark) :
    Loosened mem (modify mem p f) := by
  refine ⟨fun a q hq => ?_, fun a => ?_, fun a => modify_mark mem p a hmark⟩
  · rw [modify_apply] at hq
    split_ifs at hq with ha
    · rw [ha]
      exact hparent _ q hq
    · exact hq
  · rw [modify_apply]
    split_ifs with ha
    · rw [ha, hdegree]
    · rfl

/-- An assignment to a link or a child pointer. -/
theorem loosened_links (mem : Mem δ) (p : ℕ) {f : FibNode δ → FibNode δ}
    (hf : ∀ n, (f n).parent = n.parent ∧ (f n).degree = n.degree ∧ (f n).mark = n.mark) :
    Loosened mem (modify mem p f) :=
  loosened_modify mem p (fun n _ hq => (hf n).1 ▸ hq) (fun n => (hf n).2.1) fun n => (hf n).2.2

theorem loosened_insertAfter (mem : Mem δ) (a b : ℕ) :
    Loosened mem (fibnodeInsertAfter mem a b) := by
  simp only [fibnodeInsertAfter]
  split_ifs
  · exact (loosened_links _ _ (by exact fun n => ⟨rfl, rfl, rfl⟩)).trans
      (loosened_links _ _ (by exact fun n => ⟨rfl, rfl, rfl⟩))
  · exact (((loosened_links _ _ (by exact fun n => ⟨rfl, rfl, rfl⟩)).trans
      (loosened_links _ _ (by exact fun n => ⟨rfl, rfl, rfl⟩))).trans
      (loosened_links _ _ (by exact fun n => ⟨rfl, rfl, rfl⟩))).trans
      (loosened_links _ _ (by exact fun n => ⟨rfl, rfl, rfl⟩))

theorem loosened_insRoot (mem : Mem δ) (heap : FibHeap) (node : ℕ) :
    Loosened mem (fibheapInsRoot mem heap node).1 := by
  unfold fibheapInsRoot
  split
  · dsimp only
    exact loosened_links _ _ (by exact fun n => ⟨rfl, rfl, rfl⟩)
  · exact loosened_insertAfter ..

theorem loosened_remove (mem : Mem δ) (node : ℕ) : Loosened mem (fibnodeRemove mem node).2 := by
  refine ⟨fun a p hp => ?_, fun a => ?_, fun a => ?_⟩
  · rw [fibnodeRemove_apply] at hp
    by_cases ha : a = node
    · rw [if_pos ha] at hp
      cases hp
    · rwa [if_neg ha] at hp
  · rw [fibnodeRemove_apply]
    split_ifs <;> rfl
  · rw [fibnodeRemove_apply]
    split_ifs <;> rfl

theorem loosened_remRoot (mem : Mem δ) (heap : FibHeap) (node : ℕ) :
    Loosened mem (fibheapRemRoot mem heap node).1 := by
  unfold fibheapRemRoot
  split_ifs
  · exact ⟨fun _ _ => id, fun _ => rfl, fun _ => rfl⟩
  · exact loosened_remove mem node

/-- **The promotion** of the children of the old minimum keeps their marks.
Source: `fibheap.c` `fibheap_extr_min_node` (`for (x = ret->child, orig = NULL; ...)`)
Kind: L -/
theorem loosened_promoteLoop {fuel : ℕ} {x orig : Option ℕ} {heap' : FibHeap}
    (hrun : promoteLoop fuel mem heap x orig = .ok (mem', heap')) : Loosened mem mem' := by
  induction fuel generalizing mem heap x orig with
  | zero => cases hrun
  | succ fuel ih =>
    cases x with
    | none =>
      simp only [promoteLoop, Except.ok.injEq, Prod.mk.injEq] at hrun
      exact hrun.1 ▸ ⟨fun _ _ => id, fun _ => rfl, fun _ => rfl⟩
    | some p =>
      rw [promoteLoop] at hrun
      split_ifs at hrun with horig
      · simp only [Except.ok.injEq, Prod.mk.injEq] at hrun
        exact hrun.1 ▸ ⟨fun _ _ => id, fun _ => rfl, fun _ => rfl⟩
      · have hparent : Loosened mem (modify mem p fun n => { n with parent := none }) :=
          loosened_modify mem p (fun n q hq => absurd hq (by simp)) (fun n => rfl) fun n => rfl
        exact (hparent.trans (loosened_insRoot ..)).trans (ih hrun)

/-! ## Functions that change degrees and marks -/

/-- **`fibheap_link`** of two roots of one degree.
Source: `fibheap.c` `fibheap_link`
Kind: L -/
theorem Graded.link (hg : Graded mem N none) (hf : Shape mem N none) (hx : x ∈ tops mem N)
    (hy : y ∈ tops mem N) (hxy : x ≠ y) (hdeg : (mem x).degree = (mem y).degree) :
    Graded (fibheapLink mem y x) N none := by
  have hl : Loosened mem (linkChild mem y x) := by
    unfold linkChild
    split
    · exact loosened_links _ _ (by exact fun n => ⟨rfl, rfl, rfl⟩)
    · exact loosened_insertAfter ..
  have happly := @fibheapLink_apply δ mem x y hxy
  generalize hmem' : fibheapLink mem y x = mem' at happly ⊢
  have hparent : ∀ a ≠ y, ∀ p, (mem' a).parent = some p → (mem a).parent = some p := by
    intro a ha p hp
    rw [happly, if_neg ha] at hp
    exact hl.parent a p hp
  have hworth : ∀ a ≠ y, worth mem none a ≤ worth mem' none a := by
    intro a ha
    simp only [worth, happly, if_neg ha, hl.degree, hl.mark]
    split_ifs <;> omega
  have hyk : ∀ b, y ∉ kids mem N b := by
    intro b hb
    rw [mem_kids, (mem_tops.mp hy).2] at hb
    cases hb.2
  have hne : ∀ b, ∀ c ∈ kids mem N b, c ≠ y := by
    rintro b c hc rfl
    exact hyk b hc
  intro b hb
  by_cases hbx : b = x
  · subst hbx
    -- the new child is worth the number of the old ones
    have hcard : (kids mem N b).card ≤ worth mem' none y := by
      rw [← (hf.node b hb (by simp)).degree, hdeg]
      simp only [worth, happly, if_neg hxy.symm, hl.degree]
      omega
    have hold : Spread (kids mem N b) (worth mem' none) :=
      (hg b hb).mono subset_rfl fun c hc => hworth c (hne b c hc)
    refine (hold.insert (hyk b) hcard).mono (fun c hc => ?_) fun _ _ => le_rfl
    obtain ⟨hcN, hcp⟩ := mem_kids.mp hc
    by_cases hcy : c = y
    · rw [hcy]
      exact Finset.mem_insert_self y _
    · exact Finset.mem_insert_of_mem (mem_kids.mpr ⟨hcN, hparent c hcy b hcp⟩)
  · have hsub : kids mem' N b ⊆ kids mem N b := by
      intro c hc
      obtain ⟨hcN, hcp⟩ := mem_kids.mp hc
      have hcy : c ≠ y := by
        rintro rfl
        rw [happly, if_pos rfl] at hcp
        exact hbx (Option.some.inj hcp).symm
      exact mem_kids.mpr ⟨hcN, hparent c hcy b hcp⟩
    exact (hg b hb).mono hsub fun c hc => hworth c (hne b c (hsub hc))

/-- **`fibheap_cut`** leaves a parent that has lost a child. The node that is cut need not be marked
for what it has lost before.
Source: `fibheap.c` `fibheap_cut`
Kind: L -/
theorem Graded.cut (hg : Graded mem N e) (he : ∀ a, e = some a → a = node) (heap : FibHeap)
    (y : ℕ) : Graded (fibheapCut mem heap node y).1 N (some y) := by
  have hremove := loosened_remove mem node
  have hform : (fibheapCut mem heap node y).1 =
      modify (fibheapInsRoot (detach mem node y) heap node).1 node
        fun n => { n with parent := none, mark := false } := rfl
  have hcut : ∀ a, a ≠ node → ∀ p, ((fibheapCut mem heap node y).1 a).parent = some p →
      (mem a).parent = some p ∧
      (mem a).degree ≤ ((fibheapCut mem heap node y).1 a).degree + (if y = a then 1 else 0) := by
    intro a ha p hp
    have hinsert := loosened_insRoot (detach mem node y) heap node
    have hval : (fibheapCut mem heap node y).1 a =
        (fibheapInsRoot (detach mem node y) heap node).1 a := by
      rw [hform, modify_apply, if_neg ha]
    rw [hval] at hp ⊢
    have hp' := hinsert.parent a p hp
    rw [hinsert.degree a]
    rw [detach, modify_apply] at hp' ⊢
    split_ifs at hp' ⊢ with h h'
    · subst h
      refine ⟨hremove.parent a p hp', ?_⟩
      have := hremove.degree a
      dsimp only
      omega
    · exact absurd h.symm h'
    · rename_i h'
      exact absurd h'.symm h
    · exact ⟨hremove.parent a p hp', (hremove.degree a).ge⟩
  refine hg.mono subset_rfl fun a _ p hp => ?_
  have ha : a ≠ node := by
    rintro rfl
    rw [hform, modify_self] at hp
    cases hp
  obtain ⟨hparent, hdegree⟩ := hcut a ha p hp
  refine ⟨hparent, ?_⟩
  rw [worth, worth, fibheapCut_mark mem heap node y ha, if_neg fun h => ha (he a h)]
  simp only [Option.some.injEq]
  omega

/-- **`fibheap_cascading_cut`** records the child that was lost.
Source: `fibheap.c` `fibheap_cascading_cut`
Kind: L -/
theorem Graded.cascadingCut {fuel : ℕ} {heap' : FibHeap} (hg : Graded mem N (some y))
    (hrun : fibheapCascadingCut fuel mem heap y = .ok (mem', heap')) : Graded mem' N none := by
  induction fuel generalizing mem heap y with
  | zero => cases hrun
  | succ fuel ih =>
    rw [fibheapCascadingCut] at hrun
    cases hp : (mem y).parent with
    | none =>
      simp only [hp, Except.ok.injEq, Prod.mk.injEq] at hrun
      rw [← hrun.1]
      -- a root is nobody's child
      refine hg.mono subset_rfl fun a _ p hap => ⟨hap, ?_⟩
      have hay : y ≠ a := by
        rintro rfl
        rw [hp] at hap
        cases hap
      simp [worth, hay]
    | some z =>
      simp only [hp] at hrun
      split_ifs at hrun with hmark
      · simp only [Except.ok.injEq, Prod.mk.injEq] at hrun
        rw [← hrun.1]
        refine hg.mono subset_rfl fun a _ p hap => ?_
        rw [worth, worth, modify_apply]
        rw [modify_apply] at hap
        by_cases hay : a = y
        · rw [if_pos hay] at hap ⊢
          rw [hay, hmark]
          exact ⟨hap, by simp⟩
        · rw [if_neg hay] at hap ⊢
          rw [if_neg fun h => hay (Option.some.inj h).symm]
          exact ⟨hap, by simp⟩
      · exact ih (hg.cut (fun a ha => (Option.some.inj ha).symm) heap z) hrun

end Grading

/-! ## Consolidation -/

section Consolidation

variable {δ : Type} {mem mem' : Mem δ} {heap heap' : FibHeap} {N R : Finset ℕ}
  {arr arr' : ℕ → Option ℕ} {sizeofLong fuel x d : ℕ}

/-- **The inner loop** links roots of one degree, and leaves the array only from a tree that is as
large as all that the bound allows.
Source: `fibheap.c` `fibheap_consolidate` (`while (a[d] != NULL)`)
Kind: L -/
theorem Graded.linkLoop (hg : Graded mem N none) (mem' : Mem δ) (h : Merging sizeofLong mem N R arr {x})
    (hdeg : (mem x).degree = d) :
    (∀ arr' x' d', linkLoop sizeofLong fuel mem arr x d = .ok (mem', arr', x', d') →
      Graded mem' N none) ∧
    (Fibheap.linkLoop sizeofLong fuel mem arr x d = .error .outOfBounds →
      Nat.fib (3 + 8 * sizeofLong) ≤ N.card) := by
  induction fuel generalizing mem arr x d with
  | zero =>
    refine ⟨fun _ _ _ hrun => ?_, fun hrun => ?_⟩
    · cases hrun
    · cases hrun
  | succ fuel ih =>
    have hxtop : x ∈ tops mem N :=
      (h.tops_iff x).mpr (.inr (.inl (Finset.mem_singleton_self x)))
    by_cases hd : d < 1 + 8 * sizeofLong
    · cases hy : arr d with
      | none =>
        rw [Fibheap.linkLoop, if_pos hd, hy]
        refine ⟨fun arr' x' d' hrun => ?_, fun hrun => by cases hrun⟩
        simp only [Except.ok.injEq, Prod.mk.injEq] at hrun
        exact hrun.1 ▸ hg
      | some y =>
        have hytop := h.mem_of_entry hy
        have hydeg := (h.entry d y hy).1
        have hxy : x ≠ y := fun heq => h.hand_ne x (Finset.mem_singleton_self x) d (heq ▸ hy)
        -- one more link, and the rest of the loop
        obtain ⟨p, c, hpc, hkey, hstep⟩ := linkLoop_link mem hd hy fuel
        rw [hstep]
        obtain ⟨hm, hdeg', -⟩ := h.link hdeg hy hpc hkey
        refine ih ?_ hm hdeg'
        rcases hpc with ⟨rfl, rfl⟩ | ⟨rfl, rfl⟩
        · exact hg.link h.forest.toShape hxtop hytop hxy (hdeg.trans hydeg.symm)
        · exact hg.link h.forest.toShape hytop hxtop hxy.symm (hydeg.trans hdeg.symm)
    · rw [Fibheap.linkLoop, if_neg hd]
      refine ⟨fun _ _ _ hrun => absurd hrun (by simp), fun _ => ?_⟩
      have hfib := hg.fib_le_card h.forest.toShape (mem_tops.mp hxtop).1
        (d := 1 + 8 * sizeofLong) (by omega)
      rwa [show 1 + 8 * sizeofLong + 2 = 3 + 8 * sizeofLong by omega] at hfib

/-- **The outer loop.** Source: `fibheap.c` `fibheap_consolidate` (`while ((w = heap->root) != NULL)`).
Kind: L -/
theorem Graded.rootLoop {linkFuel : ℕ} (hg : Graded mem N none) (mem' : Mem δ)
    (h : Merging sizeofLong mem N R arr ∅) (hroot : PointsInto heap.root R)
    (hlink : N.card < linkFuel) :
    (∀ heap' arr', rootLoop sizeofLong linkFuel fuel mem heap arr = .ok (mem', heap', arr') →
      Graded mem' N none) ∧
    (Fibheap.rootLoop sizeofLong linkFuel fuel mem heap arr = .error .outOfBounds →
      Nat.fib (3 + 8 * sizeofLong) ≤ N.card) := by
  induction fuel generalizing mem heap arr R with
  | zero =>
    refine ⟨fun _ _ hrun => ?_, fun hrun => ?_⟩
    · cases hrun
    · cases hrun
  | succ fuel ih =>
    rw [Fibheap.rootLoop]
    cases hr : heap.root with
    | none =>
      refine ⟨fun heap' arr' hrun => ?_, fun hrun => by cases hrun⟩
      simp only [Except.ok.injEq, Prod.mk.injEq] at hrun
      exact hrun.1 ▸ hg
    | some w =>
      rw [hr] at hroot
      have hwtop := mem_tops.mp ((h.tops_iff w).mpr (.inl hroot))
      have hR : RootRing mem heap R := ⟨h.ring, hr ▸ hroot⟩
      obtain ⟨hrel, hring, hself, -, -⟩ := remRoot_spec hR hroot hwtop.2
      have hm := h.take hroot hrel hring.1 hself
      have hg1 := hg.loosened (loosened_remRoot mem heap w) subset_rfl
      have hcard : (tops (fibheapRemRoot mem heap w).1 N).card < linkFuel :=
        lt_of_le_of_lt (Finset.card_le_card (Finset.filter_subset _ _)) hlink
      dsimp only
      rcases linkLoop_spec hm rfl hcard with
        ⟨mem2, arr2, x, d, heq, hm2, hdeg, hfree, hd, -, -⟩ | ⟨heq, -⟩
      · simp only [heq, bind, Except.bind]
        exact ih ((hg1.linkLoop _ hm rfl).1 arr2 x d heq) (hm2.put hdeg hfree hd) hring.2
      · simp only [heq, bind, Except.bind]
        refine ⟨fun _ _ hrun => absurd hrun (by simp), fun _ => ?_⟩
        exact (hg1.linkLoop mem' hm rfl).2 heq

/-- **`fibheap_consolidate`** keeps the grading, and indexes past its array only if the heap has
`fib (3 + 8 * sizeof (long))` nodes.
Source: `fibheap.c` `fibheap_consolidate`
Kind: L -/
theorem Graded.consolidate (hg : Graded mem N none) (sizeofLong : ℕ) (mem' : Mem δ) (hf : Forest mem N none)
    (hR : RootRing mem heap (tops mem N)) (hfuel : N.card < fuel) :
    (∀ heap', fibheapConsolidate sizeofLong fuel mem heap = .ok (mem', heap') →
      Graded mem' N none) ∧
    (fibheapConsolidate sizeofLong fuel mem heap = .error .outOfBounds →
      Nat.fib (3 + 8 * sizeofLong) ≤ N.card) := by
  have hcard : (tops mem N).card < fuel :=
    lt_of_le_of_lt (Finset.card_le_card (Finset.filter_subset _ _)) hfuel
  have hstart : Merging sizeofLong mem N (tops mem N) (fun _ => none) ∅ := Merging.start hf hR.1
  rw [fibheapConsolidate]
  rcases rootLoop_spec hstart hR.2 hfuel hcard with
    ⟨mem1, heap1, arr, heq, hm, hroot, -, -, -⟩ | ⟨heq, -⟩
  · simp only [heq, bind, Except.bind]
    refine ⟨fun heap' hrun => ?_, fun hrun => by cases hrun⟩
    have hg1 := (hg.rootLoop mem1 hstart hR.2 hfuel).1 heap1 arr heq
    obtain ⟨hrel, -⟩ := collectLoop_spec hm hroot (1 + 8 * sizeofLong)
    simp only [Except.ok.injEq] at hrun
    rw [hrun] at hrel
    refine hg1.mono subset_rfl fun a _ p hp => ⟨(hrel.parent a).symm.trans hp, ?_⟩
    have ha : mem' a = { mem1 a with left := (mem' a).left, right := (mem' a).right } := hrel.2 a
    rw [worth, worth, ha]
  · simp only [heq, bind, Except.bind]
    refine ⟨fun _ hrun => absurd hrun (by simp), fun _ => ?_⟩
    exact (hg.rootLoop mem' hstart hR.2 hfuel).2 heq

end Consolidation

/-! ## Runs -/

section Calls

variable {δ : Type}

/-- The calls on one heap. The address that `xcalloc` returns is part of the call.
Source: `fibheap.h` -/
inductive Call (δ : Type)
  | insert (node : ℕ) (key : ℤ) (data : δ)
  | extractMin
  | replaceKey (node : ℕ) (key : ℤ)
  | deleteNode (node : ℕ)

/-- The memory and the heap after a call. Source: `fibheap.c`. -/
def Call.run (sizeofLong fuel : ℕ) (mem : Mem δ) (heap : FibHeap) :
    Call δ → Except Failure (Mem δ × FibHeap)
  | .insert node key data => .ok (fibheapInsert mem heap node key data)
  | .extractMin => do
    let (_, mem, heap) ← fibheapExtractMin sizeofLong fuel mem heap
    .ok (mem, heap)
  | .replaceKey node key => do
    let (_, mem, heap) ← fibheapReplaceKey fuel mem heap node key
    .ok (mem, heap)
  | .deleteNode node => do
    let (_, mem, heap) ← fibheapDeleteNode sizeofLong fuel mem heap node
    .ok (mem, heap)

/-- A node is inserted at a free address, and the other calls name a node of the heap.
Source: `fibheap.h` -/
def Call.Valid (mem : Mem δ) (heap : FibHeap) : Call δ → Prop
  | .insert node _ _ => ¬ Held mem heap node
  | .extractMin => True
  | .replaceKey node _ => Held mem heap node
  | .deleteNode node => Held mem heap node

/-- **Runs** of calls on a new heap. -/
inductive Reached (sizeofLong : ℕ) : Mem δ → FibHeap → Prop
  | new (mem : Mem δ) : Reached sizeofLong mem fibheapNew
  | call {mem mem' : Mem δ} {heap heap' : FibHeap} {fuel : ℕ} (c : Call δ) :
    Reached sizeofLong mem heap → c.Valid mem heap → heap.nodes < fuel →
    c.run sizeofLong fuel mem heap = .ok (mem', heap') → Reached sizeofLong mem' heap'

/-- The nodes of a heap from which the parent pointers lead to a node, which is one of them.
Source: `fibheap.h` (`parent`) -/
def descendants (mem : Mem δ) (heap : FibHeap) (x : ℕ) : Set ℕ :=
  {a | Held mem heap a ∧ Relation.ReflTransGen (fun a p => (mem a).parent = some p) a x}

variable {mem mem' : Mem δ} {heap heap' : FibHeap} {N : Finset ℕ} {sizeofLong fuel node : ℕ}
  {key : ℤ} {data : δ}

/-- **`fibheap_insert`** adds a node without children. Source: `fibheap.c` `fibheap_insert`.
Kind: L -/
theorem Graded.insert (hg : Graded mem N none) (h : HeapInv mem heap N) :
    Graded (fibheapInsert mem heap node key data).1 (insert node N) none := by
  have hl := loosened_insRoot (Function.update mem node (fibnodeNew node key data)) heap node
  change Graded (fibheapInsRoot (Function.update mem node (fibnodeNew node key data)) heap node).1
    (Insert.insert node N) none
  generalize fibheapInsRoot (Function.update mem node (fibnodeNew node key data)) heap node = r at hl
  -- a node with a parent is an old one
  have hold : ∀ a p, (r.1 a).parent = some p → a ≠ node ∧ (mem a).parent = some p := by
    intro a p hp
    have hp' := hl.parent a p hp
    by_cases ha : a = node
    · rw [ha, Function.update_self] at hp'
      cases hp'
    · rw [Function.update_of_ne ha] at hp'
      exact ⟨ha, hp'⟩
  have hsub : ∀ b, kids r.1 (Insert.insert node N) b ⊆ kids mem N b := by
    intro b c hc
    obtain ⟨hcN, hcp⟩ := mem_kids.mp hc
    obtain ⟨hne, hcp'⟩ := hold c b hcp
    exact mem_kids.mpr ⟨(Finset.mem_insert.mp hcN).resolve_left hne, hcp'⟩
  intro b hb
  by_cases hbN : b ∈ N
  · refine (hg b hbN).mono (hsub b) fun c hc => ?_
    obtain ⟨hne, -⟩ := hold c b (mem_kids.mp hc).2
    rw [worth, worth, hl.degree, hl.mark, Function.update_of_ne hne]
  · have hempty : kids r.1 (Insert.insert node N) b = ∅ := by
      rw [Finset.eq_empty_iff_forall_notMem]
      intro c hc
      obtain ⟨hcN, hcp⟩ := mem_kids.mp (hsub b hc)
      exact hbN (h.forest.parent_mem c hcN b hcp)
    intro t
    rw [hempty, Finset.filter_empty, Finset.card_empty]
    exact Nat.zero_le t

/-- **`fibheap_replace_key`** returns. Source: `fibheap.c` `fibheap_replace_key`. Kind: L -/
theorem Graded.replaceKey (hg : Graded mem N none) (key : ℤ) (h : HeapInv mem heap N) (hn : node ∈ N)
    (hfuel : N.card < fuel) :
    ∃ okey mem' heap', fibheapReplaceKey fuel mem heap node key = .ok (okey, mem', heap') ∧
      HeapInv mem' heap' N ∧ Graded mem' N none := by
  by_cases hkey : key ≤ (mem node).key
  · obtain ⟨mem', heap', hrun, hinv, -⟩ := replaceKeyData_spec h hn hkey hfuel (mem node).data
    refine ⟨(BitVec.ofInt 32 (mem node).key).toInt, mem', heap', ?_, hinv, ?_⟩
    · simp only [fibheapReplaceKey, hrun, bind, Except.bind]
    rw [fibheapReplaceKeyData, if_neg (not_lt.mpr hkey)] at hrun
    have hl : Loosened mem
        (modify mem node fun n => { n with data := (mem node).data, key := key }) :=
      loosened_links mem node (by exact fun n => ⟨rfl, rfl, rfl⟩)
    have hg1 := hg.loosened hl subset_rfl
    dsimp only at hrun
    generalize (modify mem node fun n => { n with data := (mem node).data, key := key }) = mem1
      at hrun hg1
    split_ifs at hrun with hokey
    · simp only [Except.ok.injEq, Prod.mk.injEq] at hrun
      exact hrun.2.1 ▸ hg1
    · -- the node is cut, or stays below its parent
      have hcut : ∀ mem2 heap2, cutBelow fuel mem1 heap node (mem1 node).parent = .ok (mem2, heap2) →
          Graded mem2 N none := by
        intro mem2 heap2 hrun2
        cases hp : (mem1 node).parent with
        | none =>
          simp only [hp, cutBelow, Except.ok.injEq, Prod.mk.injEq] at hrun2
          exact hrun2.1 ▸ hg1
        | some y =>
          simp only [hp, cutBelow] at hrun2
          split_ifs at hrun2
          · exact (hg1.cut (by simp) heap y).cascadingCut hrun2
          · simp only [Except.ok.injEq, Prod.mk.injEq] at hrun2
            exact hrun2.1 ▸ hg1
      rcases hrun2 : cutBelow fuel mem1 heap node (mem1 node).parent with f | ⟨mem2, heap2⟩
      · simp only [hrun2, bind, Except.bind] at hrun
        cases hrun
      · simp only [hrun2, bind, Except.bind] at hrun
        have hg2 := hcut mem2 heap2 hrun2
        split at hrun
        · cases hrun
        · split_ifs at hrun
          · simp only [Except.ok.injEq, Prod.mk.injEq] at hrun
            exact hrun.2.1 ▸ hg2
          · simp only [Except.ok.injEq, Prod.mk.injEq] at hrun
            exact hrun.2.1 ▸ hg2
  · refine ⟨(BitVec.ofInt 32 (mem node).key).toInt, mem, heap, ?_, h, hg⟩
    simp only [fibheapReplaceKey, fibheapReplaceKeyData, if_pos (not_le.mp hkey), bind, Except.bind]

/-- **`fibheap_extract_min`** keeps the grading, and returns unless the heap is too large.
Source: `fibheap.c` `fibheap_extract_min`, `fibheap_extr_min_node`
Kind: L -/
theorem Graded.extractMin (hg : Graded mem N none) (sizeofLong : ℕ) (h : HeapInv mem heap N)
    (hfuel : N.card < fuel) :
    (∀ r mem' heap', fibheapExtractMin sizeofLong fuel mem heap = .ok (r, mem', heap') →
      ∃ N', N'.card ≤ N.card ∧ HeapInv mem' heap' N' ∧ Graded mem' N' none) ∧
    (N.card ≤ Nat.fib (3 + 8 * sizeofLong) →
      ∃ r mem' heap', fibheapExtractMin sizeofLong fuel mem heap = .ok (r, mem', heap')) := by
  cases hm : heap.min with
  | none =>
    have hrun : fibheapExtractMin sizeofLong fuel mem heap = .ok (none, mem, heap) := by
      rw [fibheapExtractMin, hm]
    refine ⟨fun r mem' heap' hrun' => ?_, fun _ => ⟨_, _, _, hrun⟩⟩
    simp only [hrun, Except.ok.injEq, Prod.mk.injEq] at hrun'
    obtain ⟨-, rfl, rfl⟩ := hrun'
    exact ⟨N, le_rfl, h, hg⟩
  | some m =>
    obtain ⟨⟨hmN, -⟩, -⟩ := h.min_le hm
    have hcard : (N.erase m).card + 1 = N.card := Finset.card_erase_add_one hmN
    obtain ⟨mem1, heap1, mem2, heap2, heq1, heq2, hforest, hroots, -, -, -⟩ :=
      detachMin_spec h hm hfuel
    have hl2 : Loosened mem mem2 := by
      have hrem := loosened_remRoot mem1 heap1 m
      rw [heq2] at hrem
      exact (loosened_promoteLoop heq1).trans hrem
    have hg2 : Graded mem2 (N.erase m) none := hg.loosened hl2 (Finset.erase_subset m N)
    have hout : (∀ r mem' heap', fibheapExtractMin sizeofLong fuel mem heap = .ok (r, mem', heap') →
        Graded mem' (N.erase m) none) ∧
      (fibheapExtractMin sizeofLong fuel mem heap = .error .outOfBounds →
        Nat.fib (3 + 8 * sizeofLong) ≤ (N.erase m).card) := by
      rw [fibheapExtractMin, hm]
      simp only [fibheapExtrMinNode, heq1, heq2, bind, Except.bind]
      by_cases hzero : heap2.nodes - 1 = 0
      · simp only [if_pos hzero]
        refine ⟨fun r mem' heap' hrun => ?_, fun hrun => absurd hrun (by simp)⟩
        simp only [Except.ok.injEq, Prod.mk.injEq] at hrun
        exact hrun.2.1 ▸ hg2
      · simp only [if_neg hzero]
        have hR : RootRing mem2
            { heap2 with nodes := heap2.nodes - 1, min := some (mem2 m).right }
            (tops mem2 (N.erase m)) := hroots
        have hcons := fun mem' => hg2.consolidate sizeofLong mem' hforest hR
          (by omega : (N.erase m).card < fuel)
        generalize fibheapConsolidate sizeofLong fuel mem2
          { heap2 with nodes := heap2.nodes - 1, min := some (mem2 m).right } = result at hcons
        rcases result with f | ⟨mem3, heap3⟩
        · refine ⟨fun r mem' heap' hrun => absurd hrun (by simp), fun hrun => ?_⟩
          simp only [Except.error.injEq] at hrun
          exact (hcons mem).2 (congrArg Except.error hrun)
        · refine ⟨fun r mem' heap' hrun => ?_, fun hrun => absurd hrun (by simp)⟩
          simp only [Except.ok.injEq, Prod.mk.injEq] at hrun
          exact hrun.2.1 ▸ (hcons mem3).1 heap3 rfl
    obtain ⟨hroom, hover⟩ := @extractMin_spec δ mem N heap sizeofLong fuel m h hm hfuel
    rcases Nat.lt_or_ge (extractWeight mem N m) (2 ^ (1 + 8 * sizeofLong)) with hsmall | hbig
    · obtain ⟨mem3, heap3, heq3, hinv, -⟩ := hroom hsmall
      refine ⟨fun r mem' heap' hrun => ?_, fun _ => ⟨_, _, _, heq3⟩⟩
      have hg3 := hout.1 r mem' heap' hrun
      simp only [heq3, Except.ok.injEq, Prod.mk.injEq] at hrun
      obtain ⟨-, rfl, rfl⟩ := hrun
      exact ⟨N.erase m, by omega, hinv, hg3⟩
    · refine ⟨fun r mem' heap' hrun => ?_, fun hle => ?_⟩
      · rw [hover hbig] at hrun
        cases hrun
      · have := hout.2 (hover hbig)
        omega

/-- **One call.** Source: `fibheap.c`. Kind: L -/
theorem Graded.call (hg : Graded mem N none) (h : HeapInv mem heap N) (c : Call δ)
    (hvalid : c.Valid mem heap) (hfuel : N.card < fuel) :
    (∀ mem' heap', c.run sizeofLong fuel mem heap = .ok (mem', heap') →
      ∃ N', HeapInv mem' heap' N' ∧ Graded mem' N' none) ∧
    (N.card ≤ Nat.fib (3 + 8 * sizeofLong) →
      ∃ mem' heap', c.run sizeofLong fuel mem heap = .ok (mem', heap')) := by
  cases c with
  | insert node key data =>
    have hnode : node ∉ N := fun hn => hvalid (h.held_iff.mpr hn)
    refine ⟨fun mem' heap' hrun => ?_, fun _ => ⟨_, _, rfl⟩⟩
    obtain ⟨rfl, rfl⟩ := Prod.mk.inj (Except.ok.inj hrun)
    exact ⟨Insert.insert node N, (insert_spec h hnode key data).1, hg.insert h⟩
  | extractMin =>
    obtain ⟨hok, hreturns⟩ := hg.extractMin sizeofLong h hfuel
    refine ⟨fun mem' heap' hrun => ?_, fun hle => ?_⟩
    · simp only [Call.run, bind, Except.bind] at hrun
      split at hrun
      · cases hrun
      · rename_i v heq
        obtain ⟨N', -, hinv, hg'⟩ := hok v.1 v.2.1 v.2.2 heq
        obtain ⟨rfl, rfl⟩ := Prod.mk.inj (Except.ok.inj hrun)
        exact ⟨N', hinv, hg'⟩
    · obtain ⟨r, mem', heap', heq⟩ := hreturns hle
      exact ⟨mem', heap', by simp only [Call.run, heq, bind, Except.bind]⟩
  | replaceKey node key =>
    have hn : node ∈ N := h.held_iff.mp hvalid
    obtain ⟨okey, mem1, heap1, heq, hinv, hg1⟩ := hg.replaceKey key h hn hfuel
    have hrun : (Call.replaceKey node key).run sizeofLong fuel mem heap = .ok (mem1, heap1) := by
      simp only [Call.run, heq, bind, Except.bind]
    refine ⟨fun mem' heap' hrun' => ?_, fun _ => ⟨_, _, hrun⟩⟩
    obtain ⟨rfl, rfl⟩ := Prod.mk.inj (Except.ok.inj (hrun.symm.trans hrun'))
    exact ⟨N, hinv, hg1⟩
  | deleteNode node =>
    have hn : node ∈ N := h.held_iff.mp hvalid
    obtain ⟨okey, mem1, heap1, heq, hinv, hg1⟩ :=
      hg.replaceKey (fibheapkeyMin sizeofLong) h hn hfuel
    obtain ⟨hok, hreturns⟩ := hg1.extractMin sizeofLong hinv hfuel
    refine ⟨fun mem' heap' hrun => ?_, fun hle => ?_⟩
    · simp only [Call.run, fibheapDeleteNode, heq, bind, Except.bind] at hrun
      cases hext : fibheapExtractMin sizeofLong fuel mem1 heap1 with
      | error f =>
        simp only [hext] at hrun
        cases hrun
      | ok v =>
        simp only [hext] at hrun
        obtain ⟨N', -, hinv', hg'⟩ := hok v.1 v.2.1 v.2.2 hext
        obtain ⟨rfl, rfl⟩ := Prod.mk.inj (Except.ok.inj hrun)
        exact ⟨N', hinv', hg'⟩
    · obtain ⟨r, mem', heap', hext⟩ := hreturns hle
      exact ⟨mem', heap', by simp only [Call.run, fibheapDeleteNode, heq, hext, bind, Except.bind]⟩

/-- **Every state of a run** is a graded heap. Source: `fibheap.c`. Kind: L -/
theorem Reached.graded (h : Reached sizeofLong mem heap) :
    ∃ N, HeapInv mem heap N ∧ Graded mem N none := by
  induction h with
  | new mem =>
    exact ⟨∅, heapInv_new mem, fun x hx => absurd hx (Finset.notMem_empty x)⟩
  | call c _ hvalid hfuel hrun ih =>
    obtain ⟨N, hinv, hg⟩ := ih
    exact (hg.call hinv c hvalid (hinv.nodes ▸ hfuel)).1 _ _ hrun

/-- **The bound on the degrees**: after every run of insertions, extractions, key changes and
deletions, a node of degree `d` has at least `fib (d + 2)` descendants, itself among them; and every
call on a heap of at most `fib (3 + 8 * sizeof (long))` nodes returns, so that the index of
`fibheap_consolidate`, which runs on one node less, stays within the array.
Source: `fibheap.c` `fibheap_consolidate`, `fibheap_link`, `fibheap_cut`, `fibheap_cascading_cut`
Kind: P -/
theorem fibheap_degree_bound (h : Reached sizeofLong mem heap) :
    (∀ x, Held mem heap x → Nat.fib ((mem x).degree + 2) ≤ (descendants mem heap x).ncard) ∧
    (heap.nodes ≤ Nat.fib (3 + 8 * sizeofLong) →
      ∀ (c : Call δ) (fuel : ℕ), c.Valid mem heap → heap.nodes < fuel →
        ∃ mem' heap', c.run sizeofLong fuel mem heap = .ok (mem', heap')) := by
  obtain ⟨N, hinv, hg⟩ := h.graded
  refine ⟨fun x hx => ?_, fun hle c fuel hvalid hfuel => ?_⟩
  · have hset : descendants mem heap x = ↑(below (fun a => (mem a).parent) N x) := by
      ext a
      rw [Finset.mem_coe, mem_below, ← hinv.held_iff (a := a)]
      rfl
    rw [hset, Set.ncard_coe_finset]
    exact hg.fib_le hinv.forest.toShape (hinv.held_iff.mp hx)
  · rw [hinv.nodes] at hle hfuel
    exact (hg.call hinv c hvalid hfuel).2 hle

/-- The heaps of the example are built by insertions. Source: none: example. Kind: L -/
theorem filled_reached (sizeofLong n : ℕ) : Reached sizeofLong (filled n).1 (filled n).2 := by
  induction n with
  | zero => exact .new _
  | succ n ih =>
    have hnew : ¬ Held (filled n).1 (filled n).2 n := by
      rw [(filled_spec n).1.held_iff]
      exact Finset.notMem_range_self
    exact .call (.insert n 0 ()) ih hnew (Nat.lt_succ_self _) rfl

/-- The heap of ten nodes, where a `long` has eight bytes: it has fewer than `fib 67` nodes, and the
minimum can be extracted.
Source: none: example
Kind: C -/
theorem fibheap_degree_bound_ten :
    (∀ x, Held (filled 10).1 (filled 10).2 x →
      Nat.fib (((filled 10).1 x).degree + 2) ≤ (descendants (filled 10).1 (filled 10).2 x).ncard) ∧
    ∃ mem' heap', Call.extractMin.run 8 11 (filled 10).1 (filled 10).2 = .ok (mem', heap') := by
  obtain ⟨hsize, hreturns⟩ := fibheap_degree_bound (filled_reached 8 10)
  have hnodes : (filled 10).2.nodes = 10 := by
    rw [(filled_spec 10).1.nodes, Finset.card_range]
  have hfib : 67 ≤ Nat.fib 67 := Nat.le_fib_self (by omega)
  refine ⟨hsize, hreturns ?_ .extractMin 11 trivial ?_⟩
  · rw [hnodes]
    exact le_trans (by omega) hfib
  · rw [hnodes]
    omega

end Calls

end GccCore.Iberty.Fibheap
