import GccCore.Iberty.Fibheap.Consolidate
import Mathlib.Data.Finset.Card

/-!
# `libiberty/fibheap.c`: each operation keeps the invariant

* **`insert_spec`**, **`union_spec`**: the root list is extended.
* **`replaceKeyData_spec`**: a lowered node is cut, and cuts cascade towards the root.
* **`extractMin_spec`**: the children of the minimum go to the root list one by one while their own
  list is walked; then the heap is consolidated. Whether the array suffices is a sum over the roots
  to be (`extractWeight`).
-/

namespace GccCore.Iberty.Fibheap

open GccCore.Lib.Ring

section Frame

variable {δ : Type} {mem mem' : Mem δ} {N : Finset ℕ} {e : Option ℕ} {heap : FibHeap}

/-- **The forest depends on the fields it speaks of**, for the nodes of the heap only. -/
theorem Forest.congr (hf : Forest mem N e) (hparent : ∀ a ∈ N, (mem' a).parent = (mem a).parent)
    (hchild : ∀ a ∈ N, (mem' a).child = (mem a).child)
    (hlinks : ∀ a ∈ N, (mem' a).left = (mem a).left ∧ (mem' a).right = (mem a).right)
    (hdegree : ∀ a ∈ N, (mem' a).degree = (mem a).degree)
    (hkey : ∀ a ∈ N, (mem' a).key = (mem a).key) : Forest mem' N e := by
  have hkids : ∀ b, kids mem' N b = kids mem N b := by
    intro b
    refine Finset.filter_congr fun c hc => ?_
    rw [hparent c hc]
  refine ⟨⟨fun a ha p hp => ?_, ?_, fun a ha hae => ?_⟩, fun a ha p hp => ?_⟩
  · exact hf.parent_mem a ha p (hparent a ha ▸ hp)
  · obtain ⟨rank, hrank⟩ := hf.rank
    exact ⟨rank, fun a ha p hp => hrank a ha p (hparent a ha ▸ hp)⟩
  · refine (hf.node a ha hae).congr (hkids a) (hchild a ha) (hdegree a ha) fun c hc => ?_
    exact hlinks c (mem_kids.mp hc).1
  · rw [hparent a ha] at hp
    rw [hkey a ha, hkey p (hf.parent_mem a ha p hp)]
    exact hf.order a ha p hp

theorem tops_congr (hparent : ∀ a ∈ N, (mem' a).parent = (mem a).parent) :
    tops mem' N = tops mem N := by
  refine Finset.filter_congr fun c hc => ?_
  rw [hparent c hc]

/-- **Frame**: what happens to other nodes does not matter to a heap. -/
theorem HeapInv.congr (h : HeapInv mem heap N) (hmem : ∀ a ∈ N, mem' a = mem a) :
    HeapInv mem' heap N := by
  have htops : tops mem' N = tops mem N := tops_congr fun a ha => by rw [hmem a ha]
  have hsub : ∀ a ∈ tops mem N, mem' a = mem a := fun a ha => hmem a (mem_tops.mp ha).1
  refine ⟨h.forest.congr ?_ ?_ ?_ ?_ ?_, ⟨?_, ?_⟩, ?_, h.nodes⟩
  · exact fun a ha => by rw [hmem a ha]
  · exact fun a ha => by rw [hmem a ha]
  · exact fun a ha => by rw [hmem a ha]; exact ⟨rfl, rfl⟩
  · exact fun a ha => by rw [hmem a ha]
  · exact fun a ha => by rw [hmem a ha]
  · rw [htops]
    exact h.roots.1.congr fun a ha => by rw [hsub a ha]; exact ⟨rfl, rfl⟩
  · rw [htops]
    exact h.roots.2
  · rw [htops]
    have hleast := h.least
    cases hm : heap.min with
    | none =>
      rw [hm] at hleast
      exact hleast
    | some m =>
      rw [hm] at hleast
      obtain ⟨hmtop, hle⟩ := hleast
      refine ⟨hmtop, fun a ha => ?_⟩
      rw [hsub a ha, hsub m hmtop]
      exact hle a ha

/-- A new heap is empty. Source: `fibheap.c` `fibheap_new`. Kind: L -/
theorem heapInv_new (mem : Mem δ) : HeapInv mem fibheapNew ∅ := by
  have hno : ∀ a : ℕ, a ∉ (∅ : Finset ℕ) := Finset.notMem_empty
  refine ⟨⟨⟨fun a ha => absurd ha (hno a), ⟨id, fun a ha => absurd ha (hno a)⟩,
    fun a ha => absurd ha (hno a)⟩, fun a ha => absurd ha (hno a)⟩, ⟨isRing_empty, rfl⟩, rfl, rfl⟩

/-- The minimum is below every node. Source: `fibheap.h` (`min`). Kind: L -/
theorem HeapInv.min_le (h : HeapInv mem heap N) {m : ℕ} (hm : heap.min = some m) :
    (m ∈ N ∧ (mem m).parent = none) ∧ ∀ a ∈ N, (mem m).key ≤ (mem a).key := by
  have hleast := h.least
  rw [hm] at hleast
  exact ⟨mem_tops.mp hleast.1, h.forest.le_of_tops hleast.2⟩

/-- Every node is below a root. -/
theorem Forest.tops_nonempty (hf : Forest mem N e) {a : ℕ} (ha : a ∈ N) :
    (tops mem N).Nonempty := by
  obtain ⟨rank, hrank⟩ := hf.rank
  obtain ⟨b, hb, hmax⟩ := Finset.exists_max_image N rank ⟨a, ha⟩
  refine ⟨b, mem_tops.mpr ⟨hb, ?_⟩⟩
  cases hp : (mem b).parent with
  | none => rfl
  | some p => exact absurd (hrank b hb p hp) (not_lt.mpr (hmax p (hf.parent_mem b hb p hp)))

/-- No minimum, no nodes. Source: `fibheap.c` `fibheap_extract_min` (comment). Kind: L -/
theorem HeapInv.eq_empty (h : HeapInv mem heap N) (hm : heap.min = none) : N = ∅ := by
  have hleast := h.least
  rw [hm] at hleast
  rw [Finset.eq_empty_iff_forall_notMem]
  intro a ha
  obtain ⟨b, hb⟩ := h.forest.tops_nonempty ha
  have hempty : tops mem N = ∅ := hleast
  rw [hempty] at hb
  exact absurd hb (Finset.notMem_empty b)

end Frame

/-! ## Insertion -/

section Insertion

variable {δ : Type} {mem mem' : Mem δ} {N : Finset ℕ} {heap : FibHeap} {node : ℕ} {key : ℤ} {data : δ}

/-- A lone node joins the forest. Source: `fibheap.c` `fibnode_new`. Kind: L -/
theorem Forest.insert_new (hf : Forest mem N none) (hnode : node ∉ N)
    (hother : ∀ a ∈ N, mem' a = mem a) (hparent : (mem' node).parent = none)
    (hchild : (mem' node).child = none) (hdegree : (mem' node).degree = 0) :
    Forest mem' (insert node N) none := by
  have hp : ∀ a ∈ insert node N, ∀ p, (mem' a).parent = some p → a ∈ N ∧ (mem a).parent = some p := by
    intro a ha p hap
    rcases Finset.mem_insert.mp ha with rfl | haN
    · rw [hparent] at hap
      cases hap
    · exact ⟨haN, hother a haN ▸ hap⟩
  have hkids : ∀ b, kids mem' (insert node N) b = kids mem N b := by
    intro b
    ext c
    rw [mem_kids, mem_kids]
    constructor
    · rintro ⟨hc, hcb⟩
      exact hp c hc b hcb
    · rintro ⟨hc, hcb⟩
      exact ⟨Finset.mem_insert_of_mem hc, by rw [hother c hc]; exact hcb⟩
  refine ⟨⟨fun a ha p hap => ?_, ?_, fun a ha _ => ?_⟩, fun a ha p hap => ?_⟩
  · obtain ⟨haN, hap'⟩ := hp a ha p hap
    exact Finset.mem_insert_of_mem (hf.parent_mem a haN p hap')
  · obtain ⟨rank, hrank⟩ := hf.rank
    refine ⟨rank, fun a ha p hap => ?_⟩
    obtain ⟨haN, hap'⟩ := hp a ha p hap
    exact hrank a haN p hap'
  · rcases Finset.mem_insert.mp ha with rfl | haN
    · have hempty : kids mem N a = ∅ := by
        refine Finset.filter_false_of_mem fun c hc hca => hnode ?_
        exact hf.parent_mem c hc a hca
      refine ⟨?_, ?_, ?_⟩
      · rw [hkids, hempty]
        exact isRing_empty
      · rw [hkids, hempty, hchild]
        rfl
      · rw [hkids, hempty, hdegree]
        rfl
    · have hinv := hf.node a haN (by simp)
      refine ⟨?_, ?_, ?_⟩
      · rw [hkids]
        refine hinv.ring.congr fun c hc => ?_
        rw [hother c (mem_kids.mp hc).1]
        exact ⟨rfl, rfl⟩
      · rw [hkids, hother a haN]
        exact hinv.child
      · rw [hkids, hother a haN]
        exact hinv.degree
  · obtain ⟨haN, hap'⟩ := hp a ha p hap
    rw [hother a haN, hother p (hf.parent_mem a haN p hap')]
    exact hf.order a haN p hap'

/-- **`fibheap_insert`** adds the node. Source: `fibheap.c` `fibheap_insert`. Kind: L -/
theorem insert_spec (h : HeapInv mem heap N) (hnode : node ∉ N) (key : ℤ) (data : δ) :
    HeapInv (fibheapInsert mem heap node key data).1 (fibheapInsert mem heap node key data).2
        (insert node N) ∧
      SameContents (Function.update mem node (fibnodeNew node key data))
        (fibheapInsert mem heap node key data).1 (insert node N) ∧
      tops (fibheapInsert mem heap node key data).1 (insert node N) = insert node (tops mem N) ∧
      ∀ a, ((fibheapInsert mem heap node key data).1 a).degree =
        if a = node then 0 else (mem a).degree := by
  generalize hm1 : Function.update mem node (fibnodeNew node key data) = mem1
  have hself : mem1 node = fibnodeNew node key data := by rw [← hm1, Function.update_self]
  have hne : ∀ a ≠ node, mem1 a = mem a := by
    intro a ha
    rw [← hm1, Function.update_of_ne ha]
  have hother : ∀ a ∈ N, mem1 a = mem a := fun a ha => hne a fun heq => hnode (heq ▸ ha)
  have hforest : Forest mem1 (insert node N) none := by
    refine h.forest.insert_new hnode hother ?_ ?_ ?_
    · rw [hself]; rfl
    · rw [hself]; rfl
    · rw [hself]; rfl
  have h1 := h.congr hother
  have htop1 : tops mem1 N = tops mem N := tops_congr fun a ha => by rw [hother a ha]
  have htop : node ∉ tops mem1 N := fun hmem => hnode (mem_tops.mp hmem).1
  have htops1 : tops mem1 (insert node N) = insert node (tops mem1 N) := by
    rw [tops, Finset.filter_insert, if_pos (by rw [hself]; rfl)]
    rfl
  obtain ⟨hrel, hring, hmin, hnodes⟩ := insRoot_spec h1.roots htop
  have hrelN : insert node (tops mem1 N) ⊆ insert node N :=
    Finset.insert_subset_insert node (Finset.filter_subset _ _)
  have hleast := h1.least
  simp only [fibheapInsert, hm1]
  generalize fibheapInsRoot mem1 heap node = r at hrel hring hmin hnodes
  obtain ⟨mem2, heap2⟩ := r
  dsimp only at hrel hring hmin hnodes ⊢
  rw [← hmin] at hleast
  have hcard : heap2.nodes + 1 = (insert node N).card := by
    rw [Finset.card_insert_of_notMem hnode, hnodes, h.nodes]
  have hforest2 : Forest mem2 (insert node N) none := by
    refine hforest.relinked hrel ?_
    rw [htops1]
  have htops2 : tops mem2 (insert node N) = insert node (tops mem1 N) := by
    rw [hrel.tops_eq, htops1]
  have hdeg : ∀ a, (mem2 a).degree = if a = node then 0 else (mem a).degree := by
    intro a
    rw [hrel.degree]
    split_ifs with ha
    · rw [ha, hself]
      rfl
    · rw [hne a ha]
  refine ⟨?_, hrel.sameContents hrelN, by rw [htops2, htop1], hdeg⟩
  cases hm : heap2.min with
  | none =>
    rw [hm] at hleast
    have hempty : tops mem1 N = ∅ := hleast
    refine ⟨hforest2, htops2 ▸ hring, ?_, hcard⟩
    rw [htops2, hempty]
    exact least_singleton mem2 node
  | some m =>
    rw [hm] at hleast
    obtain ⟨hpos, hneg⟩ := hleast.insert hrel.key
    dsimp only
    split_ifs with hlt
    · refine ⟨hforest2, htops2 ▸ hring, ?_, hcard⟩
      rw [htops2]
      exact hpos hlt
    · refine ⟨hforest2, htops2 ▸ hring, ?_, hcard⟩
      rw [htops2, hm]
      exact hneg hlt

end Insertion

/-! ## Union -/

section Union

variable {δ : Type} {mem mem' : Mem δ} {A B : Finset ℕ} {heapa heapb : FibHeap} {a b : ℕ}

theorem modify_right (mem : Mem δ) (p r x : ℕ) :
    modify mem p (fun n => { n with right := r }) x =
      { mem x with right := if x = p then r else (mem x).right } := by
  rw [modify_apply]
  split_ifs with h
  · rw [h]
  · rfl

theorem modify_left (mem : Mem δ) (p l x : ℕ) :
    modify mem p (fun n => { n with left := l }) x =
      { mem x with left := if x = p then l else (mem x).left } := by
  rw [modify_apply]
  split_ifs with h
  · rw [h]
  · rfl

/-- Two forests side by side. Source: `fibheap.c` `fibheap_union`. Kind: L -/
theorem Forest.union (hA : Forest mem A none) (hB : Forest mem B none) (hAB : Disjoint A B) :
    Forest mem (A ∪ B) none := by
  have hnot : ∀ x ∈ A, x ∉ B := fun x hx => Finset.disjoint_left.mp hAB hx
  have hkidsA : ∀ x ∈ A, kids mem (A ∪ B) x = kids mem A x := by
    intro x hx
    rw [kids, Finset.filter_union, Finset.filter_false_of_mem (s := B), Finset.union_empty]
    · rfl
    · exact fun c hc hcx => hnot x hx (hB.parent_mem c hc x hcx)
  have hkidsB : ∀ x ∈ B, kids mem (A ∪ B) x = kids mem B x := by
    intro x hx
    rw [kids, Finset.filter_union, Finset.filter_false_of_mem (s := A), Finset.empty_union]
    · rfl
    · exact fun c hc hcx => hnot x (hA.parent_mem c hc x hcx) hx
  refine ⟨⟨fun x hx p hp => ?_, ?_, fun x hx _ => ?_⟩, fun x hx p hp => ?_⟩
  · rcases Finset.mem_union.mp hx with hx | hx
    · exact Finset.mem_union_left B (hA.parent_mem x hx p hp)
    · exact Finset.mem_union_right A (hB.parent_mem x hx p hp)
  · obtain ⟨rankA, hrankA⟩ := hA.rank
    obtain ⟨rankB, hrankB⟩ := hB.rank
    refine ⟨fun x => if x ∈ A then rankA x else rankB x, fun x hx p hp => ?_⟩
    rcases Finset.mem_union.mp hx with hx | hx
    · simp only [if_pos hx, if_pos (hA.parent_mem x hx p hp)]
      exact hrankA x hx p hp
    · have hpB := hB.parent_mem x hx p hp
      simp only [if_neg fun h => hnot x h hx, if_neg fun h => hnot p h hpB]
      exact hrankB x hx p hp
  · rcases Finset.mem_union.mp hx with hx | hx
    · have hinv := hA.node x hx (by simp)
      exact ⟨hkidsA x hx ▸ hinv.ring, hkidsA x hx ▸ hinv.child, hkidsA x hx ▸ hinv.degree⟩
    · have hinv := hB.node x hx (by simp)
      exact ⟨hkidsB x hx ▸ hinv.ring, hkidsB x hx ▸ hinv.child, hkidsB x hx ▸ hinv.degree⟩
  · rcases Finset.mem_union.mp hx with hx | hx
    · exact hA.order x hx p hp
    · exact hB.order x hx p hp

/-- An empty root list, an empty heap. -/
theorem HeapInv.eq_empty_of_root (h : HeapInv mem heapa A) (hr : heapa.root = none) : A = ∅ := by
  have hroot := h.roots.2
  rw [hr] at hroot
  rw [Finset.eq_empty_iff_forall_notMem]
  intro x hx
  obtain ⟨y, hy⟩ := h.forest.tops_nonempty hx
  have hempty : tops mem A = ∅ := hroot
  rw [hempty] at hy
  exact absurd hy (Finset.notMem_empty y)

/-- The two root lists become one.
Source: `fibheap.c` `fibheap_union` (`a_root->left->right = b_root; ...`)
Kind: L -/
theorem spliceRoots_spec {R S : Finset ℕ} (hR : Linked mem R) (hS : Linked mem S)
    (hRS : Disjoint R S) (ha : a ∈ R) (hb : b ∈ S)
    (hmem' : ∀ x, mem' x = { mem x with
      left := if x = b then (mem a).left else if x = a then (mem b).left else (mem x).left
      right := if x = (mem b).left then a else if x = (mem a).left then b else (mem x).right }) :
    Relinked mem mem' (R ∪ S) ∧ Linked mem' (R ∪ S) := by
  have hnot : ∀ x ∈ R, x ∉ S := fun x hx => Finset.disjoint_left.mp hRS hx
  obtain ⟨-, hla, -⟩ := IsRing.neighbours hR ha
  obtain ⟨-, hlb, -⟩ := IsRing.neighbours hS hb
  have hab : a ≠ b := fun heq => hnot a ha (heq ▸ hb)
  have hlab : (mem a).left ≠ (mem b).left := by
    intro heq
    exact hnot _ hla ((show lefts mem a = lefts mem b from heq) ▸ hlb)
  refine ⟨⟨fun x hx => ?_, fun x => ?_⟩, ?_⟩
  · rw [Finset.mem_union, not_or] at hx
    have hxa : x ≠ a := fun h => hx.1 (h ▸ ha)
    have hxb : x ≠ b := fun h => hx.2 (h ▸ hb)
    have hxla : x ≠ (mem a).left := fun h => hx.1 (h ▸ hla)
    have hxlb : x ≠ (mem b).left := fun h => hx.2 (h ▸ hlb)
    rw [hmem', if_neg hxb, if_neg hxa, if_neg hxlb, if_neg hxla]
  · rw [hmem']
  · refine IsRing.splice hR hS hRS ha hb ?_ ?_ ?_ ?_ ?_ ?_
    · simp [rights, lefts, hmem', hlab]
    · simp [rights, lefts, hmem']
    · simp [lefts, hmem', hab]
    · simp [lefts, hmem']
    · intro x _ hxa hxb
      simp [rights, hmem', show x ≠ (mem a).left from hxa, show x ≠ (mem b).left from hxb]
    · intro x _ hxa hxb
      simp [lefts, hmem', hxa, hxb]

/-- **`fibheap_union`** holds the nodes of both. Source: `fibheap.c` `fibheap_union`. Kind: L -/
theorem union_spec (hA : HeapInv mem heapa A) (hB : HeapInv mem heapb B) (hAB : Disjoint A B) :
    ∃ mem' heap',
      fibheapUnion mem heapa heapb = .ok (if A = ∅ then .heapb else .heapa, mem', heap') ∧
      HeapInv mem' heap' (A ∪ B) ∧ SameContents mem mem' (A ∪ B) := by
  cases hra : heapa.root with
  | none =>
    obtain rfl := hA.eq_empty_of_root hra
    rw [Finset.empty_union]
    refine ⟨mem, heapb, ?_, hB, SameContents.refl mem B⟩
    rw [fibheapUnion, hra, if_pos rfl]
  | some a =>
    have hAne : A ≠ ∅ := by
      rintro rfl
      have ha := hA.roots.2
      rw [hra] at ha
      exact absurd (mem_tops.mp ha).1 (Finset.notMem_empty a)
    rw [if_neg hAne]
    cases hrb : heapb.root with
    | none =>
      obtain rfl := hB.eq_empty_of_root hrb
      rw [Finset.union_empty]
      refine ⟨mem, heapa, ?_, hA, SameContents.refl mem A⟩
      rw [fibheapUnion, hra, hrb]
    | some b =>
      have ha := hA.roots.2
      have hb := hB.roots.2
      rw [hra] at ha
      rw [hrb] at hb
      have htdisj : Disjoint (tops mem A) (tops mem B) :=
        hAB.mono (Finset.filter_subset _ _) (Finset.filter_subset _ _)
      have hab : a ≠ b := fun heq => Finset.disjoint_left.mp htdisj ha (heq ▸ hb)
      -- the four assignments
      generalize hm1 : modify mem (mem a).left (fun n => { n with right := b }) = mem1
      have h1 : ∀ x, mem1 x =
          { mem x with right := if x = (mem a).left then b else (mem x).right } :=
        fun x => hm1 ▸ modify_right mem _ b x
      generalize hm2 : modify mem1 (mem1 b).left (fun n => { n with right := a }) = mem2
      have h2 : ∀ x, mem2 x = { mem x with right := if x = (mem b).left then a else
          if x = (mem a).left then b else (mem x).right } := by
        intro x
        rw [← hm2, modify_right, h1, h1]
      generalize hm3 : modify mem2 a (fun n => { n with left := (mem2 b).left }) = mem3
      have h3 : ∀ x, mem3 x = { mem x with
          left := if x = a then (mem b).left else (mem x).left
          right := if x = (mem b).left then a else
            if x = (mem a).left then b else (mem x).right } := by
        intro x
        rw [← hm3, modify_left, h2, h2]
      generalize hm4 : modify mem3 b (fun n => { n with left := (mem2 a).left }) = mem4
      have h4 : ∀ x, mem4 x = { mem x with
          left := if x = b then (mem a).left else if x = a then (mem b).left else (mem x).left
          right := if x = (mem b).left then a else
            if x = (mem a).left then b else (mem x).right } := by
        intro x
        rw [← hm4, modify_left, h3, h2]
      obtain ⟨hrel, hring⟩ := spliceRoots_spec hA.roots.1 hB.roots.1 htdisj ha hb h4
      have htops : tops mem (A ∪ B) = tops mem A ∪ tops mem B := Finset.filter_union ..
      have hforest : Forest mem4 (A ∪ B) none := by
        refine (hA.forest.union hB.forest hAB).relinked hrel ?_
        rw [htops]
      have htops4 : tops mem4 (A ∪ B) = tops mem A ∪ tops mem B := by rw [hrel.tops_eq, htops]
      have hsame : SameContents mem mem4 (A ∪ B) :=
        hrel.sameContents (Finset.union_subset_union (Finset.filter_subset _ _)
          (Finset.filter_subset _ _))
      have hroots : ∀ heap : FibHeap, heap.root = some a →
          RootRing mem4 heap (tops mem4 (A ∪ B)) := by
        intro heap hr
        rw [htops4]
        refine ⟨hring, ?_⟩
        rw [hr]
        exact Finset.mem_union_left _ ha
      have hcard : heapa.nodes + heapb.nodes = (A ∪ B).card := by
        rw [Finset.card_union_of_disjoint hAB, hA.nodes, hB.nodes]
      have hleastA := hA.least
      have hleastB := hB.least
      cases hma : heapa.min with
      | none =>
        rw [hma] at hleastA
        have hempty : tops mem A = ∅ := hleastA
        rw [hempty] at ha
        exact absurd ha (Finset.notMem_empty a)
      | some ma =>
        cases hmb : heapb.min with
        | none =>
          rw [hmb] at hleastB
          have hempty : tops mem B = ∅ := hleastB
          rw [hempty] at hb
          exact absurd hb (Finset.notMem_empty b)
        | some mb =>
          rw [hma] at hleastA
          rw [hmb] at hleastB
          have heq : fibheapUnion mem heapa heapb =
              if fibheapCompare mem4 mb ma < 0 then
                .ok (.heapa, mem4,
                  { heapa with nodes := heapa.nodes + heapb.nodes, min := some mb })
              else .ok (.heapa, mem4, { heapa with nodes := heapa.nodes + heapb.nodes }) := by
            simp only [fibheapUnion, hra, hrb, hma, hmb, hm1, hm2, hm3, hm4]
          rw [heq]
          simp only [fibheapCompare_neg, hrel.key]
          by_cases hlt : (mem mb).key < (mem ma).key
          · rw [if_pos hlt]
            refine ⟨_, _, rfl, ⟨hforest, hroots _ hra, ?_, hcard⟩, hsame⟩
            rw [htops4]
            refine ⟨Finset.mem_union_right _ hleastB.1, fun x hx => ?_⟩
            rw [hrel.key, hrel.key]
            rcases Finset.mem_union.mp hx with hx | hx
            · exact hlt.le.trans (hleastA.2 x hx)
            · exact hleastB.2 x hx
          · rw [if_neg hlt]
            refine ⟨_, _, rfl, ⟨hforest, hroots _ hra, ?_, hcard⟩, hsame⟩
            rw [htops4, hma]
            refine ⟨Finset.mem_union_left _ hleastA.1, fun x hx => ?_⟩
            rw [hrel.key, hrel.key]
            rcases Finset.mem_union.mp hx with hx | hx
            · exact hleastA.2 x hx
            · exact (not_lt.mp hlt).trans (hleastB.2 x hx)

end Union

/-! ## Lowering a key -/

section Lowering

variable {δ : Type} {mem mem' mem'' : Mem δ} {N : Finset ℕ} {heap heap' heap'' : FibHeap} {y node : ℕ}
  {key : ℤ} {data : δ}

/-- What cuts do: more nodes are roots, and nothing else can be seen to change.
Source: `fibheap.c` `fibheap_cut`, `fibheap_cascading_cut` -/
structure Recut (mem : Mem δ) (heap : FibHeap) (mem' : Mem δ) (heap' : FibHeap) (N : Finset ℕ) :
    Prop where
  forest : Forest mem' N none
  roots : RootRing mem' heap' (tops mem' N)
  tops_subset : tops mem N ⊆ tops mem' N
  same : SameContents mem mem' N
  min_eq : heap'.min = heap.min
  nodes_eq : heap'.nodes = heap.nodes

theorem Recut.trans (h : Recut mem heap mem' heap' N) (h' : Recut mem' heap' mem'' heap'' N) :
    Recut mem heap mem'' heap'' N :=
  ⟨h'.forest, h'.roots, h.tops_subset.trans h'.tops_subset, h.same.trans h'.same,
    h'.min_eq.trans h.min_eq, h'.nodes_eq.trans h.nodes_eq⟩

/-- **`fibheap_cut`** of a node that may be below its parent.
Source: `fibheap.c` `fibheap_cut`
Kind: L -/
theorem cut_recut (hf : Shape mem N none)
    (horder : ∀ a ∈ N, a ≠ node → ∀ p, (mem a).parent = some p → (mem p).key ≤ (mem a).key)
    (hR : RootRing mem heap (tops mem N)) (hn : node ∈ N) (hp : (mem node).parent = some y) :
    Recut mem heap (fibheapCut mem heap node y).1 (fibheapCut mem heap node y).2 N ∧
      tops (fibheapCut mem heap node y).1 N = insert node (tops mem N) := by
  obtain ⟨hforest, htops, hroots, hsame, -, hmin, hnodes⟩ := cut_spec hf horder hR hn hp
  refine ⟨⟨hforest, htops ▸ hroots, ?_, hsame, hmin, hnodes⟩, htops⟩
  rw [htops]
  exact Finset.subset_insert node _

/-- **`fibheap_cascading_cut`** ends after at most as many cuts as there are nodes that are no roots.
Source: `fibheap.c` `fibheap_cascading_cut`
Kind: L -/
theorem cascadingCut_spec {fuel : ℕ} (hf : Forest mem N none) (hR : RootRing mem heap (tops mem N))
    (hy : y ∈ N) (hfuel : N.card < fuel + (tops mem N).card) :
    ∃ mem' heap', fibheapCascadingCut fuel mem heap y = .ok (mem', heap') ∧
      Recut mem heap mem' heap' N := by
  induction fuel generalizing mem heap y with
  | zero =>
    have hle : (tops mem N).card ≤ N.card := Finset.card_le_card (Finset.filter_subset _ _)
    omega
  | succ fuel ih =>
    rw [fibheapCascadingCut]
    cases hp : (mem y).parent with
    | none =>
      exact ⟨mem, heap, rfl, hf, hR, subset_rfl, SameContents.refl mem N, rfl, rfl⟩
    | some z =>
      dsimp only
      by_cases hmark : (mem y).mark = false
      · rw [if_pos hmark]
        have hform : ∀ a, modify mem y (fun n => { n with mark := true }) a =
            { mem a with mark := if a = y then true else (mem a).mark } := by
          intro a
          rw [modify_apply]
          split_ifs with h
          · rw [h]
          · rfl
        generalize modify mem y (fun n => { n with mark := true }) = mem1 at hform
        have htops : tops mem1 N = tops mem N := tops_congr fun a _ => by rw [hform]
        refine ⟨mem1, heap, rfl, hf.congr ?_ ?_ ?_ ?_ ?_, ⟨?_, ?_⟩, htops ▸ subset_rfl,
          ⟨fun a => ?_, fun a ha => ?_⟩, rfl, rfl⟩
        · exact fun a _ => by rw [hform]
        · exact fun a _ => by rw [hform]
        · exact fun a _ => by rw [hform]; exact ⟨rfl, rfl⟩
        · exact fun a _ => by rw [hform]
        · exact fun a _ => by rw [hform]
        · rw [htops]
          exact hR.1.congr fun a _ => by rw [hform]; exact ⟨rfl, rfl⟩
        · rw [htops]
          exact hR.2
        · rw [hform]
          exact ⟨rfl, rfl⟩
        · have hay : a ≠ y := fun h => ha (h ▸ hy)
          rw [hform, if_neg hay]
      · rw [if_neg hmark]
        have hytop : y ∉ tops mem N := by
          rw [mem_tops, hp]
          rintro ⟨-, h⟩
          cases h
        obtain ⟨hcut, htops⟩ := cut_recut hf.toShape (fun a ha _ => hf.order a ha) hR hy hp
        have hfuel' : N.card < fuel + (tops (fibheapCut mem heap y z).1 N).card := by
          rw [htops, Finset.card_insert_of_notMem hytop]
          omega
        obtain ⟨mem', heap', heq, hrest⟩ :=
          ih hcut.forest hcut.roots (hf.parent_mem y hy z hp) hfuel'
        exact ⟨mem', heap', heq, hcut.trans hrest⟩

theorem fibheapCompare_le (mem : Mem δ) (a b : ℕ) :
    fibheapCompare mem a b ≤ 0 ↔ (mem a).key ≤ (mem b).key := by
  unfold fibheapCompare
  split_ifs with hlt hgt
  · simp [hlt.le]
  · simpa using hgt
  · simpa using hgt

/-- A node with a lower key, and what is left of the order. -/
theorem Forest.lower (hf : Forest mem N none) (hkey : key ≤ (mem node).key)
    (hmem' : ∀ a, mem' a = if a = node then { mem a with data := data, key := key } else mem a) :
    Shape mem' N none ∧ tops mem' N = tops mem N ∧
      (∀ a ∈ N, a ≠ node → ∀ p, (mem' a).parent = some p → (mem' p).key ≤ (mem' a).key) := by
  have hform : ∀ a, mem' a = { mem a with data := (mem' a).data, key := (mem' a).key } := by
    intro a
    rw [hmem']
    split_ifs <;> rfl
  have hparent : ∀ a, (mem' a).parent = (mem a).parent := fun a => by rw [hform]
  have hkids : ∀ b, kids mem' N b = kids mem N b := by
    intro b
    refine Finset.filter_congr fun c _ => ?_
    rw [hparent]
  have hle : ∀ a, (mem' a).key ≤ (mem a).key := by
    intro a
    rw [hmem']
    split_ifs with h
    · exact h ▸ hkey
    · exact le_rfl
  refine ⟨⟨fun a ha p hp => ?_, ?_, fun a ha hae => ?_⟩, tops_congr fun a _ => hparent a,
    fun a ha han p hp => ?_⟩
  · exact hf.parent_mem a ha p (hparent a ▸ hp)
  · obtain ⟨rank, hrank⟩ := hf.rank
    exact ⟨rank, fun a ha p hp => hrank a ha p (hparent a ▸ hp)⟩
  · refine (hf.node a ha hae).congr (hkids a) ?_ ?_ fun c _ => ?_
    · rw [hform]
    · rw [hform]
    · rw [hform]
      exact ⟨rfl, rfl⟩
  · have hkeya : (mem' a).key = (mem a).key := by rw [hmem', if_neg han]
    rw [hkeya]
    exact (hle p).trans (hf.order a ha p (hparent a ▸ hp))

/-- **The cut and the cascade**, or nothing where the parent is still below.
Source: `fibheap.c` `fibheap_replace_key_data` (`if (y != NULL && ...)`)
Kind: L -/
theorem cutBelow_spec {fuel : ℕ} (hf : Shape mem N none)
    (horder : ∀ a ∈ N, a ≠ node → ∀ p, (mem a).parent = some p → (mem p).key ≤ (mem a).key)
    (hR : RootRing mem heap (tops mem N)) (hn : node ∈ N) (hfuel : N.card < fuel) :
    ∃ mem' heap', cutBelow fuel mem heap node (mem node).parent = .ok (mem', heap') ∧
      Recut mem heap mem' heap' N ∧
      (node ∈ tops mem' N ∨ ∃ p ∈ N, p ≠ node ∧ (mem p).key < (mem node).key) := by
  cases hp : (mem node).parent with
  | none =>
    have hforest : Forest mem N none := by
      refine ⟨hf, fun a ha p hap => ?_⟩
      by_cases han : a = node
      · rw [han, hp] at hap
        cases hap
      · exact horder a ha han p hap
    exact ⟨mem, heap, rfl, ⟨hforest, hR, subset_rfl, SameContents.refl mem N, rfl, rfl⟩,
      .inl (mem_tops.mpr ⟨hn, hp⟩)⟩
  | some y =>
    have hy := hf.parent_mem node hn y hp
    have hyn : y ≠ node := fun h => hf.parent_ne hn (h ▸ hp)
    simp only [cutBelow, fibheapCompare_le]
    by_cases hle : (mem node).key ≤ (mem y).key
    · rw [if_pos hle]
      obtain ⟨hcut, htops⟩ := cut_recut hf horder hR hn hp
      obtain ⟨mem', heap', heq, hrest⟩ :=
        cascadingCut_spec hcut.forest hcut.roots hy (Nat.lt_add_right _ hfuel)
      refine ⟨mem', heap', heq, hcut.trans hrest, .inl (hrest.tops_subset ?_)⟩
      rw [htops]
      exact Finset.mem_insert_self node _
    · rw [if_neg hle]
      have hforest : Forest mem N none := by
        refine ⟨hf, fun a ha p hap => ?_⟩
        by_cases han : a = node
        · subst han
          obtain rfl : y = p := Option.some.inj (hp.symm.trans hap)
          exact (not_le.mp hle).le
        · exact horder a ha han p hap
      exact ⟨mem, heap, rfl, ⟨hforest, hR, subset_rfl, SameContents.refl mem N, rfl, rfl⟩,
        .inr ⟨y, hy, hyn, not_le.mp hle⟩⟩

/-- **`fibheap_replace_key_data`** with a key that is not greater gives the node the key and the data.
Source: `fibheap.c` `fibheap_replace_key_data`
Kind: L -/
theorem replaceKeyData_spec {fuel : ℕ} (h : HeapInv mem heap N) (hn : node ∈ N)
    (hkey : key ≤ (mem node).key) (hfuel : N.card < fuel) (data : δ) :
    ∃ mem' heap', fibheapReplaceKeyData fuel mem heap node key data =
        .ok (some (mem node).data, mem', heap') ∧ HeapInv mem' heap' N ∧
      SameContents (modify mem node fun n => { n with data, key }) mem' N := by
  rw [fibheapReplaceKeyData, if_neg (not_lt.mpr hkey)]
  dsimp only
  have hmem1 : ∀ a, modify mem node (fun n => { n with data, key }) a =
      if a = node then { mem a with data, key } else mem a := by
    intro a
    rw [modify_apply]
    split_ifs with ha
    · rw [ha]
    · rfl
  generalize modify mem node (fun n => { n with data, key }) = mem1 at hmem1
  have hform : ∀ a, mem1 a = { mem a with data := (mem1 a).data, key := (mem1 a).key } := by
    intro a
    rw [hmem1]
    split_ifs <;> rfl
  obtain ⟨hshape, htops1, horder⟩ := h.forest.lower hkey hmem1
  have hR1 : RootRing mem1 heap (tops mem1 N) := by
    rw [htops1]
    exact ⟨h.roots.1.congr fun a _ => by rw [hform]; exact ⟨rfl, rfl⟩, h.roots.2⟩
  have hkey1 : ∀ a ≠ node, (mem1 a).key = (mem a).key := by
    intro a ha
    rw [hmem1, if_neg ha]
  have hkeyn : (mem1 node).key = key := by rw [hmem1, if_pos rfl]
  have hsome : ∃ m, heap.min = some m := by
    refine Option.ne_none_iff_exists'.mp fun hnone => ?_
    rw [h.eq_empty hnone] at hn
    exact absurd hn (Finset.notMem_empty node)
  obtain ⟨m, hm⟩ := hsome
  obtain ⟨⟨hmN, hmp⟩, hmin⟩ := h.min_le hm
  have hmp' : (mem1 m).key ≤ (mem m).key := by
    by_cases hmn : m = node
    · rw [hmn, hkeyn]
      exact hkey
    · rw [hkey1 m hmn]
  by_cases hokey : (mem node).key = key
  · -- only the data change
    rw [if_pos hokey]
    have hsame : ∀ a, (mem1 a).key = (mem a).key := by
      intro a
      by_cases ha : a = node
      · rw [ha, hkeyn, hokey]
      · exact hkey1 a ha
    refine ⟨mem1, heap, rfl, ⟨h.forest.congr ?_ ?_ ?_ ?_ fun a _ => hsame a, hR1, ?_, h.nodes⟩,
      SameContents.refl mem1 N⟩
    · exact fun a _ => by rw [hform]
    · exact fun a _ => by rw [hform]
    · exact fun a _ => by rw [hform]; exact ⟨rfl, rfl⟩
    · exact fun a _ => by rw [hform]
    · rw [htops1, hm]
      refine ⟨mem_tops.mpr ⟨hmN, hmp⟩, fun a ha => ?_⟩
      rw [hsame, hsame]
      exact hmin a (mem_tops.mp ha).1
  · rw [if_neg hokey]
    obtain ⟨mem', heap', heq, hcut, hwhere⟩ := cutBelow_spec hshape horder hR1 hn hfuel
    simp only [heq, bind, Except.bind]
    have hm' : heap'.min = some m := hcut.min_eq.trans hm
    have hcard : heap'.nodes = N.card := hcut.nodes_eq.trans h.nodes
    have hkeys : ∀ a, (mem' a).key = (mem1 a).key := fun a => (hcut.same.1 a).1
    have hmtop : m ∈ tops mem' N := by
      refine hcut.tops_subset ?_
      rw [htops1]
      exact mem_tops.mpr ⟨hmN, hmp⟩
    simp only [hm', fibheapCompare_le, hkeys]
    by_cases hle : (mem1 node).key ≤ (mem1 m).key
    · rw [if_pos hle]
      refine ⟨mem', _, rfl, ⟨hcut.forest, hcut.roots, ⟨?_, fun a ha => ?_⟩, hcard⟩, hcut.same⟩
      · -- a node below the minimum has no parent below it
        rcases hwhere with htop | ⟨p, hpN, hpn, hlt⟩
        · exact htop
        · rw [hkey1 p hpn] at hlt
          have := hmin p hpN
          omega
      · rw [hkeys, hkeys]
        have haN := (mem_tops.mp ha).1
        by_cases han : a = node
        · rw [han]
        · rw [hkey1 a han]
          exact hle.trans (hmp'.trans (hmin a haN))
    · rw [if_neg hle]
      have hmn : m ≠ node := fun hmn => hle (hmn ▸ le_rfl)
      refine ⟨mem', heap', rfl, ⟨hcut.forest, hcut.roots, ?_, hcard⟩, hcut.same⟩
      rw [hm']
      refine ⟨hmtop, fun a ha => ?_⟩
      rw [hkeys, hkeys, hkey1 m hmn]
      by_cases han : a = node
      · rw [han]
        rw [hkey1 m hmn] at hle
        exact (not_le.mp hle).le
      · rw [hkey1 a han]
        exact hmin a (mem_tops.mp ha).1

end Lowering

/-! ## Extraction -/

section Extraction

variable {δ : Type} {mem mem' : Mem δ} {N : Finset ℕ} {heap heap' : FibHeap} {ret c x : ℕ}

/-- What the promotion of children keeps: the forest, the fields of `ret` apart, its root list, and
everything but parents and links.
Source: `fibheap.c` `fibheap_extr_min_node` -/
structure Promoting (mem : Mem δ) (heap : FibHeap) (mem' : Mem δ) (heap' : FibHeap) (N : Finset ℕ)
    (ret : ℕ) : Prop where
  forest : Forest mem' N (some ret)
  roots : RootRing mem' heap' (tops mem' N)
  same : SameContents mem mem' N
  degree : ∀ a, (mem' a).degree = (mem a).degree
  min_eq : heap'.min = heap.min
  nodes_eq : heap'.nodes = heap.nodes

theorem Promoting.trans {mem'' : Mem δ} {heap'' : FibHeap} (h : Promoting mem heap mem' heap' N ret)
    (h' : Promoting mem' heap' mem'' heap'' N ret) : Promoting mem heap mem'' heap'' N ret :=
  ⟨h'.forest, h'.roots, h.same.trans h'.same, fun a => (h'.degree a).trans (h.degree a),
    h'.min_eq.trans h.min_eq, h'.nodes_eq.trans h.nodes_eq⟩

/-- **One child** becomes a root. Its siblings keep their links.
Source: `fibheap.c` `fibheap_extr_min_node` (`x->parent = NULL; fibheap_ins_root (heap, x);`)
Kind: L -/
theorem promote_step (hf : Forest mem N (some ret)) (hR : RootRing mem heap (tops mem N))
    (hx : x ∈ kids mem N ret)
    (hmem' : (fibheapInsRoot (modify mem x fun n => { n with parent := none }) heap x).1 = mem')
    (hheap' : (fibheapInsRoot (modify mem x fun n => { n with parent := none }) heap x).2 = heap') :
    Promoting mem heap mem' heap' N ret ∧
      tops mem' N = insert x (tops mem N) ∧ kids mem' N ret = (kids mem N ret).erase x ∧
      ∀ a ∈ (kids mem N ret).erase x, (mem' a).right = (mem a).right := by
  obtain ⟨hxN, hxp⟩ := mem_kids.mp hx
  have hform : ∀ a, modify mem x (fun n => { n with parent := none }) a =
      { mem a with parent := if a = x then none else (mem a).parent } := by
    intro a
    rw [modify_apply]
    split_ifs with h
    · rw [h]
    · rfl
  generalize modify mem x (fun n => { n with parent := none }) = mem1 at hform hmem' hheap'
  have htop : x ∉ tops mem N := by
    rw [mem_tops, hxp]
    rintro ⟨-, h⟩
    cases h
  have hR1 : RootRing mem1 heap (tops mem N) :=
    ⟨hR.1.congr fun a _ => by rw [hform]; exact ⟨rfl, rfl⟩, hR.2⟩
  obtain ⟨hrel, hring, hmin, hnodes⟩ := insRoot_spec hR1 htop
  rw [hmem'] at hrel hring
  rw [hheap'] at hring hmin hnodes
  have hparent : ∀ a, (mem' a).parent = if a = x then none else (mem a).parent := by
    intro a
    rw [hrel.parent, hform]
  have hkey : ∀ a, (mem' a).key = (mem a).key ∧ (mem' a).data = (mem a).data := by
    intro a
    rw [hrel.2, hform]
    exact ⟨rfl, rfl⟩
  have htops : tops mem' N = insert x (tops mem N) := by
    ext a
    by_cases hax : a = x
    · simp [hparent, hax, hxN]
    · simp [hparent, hax]
  have hkids : ∀ b, kids mem' N b = (kids mem N b).erase x := by
    intro b
    ext a
    by_cases hax : a = x
    · simp [hparent, hax]
    · simp [hparent, hax]
  -- a child that is not moved is not in the root list
  have hlinks : ∀ b, ∀ a ∈ kids mem N b, a ≠ x → mem' a = mem a := by
    intro b a ha hax
    have hnot : a ∉ insert x (tops mem N) := by
      rw [Finset.mem_insert, not_or, mem_tops, (mem_kids.mp ha).2]
      exact ⟨hax, fun h => Option.some_ne_none b h.2⟩
    rw [hrel.1 a hnot, hform, if_neg hax]
  refine ⟨⟨⟨⟨?_, ?_, ?_⟩, ?_⟩, htops ▸ hring, ⟨hkey, ?_⟩, ?_, hmin, hnodes⟩, htops, hkids ret, ?_⟩
  · intro a ha p hap
    rw [hparent] at hap
    split_ifs at hap
    exact hf.parent_mem a ha p hap
  · obtain ⟨rank, hrank⟩ := hf.rank
    refine ⟨rank, fun a ha p hap => ?_⟩
    rw [hparent] at hap
    split_ifs at hap
    exact hrank a ha p hap
  · intro a ha hae
    have hxa : x ∉ kids mem N a := by
      intro h
      exact hae (hxp.symm.trans (mem_kids.mp h).2)
    have hkidsa : kids mem' N a = kids mem N a := by
      rw [hkids, Finset.erase_eq_of_notMem hxa]
    refine (hf.node a ha hae).congr hkidsa ?_ ?_ fun b hb => ?_
    · rw [hrel.child, hform]
    · rw [hrel.degree, hform]
    · rw [hlinks a b hb fun h => hxa (h ▸ hb)]
      exact ⟨rfl, rfl⟩
  · intro a ha p hap
    rw [(hkey a).1, (hkey p).1]
    rw [hparent] at hap
    split_ifs at hap
    exact hf.order a ha p hap
  · intro a ha
    have hax : a ≠ x := fun h => ha (h ▸ hxN)
    have hnot : a ∉ insert x (tops mem N) := by
      rw [Finset.mem_insert, not_or]
      exact ⟨hax, fun h => ha (mem_tops.mp h).1⟩
    rw [hrel.1 a hnot, hform, if_neg hax]
  · intro a
    rw [hrel.degree, hform]
  · intro a ha
    obtain ⟨hax, hak⟩ := Finset.mem_erase.mp ha
    rw [hlinks ret a hak hax]

/-- The rest of a walk along `right` links that have not changed. -/
theorem chain_right_congr {l : List ℕ} (h : (l ++ [c]).IsChain fun a b => (mem a).right = b)
    (hright : ∀ a ∈ l, (mem' a).right = (mem a).right) :
    (l ++ [c]).IsChain fun a b => (mem' a).right = b := by
  rw [List.isChain_append] at h ⊢
  obtain ⟨hinner, -, hlast⟩ := h
  refine ⟨hinner.imp_of_mem_imp fun a b ha _ hab => ?_, List.isChain_singleton c,
    fun a ha b hb => ?_⟩
  · exact (hright a ha).trans hab
  · exact (hright a (List.mem_of_getLast? ha)).trans (hlast a ha b hb)

/-- **The walk** over the children that are left, `rest`: their list is read while they leave it, and
ends where it began.
Source: `fibheap.c` `fibheap_extr_min_node` (`for (x = ret->child, orig = NULL; ...)`)
Kind: L -/
theorem promoteLoop_spec {fuel : ℕ} {rest : List ℕ} (hf : Forest mem N (some ret))
    (hR : RootRing mem heap (tops mem N)) (hkids : kids mem N ret = rest.toFinset)
    (hnd : rest.Nodup) (hchain : (rest ++ [c]).IsChain fun a b => (mem a).right = b) (hc : c ∉ rest)
    (hfuel : rest.length < fuel) :
    ∃ mem' heap', promoteLoop fuel mem heap (rest ++ [c]).head? (some c) = .ok (mem', heap') ∧
      Promoting mem heap mem' heap' N ret ∧ tops mem' N = tops mem N ∪ kids mem N ret ∧
      kids mem' N ret = ∅ := by
  induction rest generalizing mem heap fuel with
  | nil =>
    obtain ⟨fuel, rfl⟩ : ∃ k, fuel = k + 1 := ⟨fuel - 1, by simp at hfuel; omega⟩
    rw [List.toFinset_nil] at hkids
    refine ⟨mem, heap, ?_, ⟨hf, hR, SameContents.refl mem N, fun _ => rfl, rfl, rfl⟩, ?_, hkids⟩
    · simp [promoteLoop]
    · rw [hkids, Finset.union_empty]
  | cons x rest ih =>
    obtain ⟨fuel, rfl⟩ : ∃ k, fuel = k + 1 := ⟨fuel - 1, by simp at hfuel; omega⟩
    obtain ⟨hxrest, hnd'⟩ := List.nodup_cons.mp hnd
    rw [List.mem_cons, not_or] at hc
    have hx : x ∈ kids mem N ret := by
      rw [hkids]
      simp
    rw [List.cons_append, List.isChain_cons] at hchain
    obtain ⟨hnext, hchain'⟩ := hchain
    obtain ⟨y, hy⟩ : ∃ y, (rest ++ [c]).head? = some y := by
      cases rest with
      | nil => exact ⟨c, rfl⟩
      | cons d _ => exact ⟨d, rfl⟩
    obtain ⟨hprom, htops, hkids1, hright⟩ := promote_step hf hR hx rfl rfl
    have herase : (kids mem N ret).erase x = rest.toFinset := by
      rw [hkids, List.toFinset_cons, Finset.erase_insert (by simpa using hxrest)]
    rw [herase] at hkids1 hright
    have hchain1 : (rest ++ [c]).IsChain fun a b =>
        ((fibheapInsRoot (modify mem x fun n => { n with parent := none }) heap x).1 a).right = b := by
      exact chain_right_congr hchain' fun a ha => hright a (List.mem_toFinset.mpr ha)
    obtain ⟨mem', heap', heq, hprom', htops', hkids'⟩ :=
      ih hprom.forest hprom.roots hkids1 hnd' hchain1 hc.2 (by simp at hfuel; omega)
    refine ⟨mem', heap', ?_, hprom.trans hprom', ?_, hkids'⟩
    · have hcx : ¬ some c = some x := fun h => hc.1 (Option.some.inj h)
      rw [List.cons_append, List.head?_cons, promoteLoop, if_neg hcx]
      rw [hy] at heq
      rw [hnext y hy]
      exact heq
    · rw [htops', htops, hkids1, ← herase]
      ext a
      simp only [Finset.mem_union, Finset.mem_insert, Finset.mem_erase]
      constructor
      · rintro ((rfl | ha) | ha)
        · exact .inr hx
        · exact .inl ha
        · exact .inr ha.2
      · rintro (ha | ha)
        · exact .inl (.inr ha)
        · by_cases hax : a = x
          · exact .inl (.inl hax)
          · exact .inr ⟨hax, ha⟩

/-- The walk as a whole. Source: `fibheap.c` `fibheap_extr_min_node`. Kind: L -/
theorem promote_spec {fuel : ℕ} (hf : Forest mem N none) (hR : RootRing mem heap (tops mem N))
    (hret : ret ∈ N) (hfuel : N.card < fuel) :
    ∃ mem' heap', promoteLoop fuel mem heap (mem ret).child none = .ok (mem', heap') ∧
      Promoting mem heap mem' heap' N ret ∧ tops mem' N = tops mem N ∪ kids mem N ret ∧
      kids mem' N ret = ∅ := by
  have hf' : Forest mem N (some ret) :=
    ⟨⟨hf.parent_mem, hf.rank, fun a ha _ => hf.node a ha (by simp)⟩, hf.order⟩
  obtain ⟨fuel, rfl⟩ : ∃ k, fuel = k + 1 := ⟨fuel - 1, by omega⟩
  have hinv := hf.node ret hret (by simp)
  have hchild := hinv.child
  cases hch : (mem ret).child with
  | none =>
    rw [hch] at hchild
    have hempty : kids mem N ret = ∅ := hchild
    refine ⟨mem, heap, rfl, ⟨hf', hR, SameContents.refl mem N, fun _ => rfl, rfl, rfl⟩, ?_, hempty⟩
    rw [hempty, Finset.union_empty]
  | some c =>
    rw [hch] at hchild
    have hc : c ∈ kids mem N ret := hchild
    -- the list of children, opened at the first one
    obtain ⟨l, hnd, hset, haround⟩ := IsRing.exists_list hinv.ring hc
    obtain ⟨hcl, hnd'⟩ := List.nodup_cons.mp hnd
    have hring : (c :: (l ++ [c])).IsChain fun a b => (mem a).right = b :=
      List.IsChain.imp (fun _ _ hab => hab.1) haround
    rw [List.isChain_cons] at hring
    obtain ⟨hnext, hchain⟩ := hring
    obtain ⟨y, hy⟩ : ∃ y, (l ++ [c]).head? = some y := by
      cases l with
      | nil => exact ⟨c, rfl⟩
      | cons d _ => exact ⟨d, rfl⟩
    obtain ⟨hprom, htops, hkids1, hright⟩ := promote_step hf' hR hc rfl rfl
    have herase : (kids mem N ret).erase c = l.toFinset := by
      rw [← hset, List.toFinset_cons, Finset.erase_insert (by simpa using hcl)]
    rw [herase] at hkids1 hright
    have hchain1 : (l ++ [c]).IsChain fun a b =>
        ((fibheapInsRoot (modify mem c fun n => { n with parent := none }) heap c).1 a).right = b := by
      exact chain_right_congr hchain fun a ha => hright a (List.mem_toFinset.mpr ha)
    have hlen : l.length < fuel := by
      have hcard : (kids mem N ret).card = l.length + 1 := by
        rw [← hset, List.toFinset_card_of_nodup hnd, List.length_cons]
      have hle : (kids mem N ret).card ≤ N.card := Finset.card_le_card (Finset.filter_subset _ _)
      omega
    obtain ⟨mem', heap', heq, hprom', htops', hkids'⟩ :=
      promoteLoop_spec hprom.forest hprom.roots hkids1 hnd' hchain1 hcl hlen
    refine ⟨mem', heap', ?_, hprom.trans hprom', ?_, hkids'⟩
    · rw [promoteLoop, if_neg (by simp)]
      rw [hy] at heq
      have hyc : (mem c).right = y := hnext y hy
      rw [hyc]
      exact heq
    · rw [htops', htops, hkids1, ← herase, Finset.insert_union, ← Finset.union_insert,
        Finset.insert_erase hc]

/-- The weight of the roots that `fibheap_consolidate` meets when the minimum `m` is extracted: the
other roots and the children of `m`. -/
def extractWeight (mem : Mem δ) (N : Finset ℕ) (m : ℕ) : ℕ :=
  ∑ a ∈ (tops mem N ∪ kids mem N m).erase m, 2 ^ (mem a).degree

/-- The forest without a root that has no children. -/
theorem Forest.erase_root (hf : Forest mem N (some ret)) (hkids : kids mem N ret = ∅)
    (hroot : (mem ret).parent = none) :
    Forest mem (N.erase ret) none ∧ tops mem (N.erase ret) = (tops mem N).erase ret := by
  have hnot : ∀ a ∈ N, (mem a).parent ≠ some ret := by
    intro a ha hap
    have hmem : a ∈ kids mem N ret := mem_kids.mpr ⟨ha, hap⟩
    rw [hkids] at hmem
    exact absurd hmem (Finset.notMem_empty a)
  have hkids' : ∀ b, kids mem (N.erase ret) b = kids mem N b := by
    intro b
    ext c
    rw [mem_kids, mem_kids, Finset.mem_erase]
    constructor
    · rintro ⟨⟨-, hc⟩, hp⟩
      exact ⟨hc, hp⟩
    · rintro ⟨hc, hp⟩
      refine ⟨⟨?_, hc⟩, hp⟩
      rintro rfl
      rw [hroot] at hp
      cases hp
  refine ⟨⟨⟨fun a ha p hp => ?_, ?_, fun a ha _ => ?_⟩, fun a ha p hp => ?_⟩, ?_⟩
  · have haN := Finset.mem_of_mem_erase ha
    refine Finset.mem_erase.mpr ⟨?_, hf.parent_mem a haN p hp⟩
    rintro rfl
    exact hnot a haN hp
  · obtain ⟨rank, hrank⟩ := hf.rank
    exact ⟨rank, fun a ha p hp => hrank a (Finset.mem_of_mem_erase ha) p hp⟩
  · obtain ⟨hne, haN⟩ := Finset.mem_erase.mp ha
    have hinv := hf.node a haN fun h => hne (Option.some.inj h).symm
    exact ⟨hkids' a ▸ hinv.ring, hkids' a ▸ hinv.child, hkids' a ▸ hinv.degree⟩
  · exact hf.order a (Finset.mem_of_mem_erase ha) p hp
  · exact Finset.filter_erase ..

/-- **The heap without its minimum**, as `fibheap_consolidate` meets it.
Source: `fibheap.c` `fibheap_extr_min_node`
Kind: L -/
theorem detachMin_spec {fuel m : ℕ} (h : HeapInv mem heap N) (hm : heap.min = some m)
    (hfuel : N.card < fuel) :
    ∃ mem1 heap1 mem2 heap2, promoteLoop fuel mem heap (mem m).child none = .ok (mem1, heap1) ∧
      fibheapRemRoot mem1 heap1 m = (mem2, heap2) ∧ Forest mem2 (N.erase m) none ∧
      RootRing mem2 heap2 (tops mem2 (N.erase m)) ∧ SameContents mem mem2 N ∧
      heap2.nodes - 1 = (N.erase m).card ∧ potential mem2 (N.erase m) = extractWeight mem N m := by
  obtain ⟨⟨hmN, hmp⟩, -⟩ := h.min_le hm
  obtain ⟨mem1, heap1, heq1, hprom, htops1, hkids1⟩ := promote_spec h.forest h.roots hmN hfuel
  have hmtop : m ∈ tops mem1 N := by
    rw [htops1]
    exact Finset.mem_union_left _ (mem_tops.mpr ⟨hmN, hmp⟩)
  obtain ⟨hrel, hring, -, -, hnodes2⟩ := remRoot_spec hprom.roots hmtop (mem_tops.mp hmtop).2
  have hforest2 := hprom.forest.relinked hrel subset_rfl
  obtain ⟨mem2, heap2, heq2⟩ : ∃ mem2 heap2, fibheapRemRoot mem1 heap1 m = (mem2, heap2) :=
    ⟨_, _, rfl⟩
  rw [heq2] at hrel hring hnodes2 hforest2
  dsimp only at hrel hring hnodes2 hforest2
  have hkids2 : kids mem2 N m = ∅ := by
    rw [← hkids1]
    exact Finset.filter_congr fun a _ => by rw [hrel.parent]
  have hroot2 : (mem2 m).parent = none := by
    rw [hrel.parent]
    exact (mem_tops.mp hmtop).2
  obtain ⟨hforest3, htops3⟩ := hforest2.erase_root hkids2 hroot2
  rw [hrel.tops_eq N] at htops3
  refine ⟨mem1, heap1, mem2, heap2, heq1, heq2, hforest3, ?_, ?_, ?_, ?_⟩
  · rw [htops3]
    exact hring
  · exact hprom.same.trans (hrel.sameContents (Finset.filter_subset _ _))
  · rw [hnodes2, hprom.nodes_eq, h.nodes, Finset.card_erase_of_mem hmN]
  · rw [potential, extractWeight, htops3, htops1]
    refine Finset.sum_congr rfl fun a _ => ?_
    rw [hrel.degree, hprom.degree]

/-- **`fibheap_extract_min`** takes out the minimum and returns its data, if the roots are light
enough for the array of `fibheap_consolidate`; otherwise it indexes past that array.
Source: `fibheap.c` `fibheap_extr_min_node`, `fibheap_extract_min`
Kind: L -/
theorem extractMin_spec {sizeofLong fuel m : ℕ} (h : HeapInv mem heap N) (hm : heap.min = some m)
    (hfuel : N.card < fuel) :
    (extractWeight mem N m < 2 ^ (1 + 8 * sizeofLong) →
      ∃ mem' heap', fibheapExtractMin sizeofLong fuel mem heap = .ok (some (mem m).data, mem', heap') ∧
        HeapInv mem' heap' (N.erase m) ∧ SameContents mem mem' N) ∧
    (2 ^ (1 + 8 * sizeofLong) ≤ extractWeight mem N m →
      fibheapExtractMin sizeofLong fuel mem heap = .error .outOfBounds) := by
  obtain ⟨mem1, heap1, mem2, heap2, heq1, heq2, hforest, hroots, hsame, hcard, hpot⟩ :=
    detachMin_spec h hm hfuel
  have hdata : (mem2 m).data = (mem m).data := (hsame.1 m).2
  rw [fibheapExtractMin, hm]
  simp only [fibheapExtrMinNode, heq1, heq2, bind, Except.bind]
  by_cases hzero : heap2.nodes - 1 = 0
  · -- the minimum was the only node
    rw [if_pos hzero]
    have hempty : N.erase m = ∅ := Finset.card_eq_zero.mp (hcard ▸ hzero)
    have htops0 : tops mem2 (N.erase m) = ∅ := by rw [hempty]; rfl
    have hweight : extractWeight mem N m = 0 := by
      rw [← hpot, potential, htops0]
      rfl
    refine ⟨fun _ => ⟨mem2, { heap2 with nodes := heap2.nodes - 1, min := none },
      by rw [← hdata], ⟨hforest, hroots, ?_, hcard⟩, hsame⟩, fun hbig => ?_⟩
    · rw [htops0]
      rfl
    · rw [hweight] at hbig
      have := Nat.two_pow_pos (1 + 8 * sizeofLong)
      omega
  · rw [if_neg hzero]
    have hfuel' : (N.erase m).card < fuel := lt_of_le_of_lt (Finset.card_erase_le) hfuel
    have hroots' : RootRing mem2 { heap2 with nodes := heap2.nodes - 1, min := some (mem2 m).right }
        (tops mem2 (N.erase m)) := hroots
    obtain ⟨hok, hbad⟩ := consolidate_spec hforest hroots' hcard hfuel'
    rw [hpot] at hok hbad
    refine ⟨fun hsmall => ?_, fun hbig => ?_⟩
    · obtain ⟨mem', heap', heq, hinv, hsame3⟩ := hok hsmall
      rw [heq]
      have hsame3' : SameContents mem2 mem' N :=
        ⟨hsame3.1, fun a ha => hsame3.2 a fun hmem => ha (Finset.mem_of_mem_erase hmem)⟩
      have hdata' : (mem' m).data = (mem m).data := ((hsame3.1 m).2).trans hdata
      exact ⟨mem', heap', by rw [← hdata'], hinv, hsame.trans hsame3'⟩
    · rw [hbad hbig]

end Extraction

end GccCore.Iberty.Fibheap
