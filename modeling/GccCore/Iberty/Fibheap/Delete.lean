import GccCore.Iberty.Fibheap.Contract

/-!
# `libiberty/fibheap.c`: deleting a node

`fibheap_delete_node` lowers the key of the node to `FIBHEAPKEY_MIN` and extracts the minimum.

* **What is cut** (`cascadingCut_parents`, `replaceKeyMin_spec`): lowering the key of a node cuts it
  and the marked nodes above it, and makes it the minimum.
* **The defect** (`fibheapDeleteNode_iff`): a node that has the least key already is left where it is,
  and the extraction takes whichever node of that key is the minimum. The deletion takes out the node
  if and only if its key is to be lowered or it is the minimum, and the array of
  `fibheap_consolidate` has room for the roots.
-/

namespace GccCore.Iberty.Fibheap

section Model

variable {δ : Type}

/-- `FIBHEAPKEY_MIN`, that is `LONG_MIN`. Source: `fibheap.c`. -/
def fibheapkeyMin (sizeofLong : ℕ) : ℤ := -2 ^ (8 * sizeofLong - 1)

/-- Source: `fibheap.c` `fibheap_delete_node`. -/
def fibheapDeleteNode (sizeofLong fuel : ℕ) (mem : Mem δ) (heap : FibHeap) (node : ℕ) :
    Except Failure (δ × Mem δ × FibHeap) := do
  let ret := (mem node).data
  -- To perform delete, we just make it the min key, and extract.
  let (_, mem, heap) ← fibheapReplaceKey fuel mem heap node (fibheapkeyMin sizeofLong)
  let (_, mem, heap) ← fibheapExtractMin sizeofLong fuel mem heap
  .ok (ret, mem, heap)

/-- The nodes that a cascading cut from `y` cuts: `y` and the nodes above it, as long as they are
marked and no roots. -/
def cascadeCuts : ℕ → Mem δ → ℕ → Finset ℕ
  | 0, _, _ => ∅
  | fuel + 1, mem, y =>
    match (mem y).parent with
    | none => ∅
    | some z => if (mem y).mark = false then ∅ else insert y (cascadeCuts fuel mem z)

/-- The nodes that are cut when the key of `node` becomes the least: none if it is a root. -/
def deleteCuts (mem : Mem δ) (N : Finset ℕ) (node : ℕ) : Finset ℕ :=
  match (mem node).parent with
  | none => ∅
  | some y => insert node (cascadeCuts (N.card + 1) mem y)

/-- The weight of the roots that `fibheap_consolidate` meets when `node` is deleted: the other roots,
the nodes that are cut, and the children of `node`, each without the children that are cut. -/
def deleteWeight (mem : Mem δ) (N : Finset ℕ) (node : ℕ) : ℕ :=
  ∑ a ∈ (tops mem N ∪ deleteCuts mem N node ∪ kids mem N node).erase node,
    2 ^ (kids mem N a \ deleteCuts mem N node).card

/-- What the deletion is to do: the node's data is returned, the other nodes and no more are held,
with their keys and data, and the heap is a heap.
Source: `fibheap.h` (`fibheap_delete_node`) -/
def Deletes (sizeofLong fuel : ℕ) (mem : Mem δ) (heap : FibHeap) (N : Finset ℕ) (node : ℕ) : Prop :=
  ∃ mem' heap', fibheapDeleteNode sizeofLong fuel mem heap node =
      .ok ((mem node).data, mem', heap') ∧
    (∀ a, Held mem' heap' a ↔ a ∈ N ∧ a ≠ node) ∧
    (∀ a ∈ N, a ≠ node → (mem' a).key = (mem a).key ∧ (mem' a).data = (mem a).data) ∧
    HeapInv mem' heap' (N.erase node)

end Model

/-! ## What is cut -/

section Cutting

variable {δ : Type} {mem mem' : Mem δ} {heap heap' : FibHeap} {N : Finset ℕ} {node y z : ℕ}

/-- An assignment to other fields leaves the marks. -/
theorem modify_mark (mem : Mem δ) (p x : ℕ) {f : FibNode δ → FibNode δ}
    (hf : ∀ n, (f n).mark = n.mark) : (modify mem p f x).mark = (mem x).mark := by
  rw [modify_apply]
  split_ifs with h
  · rw [hf, h]
  · rfl

/-- Putting a node into a ring leaves the marks. Source: `fibheap.c` `fibnode_insert_after`.
Kind: L -/
theorem fibnodeInsertAfter_mark (mem : Mem δ) (a b x : ℕ) :
    (fibnodeInsertAfter mem a b x).mark = (mem x).mark := by
  simp only [fibnodeInsertAfter]
  split_ifs
  · rw [modify_mark _ _ _ (by exact fun n => rfl), modify_mark _ _ _ (by exact fun n => rfl)]
  · rw [modify_mark _ _ _ (by exact fun n => rfl), modify_mark _ _ _ (by exact fun n => rfl),
      modify_mark _ _ _ (by exact fun n => rfl), modify_mark _ _ _ (by exact fun n => rfl)]

/-- A cut leaves the marks of the other nodes. Source: `fibheap.c` `fibheap_cut`. Kind: L -/
theorem fibheapCut_mark (mem : Mem δ) (heap : FibHeap) (node parent : ℕ) {x : ℕ} (hx : x ≠ node) :
    ((fibheapCut mem heap node parent).1 x).mark = (mem x).mark := by
  have hremove : ((fibnodeRemove mem node).2 x).mark = (mem x).mark := by
    rw [fibnodeRemove_apply, if_neg hx]
  have hdegree : (modify (fibnodeRemove mem node).2 parent
      (fun n => { n with degree := n.degree - 1 }) x).mark = (mem x).mark :=
    (modify_mark _ _ _ (by exact fun n => rfl)).trans hremove
  have hinsert : ∀ (m : Mem δ) (h : FibHeap), ((fibheapInsRoot m h node).1 x).mark = (m x).mark := by
    intro m h
    unfold fibheapInsRoot
    split
    · exact modify_mark _ _ _ (by exact fun n => rfl)
    · exact fibnodeInsertAfter_mark ..
  simp only [fibheapCut]
  rw [modify_apply, if_neg hx, hinsert]
  exact hdegree

/-- What a cascade cuts depends on the nodes from its start upwards only. -/
theorem cascadeCuts_congr (hf : Shape mem N none) {rank : ℕ → ℕ}
    (hrank : ∀ a ∈ N, ∀ p, (mem a).parent = some p → rank a < rank p) (hz : z ∈ N)
    (hsame : ∀ a, rank z ≤ rank a →
      (mem' a).parent = (mem a).parent ∧ (mem' a).mark = (mem a).mark) (fuel : ℕ) :
    cascadeCuts fuel mem' z = cascadeCuts fuel mem z := by
  induction fuel generalizing z with
  | zero => rfl
  | succ fuel ih =>
    obtain ⟨hparent, hmark⟩ := hsame z le_rfl
    simp only [cascadeCuts, hparent, hmark]
    cases hp : (mem z).parent with
    | none => rfl
    | some w =>
      have hlt := hrank z hz w hp
      have hrest := ih (hf.parent_mem z hz w hp) fun a ha => hsame a (hlt.le.trans ha)
      simp only [hrest]

/-- The nodes that a cascade cuts are nodes of the heap. -/
theorem cascadeCuts_subset (hf : Shape mem N none) (hy : y ∈ N) (fuel : ℕ) :
    cascadeCuts fuel mem y ⊆ N := by
  induction fuel generalizing y with
  | zero => exact Finset.empty_subset N
  | succ fuel ih =>
    simp only [cascadeCuts]
    cases hp : (mem y).parent with
    | none => exact Finset.empty_subset N
    | some z =>
      dsimp only
      split_ifs
      · exact Finset.empty_subset N
      · exact Finset.insert_subset hy (ih (hf.parent_mem y hy z hp))

/-- A node that is cut is below the cascade that starts at its parent.
Source: `fibheap.c` `fibheap_cut`
Kind: L -/
theorem cascadeCuts_cut (hf : Shape mem N none)
    (horder : ∀ a ∈ N, a ≠ y → ∀ p, (mem a).parent = some p → (mem p).key ≤ (mem a).key)
    (hR : RootRing mem heap (tops mem N)) (hy : y ∈ N) (hp : (mem y).parent = some z) (fuel : ℕ) :
    cascadeCuts fuel (fibheapCut mem heap y z).1 z = cascadeCuts fuel mem z := by
  obtain ⟨-, -, -, -, hparent, -, -⟩ := cut_spec hf horder hR hy hp
  obtain ⟨rank, hrank⟩ := hf.rank
  refine cascadeCuts_congr hf hrank (hf.parent_mem y hy z hp) (fun a ha => ?_) fuel
  have hne : a ≠ y := by
    rintro rfl
    exact absurd (hrank a hy z hp) (not_lt.mpr ha)
  exact ⟨by rw [hparent, if_neg hne], fibheapCut_mark mem heap y z hne⟩

/-- **A cascading cut**: the nodes that are cut lose their parents, and no other node does.
Source: `fibheap.c` `fibheap_cascading_cut`
Kind: L -/
theorem cascadingCut_parents {fuel bound : ℕ} (hf : Forest mem N none)
    (hR : RootRing mem heap (tops mem N)) (hy : y ∈ N) (hbound : N.card < bound + (tops mem N).card)
    (hrun : fibheapCascadingCut fuel mem heap y = .ok (mem', heap')) (a : ℕ) :
    (mem' a).parent = if a ∈ cascadeCuts bound mem y then none else (mem a).parent := by
  induction fuel generalizing bound mem heap y with
  | zero => cases hrun
  | succ fuel ih =>
    obtain ⟨bound, rfl⟩ : ∃ b, bound = b + 1 := by
      have hle : (tops mem N).card ≤ N.card := Finset.card_le_card (Finset.filter_subset _ _)
      exact ⟨bound - 1, by omega⟩
    rw [fibheapCascadingCut] at hrun
    cases hp : (mem y).parent with
    | none =>
      simp only [hp, Except.ok.injEq, Prod.mk.injEq] at hrun
      have hnone : cascadeCuts (bound + 1) mem y = ∅ := by simp only [cascadeCuts, hp]
      rw [← hrun.1, hnone, if_neg (Finset.notMem_empty a)]
    | some z =>
      simp only [hp] at hrun
      by_cases hmark : (mem y).mark = false
      · rw [if_pos hmark, Except.ok.injEq, Prod.mk.injEq] at hrun
        have hnone : cascadeCuts (bound + 1) mem y = ∅ := by
          simp only [cascadeCuts, hp, if_pos hmark]
        rw [← hrun.1, hnone, if_neg (Finset.notMem_empty a), modify_apply]
        split_ifs with h
        · rw [h]
        · rfl
      · rw [if_neg hmark] at hrun
        have hcuts : cascadeCuts (bound + 1) mem y = insert y (cascadeCuts bound mem z) := by
          simp only [cascadeCuts, hp, if_neg hmark]
        have hytop : y ∉ tops mem N := by
          rw [mem_tops, hp]
          rintro ⟨-, h⟩
          cases h
        have horder := fun a ha (_ : a ≠ y) => hf.order a ha
        obtain ⟨hcut, htops⟩ := cut_recut hf.toShape horder hR hy hp
        obtain ⟨-, -, -, -, hparent, -, -⟩ := cut_spec hf.toShape horder hR hy hp
        have hbound' : N.card < bound + (tops (fibheapCut mem heap y z).1 N).card := by
          rw [htops, Finset.card_insert_of_notMem hytop]
          omega
        have hz := hf.parent_mem y hy z hp
        have hrest := cascadeCuts_cut hf.toShape horder hR hy hp bound
        rw [ih hcut.forest hcut.roots hz hbound' hrun, hrest, hcuts, hparent]
        simp only [Finset.mem_insert]
        by_cases hay : a = y
        · simp [hay]
        · simp [hay]

/-- The nodes that a deletion cuts are nodes of the heap. -/
theorem deleteCuts_subset (hf : Shape mem N none) (hn : node ∈ N) : deleteCuts mem N node ⊆ N := by
  unfold deleteCuts
  cases hp : (mem node).parent with
  | none => exact Finset.empty_subset N
  | some y => exact Finset.insert_subset hn (cascadeCuts_subset hf (hf.parent_mem node hn y hp) _)

/-- Memories with the same parents and marks cut the same nodes. -/
theorem deleteCuts_congr (hf : Shape mem N none) (hn : node ∈ N)
    (hsame : ∀ a, (mem' a).parent = (mem a).parent ∧ (mem' a).mark = (mem a).mark) :
    deleteCuts mem' N node = deleteCuts mem N node := by
  obtain ⟨rank, hrank⟩ := hf.rank
  simp only [deleteCuts, (hsame node).1]
  cases hp : (mem node).parent with
  | none => rfl
  | some y =>
    have hrest := cascadeCuts_congr hf hrank (hf.parent_mem node hn y hp) (fun a _ => hsame a)
      (N.card + 1)
    simp only [hrest]

/-- The cut of a node of least key and the cascade. Source: `fibheap.c` `fibheap_replace_key_data`.
Kind: L -/
theorem cutBelow_parents {fuel : ℕ} (hf : Shape mem N none)
    (horder : ∀ a ∈ N, a ≠ node → ∀ p, (mem a).parent = some p → (mem p).key ≤ (mem a).key)
    (hR : RootRing mem heap (tops mem N)) (hn : node ∈ N)
    (hleast : ∀ a ∈ N, (mem node).key ≤ (mem a).key)
    (hrun : cutBelow fuel mem heap node (mem node).parent = .ok (mem', heap')) (a : ℕ) :
    (mem' a).parent = if a ∈ deleteCuts mem N node then none else (mem a).parent := by
  cases hp : (mem node).parent with
  | none =>
    have hnone : deleteCuts mem N node = ∅ := by simp only [deleteCuts, hp]
    rw [hp, cutBelow, Except.ok.injEq, Prod.mk.injEq] at hrun
    rw [hnone, if_neg (Finset.notMem_empty a), ← hrun.1]
  | some y =>
    have hy := hf.parent_mem node hn y hp
    have hcuts : deleteCuts mem N node = insert node (cascadeCuts (N.card + 1) mem y) := by
      simp only [deleteCuts, hp]
    simp only [hp, cutBelow, fibheapCompare_le, if_pos (hleast y hy)] at hrun
    obtain ⟨hcut, -⟩ := cut_recut hf horder hR hn hp
    obtain ⟨-, -, -, -, hparent, -, -⟩ := cut_spec hf horder hR hn hp
    rw [cascadingCut_parents hcut.forest hcut.roots hy (by omega : N.card < (N.card + 1) + _) hrun,
      cascadeCuts_cut hf horder hR hn hp, hcuts, hparent]
    simp only [Finset.mem_insert]
    by_cases han : a = node
    · simp [han]
    · simp [han]

/-- **Lowering a key to the least one** makes the node the minimum and cuts it and the marked nodes
above it.
Source: `fibheap.c` `fibheap_replace_key_data`, `fibheap_replace_key`
Kind: L -/
theorem replaceKeyMin_spec {fuel : ℕ} {key : ℤ} (h : HeapInv mem heap N) (hn : node ∈ N)
    (hkeys : ∀ a ∈ N, key ≤ (mem a).key) (hne : (mem node).key ≠ key) (hfuel : N.card < fuel) :
    ∃ okey mem' heap', fibheapReplaceKey fuel mem heap node key = .ok (okey, mem', heap') ∧
      HeapInv mem' heap' N ∧
      SameContents (modify mem node fun n => { n with data := (mem node).data, key }) mem' N ∧
      heap'.min = some node ∧
      ∀ a, (mem' a).parent = if a ∈ deleteCuts mem N node then none else (mem a).parent := by
  obtain ⟨mem', heap', hrun, hinv, hsame⟩ :=
    replaceKeyData_spec h hn (hkeys node hn) hfuel (mem node).data
  refine ⟨(BitVec.ofInt 32 (mem node).key).toInt, mem', heap', ?_, hinv, hsame, ?_⟩
  · simp only [fibheapReplaceKey, hrun, bind, Except.bind]
  rw [fibheapReplaceKeyData, if_neg (not_lt.mpr (hkeys node hn))] at hrun
  dsimp only at hrun
  rw [if_neg hne] at hrun
  have hmem1 : ∀ a, modify mem node (fun n => { n with data := (mem node).data, key }) a =
      if a = node then { mem a with data := (mem node).data, key } else mem a := by
    intro a
    rw [modify_apply]
    split_ifs with ha
    · rw [ha]
    · rfl
  generalize modify mem node (fun n => { n with data := (mem node).data, key }) = mem1
    at hmem1 hrun hsame
  obtain ⟨hshape, htops, horder⟩ := h.forest.lower (hkeys node hn) hmem1
  have hlinks : ∀ a, (mem1 a).parent = (mem a).parent ∧ (mem1 a).mark = (mem a).mark ∧
      (mem1 a).left = (mem a).left ∧ (mem1 a).right = (mem a).right := by
    intro a
    rw [hmem1]
    split_ifs <;> exact ⟨rfl, rfl, rfl, rfl⟩
  have hleast : ∀ a ∈ N, (mem1 node).key ≤ (mem1 a).key := by
    intro a ha
    rw [hmem1 node, if_pos rfl, hmem1 a]
    split_ifs
    · exact le_rfl
    · exact hkeys a ha
  have hroots : RootRing mem1 heap (tops mem1 N) := by
    rw [htops]
    exact ⟨h.roots.1.congr fun a _ => (hlinks a).2.2, h.roots.2⟩
  obtain ⟨mem2, heap2, hcut, hrecut, -⟩ := cutBelow_spec hshape horder hroots hn hfuel
  have hparents := cutBelow_parents hshape horder hroots hn hleast hcut
  rw [deleteCuts_congr h.forest.toShape hn fun a => ⟨(hlinks a).1, (hlinks a).2.1⟩] at hparents
  -- the minimum of the old heap is not below the node
  obtain ⟨m, hm⟩ : ∃ m, heap.min = some m := by
    refine Option.ne_none_iff_exists'.mp fun hnone => ?_
    rw [h.eq_empty hnone] at hn
    exact absurd hn (Finset.notMem_empty node)
  have hle : (mem2 node).key ≤ (mem2 m).key := by
    rw [(hrecut.same.1 node).1, (hrecut.same.1 m).1]
    exact hleast m (h.min_le hm).1.1
  simp only [hcut, bind, Except.bind, hrecut.min_eq, hm, fibheapCompare_le, if_pos hle,
    Except.ok.injEq, Prod.mk.injEq, true_and] at hrun
  obtain ⟨rfl, rfl⟩ := hrun
  exact ⟨rfl, fun a => by rw [hparents, (hlinks a).1]⟩

end Cutting

/-! ## Deleting -/

section Deleting

variable {δ : Type} {mem mem' : Mem δ} {heap heap' : FibHeap} {N : Finset ℕ} {node : ℕ}
  {sizeofLong fuel : ℕ}

/-- The weight after the cuts, in terms of the memory before them. -/
theorem extractWeight_eq (h : HeapInv mem heap N) (hn : node ∈ N) (h' : HeapInv mem' heap' N)
    (hparents : ∀ a, (mem' a).parent =
      if a ∈ deleteCuts mem N node then none else (mem a).parent) :
    extractWeight mem' N node = deleteWeight mem N node := by
  have hkids : ∀ b, kids mem' N b = kids mem N b \ deleteCuts mem N node := by
    intro b
    ext c
    rw [Finset.mem_sdiff, mem_kids, mem_kids, hparents]
    by_cases hc : c ∈ deleteCuts mem N node <;> simp [hc]
  have htops : tops mem' N = tops mem N ∪ deleteCuts mem N node := by
    ext c
    rw [Finset.mem_union, mem_tops, mem_tops, hparents]
    by_cases hc : c ∈ deleteCuts mem N node
    · simp [hc, deleteCuts_subset h.forest.toShape hn hc]
    · simp [hc]
  have hroots : tops mem' N ∪ kids mem' N node =
      tops mem N ∪ deleteCuts mem N node ∪ kids mem N node := by
    rw [htops, hkids, Finset.union_assoc, Finset.union_sdiff_self_eq_union, ← Finset.union_assoc]
  rw [extractWeight, deleteWeight, hroots]
  refine Finset.sum_congr rfl fun a ha => ?_
  have haN : a ∈ N := by
    have hmem := Finset.mem_of_mem_erase ha
    rw [← hroots] at hmem
    rcases Finset.mem_union.mp hmem with hmem | hmem
    · exact (mem_tops.mp hmem).1
    · exact (mem_kids.mp hmem).1
  rw [(h'.forest.node a haN (by simp)).degree, hkids]

/-- The extraction of the node that has become the minimum.
Source: `fibheap.c` `fibheap_delete_node`
Kind: L -/
theorem deletes_iff_of_min {okey : ℤ} (hfuel : N.card < fuel)
    (hrun : fibheapReplaceKey fuel mem heap node (fibheapkeyMin sizeofLong) =
      .ok (okey, mem', heap'))
    (h' : HeapInv mem' heap' N) (hmin : heap'.min = some node)
    (hsame : ∀ a ∈ N, a ≠ node → (mem' a).key = (mem a).key ∧ (mem' a).data = (mem a).data) :
    Deletes sizeofLong fuel mem heap N node ↔
      extractWeight mem' N node < 2 ^ (1 + 8 * sizeofLong) := by
  obtain ⟨hroom, hover⟩ := @extractMin_spec δ mem' N heap' sizeofLong fuel node h' hmin hfuel
  constructor
  · rintro ⟨mem'', heap'', hdelete, -⟩
    by_contra hbig
    simp only [fibheapDeleteNode, hrun, bind, Except.bind, hover (not_lt.mp hbig)] at hdelete
    cases hdelete
  · intro hsmall
    obtain ⟨mem'', heap'', hextract, hinv, hcontents⟩ := hroom hsmall
    refine ⟨mem'', heap'', ?_, fun a => ?_, fun a ha hne => ?_, hinv⟩
    · simp only [fibheapDeleteNode, hrun, bind, Except.bind, hextract]
    · rw [hinv.held_iff, Finset.mem_erase, and_comm]
    · obtain ⟨hk, hd⟩ := hsame a ha hne
      exact ⟨(hcontents.1 a).1.trans hk, (hcontents.1 a).2.trans hd⟩

/-- **The deletion takes out exactly the node if and only if** the node's key is not the least one or
the node is the minimum, and the roots leave the array of `fibheap_consolidate` room.
Source: `fibheap.c` `fibheap_delete_node`
Kind: P -/
theorem fibheapDeleteNode_iff (h : HeapInv mem heap N) (hn : node ∈ N)
    (hkeys : ∀ a ∈ N, fibheapkeyMin sizeofLong ≤ (mem a).key) (hfuel : N.card < fuel) :
    Deletes sizeofLong fuel mem heap N node ↔
      ((mem node).key ≠ fibheapkeyMin sizeofLong ∨ heap.min = some node) ∧
        deleteWeight mem N node < 2 ^ (1 + 8 * sizeofLong) := by
  by_cases hne : (mem node).key = fibheapkeyMin sizeofLong
  · -- nothing is lowered
    have hrun : fibheapReplaceKey fuel mem heap node (fibheapkeyMin sizeofLong) =
        .ok ((BitVec.ofInt 32 (mem node).key).toInt, mem, heap) := by
      have hself : modify mem node (fun n =>
          { n with data := (mem node).data, key := fibheapkeyMin sizeofLong }) = mem := by
        funext a
        rw [modify_apply]
        split_ifs with ha
        · rw [ha, ← hne]
        · rfl
      simp only [fibheapReplaceKey, fibheapReplaceKeyData]
      rw [if_neg (not_lt.mpr hne.ge), if_pos hne, hself]
      rfl
    by_cases hmin : heap.min = some node
    · have hroot : (mem node).parent = none := (h.min_le hmin).1.2
      have hcuts : deleteCuts mem N node = ∅ := by simp only [deleteCuts, hroot]
      rw [deletes_iff_of_min hfuel hrun h hmin fun a _ _ => ⟨rfl, rfl⟩,
        extractWeight_eq h hn h fun a => by rw [hcuts, if_neg (Finset.notMem_empty a)]]
      simp [hmin]
    · refine iff_of_false ?_ fun hcond => hcond.1.elim (fun hk => hk hne) hmin
      rintro ⟨mem', heap', hdelete, hheld, -, -⟩
      obtain ⟨m, hm⟩ : ∃ m, heap.min = some m := by
        refine Option.ne_none_iff_exists'.mp fun hnone => ?_
        rw [h.eq_empty hnone] at hn
        exact absurd hn (Finset.notMem_empty node)
      obtain ⟨hroom, hover⟩ := @extractMin_spec δ mem N heap sizeofLong fuel m h hm hfuel
      rcases Nat.lt_or_ge (extractWeight mem N m) (2 ^ (1 + 8 * sizeofLong)) with hsmall | hbig
      · -- another node leaves the heap, and this one is still held
        obtain ⟨mem'', heap'', hextract, hinv, -⟩ := hroom hsmall
        simp only [fibheapDeleteNode, hrun, bind, Except.bind, hextract, Except.ok.injEq,
          Prod.mk.injEq, true_and] at hdelete
        obtain ⟨rfl, rfl⟩ := hdelete
        have hmn : node ≠ m := fun heq => hmin (heq ▸ hm)
        exact ((hheld node).mp (hinv.held_iff.mpr (Finset.mem_erase.mpr ⟨hmn, hn⟩))).2 rfl
      · simp only [fibheapDeleteNode, hrun, bind, Except.bind, hover hbig] at hdelete
        cases hdelete
  · obtain ⟨okey, mem', heap', hrun, h', hsame, hmin, hparents⟩ :=
      replaceKeyMin_spec h hn hkeys hne hfuel
    have hothers : ∀ a ∈ N, a ≠ node →
        (mem' a).key = (mem a).key ∧ (mem' a).data = (mem a).data := by
      intro a _ han
      have hcontents := hsame.1 a
      rwa [modify_apply, if_neg han] at hcontents
    rw [deletes_iff_of_min hfuel hrun h' hmin hothers, extractWeight_eq h hn h' hparents]
    simp [hne]

/-- All keys of the example are 0. Source: none: example. Kind: L -/
theorem filled_key (n a : ℕ) : ((filled n).1 a).key = 0 := by
  induction n with
  | zero => rfl
  | succ n ih =>
    obtain ⟨-, hsame, -, -⟩ := insert_spec (filled_spec n).1 Finset.notMem_range_self 0 ()
    refine ((hsame.1 a).1).trans ?_
    by_cases ha : a = n
    · rw [ha, Function.update_self]
      rfl
    · rw [Function.update_of_ne ha, ih]

/-- Node 3 of ten nodes of key 0, where a `long` has eight bytes. Source: none: example. Kind: C -/
theorem fibheapDeleteNode_iff_ten :
    (HeapInv (filled 10).1 (filled 10).2 (Finset.range 10) ∧
      ∀ a ∈ Finset.range 10, fibheapkeyMin 8 ≤ ((filled 10).1 a).key) ∧
    (Deletes 8 11 (filled 10).1 (filled 10).2 (Finset.range 10) 3 ↔
      (((filled 10).1 3).key ≠ fibheapkeyMin 8 ∨ (filled 10).2.min = some 3) ∧
        deleteWeight (filled 10).1 (Finset.range 10) 3 < 2 ^ (1 + 8 * 8)) := by
  have hinv := (filled_spec 10).1
  have hkeys : ∀ a ∈ Finset.range 10, fibheapkeyMin 8 ≤ ((filled 10).1 a).key := by
    intro a _
    rw [filled_key, fibheapkeyMin]
    simp
  exact ⟨⟨hinv, hkeys⟩, fibheapDeleteNode_iff hinv (by simp) hkeys (by simp)⟩

/-- The heap of two nodes of key `LONG_MIN`. Source: none: example. -/
def twoLeast : Mem ℕ × FibHeap :=
  let first := fibheapInsert (fun a => fibnodeNew a 0 0) fibheapNew 0 (fibheapkeyMin 8) 10
  fibheapInsert first.1 first.2 1 (fibheapkeyMin 8) 11

/-- **The wrong node leaves the heap**: of two nodes of key `LONG_MIN` the second one is to be deleted,
its data are returned, and it is the root of the heap that is left.
Source: `fibheap.c` `fibheap_delete_node`
Kind: C -/
theorem fibheapDeleteNode_other :
    HeapInv twoLeast.1 twoLeast.2 {0, 1} ∧
      (∃ mem' heap', fibheapDeleteNode 8 3 twoLeast.1 twoLeast.2 1 = .ok (11, mem', heap') ∧
        heap'.nodes = 1 ∧ heap'.root = some 1) ∧
      ¬ Deletes 8 3 twoLeast.1 twoLeast.2 {0, 1} 1 := by
  have hrun : ∃ mem' heap', fibheapDeleteNode 8 3 twoLeast.1 twoLeast.2 1 = .ok (11, mem', heap') ∧
      heap'.nodes = 1 ∧ heap'.root = some 1 := ⟨_, _, rfl, rfl, rfl⟩
  refine ⟨?_, hrun, ?_⟩
  · have h0 := (insert_spec (heapInv_new fun a => fibnodeNew a 0 0) (Finset.notMem_empty 0)
      (fibheapkeyMin 8) 10).1
    have hnot : 1 ∉ insert 0 (∅ : Finset ℕ) := by simp
    have h1 := (insert_spec h0 hnot (fibheapkeyMin 8) 11).1
    rw [insert_empty_eq, Finset.pair_comm] at h1
    exact h1
  · rintro ⟨mem', heap', hdelete, hheld, -⟩
    obtain ⟨mem'', heap'', hrun, -, hroot⟩ := hrun
    rw [hrun, Except.ok.injEq, Prod.mk.injEq, Prod.mk.injEq] at hdelete
    obtain ⟨-, rfl, rfl⟩ := hdelete
    have hstill : Held mem'' heap'' 1 := .root (.first hroot)
    exact ((hheld 1).mp hstill).2 rfl

end Deleting

end GccCore.Iberty.Fibheap
