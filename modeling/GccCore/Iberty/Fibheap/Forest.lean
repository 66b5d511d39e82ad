import GccCore.Iberty.Fibheap.Basic
import GccCore.Lib.Ring
import Mathlib.Data.Finset.Max

/-!
# `libiberty/fibheap.c`: the forest behind the pointers

The nodes of a heap, a finite set of addresses, form a forest: the parent pointers say whose child a
node is, and the children of a node and the roots are circular lists.

* **The invariant** (`Forest`, `RootRing`): each set of siblings is one ring, `child` and `root` point
  into theirs, `degree` counts the children, and no key is below its parent's.
* **The pointer surgery** (`insRoot_spec`, `remRoot_spec`, `link_spec`, `cut_spec`) keeps it.
-/

namespace GccCore.Iberty.Fibheap

open GccCore.Lib.Ring

section Definitions

variable {δ : Type}

@[simp]
theorem modify_self (mem : Mem δ) (p : ℕ) (f : FibNode δ → FibNode δ) :
    modify mem p f p = f (mem p) := Function.update_self ..

theorem modify_apply (mem : Mem δ) (p a : ℕ) (f : FibNode δ → FibNode δ) :
    modify mem p f a = if a = p then f (mem p) else mem a := by
  unfold modify
  by_cases h : a = p
  · rw [if_pos h, h, Function.update_self]
  · rw [if_neg h, Function.update_of_ne h]

/-- The `left` links of a memory. -/
def lefts (mem : Mem δ) : ℕ → ℕ := fun a => (mem a).left

/-- The `right` links of a memory. -/
def rights (mem : Mem δ) : ℕ → ℕ := fun a => (mem a).right

/-- The nodes of a set form one circular list. Source: `fibheap.c`. -/
def Linked (mem : Mem δ) (s : Finset ℕ) : Prop := IsRing (lefts mem) (rights mem) s

/-- The children of a node, by their parent pointers. Source: `fibheap.h` (`parent`). -/
def kids (mem : Mem δ) (N : Finset ℕ) (a : ℕ) : Finset ℕ := N.filter fun c => (mem c).parent = some a

/-- The nodes without a parent. Source: `fibheap.h` (`parent`). -/
def tops (mem : Mem δ) (N : Finset ℕ) : Finset ℕ := N.filter fun c => (mem c).parent = none

@[simp]
theorem mem_kids {mem : Mem δ} {N : Finset ℕ} {a c : ℕ} :
    c ∈ kids mem N a ↔ c ∈ N ∧ (mem c).parent = some a := Finset.mem_filter

@[simp]
theorem mem_tops {mem : Mem δ} {N : Finset ℕ} {c : ℕ} :
    c ∈ tops mem N ↔ c ∈ N ∧ (mem c).parent = none := Finset.mem_filter

/-- A pointer into a set: null exactly if the set is empty. -/
def PointsInto (p : Option ℕ) (s : Finset ℕ) : Prop :=
  match p with
  | none => s = ∅
  | some a => a ∈ s

/-- What the code keeps in the fields of a node: its children are a ring that `child` points into
and `degree` counts.
Source: `fibheap.h` (`child`, `degree`) -/
structure NodeInv (mem : Mem δ) (N : Finset ℕ) (a : ℕ) : Prop where
  ring : Linked mem (kids mem N a)
  child : PointsInto (mem a).child (kids mem N a)
  degree : (mem a).degree = (kids mem N a).card

/-- **The shape of the forest.** Parents are nodes of the same heap, and no node is its own ancestor:
a rank rises with every parent. The fields of the node `e`, if one is given, need not be right.
Source: `fibheap.c` -/
structure Shape (mem : Mem δ) (N : Finset ℕ) (e : Option ℕ) : Prop where
  parent_mem : ∀ a ∈ N, ∀ p, (mem a).parent = some p → p ∈ N
  rank : ∃ rank : ℕ → ℕ, ∀ a ∈ N, ∀ p, (mem a).parent = some p → rank a < rank p
  node : ∀ a ∈ N, e ≠ some a → NodeInv mem N a

/-- **The forest**, in which keys do not fall towards the leaves. Source: `fibheap.c`. -/
structure Forest (mem : Mem δ) (N : Finset ℕ) (e : Option ℕ) : Prop extends Shape mem N e where
  order : ∀ a ∈ N, ∀ p, (mem a).parent = some p → (mem p).key ≤ (mem a).key

/-- The root list is the ring `R`, and `root` points into it. Source: `fibheap.h` (`root`). -/
def RootRing (mem : Mem δ) (heap : FibHeap) (R : Finset ℕ) : Prop :=
  Linked mem R ∧ PointsInto heap.root R

/-- A pointer to a node of least key of a set. Source: `fibheap.h` (`min`). -/
def Least (mem : Mem δ) (p : Option ℕ) (s : Finset ℕ) : Prop :=
  match p with
  | none => s = ∅
  | some m => m ∈ s ∧ ∀ a ∈ s, (mem m).key ≤ (mem a).key

/-- **The invariant of a heap** that holds the nodes `N`. Source: `fibheap.h` `struct fibheap`. -/
structure HeapInv (mem : Mem δ) (heap : FibHeap) (N : Finset ℕ) : Prop where
  forest : Forest mem N none
  roots : RootRing mem heap (tops mem N)
  least : Least mem heap.min (tops mem N)
  nodes : heap.nodes = N.card

end Definitions

/-! ## Changes of links -/

section Relinking

variable {δ : Type} {mem mem' mem'' : Mem δ} {N s t R : Finset ℕ} {a b : ℕ} {heap : FibHeap}

/-- The memories differ in the links of the nodes in `s` only. -/
def Relinked (mem mem' : Mem δ) (s : Finset ℕ) : Prop :=
  (∀ x ∉ s, mem' x = mem x) ∧
    ∀ x, mem' x = { mem x with left := (mem' x).left, right := (mem' x).right }

theorem Relinked.parent (h : Relinked mem mem' s) (x : ℕ) : (mem' x).parent = (mem x).parent := by
  rw [h.2 x]

theorem Relinked.child (h : Relinked mem mem' s) (x : ℕ) : (mem' x).child = (mem x).child := by
  rw [h.2 x]

theorem Relinked.key (h : Relinked mem mem' s) (x : ℕ) : (mem' x).key = (mem x).key := by
  rw [h.2 x]

theorem Relinked.degree (h : Relinked mem mem' s) (x : ℕ) : (mem' x).degree = (mem x).degree := by
  rw [h.2 x]

theorem Relinked.refl (mem : Mem δ) (s : Finset ℕ) : Relinked mem mem s :=
  ⟨fun _ _ => rfl, fun _ => rfl⟩

theorem Relinked.trans (h : Relinked mem mem' s) (h' : Relinked mem' mem'' t) (hst : s ⊆ t) :
    Relinked mem mem'' t := by
  refine ⟨fun x hx => ?_, fun x => ?_⟩
  · rw [h'.1 x hx, h.1 x fun hxs => hx (hst hxs)]
  · rw [h'.2 x, h.2 x]

/-- Rings of other nodes are not touched. -/
theorem Linked.congr (h : Linked mem t) (hx : ∀ x ∈ t, (mem' x).left = (mem x).left ∧
    (mem' x).right = (mem x).right) : Linked mem' t :=
  IsRing.congr h (fun x hxt => (hx x hxt).1) fun x hxt => (hx x hxt).2

/-- **`fibnode_insert_after`** puts `b` into the ring of `a`.
Source: `fibheap.c` `fibnode_insert_after`
Kind: L -/
theorem insertAfter_spec (hring : Linked mem s) (ha : a ∈ s) (hb : b ∉ s) :
    Relinked mem (fibnodeInsertAfter mem a b) (insert b s) ∧
      Linked (fibnodeInsertAfter mem a b) (insert b s) := by
  have hab : a ≠ b := fun h => hb (h ▸ ha)
  obtain ⟨hrs, -, hlr, -⟩ := IsRing.neighbours hring ha
  have hrb : rights mem a ≠ b := fun h => hb (h ▸ hrs)
  by_cases hself : a = (mem a).right
  · have hs : s = {a} := IsRing.eq_singleton hring ha hself.symm
    have hval : ∀ x, fibnodeInsertAfter mem a b x = if x = b then { mem b with right := a, left := a }
        else if x = a then { mem a with right := b, left := b } else mem x := by
      intro x
      rw [fibnodeInsertAfter, if_pos hself]
      simp only [modify_apply, hab.symm, if_false]
    subst hs
    constructor
    · constructor
      · intro x hx
        simp only [Finset.mem_insert, Finset.mem_singleton, not_or] at hx
        rw [hval, if_neg hx.1, if_neg hx.2]
      · intro x
        rw [hval]
        split_ifs with h1 h2
        · rw [h1]
        · rw [h2]
        · rfl
    · refine IsRing.insert hring ha hb ?_ ?_ ?_ ?_ ?_ ?_
      · simp [rights, hval, hab]
      · simpa [rights, hval] using hself
      · simp [lefts, hval]
      · simp [lefts, rights, ← hself, hval, hab]
      · intro x hx hxa
        exact absurd (Finset.mem_singleton.mp hx) hxa
      · intro x hx hxa
        rw [Finset.mem_singleton.mp hx] at hxa
        exact absurd hself hxa
  · have hra : (mem a).right ≠ a := fun h => hself h.symm
    have hval : ∀ x, fibnodeInsertAfter mem a b x =
        if x = b then { mem b with right := (mem a).right, left := a }
        else if x = a then { mem a with right := b }
        else if x = (mem a).right then { mem x with left := b } else mem x := by
      intro x
      rw [fibnodeInsertAfter, if_neg hself]
      have hrb' : (mem a).right ≠ b := hrb
      by_cases hxb : x = b
      · subst hxb
        simp [modify_apply, hab, hab.symm, hrb'.symm]
      · by_cases hxa : x = a
        · subst hxa
          simp [modify_apply, hab, hra.symm]
        · by_cases hxr : x = (mem a).right
          · subst hxr
            simp [modify_apply, hab, hrb', hra]
          · simp [modify_apply, hab, hxb, hxa, hxr]
    constructor
    · constructor
      · intro x hx
        rw [Finset.mem_insert, not_or] at hx
        have hxa : x ≠ a := fun h => hx.2 (h ▸ ha)
        have hxr : x ≠ (mem a).right := fun h => hx.2 (h ▸ hrs)
        rw [hval, if_neg hx.1, if_neg hxa, if_neg hxr]
      · intro x
        rw [hval]
        split_ifs with h1 h2 h3
        · rw [h1]
        · rw [h2]
        · rfl
        · rfl
    · refine IsRing.insert hring ha hb ?_ ?_ ?_ ?_ ?_ ?_
      · simp [rights, hval, hab]
      · simp [rights, hval]
      · simp [lefts, hval]
      · have hrb' : (mem a).right ≠ b := hrb
        simp [lefts, rights, hval, hrb', hra]
      · intro x hx hxa
        have hxb : x ≠ b := fun h => hb (h ▸ hx)
        simp only [rights, hval, if_neg hxb, if_neg hxa]
        split_ifs <;> rfl
      · intro x hx hxr
        have hxb : x ≠ b := fun h => hb (h ▸ hx)
        have hxr' : x ≠ (mem a).right := hxr
        simp only [lefts, hval, if_neg hxb, if_neg hxr']
        split_ifs with h
        · rw [h]
        · rfl

/-- **`fibheap_ins_root`** puts a node into the root list.
Source: `fibheap.c` `fibheap_ins_root`
Kind: L -/
theorem insRoot_spec (hR : RootRing mem heap R) (hb : b ∉ R) :
    Relinked mem (fibheapInsRoot mem heap b).1 (insert b R) ∧
      RootRing (fibheapInsRoot mem heap b).1 (fibheapInsRoot mem heap b).2 (insert b R) ∧
      (fibheapInsRoot mem heap b).2.min = heap.min ∧
      (fibheapInsRoot mem heap b).2.nodes = heap.nodes := by
  obtain ⟨hring, hroot⟩ := hR
  cases hr : heap.root with
  | none =>
    rw [hr] at hroot
    obtain rfl : R = ∅ := hroot
    have heq : fibheapInsRoot mem heap b =
        (modify mem b fun n => { n with left := b, right := b }, { heap with root := some b }) := by
      rw [fibheapInsRoot, hr]
    rw [heq]
    refine ⟨⟨fun x hx => ?_, fun x => ?_⟩, ⟨?_, ?_⟩, rfl, rfl⟩
    · dsimp only
      rw [modify_apply, if_neg (by simpa using hx)]
    · dsimp only
      rw [modify_apply]
      split_ifs with h
      · rw [h]
      · rfl
    · exact isRing_singleton (by simp [lefts]) (by simp [rights])
    · exact Finset.mem_insert_self b ∅
  | some r =>
    rw [hr] at hroot
    obtain ⟨hrel, hring'⟩ := insertAfter_spec hring hroot hb
    have heq : fibheapInsRoot mem heap b = (fibnodeInsertAfter mem r b, heap) := by
      rw [fibheapInsRoot, hr]
    rw [heq]
    refine ⟨hrel, ⟨hring', ?_⟩, rfl, rfl⟩
    rw [hr]
    exact Finset.mem_insert_of_mem hroot

/-- The child pointer of `x` after `node` is removed. Source: `fibheap.c` `fibnode_remove`. -/
def childAfter (mem : Mem δ) (node x : ℕ) : Option ℕ :=
  if (mem node).parent = some x ∧ (mem x).child = some node then
    if node = (mem node).left then none else some (mem node).left
  else (mem x).child

theorem replaceChild_apply (mem : Mem δ) (node x : ℕ) (ret : Option ℕ) :
    replaceChild mem node ret x = { mem x with
      child := if (mem node).parent = some x ∧ (mem x).child = some node then ret
        else (mem x).child } := by
  unfold replaceChild
  cases hp : (mem node).parent with
  | none => simp
  | some p =>
    by_cases hxp : x = p
    · subst hxp
      by_cases hc : (mem x).child = some node
      · simp [hc]
      · simp [hc]
    · have hpx : p ≠ x := fun h => hxp h.symm
      by_cases hc : (mem p).child = some node
      · simp [hc, modify_apply, hxp, hpx]
      · simp [hc, hpx]

/-- **`fibnode_remove`**, as one change of every node.
Source: `fibheap.c` `fibnode_remove`
Kind: L -/
theorem fibnodeRemove_apply (mem : Mem δ) (node x : ℕ) :
    (fibnodeRemove mem node).2 x =
      if x = node then { mem x with
        parent := none, child := childAfter mem node x, left := node, right := node }
      else { mem x with
        child := childAfter mem node x
        left := if x = (mem node).right then (mem node).left else (mem x).left
        right := if x = (mem node).left then (mem node).right else (mem x).right } := by
  obtain ⟨memP, hP⟩ : ∃ memP, memP =
    replaceChild mem node (if node = (mem node).left then none else some (mem node).left) := ⟨_, rfl⟩
  have hPx : ∀ x, memP x = { mem x with child := childAfter mem node x } := by
    intro x
    rw [hP, replaceChild_apply]
    rfl
  -- the two neighbours, then the node itself
  obtain ⟨mem1, hm1⟩ : ∃ mem1, mem1 =
    modify memP (memP node).right fun n => { n with left := (memP node).left } := ⟨_, rfl⟩
  have h1 : ∀ y, mem1 y = { mem y with
      child := childAfter mem node y
      left := if y = (mem node).right then (mem node).left else (mem y).left } := by
    intro y
    rw [hm1, modify_apply, hPx node]
    split_ifs with h
    · rw [h, hPx]
    · rw [hPx]
  have hl : (mem1 node).left = (mem node).left := by
    rw [h1]
    simp
  have hr : (mem1 node).right = (mem node).right := by rw [h1]
  simp only [fibnodeRemove, ← hP, ← hm1, hl, hr]
  rw [modify_apply, modify_apply, modify_apply]
  by_cases hxn : x = node
  · subst hxn
    rw [if_pos rfl, if_pos rfl]
    split_ifs with hxl
    · rw [← hxl, h1]
    · rw [h1]
  · rw [if_neg hxn, if_neg hxn]
    by_cases hxl : x = (mem node).left
    · have hx1 : mem1 (mem node).left = mem1 x := by rw [hxl]
      rw [if_pos hxl, if_pos hxl, hx1, h1]
    · rw [if_neg hxl, if_neg hxl, h1]

/-- The ring that is left, and the pointer returned into it.
Source: `fibheap.c` `fibnode_remove`
Kind: L -/
theorem remove_spec (hring : Linked mem s) (ha : a ∈ s) :
    Linked (fibnodeRemove mem a).2 (s.erase a) ∧
      PointsInto (fibnodeRemove mem a).1 (s.erase a) := by
  obtain ⟨hrs, hls, hlr, hrl⟩ := IsRing.neighbours hring ha
  by_cases hself : a = (mem a).left
  · obtain rfl : s = {a} := (IsRing.self_iff hring ha).1.mp hself.symm
    rw [Finset.erase_singleton]
    refine ⟨isRing_empty, ?_⟩
    simp only [fibnodeRemove, if_pos hself]
    rfl
  · have hla : lefts mem a ≠ a := fun h => hself h.symm
    have hra : rights mem a ≠ a := by
      intro h
      exact hla ((IsRing.self_iff hring ha).1.mpr ((IsRing.self_iff hring ha).2.mp h))
    constructor
    · refine IsRing.erase hring ha hla ?_ ?_ ?_ ?_
      · simp [rights, lefts, fibnodeRemove_apply, show (mem a).left ≠ a from hla]
      · simp [rights, lefts, fibnodeRemove_apply, show (mem a).right ≠ a from hra]
      · intro x _ hxa hxl
        simp [rights, fibnodeRemove_apply, hxa, show x ≠ (mem a).left from hxl]
      · intro x _ hxa hxr
        simp [lefts, fibnodeRemove_apply, hxa, show x ≠ (mem a).right from hxr]
    · simp only [fibnodeRemove, if_neg hself]
      exact Finset.mem_erase.mpr ⟨hla, hls⟩

/-- **`fibheap_rem_root`** takes a node out of the root list and leaves it its own neighbour.
Source: `fibheap.c` `fibheap_rem_root`
Kind: L -/
theorem remRoot_spec (hR : RootRing mem heap R) (ha : a ∈ R) (hp : (mem a).parent = none) :
    Relinked mem (fibheapRemRoot mem heap a).1 R ∧
      RootRing (fibheapRemRoot mem heap a).1 (fibheapRemRoot mem heap a).2 (R.erase a) ∧
      (((fibheapRemRoot mem heap a).1 a).left = a ∧ ((fibheapRemRoot mem heap a).1 a).right = a) ∧
      (fibheapRemRoot mem heap a).2.min = heap.min ∧
      (fibheapRemRoot mem heap a).2.nodes = heap.nodes := by
  obtain ⟨hring, -⟩ := hR
  by_cases hself : (mem a).left = a
  · obtain rfl : R = {a} := (IsRing.self_iff hring ha).1.mp hself
    have hright : (mem a).right = a := (IsRing.self_iff hring ha).2.mpr rfl
    rw [fibheapRemRoot, if_pos hself, Finset.erase_singleton]
    exact ⟨⟨fun _ _ => rfl, fun _ => rfl⟩, ⟨isRing_empty, rfl⟩, ⟨hself, hright⟩, rfl, rfl⟩
  · obtain ⟨hrs, hls, -⟩ := IsRing.neighbours hring ha
    obtain ⟨hring', hret⟩ := remove_spec hring ha
    have hchild : ∀ x, childAfter mem a x = (mem x).child := by
      intro x
      simp [childAfter, hp]
    have heq : fibheapRemRoot mem heap a =
        ((fibnodeRemove mem a).2, { heap with root := (fibnodeRemove mem a).1 }) := if_neg hself
    rw [heq]
    refine ⟨⟨fun x hx => ?_, fun x => ?_⟩, ⟨hring', hret⟩, ⟨?_, ?_⟩, rfl, rfl⟩
    · have hxa : x ≠ a := fun h => hx (h ▸ ha)
      have hxl : x ≠ (mem a).left := fun h => hx (h ▸ hls)
      have hxr : x ≠ (mem a).right := fun h => hx (h ▸ hrs)
      simp [fibnodeRemove_apply, hxa, hxl, hxr, hchild]
    · by_cases h : x = a
      · subst h
        simp [fibnodeRemove_apply, hchild, hp]
      · simp [fibnodeRemove_apply, hchild, h]
    · simp [fibnodeRemove_apply]
    · simp [fibnodeRemove_apply]

end Relinking

/-! ## Linking and cutting -/

section Surgery

variable {δ : Type} {mem mem' : Mem δ} {N R : Finset ℕ} {e : Option ℕ} {x y a : ℕ} {heap : FibHeap}

/-- A node is not its own parent. -/
theorem Shape.parent_ne (hf : Shape mem N e) (ha : a ∈ N) : (mem a).parent ≠ some a := by
  obtain ⟨rank, hrank⟩ := hf.rank
  exact fun h => lt_irrefl _ (hrank a ha a h)

/-- The fields of a node whose children and their links have not changed. -/
theorem NodeInv.congr (h : NodeInv mem N a) (hkids : kids mem' N a = kids mem N a)
    (hchild : (mem' a).child = (mem a).child) (hdegree : (mem' a).degree = (mem a).degree)
    (hlinks : ∀ c ∈ kids mem N a, (mem' c).left = (mem c).left ∧ (mem' c).right = (mem c).right) :
    NodeInv mem' N a := by
  refine ⟨?_, ?_, ?_⟩
  · rw [hkids]
    exact h.ring.congr hlinks
  · rw [hkids, hchild]
    exact h.child
  · rw [hkids, hdegree]
    exact h.degree

/-- The new child is in the ring of its siblings. Source: `fibheap.c` `fibheap_link`. Kind: L -/
theorem linkChild_spec (hx : NodeInv mem N x) (hy : y ∉ kids mem N x) (hxy : x ≠ y)
    (hself : (mem y).left = y ∧ (mem y).right = y) :
    Linked (linkChild mem y x) (insert y (kids mem N x)) ∧
      PointsInto (linkChild mem y x x).child (insert y (kids mem N x)) ∧
      (∀ a, linkChild mem y x a = { mem a with
        child := (linkChild mem y x a).child
        left := (linkChild mem y x a).left
        right := (linkChild mem y x a).right }) ∧
      (∀ a ≠ x, (linkChild mem y x a).child = (mem a).child) ∧
      ∀ a, a ∉ insert y (kids mem N x) → (linkChild mem y x a).left = (mem a).left ∧
        (linkChild mem y x a).right = (mem a).right := by
  unfold linkChild
  cases hc : (mem x).child with
  | none =>
    have hempty : kids mem N x = ∅ := by
      have := hx.child
      rwa [hc] at this
    simp only [hempty, insert_empty_eq]
    have hyx : y ≠ x := hxy.symm
    refine ⟨isRing_singleton ?_ ?_, ?_, fun a => ?_, fun a ha => ?_, fun a _ => ?_⟩
    · simp [lefts, modify_apply, hyx, hself.1]
    · simp [rights, modify_apply, hyx, hself.2]
    · simp [PointsInto]
    · rw [modify_apply]
      split_ifs with h
      · rw [h]
      · rfl
    · rw [modify_apply, if_neg ha]
    · rw [modify_apply]
      split_ifs with h
      · rw [h]
        exact ⟨rfl, rfl⟩
      · exact ⟨rfl, rfl⟩
  | some c =>
    have hcmem : c ∈ kids mem N x := by
      have := hx.child
      rwa [hc] at this
    obtain ⟨-, hleft, -⟩ := IsRing.neighbours hx.ring hcmem
    obtain ⟨hrel, hring⟩ := insertAfter_spec hx.ring hleft hy
    refine ⟨hring, ?_, fun a => ?_, fun a _ => hrel.child a, fun a ha => ?_⟩
    · change PointsInto (fibnodeInsertAfter mem (mem c).left y x).child _
      rw [show fibnodeInsertAfter mem (mem c).left y x = _ from hrel.2 x, hc]
      exact Finset.mem_insert_of_mem hcmem
    · have := hrel.2 a
      change fibnodeInsertAfter mem (mem c).left y a = _
      rw [show (fibnodeInsertAfter mem (mem c).left y a).child = (mem a).child from hrel.child a]
      exact this
    · have := hrel.1 a ha
      change (fibnodeInsertAfter mem (mem c).left y a).left = _ ∧
        (fibnodeInsertAfter mem (mem c).left y a).right = _
      rw [show fibnodeInsertAfter mem (mem c).left y a = mem a from this]
      exact ⟨rfl, rfl⟩

/-- `fibheap_link`, as one change of every node. Source: `fibheap.c` `fibheap_link`. Kind: L -/
theorem fibheapLink_apply (hxy : x ≠ y) (a : ℕ) :
    fibheapLink mem y x a = { linkChild mem y x a with
      parent := if a = y then some x else (linkChild mem y x a).parent
      degree := if a = x then (linkChild mem y x a).degree + 1 else (linkChild mem y x a).degree
      mark := if a = y then false else (linkChild mem y x a).mark } := by
  simp only [fibheapLink]
  generalize linkChild mem y x = mem1
  by_cases hay : a = y
  · subst hay
    simp [modify_apply, hxy.symm]
  · by_cases hax : a = x
    · subst hax
      simp [modify_apply, hxy]
    · simp [modify_apply, hay, hax]

/-- What the surgery leaves alone: keys and data everywhere, and whole nodes outside `N`. -/
def SameContents (mem mem' : Mem δ) (N : Finset ℕ) : Prop :=
  (∀ a, (mem' a).key = (mem a).key ∧ (mem' a).data = (mem a).data) ∧ ∀ a ∉ N, mem' a = mem a

theorem SameContents.trans {mem'' : Mem δ} (h : SameContents mem mem' N)
    (h' : SameContents mem' mem'' N) : SameContents mem mem'' N :=
  ⟨fun a => ⟨(h'.1 a).1.trans (h.1 a).1, (h'.1 a).2.trans (h.1 a).2⟩,
    fun a ha => (h'.2 a ha).trans (h.2 a ha)⟩

theorem SameContents.refl (mem : Mem δ) (N : Finset ℕ) : SameContents mem mem N :=
  ⟨fun _ => ⟨rfl, rfl⟩, fun _ _ => rfl⟩

theorem Relinked.sameContents (h : Relinked mem mem' R) (hRN : R ⊆ N) : SameContents mem mem' N :=
  ⟨fun a => by rw [h.2 a]; exact ⟨rfl, rfl⟩, fun a ha => h.1 a fun haR => ha (hRN haR)⟩

/-- **`fibheap_link`** makes the root `y` a child of the root `x`.
Source: `fibheap.c` `fibheap_link`
Kind: L -/
theorem link_spec (hf : Forest mem N none) (hx : x ∈ tops mem N) (hy : y ∈ tops mem N)
    (hxy : x ≠ y) (hkey : (mem x).key ≤ (mem y).key)
    (hself : (mem y).left = y ∧ (mem y).right = y) :
    Forest (fibheapLink mem y x) N none ∧
      tops (fibheapLink mem y x) N = (tops mem N).erase y ∧
      SameContents mem (fibheapLink mem y x) N ∧
      (fibheapLink mem y x x).degree = (mem x).degree + 1 ∧
      (∀ a ≠ x, (fibheapLink mem y x a).degree = (mem a).degree) ∧
      ∀ a ∈ tops mem N, a ≠ y → (fibheapLink mem y x a).left = (mem a).left ∧
        (fibheapLink mem y x a).right = (mem a).right := by
  obtain ⟨hxN, hxp⟩ := mem_tops.mp hx
  obtain ⟨hyN, hyp⟩ := mem_tops.mp hy
  have hyk : ∀ b, y ∉ kids mem N b := by
    intro b hb
    rw [mem_kids, hyp] at hb
    cases hb.2
  obtain ⟨hring, hchild, hsame, hchildne, hlinks⟩ :=
    linkChild_spec (hf.node x hxN (by simp)) (hyk x) hxy hself
  have happly := @fibheapLink_apply δ mem x y hxy
  generalize hmem' : fibheapLink mem y x = mem' at happly ⊢
  have hparent : ∀ a, (mem' a).parent = if a = y then some x else (mem a).parent := by
    intro a
    rw [happly, hsame a]
  have hkey' : ∀ a, (mem' a).key = (mem a).key ∧ (mem' a).data = (mem a).data := by
    intro a
    rw [happly, hsame a]
    exact ⟨rfl, rfl⟩
  have hdegree : ∀ a, (mem' a).degree = if a = x then (mem a).degree + 1 else (mem a).degree := by
    intro a
    rw [happly, hsame a]
  have hlinks' : ∀ a, a ∉ insert y (kids mem N x) →
      (mem' a).left = (mem a).left ∧ (mem' a).right = (mem a).right := by
    intro a ha
    rw [happly]
    exact hlinks a ha
  have hkidsx : kids mem' N x = insert y (kids mem N x) := by
    ext c
    by_cases hcy : c = y
    · simp [hparent, hcy, hyN]
    · simp [hparent, hcy]
  have hkids : ∀ b ≠ x, kids mem' N b = kids mem N b := by
    intro b hb
    ext c
    by_cases hcy : c = y
    · simp [hparent, hcy, hyp, hb.symm]
    · simp [hparent, hcy]
  refine ⟨⟨⟨?_, ?_, ?_⟩, ?_⟩, ?_, ⟨hkey', ?_⟩, ?_, ?_, ?_⟩
  · intro a ha p hp
    rw [hparent] at hp
    split_ifs at hp with hay
    · cases hp
      exact hxN
    · exact hf.parent_mem a ha p hp
  · obtain ⟨rank, hrank⟩ := hf.rank
    refine ⟨Function.update rank x (max (rank x) (rank y + 1)), fun a ha p hp => ?_⟩
    rw [hparent] at hp
    split_ifs at hp with hay
    · cases hp
      rw [Function.update_self, hay, Function.update_of_ne hxy.symm]
      omega
    · have hlt := hrank a ha p hp
      have hax : a ≠ x := by
        rintro rfl
        rw [hxp] at hp
        cases hp
      rw [Function.update_of_ne hax]
      by_cases hpx : p = x
      · subst hpx
        rw [Function.update_self]
        omega
      · rwa [Function.update_of_ne hpx]
  · intro a ha _
    by_cases hax : a = x
    · subst hax
      refine ⟨?_, ?_, ?_⟩
      · rw [hkidsx]
        refine Linked.congr hring fun c _ => ?_
        rw [happly]
        exact ⟨rfl, rfl⟩
      · rw [hkidsx, happly]
        exact hchild
      · rw [hkidsx, hdegree, if_pos rfl, (hf.node a ha (by simp)).degree,
          Finset.card_insert_of_notMem (hyk a)]
    · refine (hf.node a ha (by simp)).congr (hkids a hax) ?_ ?_ fun c hc => hlinks' c ?_
      · rw [happly]
        exact hchildne a hax
      · rw [hdegree, if_neg hax]
      · rw [Finset.mem_insert, not_or]
        refine ⟨fun h => hyk a (h ▸ hc), fun hcx => hax ?_⟩
        rw [mem_kids] at hc hcx
        exact Option.some.inj (hc.2.symm.trans hcx.2)
  · intro a ha p hp
    rw [(hkey' a).1, (hkey' p).1]
    rw [hparent] at hp
    split_ifs at hp with hay
    · cases hp
      rw [hay]
      exact hkey
    · exact hf.order a ha p hp
  · ext c
    by_cases hcy : c = y
    · simp [hparent, hcy]
    · simp [hparent, hcy]
  · intro a ha
    have hax : a ≠ x := fun h => ha (h ▸ hxN)
    have hay : a ≠ y := fun h => ha (h ▸ hyN)
    have hak : a ∉ insert y (kids mem N x) := by
      rw [Finset.mem_insert, not_or]
      exact ⟨hay, fun h => ha (mem_kids.mp h).1⟩
    obtain ⟨hl, hr⟩ := hlinks a hak
    rw [happly, if_neg hay, if_neg hax, if_neg hay, hsame a, hchildne a hax, hl, hr]
  · rw [hdegree, if_pos rfl]
  · intro a ha
    rw [hdegree, if_neg ha]
  · intro a ha hay
    apply hlinks'
    rw [Finset.mem_insert, not_or]
    refine ⟨hay, fun h => ?_⟩
    rw [mem_kids, (mem_tops.mp ha).2] at h
    cases h.2

/-- The memory in which `fibheap_cut` calls `fibheap_ins_root`.
Source: `fibheap.c` `fibheap_cut` (`fibnode_remove (node); parent->degree--;`) -/
def detach (mem : Mem δ) (node parent : ℕ) : Mem δ :=
  modify (fibnodeRemove mem node).2 parent fun n => { n with degree := n.degree - 1 }

/-- The node leaves the ring of its siblings, whose parent is told.
Source: `fibheap.c` `fibheap_cut`
Kind: L -/
theorem detach_spec {node : ℕ} (hf : Shape mem N none) (hn : node ∈ N)
    (hp : (mem node).parent = some y) :
    Linked (detach mem node y) ((kids mem N y).erase node) ∧
      PointsInto (detach mem node y y).child ((kids mem N y).erase node) ∧
      (detach mem node y y).degree = ((kids mem N y).erase node).card ∧
      (∀ a, detach mem node y a = { mem a with
        parent := if a = node then none else (mem a).parent
        child := (detach mem node y a).child
        left := (detach mem node y a).left
        right := (detach mem node y a).right
        degree := (detach mem node y a).degree }) ∧
      (∀ a ≠ y, (detach mem node y a).child = (mem a).child ∧
        (detach mem node y a).degree = (mem a).degree) ∧
      ∀ a, a ∉ kids mem N y → (detach mem node y a).left = (mem a).left ∧
        (detach mem node y a).right = (mem a).right := by
  have hy : y ∈ N := hf.parent_mem node hn y hp
  have hyn : y ≠ node := fun h => hf.parent_ne hn (h ▸ hp)
  have hk : node ∈ kids mem N y := mem_kids.mpr ⟨hn, hp⟩
  have hinv := hf.node y hy (by simp)
  obtain ⟨hring, hret⟩ := remove_spec hinv.ring hk
  obtain ⟨hrs, hls, -⟩ := IsRing.neighbours hinv.ring hk
  have happly : ∀ a, detach mem node y a = { (fibnodeRemove mem node).2 a with
      degree := if a = y then (mem a).degree - 1 else (mem a).degree } := by
    intro a
    rw [detach, modify_apply]
    split_ifs with h
    · subst h
      rw [fibnodeRemove_apply, if_neg hyn]
    · rw [fibnodeRemove_apply]
      split_ifs <;> rfl
  have hchild : ∀ a, (detach mem node y a).child = childAfter mem node a := by
    intro a
    rw [happly, fibnodeRemove_apply]
    split_ifs <;> rfl
  refine ⟨?_, ?_, ?_, fun a => ?_, fun a ha => ⟨?_, ?_⟩, fun a ha => ?_⟩
  · refine Linked.congr hring fun c _ => ?_
    rw [happly]
    exact ⟨rfl, rfl⟩
  · rw [hchild, childAfter]
    by_cases hc : (mem y).child = some node
    · rw [if_pos ⟨hp, hc⟩]
      exact hret
    · rw [if_neg fun h => hc h.2]
      have hpoint := hinv.child
      cases hch : (mem y).child with
      | none =>
        rw [hch] at hpoint
        change kids mem N y = ∅ at hpoint
        rw [hpoint] at hk
        exact absurd hk (Finset.notMem_empty node)
      | some c =>
        rw [hch] at hpoint hc
        refine Finset.mem_erase.mpr ⟨?_, hpoint⟩
        rintro rfl
        exact hc rfl
  · rw [happly, Finset.card_erase_of_mem hk, ← hinv.degree]
    exact if_pos rfl
  · rw [happly, fibnodeRemove_apply]
    split_ifs with h <;> rfl
  · rw [hchild, childAfter, if_neg]
    rintro ⟨h, -⟩
    exact ha (Option.some.inj (h.symm.trans hp))
  · rw [happly]
    exact if_neg ha
  · have han : a ≠ node := fun h => ha (h ▸ hk)
    have hal : a ≠ (mem node).left := fun h => ha (h ▸ hls)
    have har : a ≠ (mem node).right := fun h => ha (h ▸ hrs)
    rw [happly, fibnodeRemove_apply, if_neg han, if_neg hal, if_neg har]
    exact ⟨rfl, rfl⟩

/-- **`fibheap_cut`** makes a child a root.
Source: `fibheap.c` `fibheap_cut`
Kind: L -/
theorem cut_spec {node : ℕ} (hf : Shape mem N none)
    (horder : ∀ a ∈ N, a ≠ node → ∀ p, (mem a).parent = some p → (mem p).key ≤ (mem a).key)
    (hR : RootRing mem heap (tops mem N)) (hn : node ∈ N) (hp : (mem node).parent = some y) :
    Forest (fibheapCut mem heap node y).1 N none ∧
      tops (fibheapCut mem heap node y).1 N = insert node (tops mem N) ∧
      RootRing (fibheapCut mem heap node y).1 (fibheapCut mem heap node y).2
        (insert node (tops mem N)) ∧
      SameContents mem (fibheapCut mem heap node y).1 N ∧
      (∀ a, ((fibheapCut mem heap node y).1 a).parent =
        if a = node then none else (mem a).parent) ∧
      (fibheapCut mem heap node y).2.min = heap.min ∧
      (fibheapCut mem heap node y).2.nodes = heap.nodes := by
  have hy : y ∈ N := hf.parent_mem node hn y hp
  have htop : node ∉ tops mem N := by
    rw [mem_tops, hp]
    rintro ⟨-, h⟩
    cases h
  obtain ⟨hring, hchild, hdeg, hform, hother, hlinks⟩ := detach_spec hf hn hp
  -- the root list is not touched by the removal
  have hdisj : ∀ a ∈ tops mem N, ∀ b, a ∉ kids mem N b := by
    intro a ha b hb
    rw [mem_kids, (mem_tops.mp ha).2] at hb
    cases hb.2
  have hR1 : RootRing (detach mem node y) heap (tops mem N) :=
    ⟨hR.1.congr fun a ha => hlinks a (hdisj a ha y), hR.2⟩
  obtain ⟨hrel, hroot, hmin, hnodes⟩ := insRoot_spec hR1 htop
  have hcut : fibheapCut mem heap node y =
      (modify (fibheapInsRoot (detach mem node y) heap node).1 node
        fun n => { n with parent := none, mark := false },
        (fibheapInsRoot (detach mem node y) heap node).2) := rfl
  generalize hm3 : (fibheapInsRoot (detach mem node y) heap node).1 = mem3 at hrel hroot hcut
  generalize hm4 : (modify mem3 node fun n => { n with parent := none, mark := false }) = mem4
    at hcut
  rw [hcut]
  dsimp only
  have h4 : ∀ a, mem4 a = { mem a with
      parent := if a = node then none else (mem a).parent
      child := (detach mem node y a).child
      left := (mem3 a).left
      right := (mem3 a).right
      degree := (detach mem node y a).degree
      mark := if a = node then false else (mem a).mark } := by
    intro a
    rw [← hm4, modify_apply]
    split_ifs with h
    · subst h
      rw [hrel.2 a, hform a]
    · rw [hrel.2 a, hform a, if_neg h]
  have hparent : ∀ a, (mem4 a).parent = if a = node then none else (mem a).parent := by
    intro a
    rw [h4]
  have hkey : ∀ a, (mem4 a).key = (mem a).key ∧ (mem4 a).data = (mem a).data := by
    intro a
    rw [h4]
    exact ⟨rfl, rfl⟩
  have hlinks4 : ∀ b, ∀ c ∈ kids mem N b, c ≠ node →
      (mem4 c).left = (detach mem node y c).left ∧
        (mem4 c).right = (detach mem node y c).right := by
    intro b c hc hcn
    have hcR : c ∉ insert node (tops mem N) := by
      rw [Finset.mem_insert, not_or]
      exact ⟨hcn, fun h => hdisj c h b hc⟩
    rw [h4, hrel.1 c hcR]
    exact ⟨rfl, rfl⟩
  have hkids : ∀ b, kids mem4 N b = (kids mem N b).erase node := by
    intro b
    ext c
    by_cases hcn : c = node
    · simp [hparent, hcn]
    · simp [hparent, hcn]
  have htops : tops mem4 N = insert node (tops mem N) := by
    ext c
    by_cases hcn : c = node
    · simp [hparent, hcn, hn]
    · simp [hparent, hcn]
  refine ⟨⟨⟨?_, ?_, ?_⟩, ?_⟩, htops, ⟨?_, ?_⟩, ⟨hkey, ?_⟩, hparent, hmin, hnodes⟩
  · intro a ha p hap
    rw [hparent] at hap
    split_ifs at hap
    exact hf.parent_mem a ha p hap
  · obtain ⟨rank, hrank⟩ := hf.rank
    refine ⟨rank, fun a ha p hap => ?_⟩
    rw [hparent] at hap
    split_ifs at hap
    exact hrank a ha p hap
  · intro a ha _
    by_cases hay : a = y
    · subst hay
      refine ⟨?_, ?_, ?_⟩
      · rw [hkids]
        refine Linked.congr hring fun c hc => ?_
        obtain ⟨hcn, hck⟩ := Finset.mem_erase.mp hc
        exact hlinks4 a c hck hcn
      · rw [hkids, h4]
        exact hchild
      · rw [hkids, h4]
        exact hdeg
    · have hnk : node ∉ kids mem N a := by
        rw [mem_kids, hp]
        rintro ⟨-, h⟩
        exact hay (Option.some.inj h).symm
      have hkids' : kids mem4 N a = kids mem N a := by
        rw [hkids, Finset.erase_eq_of_notMem hnk]
      refine (hf.node a ha (by simp)).congr hkids' ?_ ?_ fun c hc => ?_
      · rw [h4]
        exact (hother a hay).1
      · rw [h4]
        exact (hother a hay).2
      · have hcn : c ≠ node := fun h => hnk (h ▸ hc)
        obtain ⟨hl, hr⟩ := hlinks4 a c hc hcn
        rw [hl, hr]
        apply hlinks
        intro hcy
        rw [mem_kids] at hc hcy
        exact hay (Option.some.inj (hc.2.symm.trans hcy.2))
  · intro a ha p hap
    rw [(hkey a).1, (hkey p).1]
    rw [hparent] at hap
    split_ifs at hap with han
    exact horder a ha han p hap
  · refine hroot.1.congr fun c _ => ?_
    rw [h4]
    exact ⟨rfl, rfl⟩
  · exact hroot.2
  · intro a ha
    have han : a ≠ node := fun h => ha (h ▸ hn)
    have hay : a ≠ y := fun h => ha (h ▸ hy)
    have haR : a ∉ insert node (tops mem N) := by
      rw [Finset.mem_insert, not_or]
      exact ⟨han, fun h => ha (mem_tops.mp h).1⟩
    obtain ⟨hl, hr⟩ := hlinks a fun h => ha (mem_kids.mp h).1
    rw [h4, if_neg han, if_neg han, hrel.1 a haR, hl, hr, (hother a hay).1, (hother a hay).2]

theorem Relinked.tops_eq {s : Finset ℕ} (h : Relinked mem mem' s) (N : Finset ℕ) :
    tops mem' N = tops mem N := by
  ext c
  simp [h.parent]

/-- Links of roots can change without harm to the trees. -/
theorem Forest.relinked {s : Finset ℕ} (hf : Forest mem N e) (h : Relinked mem mem' s)
    (hs : s ⊆ tops mem N) : Forest mem' N e := by
  have hkids : ∀ b, kids mem' N b = kids mem N b := by
    intro b
    ext c
    simp [h.parent]
  refine ⟨⟨fun a ha p hp => ?_, ?_, fun a ha hae => ?_⟩, fun a ha p hp => ?_⟩
  · exact hf.parent_mem a ha p (h.parent a ▸ hp)
  · obtain ⟨rank, hrank⟩ := hf.rank
    exact ⟨rank, fun a ha p hp => hrank a ha p (h.parent a ▸ hp)⟩
  · refine (hf.node a ha hae).congr (hkids a) (h.child a) (h.degree a) fun c hc => ?_
    have hcs : c ∉ s := by
      intro hcs
      rw [mem_kids, (mem_tops.mp (hs hcs)).2] at hc
      cases hc.2
    rw [h.1 c hcs]
    exact ⟨rfl, rfl⟩
  · rw [h.key, h.key]
    exact hf.order a ha p (h.parent a ▸ hp)

/-- **The least root is the least node.** -/
theorem Forest.le_of_tops (hf : Forest mem N e) {k : ℤ} (hk : ∀ a ∈ tops mem N, k ≤ (mem a).key) :
    ∀ a ∈ N, k ≤ (mem a).key := by
  obtain ⟨rank, hrank⟩ := hf.rank
  by_contra hne
  push Not at hne
  obtain ⟨b, hb, hbk⟩ := hne
  -- the highest node that is too small has a parent that is too small
  obtain ⟨a, ha, hmax⟩ := Finset.exists_max_image (N.filter fun a => (mem a).key < k) rank
    ⟨b, Finset.mem_filter.mpr ⟨hb, hbk⟩⟩
  obtain ⟨haN, hak⟩ := Finset.mem_filter.mp ha
  cases hp : (mem a).parent with
  | none => exact absurd (hk a (mem_tops.mpr ⟨haN, hp⟩)) (not_le.mpr hak)
  | some p =>
    have hpk : (mem p).key < k := lt_of_le_of_lt (hf.order a haN p hp) hak
    have := hmax p (Finset.mem_filter.mpr ⟨hf.parent_mem a haN p hp, hpk⟩)
    exact absurd (hrank a haN p hp) (not_lt.mpr this)

end Surgery

end GccCore.Iberty.Fibheap
