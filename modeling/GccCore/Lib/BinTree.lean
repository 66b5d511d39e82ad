import Mathlib.Tactic

/-!
# Binary trees and their in-order lists

Binary trees with entries at the nodes, the two rotations, the two ends, and comparison functions
of the C kind (`int (*) (key, key)`, negative, zero or positive). Every fact is stated through the
in-order list:

* **Rotations keep the list** (`toList_rotateLeft`, `toList_rotateRight`), whatever the tree.
* **The ends are the ends of the list** (`leftmost_eq_head?`, `rightmost_eq_getLast?`).
* **A list sorted by a comparison is a search structure** (`SortedBy.lt_of_mem_left`,
  `SortedBy.lt_of_mem_right`): what stands before an entry is below it, what stands behind it is
  above.
-/

namespace GccCore.Lib

/-! ## Trees -/

/-- Binary trees with an entry at every node. -/
inductive BinTree (α : Type*)
  | nil
  | node (left : BinTree α) (entry : α) (right : BinTree α)
  deriving DecidableEq, Repr

namespace BinTree

variable {α : Type*}

/-- Is this the null pointer? -/
def isNil : BinTree α → Bool
  | nil => true
  | node _ _ _ => false

/-- `isNil` is the test for `nil`. -/
@[simp]
theorem isNil_iff (t : BinTree α) : t.isNil = true ↔ t = nil := by
  cases t <;> simp [isNil]

/-- The in-order list of the entries. -/
def toList : BinTree α → List α
  | nil => []
  | node l a r => l.toList ++ a :: r.toList

/-- The empty tree lists nothing. -/
@[simp]
theorem toList_nil : (nil : BinTree α).toList = [] := rfl

/-- A node stands between its subtrees. -/
@[simp]
theorem toList_node (l : BinTree α) (a : α) (r : BinTree α) :
    (node l a r).toList = l.toList ++ a :: r.toList := rfl

/-- Turn the edge between a root and its left child; a tree without one stays as it is. -/
def rotateLeft : BinTree α → BinTree α
  | node (node a n b) p c => node a n (node b p c)
  | t => t

/-- Turn the edge between a root and its right child; a tree without one stays as it is. -/
def rotateRight : BinTree α → BinTree α
  | node a p (node b n c) => node (node a p b) n c
  | t => t

/-- A rotation keeps the in-order list. -/
@[simp]
theorem toList_rotateLeft (t : BinTree α) : t.rotateLeft.toList = t.toList := by
  rcases t with _ | ⟨_ | ⟨a, n, b⟩, p, c⟩ <;> simp [rotateLeft]

/-- A rotation keeps the in-order list. -/
@[simp]
theorem toList_rotateRight (t : BinTree α) : t.rotateRight.toList = t.toList := by
  rcases t with _ | ⟨a, p, _ | ⟨b, n, c⟩⟩ <;> simp [rotateRight]

/-- The entry reached by going left while there is a left child. -/
def leftmost : BinTree α → Option α
  | nil => none
  | node nil a _ => some a
  | node (node ll b lr) _ _ => leftmost (node ll b lr)

/-- The entry reached by going right while there is a right child. -/
def rightmost : BinTree α → Option α
  | nil => none
  | node _ a nil => some a
  | node _ _ (node rl b rr) => rightmost (node rl b rr)

/-- Going left ends at the head of the in-order list. -/
theorem leftmost_eq_head? (t : BinTree α) : t.leftmost = t.toList.head? := by
  induction t using leftmost.induct with
  | case1 => rfl
  | case2 a r => rfl
  | case3 ll b lr a r ih =>
    rw [leftmost, ih, toList_node (node ll b lr), List.head?_append]
    cases h : (node ll b lr).toList with
    | nil => simp at h
    | cons x xs => rfl

/-- Going right ends at the last of the in-order list. -/
theorem rightmost_eq_getLast? (t : BinTree α) : t.rightmost = t.toList.getLast? := by
  induction t using rightmost.induct with
  | case1 => rfl
  | case2 l a => simp [rightmost]
  | case3 l a rl b rr ih =>
    rw [rightmost, ih, toList_node l, List.getLast?_append, List.getLast?_cons]
    cases h : (node rl b rr).toList.getLast? with
    | none => simp at h
    | some x => rfl

/-- Hang `r` at the end of the right spine of `t`. -/
def hangRight (r : BinTree α) : BinTree α → BinTree α
  | nil => r
  | node l a s => node l a (hangRight r s)

/-- What is hung at the right end follows in the in-order list. -/
@[simp]
theorem toList_hangRight (r t : BinTree α) : (hangRight r t).toList = t.toList ++ r.toList := by
  induction t with
  | nil => rfl
  | node l a s _ ih => simp [hangRight, ih]

end BinTree

/-! ## Comparison functions -/

/-- A C comparison function that is a **strict total order** on its keys. -/
structure IsComparison {K : Type*} (comp : K → K → ℤ) : Prop where
  /-- Zero is equality. -/
  eq_zero_iff : ∀ a b, comp a b = 0 ↔ a = b
  /-- Swapping the arguments swaps the sign. -/
  neg_iff_pos : ∀ a b, comp a b < 0 ↔ 0 < comp b a
  /-- The order is transitive. -/
  trans : ∀ a b c, comp a b < 0 → comp b c < 0 → comp a c < 0

namespace IsComparison

variable {K : Type*} {comp : K → K → ℤ} (hc : IsComparison comp)

include hc

/-- No key is below itself. -/
theorem not_self_neg (a : K) : ¬ comp a a < 0 := by
  rw [(hc.eq_zero_iff a a).mpr rfl]
  decide

/-- The order has no cycle of two. -/
theorem asymm {a b : K} (hab : comp a b < 0) : ¬ comp b a < 0 := by
  intro hba
  exact hc.not_self_neg a (hc.trans a b a hab hba)

/-- Two different keys are comparable. -/
theorem neg_or_neg {a b : K} (hab : a ≠ b) : comp a b < 0 ∨ comp b a < 0 := by
  rcases lt_trichotomy (comp a b) 0 with h | h | h
  · exact .inl h
  · exact absurd ((hc.eq_zero_iff a b).mp h) hab
  · exact .inr ((hc.neg_iff_pos b a).mpr h)

end IsComparison

/-! ## Sorted bindings -/

/-- The bindings `kvs` stand in strictly ascending order of their keys. -/
def SortedBy {K V : Type*} (comp : K → K → ℤ) (kvs : List (K × V)) : Prop :=
  kvs.Pairwise fun x y => comp x.1 y.1 < 0

namespace SortedBy

variable {K V : Type*} {comp : K → K → ℤ} {kvs l r : List (K × V)} {x y : K × V}

/-- What stands before a binding is below it. -/
theorem lt_of_mem_left (h : SortedBy comp (l ++ x :: r)) (hy : y ∈ l) : comp y.1 x.1 < 0 := by
  have := (List.pairwise_append.mp h).2.2
  exact this y hy x (by simp)

/-- What stands behind a binding is above it. -/
theorem lt_of_mem_right (h : SortedBy comp (l ++ x :: r)) (hy : y ∈ r) : comp x.1 y.1 < 0 := by
  have := (List.pairwise_append.mp h).2.1
  exact (List.pairwise_cons.mp this).1 y hy

/-- The two parts around a binding are sorted. -/
theorem parts (h : SortedBy comp (l ++ x :: r)) : SortedBy comp l ∧ SortedBy comp r := by
  obtain ⟨hl, hr, -⟩ := List.pairwise_append.mp h
  exact ⟨hl, (List.pairwise_cons.mp hr).2⟩

/-- Putting a binding between a part below it and a part above it. -/
theorem insert (hc : IsComparison comp) (hl : SortedBy comp l) (hr : SortedBy comp r)
    (hlx : ∀ y ∈ l, comp y.1 x.1 < 0) (hxr : ∀ y ∈ r, comp x.1 y.1 < 0) :
    SortedBy comp (l ++ x :: r) := by
  refine List.pairwise_append.mpr ⟨hl, List.pairwise_cons.mpr ⟨hxr, hr⟩, fun y hy z hz => ?_⟩
  rcases List.mem_cons.mp hz with rfl | hz
  · exact hlx y hy
  · exact hc.trans _ _ _ (hlx y hy) (hxr z hz)

/-- Leaving a binding out keeps the order. -/
theorem erase (h : SortedBy comp (l ++ x :: r)) : SortedBy comp (l ++ r) :=
  List.Pairwise.sublist ((List.Sublist.refl l).append (List.sublist_cons_self x r)) h

/-- The first binding has the least key. -/
theorem head?_least (h : SortedBy comp kvs) (hx : kvs.head? = some x) :
    x ∈ kvs ∧ ∀ y ∈ kvs, y = x ∨ comp x.1 y.1 < 0 := by
  obtain ⟨ys, rfl⟩ := List.head?_eq_some_iff.mp hx
  refine ⟨by simp, fun y hy => ?_⟩
  rcases List.mem_cons.mp hy with rfl | hy
  · exact .inl rfl
  · exact .inr ((List.pairwise_cons.mp h).1 y hy)

/-- The last binding has the greatest key. -/
theorem getLast?_greatest (h : SortedBy comp kvs) (hx : kvs.getLast? = some x) :
    x ∈ kvs ∧ ∀ y ∈ kvs, y = x ∨ comp y.1 x.1 < 0 := by
  obtain ⟨ys, rfl⟩ := List.getLast?_eq_some_iff.mp hx
  refine ⟨by simp, fun y hy => ?_⟩
  rcases List.mem_append.mp hy with hy | hy
  · exact .inr (h.lt_of_mem_left hy)
  · exact .inl (by simpa using hy)

end SortedBy

end GccCore.Lib
