import GccCore.Lib.BinTree

/-!
# `libiberty/splay-tree.c`: splay trees as ordered maps

The splay loop with its four double rotations, and the exported operations over it. A
`splay_tree_node` pointer is the tree below it, a null pointer the empty tree; a node that is
returned is its key and value. `comp` returns an `int`, of which the code uses the sign only.

* **The loop ends** (`splayLoop_terminates`), on every tree, for every comparison function: a double
  rotation shortens the search path of the key, or keeps its length and turns its first two steps
  from equal into opposite directions.
* **The root after a splay** (`splayLoop_spec`): the key itself or a neighbour of it, by the
  function's comment "either the KEY itself, its predecessor, or its successor".
* **Runs** (`run_refines`): a run of operations refines the same run on the abstract map.
-/

namespace GccCore.Iberty.SplayTree

open GccCore.Lib
open GccCore.Lib.BinTree

variable {K V : Type*}

/-! ## The code -/

section Code

variable (comp : K → K → ℤ)

/-- One pass of the splay loop: whether the function returns, and the tree at `sp->root`.
Source: `splay-tree.c` `splay_tree_splay` -/
def splayBody (key : K) (root : BinTree (K × V)) : Bool × BinTree (K × V) :=
  match root with
  | nil => (true, nil)
  | node l n r =>
    let cmp1 := comp key n.1
    if cmp1 = 0 then (true, root)
    else
      match if cmp1 < 0 then l else r with
      | nil => (true, root)
      | node cl c cr =>
        let cmp2 := comp key c.1
        if cmp2 = 0 ∨ (cmp2 < 0 ∧ cl.isNil) ∨ (cmp2 > 0 ∧ cr.isNil) then
          (true, if cmp1 < 0 then root.rotateLeft else root.rotateRight)
        -- the four double rotations: first at the child, then at the root
        else if cmp1 < 0 ∧ cmp2 < 0 then (false, (node l.rotateLeft n r).rotateLeft)
        else if cmp1 > 0 ∧ cmp2 > 0 then (false, (node l n r.rotateRight).rotateRight)
        else if cmp1 < 0 ∧ cmp2 > 0 then (false, (node l.rotateRight n r).rotateLeft)
        else if cmp1 > 0 ∧ cmp2 < 0 then (false, (node l n r.rotateLeft).rotateRight)
        else (false, root)

/-- The splay loop; `none` is a run longer than the fuel.
Source: `splay-tree.c` `splay_tree_splay` (`do { … } while (1)`) -/
def splayLoop (key : K) : ℕ → BinTree (K × V) → Option (BinTree (K × V))
  | 0, _ => none
  | fuel + 1, root =>
    match splayBody comp key root with
    | (true, root') => some root'
    | (false, root') => splayLoop key fuel root'

/-- A splay tree: its root, and the values handed to `delete_value` so far (a null `delete_value`
is one that does nothing with them).
Source: `splay-tree.h` `struct splay_tree_s` -/
structure Tree (K V : Type*) where
  /-- `sp->root`. -/
  root : BinTree (K × V)
  /-- The arguments of `delete_value`, the latest first. -/
  deleted : List V

/-- Source: `splay-tree.c` `splay_tree_new_with_allocator`. -/
def splayTreeNew : Tree K V := ⟨nil, []⟩

/-- Insert: the tree afterwards and the node returned.
Source: `splay-tree.c` `splay_tree_insert` -/
def splayTreeInsert (fuel : ℕ) (sp : Tree K V) (key : K) (value : V) :
    Option (Tree K V × Option (K × V)) := do
  let root ← splayLoop comp key fuel sp.root
  match root with
  | nil => some (⟨node nil (key, value) nil, sp.deleted⟩, some (key, value))
  | node l n r =>
    let comparison := comp n.1 key
    if comparison = 0 then
      -- the node keeps its own key and gets the new value
      some (⟨node l (n.1, value) r, n.2 :: sp.deleted⟩, some (n.1, value))
    else if comparison < 0 then
      some (⟨node (node l n nil) (key, value) r, sp.deleted⟩, some (key, value))
    else
      some (⟨node l (key, value) (node nil n r), sp.deleted⟩, some (key, value))

/-- One of the children becomes the root; the right one hangs off the right-most leaf of the left
one if there are both.
Source: `splay-tree.c` `splay_tree_remove` ("One of the children is now the root") -/
def joinChildren (left right : BinTree (K × V)) : BinTree (K × V) :=
  if left.isNil then right else if right.isNil then left else hangRight right left

/-- Source: `splay-tree.c` `splay_tree_remove` -/
def splayTreeRemove (fuel : ℕ) (sp : Tree K V) (key : K) : Option (Tree K V) := do
  let root ← splayLoop comp key fuel sp.root
  match root with
  | nil => some ⟨nil, sp.deleted⟩
  | node left n right =>
    if comp n.1 key = 0 then some ⟨joinChildren left right, n.2 :: sp.deleted⟩
    else some ⟨root, sp.deleted⟩

/-- Source: `splay-tree.c` `splay_tree_lookup` -/
def splayTreeLookup (fuel : ℕ) (sp : Tree K V) (key : K) :
    Option (Tree K V × Option (K × V)) := do
  let root ← splayLoop comp key fuel sp.root
  match root with
  | nil => some (⟨nil, sp.deleted⟩, none)
  | node l n r =>
    some (⟨node l n r, sp.deleted⟩, if comp n.1 key = 0 then some n else none)

/-- Source: `splay-tree.c` `splay_tree_max`. -/
def splayTreeMax (sp : Tree K V) : Option (K × V) := sp.root.rightmost

/-- Source: `splay-tree.c` `splay_tree_min`. -/
def splayTreeMin (sp : Tree K V) : Option (K × V) := sp.root.leftmost

/-- Source: `splay-tree.c` `splay_tree_predecessor` -/
def splayTreePredecessor (fuel : ℕ) (sp : Tree K V) (key : K) :
    Option (Tree K V × Option (K × V)) := do
  let root ← splayLoop comp key fuel sp.root
  match root with
  | nil => some (⟨nil, sp.deleted⟩, none)
  | node l n r =>
    some (⟨node l n r, sp.deleted⟩, if comp n.1 key < 0 then some n else l.rightmost)

/-- Source: `splay-tree.c` `splay_tree_successor` -/
def splayTreeSuccessor (fuel : ℕ) (sp : Tree K V) (key : K) :
    Option (Tree K V × Option (K × V)) := do
  let root ← splayLoop comp key fuel sp.root
  match root with
  | nil => some (⟨nil, sp.deleted⟩, none)
  | node l n r =>
    some (⟨node l n r, sp.deleted⟩, if comp n.1 key > 0 then some n else r.leftmost)

end Code

/-! ## Termination of the loop -/

section Termination

variable (comp : K → K → ℤ) (key : K)

/-- The number of nodes the search for `key` compares with. -/
def pathLength : BinTree (K × V) → ℕ
  | nil => 0
  | node l n r =>
    if comp key n.1 = 0 then 1
    else if comp key n.1 < 0 then pathLength l + 1
    else pathLength r + 1

/-- Do the first two comparisons of the search go the same way? -/
def sameWay : BinTree (K × V) → Bool
  | nil => false
  | node l n r =>
    if comp key n.1 < 0 then
      match l with
      | nil => false
      | node _ c _ => comp key c.1 < 0
    else
      match r with
      | nil => false
      | node _ c _ => comp key c.1 > 0

section

variable {comp key} {l r a b : BinTree (K × V)} {n c : K × V}

/-- A search that goes left. -/
theorem pathLength_left (h : comp key n.1 < 0) :
    pathLength comp key (node l n r) = pathLength comp key l + 1 := by
  rw [pathLength, if_neg h.ne, if_pos h]

/-- A search that goes right. -/
theorem pathLength_right (h : 0 < comp key n.1) :
    pathLength comp key (node l n r) = pathLength comp key r + 1 := by
  rw [pathLength, if_neg h.ne', if_neg h.not_gt]

/-- A search that ends at the root. -/
theorem pathLength_found (h : comp key n.1 = 0) : pathLength comp key (node l n r) = 1 := by
  rw [pathLength, if_pos h]

/-- The first two steps of a search that goes left. -/
theorem sameWay_left (h : comp key n.1 < 0) :
    sameWay comp key (node (node a c b) n r) = decide (comp key c.1 < 0) := by
  simp [sameWay, h]

/-- The first two steps of a search that goes right. -/
theorem sameWay_right (h : 0 < comp key n.1) :
    sameWay comp key (node l n (node a c b)) = decide (0 < comp key c.1) := by
  simp [sameWay, h.not_gt]

end

/-- The measure of the loop. -/
def splayMeasure (t : BinTree (K × V)) : ℕ :=
  2 * pathLength comp key t + (sameWay comp key t).toNat

/-- What a pass that does not return has done: one of the four double rotations.
Source: `splay-tree.c` `splay_tree_splay`
Kind: L -/
theorem splayBody_again {t t' : BinTree (K × V)} (h : splayBody comp key t = (false, t')) :
    (∃ a g b c d n e, t = node (node (node a g b) c d) n e ∧ comp key n.1 < 0 ∧
      comp key c.1 < 0 ∧ t' = node a g (node (node b c d) n e)) ∨
    (∃ a g b c d n e, t = node e n (node d c (node b g a)) ∧ 0 < comp key n.1 ∧
      0 < comp key c.1 ∧ t' = node (node e n (node d c b)) g a) ∨
    (∃ a g b c d n e, t = node (node d c (node a g b)) n e ∧ comp key n.1 < 0 ∧
      0 < comp key c.1 ∧ t' = node (node d c a) g (node b n e)) ∨
    ∃ a g b c d n e, t = node e n (node (node b g a) c d) ∧ 0 < comp key n.1 ∧
      comp key c.1 < 0 ∧ t' = node (node e n b) g (node a c d) := by
  rcases t with _ | ⟨l, n, r⟩
  · simp [splayBody] at h
  rcases lt_trichotomy (comp key n.1) 0 with h1 | h1 | h1
  · rcases l with _ | ⟨cl, c, cr⟩
    · simp [splayBody, h1, h1.ne] at h
    rcases lt_trichotomy (comp key c.1) 0 with h2 | h2 | h2
    · rcases cl with _ | ⟨a, g, b⟩
      · simp [splayBody, h1, h1.ne, h2, isNil] at h
      · simp [splayBody, h1, h1.ne, h2, h2.ne, h2.not_gt, isNil, rotateLeft] at h
        exact .inl ⟨a, g, b, c, cr, n, r, rfl, h1, h2, h.symm⟩
    · simp [splayBody, h1, h1.ne, h2] at h
    · rcases cr with _ | ⟨a, g, b⟩
      · simp [splayBody, h1, h1.ne, h2, isNil] at h
      · simp [splayBody, h1, h1.ne, h1.not_gt, h2, h2.ne', h2.not_gt, isNil, rotateLeft,
          rotateRight] at h
        exact .inr (.inr (.inl ⟨a, g, b, c, cl, n, r, rfl, h1, h2, h.symm⟩))
  · simp [splayBody, h1] at h
  · rcases r with _ | ⟨cl, c, cr⟩
    · simp [splayBody, h1.ne', h1.not_gt] at h
    rcases lt_trichotomy (comp key c.1) 0 with h2 | h2 | h2
    · rcases cl with _ | ⟨a, g, b⟩
      · simp [splayBody, h1.ne', h1.not_gt, h2, isNil] at h
      · simp [splayBody, h1, h1.ne', h1.not_gt, h2, h2.ne, h2.not_gt, isNil, rotateLeft,
          rotateRight] at h
        exact .inr (.inr (.inr ⟨b, g, a, c, cr, n, l, rfl, h1, h2, h.symm⟩))
    · simp [splayBody, h1.ne', h1.not_gt, h2] at h
    · rcases cr with _ | ⟨a, g, b⟩
      · simp [splayBody, h1.ne', h1.not_gt, h2, isNil] at h
      · simp [splayBody, h1, h1.ne', h1.not_gt, h2, h2.ne', h2.not_gt, isNil, rotateRight] at h
        exact .inr (.inl ⟨b, g, a, c, cl, n, l, rfl, h1, h2, h.symm⟩)

/-- **A pass that does not return decreases the measure**: a double rotation in opposite directions
shortens the path; one in equal directions shortens it, or leaves the key between the new root and
its child, with the first two steps in opposite directions.
Source: `splay-tree.c` `splay_tree_splay`
Kind: L -/
theorem splayBody_measure {t t' : BinTree (K × V)} (h : splayBody comp key t = (false, t')) :
    splayMeasure comp key t' < splayMeasure comp key t := by
  have hbit := Bool.toNat_le (sameWay comp key t')
  unfold splayMeasure
  rcases splayBody_again comp key h with ⟨a, g, b, c, d, n, e, rfl, h1, h2, rfl⟩ |
    ⟨a, g, b, c, d, n, e, rfl, h1, h2, rfl⟩ | ⟨a, g, b, c, d, n, e, rfl, h1, h2, rfl⟩ |
    ⟨a, g, b, c, d, n, e, rfl, h1, h2, rfl⟩
  · rw [pathLength_left h1, pathLength_left h2, sameWay_left h1]
    rcases lt_trichotomy (comp key g.1) 0 with h3 | h3 | h3
    · rw [pathLength_left h3, pathLength_left h3]
      omega
    · rw [pathLength_found h3, pathLength_found h3]
      omega
    · rw [pathLength_right h3, pathLength_right h3, pathLength_left h1, pathLength_left h2,
        sameWay_right h3]
      simp [h1.not_gt, h2]
  · rw [pathLength_right h1, pathLength_right h2, sameWay_right h1]
    rcases lt_trichotomy (comp key g.1) 0 with h3 | h3 | h3
    · rw [pathLength_left h3, pathLength_left h3, pathLength_right h1, pathLength_right h2,
        sameWay_left h3]
      simp [h1.not_gt, h2]
    · rw [pathLength_found h3, pathLength_found h3]
      omega
    · rw [pathLength_right h3, pathLength_right h3]
      omega
  · rw [pathLength_left h1, pathLength_right h2]
    rcases lt_trichotomy (comp key g.1) 0 with h3 | h3 | h3
    · rw [pathLength_left h3, pathLength_left h3, pathLength_right h2]
      omega
    · rw [pathLength_found h3, pathLength_found h3]
      omega
    · rw [pathLength_right h3, pathLength_right h3, pathLength_left h1]
      omega
  · rw [pathLength_right h1, pathLength_left h2]
    rcases lt_trichotomy (comp key g.1) 0 with h3 | h3 | h3
    · rw [pathLength_left h3, pathLength_left h3, pathLength_right h1]
      omega
    · rw [pathLength_found h3, pathLength_found h3]
      omega
    · rw [pathLength_right h3, pathLength_right h3, pathLength_left h2]
      omega

/-- Enough fuel ends the loop, and more changes nothing.
Source: `splay-tree.c` `splay_tree_splay`
Kind: L -/
theorem splayLoop_terminates (t : BinTree (K × V)) :
    ∃ t', ∀ fuel > splayMeasure comp key t, splayLoop comp key fuel t = some t' := by
  induction hm : splayMeasure comp key t using Nat.strong_induction_on generalizing t with
  | _ m ih =>
    rcases hb : splayBody comp key t with ⟨_ | _, t₁⟩
    · obtain ⟨t', ht'⟩ := ih _ (hm ▸ splayBody_measure comp key hb) t₁ rfl
      refine ⟨t', fun fuel hf => ?_⟩
      obtain ⟨fuel, rfl⟩ := Nat.exists_eq_add_of_lt hf
      rw [splayLoop, hb]
      have := splayBody_measure comp key hb
      exact ht' _ (by omega)
    · refine ⟨t₁, fun fuel hf => ?_⟩
      obtain ⟨fuel, rfl⟩ := Nat.exists_eq_add_of_lt hf
      rw [splayLoop, hb]

end Termination

/-! ## What a splay leaves -/

section Spec

variable {comp : K → K → ℤ} {key : K}

/-- **The key, its predecessor or its successor is at the root**: no binding lies between the key
and the root.
Source: `splay-tree.c` `splay_tree_predecessor` ("That will leave either the KEY itself, its
predecessor, or its successor at the root") -/
def RootIsNear (comp : K → K → ℤ) (key : K) : BinTree (K × V) → Prop
  | nil => True
  | node l n r =>
    (comp key n.1 < 0 → ∀ y ∈ l.toList, comp y.1 key < 0) ∧
      (0 < comp key n.1 → ∀ y ∈ r.toList, comp key y.1 < 0)

/-- A pass keeps the bindings in order. Source: `splay-tree.c` `splay_tree_splay`. Kind: L -/
theorem splayBody_toList {t t' : BinTree (K × V)} {done : Bool}
    (h : splayBody comp key t = (done, t')) : t'.toList = t.toList := by
  have : t' = (splayBody comp key t).2 := by rw [h]
  subst this
  unfold splayBody
  grind [toList_rotateLeft, toList_rotateRight, toList_node]

/-- What a pass that returns has done: nothing, or one rotation.
Source: `splay-tree.c` `splay_tree_splay`
Kind: L -/
theorem splayBody_done {t t' : BinTree (K × V)} (h : splayBody comp key t = (true, t')) :
    (t = nil ∧ t' = nil) ∨
    (∃ l n r, t = node l n r ∧ t' = t ∧
      (comp key n.1 = 0 ∨ (comp key n.1 < 0 ∧ l = nil) ∨ (0 < comp key n.1 ∧ r = nil))) ∨
    (∃ cl c cr n r, t = node (node cl c cr) n r ∧ comp key n.1 < 0 ∧
      t' = node cl c (node cr n r) ∧
      (comp key c.1 = 0 ∨ (comp key c.1 < 0 ∧ cl = nil) ∨ (0 < comp key c.1 ∧ cr = nil))) ∨
    ∃ cl c cr n l, t = node l n (node cl c cr) ∧ 0 < comp key n.1 ∧
      t' = node (node l n cl) c cr ∧
      (comp key c.1 = 0 ∨ (comp key c.1 < 0 ∧ cl = nil) ∨ (0 < comp key c.1 ∧ cr = nil)) := by
  rcases t with _ | ⟨l, n, r⟩
  · simp only [splayBody, Prod.mk.injEq, true_and] at h
    exact .inl ⟨rfl, h.symm⟩
  right
  rcases lt_trichotomy (comp key n.1) 0 with h1 | h1 | h1
  · rcases l with _ | ⟨cl, c, cr⟩
    · simp only [splayBody, h1, h1.ne, if_true, if_false, Prod.mk.injEq, true_and] at h
      exact .inl ⟨nil, n, r, rfl, h.symm, .inr (.inl ⟨h1, rfl⟩)⟩
    · by_cases h2 : comp key c.1 = 0 ∨ (comp key c.1 < 0 ∧ cl.isNil) ∨
          (comp key c.1 > 0 ∧ cr.isNil)
      · simp only [splayBody, h1, h1.ne, h2, if_true, if_false, Prod.mk.injEq, true_and] at h
        exact .inr (.inl ⟨cl, c, cr, n, r, rfl, h1, h.symm, by simpa using h2⟩)
      · simp only [splayBody, h1, h1.ne, h2, if_true, if_false] at h
        split_ifs at h <;> simp at h
  · simp only [splayBody, h1, if_true, Prod.mk.injEq, true_and] at h
    exact .inl ⟨l, n, r, rfl, h.symm, .inl h1⟩
  · rcases r with _ | ⟨cl, c, cr⟩
    · simp only [splayBody, h1.ne', h1.not_gt, if_false, Prod.mk.injEq, true_and] at h
      exact .inl ⟨l, n, nil, rfl, h.symm, .inr (.inr ⟨h1, rfl⟩)⟩
    · by_cases h2 : comp key c.1 = 0 ∨ (comp key c.1 < 0 ∧ cl.isNil) ∨
          (comp key c.1 > 0 ∧ cr.isNil)
      · simp only [splayBody, h1.ne', h1.not_gt, h2, if_true, if_false, Prod.mk.injEq,
          true_and] at h
        exact .inr (.inr ⟨cl, c, cr, n, l, rfl, h1, h.symm, by simpa using h2⟩)
      · simp only [splayBody, h1.ne', h1.not_gt, h2, if_false] at h
        split_ifs at h <;> simp at h

/-- A pass that returns leaves the key or a neighbour at the root.
Source: `splay-tree.c` `splay_tree_splay`
Kind: L -/
theorem splayBody_rootIsNear (hc : IsComparison comp) {t t' : BinTree (K × V)}
    (hs : SortedBy comp t.toList) (h : splayBody comp key t = (true, t')) :
    RootIsNear comp key t' := by
  have hs' : SortedBy comp t'.toList := by rwa [splayBody_toList h]
  rcases splayBody_done h with ⟨rfl, rfl⟩ | ⟨l, n, r, rfl, rfl, h1⟩ |
    ⟨cl, c, cr, n, r, rfl, h1, rfl, h2⟩ | ⟨cl, c, cr, n, l, rfl, h1, rfl, h2⟩
  · trivial
  · rcases h1 with h1 | ⟨h1, rfl⟩ | ⟨h1, rfl⟩
    · exact ⟨fun h => absurd h1 h.ne, fun h => absurd h1 h.ne'⟩
    · exact ⟨fun _ => by simp, fun h => absurd h h1.not_gt⟩
    · exact ⟨fun h => absurd h h1.not_gt, fun _ => by simp⟩
  · rcases h2 with h2 | ⟨h2, rfl⟩ | ⟨h2, rfl⟩
    · exact ⟨fun h => absurd h2 h.ne, fun h => absurd h2 h.ne'⟩
    · exact ⟨fun _ => by simp, fun h => absurd h h2.not_gt⟩
    · refine ⟨fun h => absurd h h2.not_gt, fun _ y hy => ?_⟩
      -- the old root is the least binding above the key
      obtain ⟨-, hr⟩ := hs'.parts
      rw [toList_node, toList_nil, List.nil_append] at hy hr
      rcases List.mem_cons.mp hy with rfl | hy
      · exact h1
      · exact hc.trans _ _ _ h1 ((List.pairwise_cons.mp hr).1 y hy)
  · rcases h2 with h2 | ⟨h2, rfl⟩ | ⟨h2, rfl⟩
    · exact ⟨fun h => absurd h2 h.ne, fun h => absurd h2 h.ne'⟩
    · refine ⟨fun _ y hy => ?_, fun h => absurd h h2.not_gt⟩
      -- the old root is the greatest binding below the key
      have hn := (hc.neg_iff_pos n.1 key).mpr h1
      obtain ⟨hl, -⟩ := hs'.parts
      rw [toList_node, toList_nil] at hy hl
      rcases List.mem_append.mp hy with hy | hy
      · exact hc.trans _ _ _ (hl.lt_of_mem_left hy) hn
      · obtain rfl : y = n := by simpa using hy
        exact hn
    · exact ⟨fun h => absurd h h2.not_gt, fun _ => by simp⟩

/-- Splaying keeps the bindings in order, for every comparison function.
Source: `splay-tree.c` `splay_tree_splay`
Kind: L -/
theorem splayLoop_toList {fuel : ℕ} {t t' : BinTree (K × V)}
    (h : splayLoop comp key fuel t = some t') : t'.toList = t.toList := by
  induction fuel generalizing t with
  | zero => simp [splayLoop] at h
  | succ fuel ih =>
    rw [splayLoop] at h
    rcases hb : splayBody comp key t with ⟨_ | _, t₁⟩ <;> rw [hb] at h
    · exact (ih h).trans (splayBody_toList hb)
    · obtain rfl : t₁ = t' := by simpa using h
      exact splayBody_toList hb

/-- Splaying leaves the key or a neighbour at the root.
Source: `splay-tree.c` `splay_tree_splay`
Kind: L -/
theorem splayLoop_rootIsNear (hc : IsComparison comp) {fuel : ℕ} {t t' : BinTree (K × V)}
    (hs : SortedBy comp t.toList) (h : splayLoop comp key fuel t = some t') :
    RootIsNear comp key t' := by
  induction fuel generalizing t with
  | zero => simp [splayLoop] at h
  | succ fuel ih =>
    rw [splayLoop] at h
    rcases hb : splayBody comp key t with ⟨_ | _, t₁⟩ <;> rw [hb] at h
    · exact ih (by rwa [splayBody_toList hb]) h
    · obtain rfl : t₁ = t' := by simpa using h
      exact splayBody_rootIsNear hc hs hb

/-- **A splay**: the loop ends, with the same bindings in order and the key or a neighbour of it at
the root.
Source: `splay-tree.c` `splay_tree_splay`
Kind: P -/
theorem splayLoop_spec (hc : IsComparison comp) (key : K) {t : BinTree (K × V)}
    (hs : SortedBy comp t.toList) :
    ∃ t', t'.toList = t.toList ∧ RootIsNear comp key t' ∧
      ∀ fuel > splayMeasure comp key t, splayLoop comp key fuel t = some t' := by
  obtain ⟨t', ht'⟩ := splayLoop_terminates comp key t
  have hrun := ht' _ (Nat.lt_succ_self _)
  exact ⟨t', splayLoop_toList hrun, splayLoop_rootIsNear hc hs hrun, ht'⟩

end Spec

/-! ## The abstract map -/

/-- The operations of a run.
Source: `splay-tree.h`, the exported functions -/
inductive Op (K V : Type*)
  | insert (key : K) (value : V)
  | remove (key : K)
  | lookup (key : K)
  | min
  | max
  | predecessor (key : K)
  | successor (key : K)

/-- One call: the tree afterwards and the node returned (`remove` returns none).
Source: `splay-tree.c`, the exported functions -/
def step (comp : K → K → ℤ) (fuel : ℕ) (sp : Tree K V) :
    Op K V → Option (Tree K V × Option (K × V))
  | .insert key value => splayTreeInsert comp fuel sp key value
  | .remove key => (splayTreeRemove comp fuel sp key).map fun sp => (sp, none)
  | .lookup key => splayTreeLookup comp fuel sp key
  | .min => some (sp, splayTreeMin sp)
  | .max => some (sp, splayTreeMax sp)
  | .predecessor key => splayTreePredecessor comp fuel sp key
  | .successor key => splayTreeSuccessor comp fuel sp key

/-- A run of calls, with the nodes they return. -/
def run (comp : K → K → ℤ) (fuel : ℕ) :
    Tree K V → List (Op K V) → Option (Tree K V × List (Option (K × V)))
  | sp, [] => some (sp, [])
  | sp, op :: ops => do
    let (sp, res) ← step comp fuel sp op
    let (sp, rest) ← run comp fuel sp ops
    some (sp, res :: rest)

/-- What a call does to the abstract map.
Source: `splay-tree.c`, the functions' comments -/
def Op.apply [DecidableEq K] (m : K → Option V) : Op K V → K → Option V
  | .insert key value => Function.update m key (some value)
  | .remove key => Function.update m key none
  | _ => m

/-- The node `res` is the binding of `m` that comes first in the order `before` among the keys in
`P`, or null when `m` binds none of them. -/
def IsFirst (m : K → Option V) (P : K → Prop) (before : K → K → Prop) :
    Option (K × V) → Prop
  | none => ∀ k, P k → m k = none
  | some (k, v) => m k = some v ∧ P k ∧ ∀ k', P k' → m k' ≠ none → k' = k ∨ before k k'

/-- What a call returns, by the abstract map.
Source: `splay-tree.c`, the functions' comments -/
def Op.Returns (comp : K → K → ℤ) (m : K → Option V) : Op K V → Option (K × V) → Prop
  | .insert key value, res => res = some (key, value)
  | .remove _, res => res = none
  | .lookup key, res => res = (m key).map fun v => (key, v)
  | .min, res => IsFirst m (fun _ => True) (fun k k' => comp k k' < 0) res
  | .max, res => IsFirst m (fun _ => True) (fun k k' => comp k' k < 0) res
  | .predecessor key, res => IsFirst m (fun k => comp k key < 0) (fun k k' => comp k' k < 0) res
  | .successor key, res => IsFirst m (fun k => comp key k < 0) (fun k k' => comp k k' < 0) res

/-- The abstract run: what every call returns, and the map at the end. -/
def AbsRun [DecidableEq K] (comp : K → K → ℤ) :
    (K → Option V) → List (Op K V) → List (Option (K × V)) → (K → Option V) → Prop
  | m, [], results, m' => results = [] ∧ m' = m
  | m, op :: ops, results, m' =>
    ∃ res rest, results = res :: rest ∧ op.Returns comp m res ∧ AbsRun comp (op.apply m) ops rest m'

/-- **The invariant**: a binary search tree that holds exactly the bindings of `m`. -/
structure Represents (comp : K → K → ℤ) (t : BinTree (K × V)) (m : K → Option V) : Prop where
  /-- The tree is a search tree. -/
  sorted : SortedBy comp t.toList
  /-- Its nodes are the bindings. -/
  mem_iff : ∀ k v, (k, v) ∈ t.toList ↔ m k = some v

/-! ## One call -/

section Step

variable {comp : K → K → ℤ} (hc : IsComparison comp) {m : K → Option V}

/-- The invariant depends on the in-order list only. -/
theorem Represents.congr {t t' : BinTree (K × V)} (h : Represents comp t m)
    (hl : t'.toList = t.toList) : Represents comp t' m :=
  ⟨by rw [hl]; exact h.sorted, fun k v => by rw [hl]; exact h.mem_iff k v⟩

/-- The root's key is bound to its value. -/
theorem Represents.root_eq {l r : BinTree (K × V)} {n : K × V}
    (h : Represents comp (node l n r) m) : m n.1 = some n.2 :=
  (h.mem_iff n.1 n.2).mp (by simp)

include hc

/-- A key stands in one place. -/
theorem Represents.ne_of_mem {l r : BinTree (K × V)} {n : K × V}
    (h : Represents comp (node l n r) m) {y : K × V} (hy : y ∈ l.toList ∨ y ∈ r.toList) :
    y.1 ≠ n.1 := by
  intro heq
  have hzero := (hc.eq_zero_iff y.1 n.1).mpr heq
  rcases hy with hy | hy
  · exact absurd hzero (h.sorted.lt_of_mem_left hy).ne
  · have := (hc.neg_iff_pos _ _).mp (h.sorted.lt_of_mem_right hy)
    exact absurd hzero this.ne'

/-- A key the search does not find at the root is not bound.
Source: `splay-tree.c` `splay_tree_lookup`
Kind: L -/
theorem Represents.unbound {l r : BinTree (K × V)} {n : K × V} {key : K}
    (h : Represents comp (node l n r) m) (hnear : RootIsNear comp key (node l n r))
    (hne : comp n.1 key ≠ 0) : m key = none := by
  by_contra hb
  obtain ⟨v, hv⟩ := Option.ne_none_iff_exists'.mp hb
  have hkn : key ≠ n.1 := fun heq => hne ((hc.eq_zero_iff _ _).mpr heq.symm)
  have hmem := (h.mem_iff key v).mpr hv
  rw [toList_node, List.mem_append, List.mem_cons] at hmem
  rcases hmem with hl | heq | hr
  · have hlt := h.sorted.lt_of_mem_left hl
    exact hc.not_self_neg key (hnear.1 hlt (key, v) hl)
  · exact hkn (congrArg Prod.fst heq)
  · have hlt := (hc.neg_iff_pos _ _).mp (h.sorted.lt_of_mem_right hr)
    exact hc.not_self_neg key (hnear.2 hlt (key, v) hr)

/-- Binding a key between what lies below and above it.
Source: `splay-tree.c` `splay_tree_insert`
Kind: L -/
theorem represents_insert [DecidableEq K] {t : BinTree (K × V)} {l r : List (K × V)} {key : K}
    {value : V} (hl : SortedBy comp l) (hr : SortedBy comp r)
    (hlk : ∀ y ∈ l, comp y.1 key < 0) (hkr : ∀ y ∈ r, comp key y.1 < 0)
    (hm : ∀ k v, k ≠ key → ((k, v) ∈ l ∨ (k, v) ∈ r ↔ m k = some v))
    (ht : t.toList = l ++ (key, value) :: r) :
    Represents comp t (Function.update m key (some value)) := by
  refine ⟨ht ▸ SortedBy.insert hc hl hr hlk hkr, fun k v => ?_⟩
  rw [ht, List.mem_append, List.mem_cons, Function.update_apply]
  by_cases hk : k = key
  · subst hk
    have hnl : (k, v) ∉ l := fun h => hc.not_self_neg k (hlk _ h)
    have hnr : (k, v) ∉ r := fun h => hc.not_self_neg k (hkr _ h)
    simp [hnl, hnr, eq_comm]
  · rw [if_neg hk, ← hm k v hk]
    simp [hk]

/-- Insertion.
Source: `splay-tree.c` `splay_tree_insert`
Kind: L -/
theorem splayTreeInsert_spec [DecidableEq K] {sp : Tree K V} (h : Represents comp sp.root m)
    (key : K) (value : V) :
    ∃ sp', Represents comp sp'.root (Function.update m key (some value)) ∧
      ∀ fuel > splayMeasure comp key sp.root,
        splayTreeInsert comp fuel sp key value = some (sp', some (key, value)) := by
  obtain ⟨t, hl, hnear, hrun⟩ := splayLoop_spec hc key h.sorted
  have ht : Represents comp t m := h.congr hl
  rcases t with _ | ⟨l, n, r⟩
  · refine ⟨⟨node nil (key, value) nil, sp.deleted⟩, ?_, fun fuel hf => ?_⟩
    · refine represents_insert hc (l := []) (r := []) List.Pairwise.nil List.Pairwise.nil
        (by simp) (by simp) (fun k v _ => ?_) rfl
      simpa using ht.mem_iff k v
    · simp [splayTreeInsert, hrun fuel hf]
  rcases lt_trichotomy (comp n.1 key) 0 with hlt | heq | hgt
  · -- the root is the predecessor: it goes to the left with its left subtree
    have hnr := hnear.2 ((hc.neg_iff_pos _ _).mp hlt)
    refine ⟨⟨node (node l n nil) (key, value) r, sp.deleted⟩, ?_, fun fuel hf => ?_⟩
    · refine represents_insert hc (l := l.toList ++ [n]) (r := r.toList) ?_ ht.sorted.parts.2 ?_
        hnr (fun k v hk => ?_) (by simp)
      · exact SortedBy.insert hc ht.sorted.parts.1 List.Pairwise.nil
          (fun y hy => ht.sorted.lt_of_mem_left hy) (by simp)
      · intro y hy
        rcases List.mem_append.mp hy with hy | hy
        · exact hc.trans _ _ _ (ht.sorted.lt_of_mem_left hy) hlt
        · obtain rfl : y = n := by simpa using hy
          exact hlt
      · rw [← ht.mem_iff k v]
        simp [or_assoc]
    · simp [splayTreeInsert, hrun fuel hf, hlt, hlt.ne]
  · -- the root has the key
    obtain rfl := (hc.eq_zero_iff _ _).mp heq
    refine ⟨⟨node l (n.1, value) r, n.2 :: sp.deleted⟩, ?_, fun fuel hf => ?_⟩
    · refine represents_insert hc (l := l.toList) (r := r.toList) ht.sorted.parts.1
        ht.sorted.parts.2 (fun y hy => ht.sorted.lt_of_mem_left hy)
        (fun y hy => ht.sorted.lt_of_mem_right hy) (fun k v hk => ?_) rfl
      have : (k, v) ≠ n := fun he => hk (congrArg Prod.fst he)
      rw [← ht.mem_iff k v]
      simp [this]
    · simp [splayTreeInsert, hrun fuel hf, heq]
  · -- the root is the successor: it goes to the right with its right subtree
    have hkn := (hc.neg_iff_pos _ _).mpr hgt
    have hnl := hnear.1 hkn
    refine ⟨⟨node l (key, value) (node nil n r), sp.deleted⟩, ?_, fun fuel hf => ?_⟩
    · refine represents_insert hc (l := l.toList) (r := n :: r.toList) ht.sorted.parts.1 ?_
        hnl ?_ (fun k v hk => ?_) (by simp)
      · exact SortedBy.insert hc (l := []) List.Pairwise.nil ht.sorted.parts.2 (by simp)
          (fun y hy => ht.sorted.lt_of_mem_right hy)
      · intro y hy
        rcases List.mem_cons.mp hy with rfl | hy
        · exact hkn
        · exact hc.trans _ _ _ hkn (ht.sorted.lt_of_mem_right hy)
      · rw [← ht.mem_iff k v]
        simp
    · simp [splayTreeInsert, hrun fuel hf, hgt.ne', hgt.not_gt]

omit hc in
/-- The children stand behind one another. Source: `splay-tree.c` `splay_tree_remove`. Kind: L -/
theorem toList_joinChildren (l r : BinTree (K × V)) :
    (joinChildren l r).toList = l.toList ++ r.toList := by
  unfold joinChildren
  split_ifs with hl hr
  · simp [(isNil_iff l).mp hl]
  · simp [(isNil_iff r).mp hr]
  · exact toList_hangRight r l

/-- Removal.
Source: `splay-tree.c` `splay_tree_remove`
Kind: L -/
theorem splayTreeRemove_spec [DecidableEq K] {sp : Tree K V} (h : Represents comp sp.root m)
    (key : K) :
    ∃ sp', Represents comp sp'.root (Function.update m key none) ∧
      ∀ fuel > splayMeasure comp key sp.root, splayTreeRemove comp fuel sp key = some sp' := by
  obtain ⟨t, hl, hnear, hrun⟩ := splayLoop_spec hc key h.sorted
  have ht : Represents comp t m := h.congr hl
  rcases t with _ | ⟨l, n, r⟩
  · refine ⟨⟨nil, sp.deleted⟩, ⟨List.Pairwise.nil, fun k v => ?_⟩, fun fuel hf => ?_⟩
    · have := ht.mem_iff k v
      rw [Function.update_apply]
      split_ifs
      · simp
      · exact this
    · simp [splayTreeRemove, hrun fuel hf]
  by_cases heq : comp n.1 key = 0
  · obtain rfl := (hc.eq_zero_iff _ _).mp heq
    refine ⟨⟨joinChildren l r, n.2 :: sp.deleted⟩, ⟨?_, fun k v => ?_⟩, fun fuel hf => ?_⟩
    · rw [toList_joinChildren]
      exact ht.sorted.erase
    · have hmem := ht.mem_iff k v
      rw [toList_joinChildren, List.mem_append, Function.update_apply]
      by_cases hk : k = n.1
      · have hnot : ¬ ((k, v) ∈ l.toList ∨ (k, v) ∈ r.toList) := fun hy =>
          ht.ne_of_mem hc hy hk
        simp only [hnot, if_pos hk, reduceCtorEq]
      · have : (k, v) ≠ n := fun he => hk (congrArg Prod.fst he)
        rw [if_neg hk, ← hmem]
        simp [this]
    · simp [splayTreeRemove, hrun fuel hf, heq]
  · have hun := ht.unbound hc hnear heq
    refine ⟨⟨node l n r, sp.deleted⟩, ?_, fun fuel hf => ?_⟩
    · rw [← hun, Function.update_eq_self]
      exact ht
    · simp [splayTreeRemove, hrun fuel hf, heq]

/-- Lookup.
Source: `splay-tree.c` `splay_tree_lookup`
Kind: L -/
theorem splayTreeLookup_spec {sp : Tree K V} (h : Represents comp sp.root m) (key : K) :
    ∃ sp', Represents comp sp'.root m ∧ ∀ fuel > splayMeasure comp key sp.root,
      splayTreeLookup comp fuel sp key = some (sp', (m key).map fun v => (key, v)) := by
  obtain ⟨t, hl, hnear, hrun⟩ := splayLoop_spec hc key h.sorted
  have ht : Represents comp t m := h.congr hl
  refine ⟨⟨t, sp.deleted⟩, ht, fun fuel hf => ?_⟩
  rcases t with _ | ⟨l, n, r⟩
  · have hun : m key = none := by
      by_contra hb
      obtain ⟨v, hv⟩ := Option.ne_none_iff_exists'.mp hb
      simpa using (ht.mem_iff key v).mpr hv
    simp [splayTreeLookup, hrun fuel hf, hun]
  by_cases heq : comp n.1 key = 0
  · obtain rfl := (hc.eq_zero_iff _ _).mp heq
    simp [splayTreeLookup, hrun fuel hf, heq, ht.root_eq]
  · simp [splayTreeLookup, hrun fuel hf, heq, ht.unbound hc hnear heq]

omit hc in
/-- The extreme one of the bindings in `P` is what `IsFirst` asks for. -/
theorem isFirst_of_extreme {t : BinTree (K × V)} (h : Represents comp t m) {P : K → Prop} {before : K → K → Prop}
    {l : List (K × V)} (hP : ∀ y, y ∈ l ↔ y ∈ t.toList ∧ P y.1) {res : Option (K × V)} (hnone : res = none → l = [])
    (hsome : ∀ x, res = some x → x ∈ l ∧ ∀ y ∈ l, y = x ∨ before x.1 y.1) : IsFirst m P before res := by
  rcases res with _ | ⟨k, v⟩
  · intro k hk
    by_contra hb
    obtain ⟨v, hv⟩ := Option.ne_none_iff_exists'.mp hb
    have hmem := (hP (k, v)).mpr ⟨(h.mem_iff k v).mpr hv, hk⟩
    rw [hnone rfl] at hmem
    exact List.not_mem_nil hmem
  · obtain ⟨hmem, hext⟩ := hsome _ rfl
    obtain ⟨ht, hk⟩ := (hP (k, v)).mp hmem
    refine ⟨(h.mem_iff k v).mp ht, hk, fun k' hk' hb => ?_⟩
    obtain ⟨v', hv'⟩ := Option.ne_none_iff_exists'.mp hb
    exact (hext (k', v') ((hP (k', v')).mpr ⟨(h.mem_iff k' v').mpr hv', hk'⟩)).imp_left (congrArg Prod.fst)

omit hc in
/-- The last of the bindings below a bound is the greatest of them. -/
theorem isFirst_getLast? {t : BinTree (K × V)} (h : Represents comp t m) {P : K → Prop}
    {l : List (K × V)} (hl : SortedBy comp l) (hP : ∀ y, y ∈ l ↔ y ∈ t.toList ∧ P y.1) :
    IsFirst m P (fun k k' => comp k' k < 0) l.getLast? :=
  isFirst_of_extreme h hP List.getLast?_eq_none_iff.mp fun _ => hl.getLast?_greatest

omit hc in
/-- The first of the bindings above a bound is the least of them. -/
theorem isFirst_head? {t : BinTree (K × V)} (h : Represents comp t m) {P : K → Prop}
    {l : List (K × V)} (hl : SortedBy comp l) (hP : ∀ y, y ∈ l ↔ y ∈ t.toList ∧ P y.1) :
    IsFirst m P (fun k k' => comp k k' < 0) l.head? :=
  isFirst_of_extreme h hP List.head?_eq_none_iff.mp fun _ => hl.head?_least

/-- Predecessor.
Source: `splay-tree.c` `splay_tree_predecessor`
Kind: L -/
theorem splayTreePredecessor_spec {sp : Tree K V} (h : Represents comp sp.root m) (key : K) :
    ∃ sp' res, Represents comp sp'.root m ∧
      IsFirst m (fun k => comp k key < 0) (fun k k' => comp k' k < 0) res ∧
      ∀ fuel > splayMeasure comp key sp.root,
        splayTreePredecessor comp fuel sp key = some (sp', res) := by
  obtain ⟨t, hl, hnear, hrun⟩ := splayLoop_spec hc key h.sorted
  have ht : Represents comp t m := h.congr hl
  rcases t with _ | ⟨l, n, r⟩
  · refine ⟨⟨nil, sp.deleted⟩, none, ht, ?_, fun fuel hf => ?_⟩
    · exact isFirst_getLast? ht (l := []) List.Pairwise.nil (by simp)
    · simp [splayTreePredecessor, hrun fuel hf]
  by_cases hlt : comp n.1 key < 0
  · refine ⟨⟨node l n r, sp.deleted⟩, some n, ht, ?_, fun fuel hf => ?_⟩
    · have hr := hnear.2 ((hc.neg_iff_pos _ _).mp hlt)
      have hsort : SortedBy comp (l.toList ++ [n]) :=
        SortedBy.insert hc ht.sorted.parts.1 List.Pairwise.nil
          (fun y hy => ht.sorted.lt_of_mem_left hy) (by simp)
      rw [← List.getLast?_concat (l := l.toList) (a := n)]
      refine isFirst_getLast? ht hsort fun y => ?_
      rw [toList_node, List.mem_append, List.mem_append, List.mem_singleton, List.mem_cons]
      constructor
      · rintro (hy | rfl)
        · exact ⟨.inl hy, hc.trans _ _ _ (ht.sorted.lt_of_mem_left hy) hlt⟩
        · exact ⟨.inr (.inl rfl), hlt⟩
      · rintro ⟨hy | rfl | hy, hylt⟩
        · exact .inl hy
        · exact .inr rfl
        · exact absurd (hr y hy) (hc.asymm hylt)
    · simp [splayTreePredecessor, hrun fuel hf, hlt]
  · refine ⟨⟨node l n r, sp.deleted⟩, l.rightmost, ht, ?_, fun fuel hf => ?_⟩
    · rw [rightmost_eq_getLast?]
      refine isFirst_getLast? ht ht.sorted.parts.1 fun y => ?_
      rw [toList_node, List.mem_append, List.mem_cons]
      constructor
      · intro hy
        refine ⟨.inl hy, ?_⟩
        have hyn := ht.sorted.lt_of_mem_left hy
        rcases eq_or_ne n.1 key with heq | hne
        · exact heq ▸ hyn
        · have := (hc.neg_or_neg hne).resolve_left hlt
          exact hnear.1 this y hy
      · rintro ⟨hy | rfl | hy, hylt⟩
        · exact hy
        · exact absurd hylt hlt
        · exact absurd (hc.trans _ _ _ (ht.sorted.lt_of_mem_right hy) hylt) hlt
    · simp [splayTreePredecessor, hrun fuel hf, hlt]

/-- Successor.
Source: `splay-tree.c` `splay_tree_successor`
Kind: L -/
theorem splayTreeSuccessor_spec {sp : Tree K V} (h : Represents comp sp.root m) (key : K) :
    ∃ sp' res, Represents comp sp'.root m ∧
      IsFirst m (fun k => comp key k < 0) (fun k k' => comp k k' < 0) res ∧
      ∀ fuel > splayMeasure comp key sp.root,
        splayTreeSuccessor comp fuel sp key = some (sp', res) := by
  obtain ⟨t, hl, hnear, hrun⟩ := splayLoop_spec hc key h.sorted
  have ht : Represents comp t m := h.congr hl
  rcases t with _ | ⟨l, n, r⟩
  · refine ⟨⟨nil, sp.deleted⟩, none, ht, ?_, fun fuel hf => ?_⟩
    · exact isFirst_head? ht (l := []) List.Pairwise.nil (by simp)
    · simp [splayTreeSuccessor, hrun fuel hf]
  by_cases hgt : comp n.1 key > 0
  · have hkn := (hc.neg_iff_pos _ _).mpr hgt
    refine ⟨⟨node l n r, sp.deleted⟩, some n, ht, ?_, fun fuel hf => ?_⟩
    · have hl' := hnear.1 hkn
      have hsort : SortedBy comp (n :: r.toList) :=
        SortedBy.insert hc (l := []) List.Pairwise.nil ht.sorted.parts.2 (by simp)
          (fun y hy => ht.sorted.lt_of_mem_right hy)
      refine isFirst_head? ht hsort fun y => ?_
      rw [toList_node, List.mem_append, List.mem_cons]
      constructor
      · rintro (rfl | hy)
        · exact ⟨.inr (.inl rfl), hkn⟩
        · exact ⟨.inr (.inr hy), hc.trans _ _ _ hkn (ht.sorted.lt_of_mem_right hy)⟩
      · rintro ⟨hy | hy, hylt⟩
        · exact absurd (hl' y hy) (hc.asymm hylt)
        · exact hy
    · simp [splayTreeSuccessor, hrun fuel hf, hgt]
  · refine ⟨⟨node l n r, sp.deleted⟩, r.leftmost, ht, ?_, fun fuel hf => ?_⟩
    · have hnot : ¬ comp key n.1 < 0 := fun hlt => hgt ((hc.neg_iff_pos _ _).mp hlt)
      rw [leftmost_eq_head?]
      refine isFirst_head? ht ht.sorted.parts.2 fun y => ?_
      rw [toList_node, List.mem_append, List.mem_cons]
      constructor
      · intro hy
        refine ⟨.inr (.inr hy), ?_⟩
        have hny := ht.sorted.lt_of_mem_right hy
        rcases eq_or_ne n.1 key with heq | hne
        · exact heq ▸ hny
        · have := (hc.neg_or_neg hne).resolve_right hnot
          exact hnear.2 ((hc.neg_iff_pos _ _).mp this) y hy
      · rintro ⟨hy | rfl | hy, hylt⟩
        · exact absurd (hc.trans _ _ _ hylt (ht.sorted.lt_of_mem_left hy)) hnot
        · exact absurd hylt hnot
        · exact hy
    · simp [splayTreeSuccessor, hrun fuel hf, hgt]

/-- **One call**: it ends, keeps the invariant with the abstract map's new value, and returns what
the abstract map says.
Source: `splay-tree.c`, the exported functions
Kind: L -/
theorem step_refines [DecidableEq K] {sp : Tree K V} (h : Represents comp sp.root m)
    (op : Op K V) :
    ∃ N sp' res, Represents comp sp'.root (op.apply m) ∧ op.Returns comp m res ∧
      ∀ fuel ≥ N, step comp fuel sp op = some (sp', res) := by
  cases op with
  | insert key value =>
    obtain ⟨sp', hrep, hrun⟩ := splayTreeInsert_spec hc h key value
    exact ⟨_, sp', _, hrep, rfl, hrun⟩
  | remove key =>
    obtain ⟨sp', hrep, hrun⟩ := splayTreeRemove_spec hc h key
    refine ⟨splayMeasure comp key sp.root + 1, sp', none, hrep, rfl, fun fuel hf => ?_⟩
    simp [step, hrun fuel hf]
  | lookup key =>
    obtain ⟨sp', hrep, hrun⟩ := splayTreeLookup_spec hc h key
    exact ⟨_, sp', _, hrep, rfl, hrun⟩
  | min =>
    refine ⟨0, sp, _, h, ?_, fun fuel _ => rfl⟩
    rw [Op.Returns, splayTreeMin, leftmost_eq_head?]
    exact isFirst_head? h h.sorted (by simp)
  | max =>
    refine ⟨0, sp, _, h, ?_, fun fuel _ => rfl⟩
    rw [Op.Returns, splayTreeMax, rightmost_eq_getLast?]
    exact isFirst_getLast? h h.sorted (by simp)
  | predecessor key =>
    obtain ⟨sp', res, hrep, hres, hrun⟩ := splayTreePredecessor_spec hc h key
    exact ⟨_, sp', res, hrep, hres, hrun⟩
  | successor key =>
    obtain ⟨sp', res, hrep, hres, hrun⟩ := splayTreeSuccessor_spec hc h key
    exact ⟨_, sp', res, hrep, hres, hrun⟩

/-- **A run of calls** refines the abstract run.
Source: `splay-tree.c`, the exported functions
Kind: L -/
theorem run_refines [DecidableEq K] (ops : List (Op K V)) {sp : Tree K V}
    (h : Represents comp sp.root m) :
    ∃ N sp' results m', (∀ fuel ≥ N, run comp fuel sp ops = some (sp', results)) ∧
      AbsRun comp m ops results m' ∧ Represents comp sp'.root m' := by
  induction ops generalizing sp m with
  | nil => exact ⟨0, sp, [], m, fun _ _ => rfl, ⟨rfl, rfl⟩, h⟩
  | cons op ops ih =>
    obtain ⟨N₁, sp₁, res, h₁, hres, hstep⟩ := step_refines hc h op
    obtain ⟨N₂, sp₂, results, m', hrun, habs, h₂⟩ := ih h₁
    refine ⟨max N₁ N₂, sp₂, res :: results, m', fun fuel hf => ?_, ⟨res, results, rfl, hres, habs⟩,
      h₂⟩
    have h1 := hstep fuel (le_trans (le_max_left _ _) hf)
    have h2 := hrun fuel (le_trans (le_max_right _ _) hf)
    simp [run, h1, h2]

end Step

/-! ## The values -/

/-! ## The ordered map -/

/-- **Splay trees are ordered maps**: the splay loop ends on every tree and key, whatever the
comparison function; and for a strict total order, every run of calls from a new tree ends, returns
what the abstract map returns, and leaves a binary search tree with exactly its bindings.
Source: `splay-tree.c`
Kind: P -/
theorem splayTree_orderedMap [DecidableEq K] (comp : K → K → ℤ) :
    (∀ (t : BinTree (K × V)) (key : K), ∃ N t', ∀ fuel ≥ N, splayLoop comp key fuel t = some t') ∧
      (IsComparison comp → ∀ ops : List (Op K V), ∃ N sp results m,
        (∀ fuel ≥ N, run comp fuel splayTreeNew ops = some (sp, results)) ∧
          AbsRun comp (fun _ => none) ops results m ∧ Represents comp sp.root m) := by
  refine ⟨fun t key => ?_, fun hc ops => ?_⟩
  · obtain ⟨t', ht'⟩ := splayLoop_terminates comp key t
    exact ⟨_, t', ht'⟩
  · exact run_refines hc ops ⟨List.Pairwise.nil, by simp [splayTreeNew]⟩

/-- A run over the integers: after two insertions and a removal, the predecessor of an absent key. -/
theorem splayTree_orderedMap_int :
    ∃ N sp results m,
      (∀ fuel ≥ N, run (fun a b : ℤ => a - b) fuel splayTreeNew
        [.insert 3 'c', .insert 5 'e', .remove 3, .predecessor 9] = some (sp, results)) ∧
        AbsRun (fun a b : ℤ => a - b) (fun _ => none)
          [.insert 3 'c', .insert 5 'e', .remove 3, .predecessor 9] results m ∧
        Represents (fun a b : ℤ => a - b) sp.root m :=
  (splayTree_orderedMap fun a b : ℤ => a - b).2
    ⟨fun a b => sub_eq_zero, fun a b => by omega, fun a b c => by omega⟩ _

end GccCore.Iberty.SplayTree
