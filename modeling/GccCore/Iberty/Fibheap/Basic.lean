import Mathlib.Data.Finset.Basic
import Mathlib.Logic.Function.Basic

/-!
# `libiberty/fibheap.c`: the functions

Nodes live in a memory that maps an address to the node's fields; the null pointer is `none`. Every
assignment of the source is an update of the memory or of the heap's own record. Loops take fuel.
The array of `fibheap_consolidate` has `1 + 8 * sizeof (long)` places, and an index past it is an
error.
-/

namespace GccCore.Iberty.Fibheap

/-- A node. Keys are `long`, the degree a 31-bit field.
Source: `fibheap.h` `struct fibnode` -/
structure FibNode (δ : Type) where
  parent : Option ℕ
  child : Option ℕ
  left : ℕ
  right : ℕ
  key : ℤ
  data : δ
  degree : ℕ
  mark : Bool

/-- A heap. Source: `fibheap.h` `struct fibheap`. -/
structure FibHeap where
  nodes : ℕ
  min : Option ℕ
  root : Option ℕ
  deriving DecidableEq

/-- The memory that holds the nodes. -/
abbrev Mem (δ : Type) := ℕ → FibNode δ

/-- How a call can fail to return: it follows a null pointer, indexes past the array of
`fibheap_consolidate`, or runs in a loop that has not ended within the fuel.
Source: `fibheap.c` -/
inductive Failure
  | nullPointer
  | outOfBounds
  | diverges
  deriving DecidableEq

section Model

variable {δ : Type}

/-- An assignment to fields of the node at `p`. -/
def modify (mem : Mem δ) (p : ℕ) (f : FibNode δ → FibNode δ) : Mem δ :=
  Function.update mem p (f (mem p))

/-- `fibheap_new`: a cleared heap. Source: `fibheap.c` `fibheap_new`. -/
def fibheapNew : FibHeap := ⟨0, none, none⟩

/-- A cleared node that is its own neighbour, with the key and the data that `fibheap_insert` sets.
Source: `fibheap.c` `fibnode_new`, `fibheap_insert` -/
def fibnodeNew (node : ℕ) (key : ℤ) (data : δ) : FibNode δ :=
  { parent := none, child := none, left := node, right := node, key, data, degree := 0,
    mark := false }

/-- Source: `fibheap.c` `fibheap_compare`. -/
def fibheapCompare (mem : Mem δ) (a b : ℕ) : Int :=
  if (mem a).key < (mem b).key then -1 else if (mem a).key > (mem b).key then 1 else 0

/-- Source: `fibheap.c` `fibnode_insert_after`. -/
def fibnodeInsertAfter (mem : Mem δ) (a b : ℕ) : Mem δ :=
  if a = (mem a).right then
    let mem := modify mem a fun n => { n with right := b, left := b }
    modify mem b fun n => { n with right := a, left := a }
  else
    let mem := modify mem b fun n => { n with right := (mem a).right }
    let mem := modify mem (mem a).right fun n => { n with left := b }
    let mem := modify mem a fun n => { n with right := b }
    modify mem b fun n => { n with left := a }

/-- A parent that points to `node` is given another child to point to.
Source: `fibheap.c` `fibnode_remove` (`node->parent->child = ret`) -/
def replaceChild (mem : Mem δ) (node : ℕ) (ret : Option ℕ) : Mem δ :=
  match (mem node).parent with
  | some p => if (mem p).child = some node then modify mem p fun n => { n with child := ret }
    else mem
  | none => mem

/-- Source: `fibheap.c` `fibnode_remove`. -/
def fibnodeRemove (mem : Mem δ) (node : ℕ) : Option ℕ × Mem δ :=
  let ret := if node = (mem node).left then none else some (mem node).left
  let mem := replaceChild mem node ret
  let mem := modify mem (mem node).right fun n => { n with left := (mem node).left }
  let mem := modify mem (mem node).left fun n => { n with right := (mem node).right }
  let mem := modify mem node fun n => { n with parent := none, left := node, right := node }
  (ret, mem)

/-- Source: `fibheap.c` `fibheap_ins_root`. -/
def fibheapInsRoot (mem : Mem δ) (heap : FibHeap) (node : ℕ) : Mem δ × FibHeap :=
  match heap.root with
  | none => (modify mem node fun n => { n with left := node, right := node },
      { heap with root := some node })
  | some r => (fibnodeInsertAfter mem r node, heap)

/-- Source: `fibheap.c` `fibheap_rem_root`. -/
def fibheapRemRoot (mem : Mem δ) (heap : FibHeap) (node : ℕ) : Mem δ × FibHeap :=
  if (mem node).left = node then (mem, { heap with root := none })
  else
    let (ret, mem) := fibnodeRemove mem node
    (mem, { heap with root := ret })

/-- What `fibheap_link` does to the list of children.
Source: `fibheap.c` `fibheap_link` (`if (parent->child == NULL)`) -/
def linkChild (mem : Mem δ) (node parent : ℕ) : Mem δ :=
  match (mem parent).child with
  | none => modify mem parent fun n => { n with child := some node }
  | some c => fibnodeInsertAfter mem (mem c).left node

/-- Source: `fibheap.c` `fibheap_link`. -/
def fibheapLink (mem : Mem δ) (node parent : ℕ) : Mem δ :=
  let mem := linkChild mem node parent
  let mem := modify mem node fun n => { n with parent := some parent }
  let mem := modify mem parent fun n => { n with degree := n.degree + 1 }
  modify mem node fun n => { n with mark := false }

/-- Source: `fibheap.c` `fibheap_cut`. -/
def fibheapCut (mem : Mem δ) (heap : FibHeap) (node parent : ℕ) : Mem δ × FibHeap :=
  let (_, mem) := fibnodeRemove mem node
  let mem := modify mem parent fun n => { n with degree := n.degree - 1 }
  let (mem, heap) := fibheapInsRoot mem heap node
  (modify mem node fun n => { n with parent := none, mark := false }, heap)

/-- Source: `fibheap.c` `fibheap_cascading_cut`. -/
def fibheapCascadingCut : ℕ → Mem δ → FibHeap → ℕ → Except Failure (Mem δ × FibHeap)
  | 0, _, _, _ => .error .diverges
  | fuel + 1, mem, heap, y =>
    match (mem y).parent with
    | none => .ok (mem, heap)
    | some z =>
      if (mem y).mark = false then .ok (modify mem y fun n => { n with mark := true }, heap)
      else
        let (mem, heap) := fibheapCut mem heap y z
        fibheapCascadingCut fuel mem heap z

/-- Source: `fibheap.c` `fibheap_insert`. -/
def fibheapInsert (mem : Mem δ) (heap : FibHeap) (node : ℕ) (key : ℤ) (data : δ) :
    Mem δ × FibHeap :=
  let mem := Function.update mem node (fibnodeNew node key data)
  let (mem, heap) := fibheapInsRoot mem heap node
  let heap := match heap.min with
    | none => { heap with min := some node }
    | some m => if (mem node).key < (mem m).key then { heap with min := some node } else heap
  (mem, { heap with nodes := heap.nodes + 1 })

/-- Which of its two arguments `fibheap_union` returns. Source: `fibheap.c` `fibheap_union`. -/
inductive Side
  | heapa
  | heapb

/-- Source: `fibheap.c` `fibheap_union`. -/
def fibheapUnion (mem : Mem δ) (heapa heapb : FibHeap) :
    Except Failure (Side × Mem δ × FibHeap) :=
  match heapa.root, heapb.root with
  | none, _ => .ok (.heapb, mem, heapb)
  | some _, none => .ok (.heapa, mem, heapa)
  | some aRoot, some bRoot =>
    let mem := modify mem (mem aRoot).left fun n => { n with right := bRoot }
    let mem := modify mem (mem bRoot).left fun n => { n with right := aRoot }
    let temp := (mem aRoot).left
    let mem := modify mem aRoot fun n => { n with left := (mem bRoot).left }
    let mem := modify mem bRoot fun n => { n with left := temp }
    let heapa := { heapa with nodes := heapa.nodes + heapb.nodes }
    match heapa.min, heapb.min with
    | some ma, some mb =>
      if fibheapCompare mem mb ma < 0 then .ok (.heapa, mem, { heapa with min := some mb })
      else .ok (.heapa, mem, heapa)
    | _, _ => .error .nullPointer

/-- The node is cut from a parent whose key is not smaller.
Source: `fibheap.c` `fibheap_replace_key_data` (`if (y != NULL && ...)`) -/
def cutBelow (fuel : ℕ) (mem : Mem δ) (heap : FibHeap) (node : ℕ) :
    Option ℕ → Except Failure (Mem δ × FibHeap)
  | none => .ok (mem, heap)
  | some y =>
    if fibheapCompare mem node y ≤ 0 then
      let (mem, heap) := fibheapCut mem heap node y
      fibheapCascadingCut fuel mem heap y
    else .ok (mem, heap)

/-- The old data is returned; `none` is the null pointer that an increase of the key returns.
Source: `fibheap.c` `fibheap_replace_key_data` -/
def fibheapReplaceKeyData (fuel : ℕ) (mem : Mem δ) (heap : FibHeap) (node : ℕ) (key : ℤ)
    (data : δ) : Except Failure (Option δ × Mem δ × FibHeap) :=
  if key > (mem node).key then .ok (none, mem, heap)
  else
    let odata := (mem node).data
    let okey := (mem node).key
    let mem := modify mem node fun n => { n with data, key }
    let y := (mem node).parent
    if okey = key then .ok (some odata, mem, heap)
    else do
      let (mem, heap) ← cutBelow fuel mem heap node y
      match heap.min with
      | none => .error .nullPointer
      | some m =>
        if fibheapCompare mem node m ≤ 0 then .ok (some odata, mem, { heap with min := some node })
        else .ok (some odata, mem, heap)

/-- The old key is returned through an `int`.
Source: `fibheap.c` `fibheap_replace_key` -/
def fibheapReplaceKey (fuel : ℕ) (mem : Mem δ) (heap : FibHeap) (node : ℕ) (key : ℤ) :
    Except Failure (ℤ × Mem δ × FibHeap) := do
  let okey := (BitVec.ofInt 32 (mem node).key).toInt
  let (_, mem, heap) ← fibheapReplaceKeyData fuel mem heap node key (mem node).data
  .ok (okey, mem, heap)

/-- The children of the old minimum go to the root list.
Source: `fibheap.c` `fibheap_extr_min_node` (`for (x = ret->child, orig = NULL; ...)`) -/
def promoteLoop : ℕ → Mem δ → FibHeap → Option ℕ → Option ℕ → Except Failure (Mem δ × FibHeap)
  | 0, _, _, _, _ => .error .diverges
  | fuel + 1, mem, heap, x, orig =>
    match x with
    | none => .ok (mem, heap)
    | some p =>
      if orig = some p then .ok (mem, heap)
      else
        let orig := orig.or (some p)
        let y := (mem p).right
        let mem := modify mem p fun n => { n with parent := none }
        let (mem, heap) := fibheapInsRoot mem heap p
        promoteLoop fuel mem heap (some y) orig

/-- Roots of one degree are linked, the greater below the other, until the place of the degree is
free. The array, the tree and its degree are returned.
Source: `fibheap.c` `fibheap_consolidate` (`while (a[d] != NULL)`) -/
def linkLoop (sizeofLong : ℕ) :
    ℕ → Mem δ → (ℕ → Option ℕ) → ℕ → ℕ → Except Failure (Mem δ × (ℕ → Option ℕ) × ℕ × ℕ)
  | 0, _, _, _, _ => .error .diverges
  | fuel + 1, mem, a, x, d =>
    if d < 1 + 8 * sizeofLong then
      match a d with
      | none => .ok (mem, a, x, d)
      | some y =>
        if fibheapCompare mem x y > 0 then
          linkLoop sizeofLong fuel (fibheapLink mem x y) (Function.update a d none) y (d + 1)
        else linkLoop sizeofLong fuel (fibheapLink mem y x) (Function.update a d none) x (d + 1)
    else .error .outOfBounds

/-- Source: `fibheap.c` `fibheap_consolidate` (`while ((w = heap->root) != NULL)`). -/
def rootLoop (sizeofLong linkFuel : ℕ) :
    ℕ → Mem δ → FibHeap → (ℕ → Option ℕ) → Except Failure (Mem δ × FibHeap × (ℕ → Option ℕ))
  | 0, _, _, _ => .error .diverges
  | fuel + 1, mem, heap, a =>
    match heap.root with
    | none => .ok (mem, heap, a)
    | some w => do
      let (mem, heap) := fibheapRemRoot mem heap w
      let (mem, a, x, d) ← linkLoop sizeofLong linkFuel mem a w (mem w).degree
      rootLoop sizeofLong linkFuel fuel mem heap (Function.update a d (some x))

/-- The heap after the first `k` places of the array have been put back.
Source: `fibheap.c` `fibheap_consolidate` (`for (i = 0; i < D; i++)`) -/
def collectLoop (a : ℕ → Option ℕ) (mem : Mem δ) (heap : FibHeap) : ℕ → Mem δ × FibHeap
  | 0 => (mem, { heap with min := none })
  | i + 1 =>
    let (mem, heap) := collectLoop a mem heap i
    match a i with
    | none => (mem, heap)
    | some x =>
      let (mem, heap) := fibheapInsRoot mem heap x
      match heap.min with
      | none => (mem, { heap with min := some x })
      | some m =>
        if fibheapCompare mem x m < 0 then (mem, { heap with min := some x }) else (mem, heap)

/-- Source: `fibheap.c` `fibheap_consolidate`. -/
def fibheapConsolidate (sizeofLong fuel : ℕ) (mem : Mem δ) (heap : FibHeap) :
    Except Failure (Mem δ × FibHeap) := do
  let (mem, heap, a) ← rootLoop sizeofLong fuel fuel mem heap fun _ => none
  .ok (collectLoop a mem heap (1 + 8 * sizeofLong))

/-- Source: `fibheap.c` `fibheap_extr_min_node`. -/
def fibheapExtrMinNode (sizeofLong fuel : ℕ) (mem : Mem δ) (heap : FibHeap) (ret : ℕ) :
    Except Failure (Mem δ × FibHeap) := do
  let (mem, heap) ← promoteLoop fuel mem heap (mem ret).child none
  let (mem, heap) := fibheapRemRoot mem heap ret
  let heap := { heap with nodes := heap.nodes - 1 }
  if heap.nodes = 0 then .ok (mem, { heap with min := none })
  else fibheapConsolidate sizeofLong fuel mem { heap with min := some (mem ret).right }

/-- The data of the minimum; `none` is the null pointer that an empty heap returns.
Source: `fibheap.c` `fibheap_extract_min` -/
def fibheapExtractMin (sizeofLong fuel : ℕ) (mem : Mem δ) (heap : FibHeap) :
    Except Failure (Option δ × Mem δ × FibHeap) :=
  match heap.min with
  | none => .ok (none, mem, heap)
  | some z => do
    let (mem, heap) ← fibheapExtrMinNode sizeofLong fuel mem heap z
    .ok (some (mem z).data, mem, heap)

end Model

end GccCore.Iberty.Fibheap
