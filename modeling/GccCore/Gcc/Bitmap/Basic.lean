import Mathlib.Data.Finset.Basic
import Mathlib.Logic.Function.Basic

/-!
# `gcc/bitmap.c`: the elements of bitmaps

A memory maps an address to the fields of an element, and the null pointer is `none`. A pool is an
obstack or, for bitmaps without one, the garbage-collected memory; the code has one branch for each
of the two, which differ in the free list they use (`bit_obstack->elements`, `bitmap_ggc_free`) and
nowhere else. The array of words of an element is a value of any type with a zero. A step that
follows a null pointer or fails an assertion has no result, and loops take fuel.
-/

namespace GccCore.Gcc.Bitmap

/-- Source: `bitmap.h` `struct bitmap_element_def`. -/
structure BitmapElement (β : Type) where
  next : Option ℕ
  prev : Option ℕ
  indx : ℕ
  bits : β

/-- Source: `bitmap.h` `struct bitmap_head_def`. -/
structure BitmapHead where
  first : Option ℕ
  current : Option ℕ
  indx : ℕ
  obstack : Option ℕ

/-- The elements, the heads of the bitmaps, the free lists of the pools, and the elements that each
pool has handed out so far.
Source: `bitmap.h` (`struct bitmap_obstack`), `bitmap.c` (`bitmap_ggc_free`) -/
structure State (β : Type) where
  mem : ℕ → BitmapElement β
  head : ℕ → BitmapHead
  elements : Option ℕ → Option ℕ
  created : Option ℕ → Finset ℕ

section Model

variable {β : Type}

/-- An assignment to fields of an element. -/
def modify (mem : ℕ → BitmapElement β) (p : ℕ) (f : BitmapElement β → BitmapElement β) :
    ℕ → BitmapElement β := Function.update mem p (f (mem p))

/-- `if (p) p->next = v;`. Source: `bitmap.c`. -/
def setNext (mem : ℕ → BitmapElement β) (p v : Option ℕ) : ℕ → BitmapElement β :=
  match p with
  | some p => modify mem p fun e => { e with next := v }
  | none => mem

/-- `if (p) p->prev = v;`. Source: `bitmap.c`. -/
def setPrev (mem : ℕ → BitmapElement β) (p v : Option ℕ) : ℕ → BitmapElement β :=
  match p with
  | some p => modify mem p fun e => { e with prev := v }
  | none => mem

/-- Source: `bitmap.c` `bitmap_elem_to_freelist`. -/
def bitmapElemToFreelist (st : State β) (head elt : ℕ) : State β :=
  let bitObstack := (st.head head).obstack
  { st with
    mem := modify st.mem elt fun e => { e with next := none, prev := st.elements bitObstack }
    elements := Function.update st.elements bitObstack (some elt) }

/-- The head of a bitmap that loses an element between `prev` and `next`.
Source: `bitmap.c` `bitmap_element_free` (`if (head->first == elt)`, `if (head->current == elt)`) -/
def freeHead (mem : ℕ → BitmapElement β) (h : BitmapHead) (elt : ℕ) (next prev : Option ℕ) :
    BitmapHead :=
  let h := if h.first = some elt then { h with first := next } else h
  if h.current = some elt then
    -- the next entry in preference to the previous
    match next.or prev with
    | some current => { h with current := some current, indx := (mem current).indx }
    | none => { h with current := none, indx := 0 }
  else h

/-- Source: `bitmap.c` `bitmap_element_free`. -/
def bitmapElementFree (st : State β) (head elt : ℕ) : State β :=
  let next := (st.mem elt).next
  let prev := (st.mem elt).prev
  let mem := setPrev (setNext st.mem prev next) next prev
  let h := freeHead mem (st.head head) elt next prev
  bitmapElemToFreelist { st with mem, head := Function.update st.head head h } head elt

/-- The element, from the free list or else a new one at the address `fresh`; its bits are cleared
and nothing else is.
Source: `bitmap.c` `bitmap_element_allocate` -/
def bitmapElementAllocate [Zero β] (st : State β) (head fresh : ℕ) : ℕ × State β :=
  let bitObstack := (st.head head).obstack
  let (element, st) :=
    match st.elements bitObstack with
    | some element =>
      match (st.mem element).next with
      | some next =>
        -- the inner list is used up first
        (element, { st with
          mem := modify st.mem next fun e => { e with prev := (st.mem element).prev }
          elements := Function.update st.elements bitObstack (some next) })
      | none =>
        (element, { st with
          elements := Function.update st.elements bitObstack (st.mem element).prev })
    | none =>
      (fresh, { st with
        created := Function.update st.created bitObstack (insert fresh (st.created bitObstack)) })
  (element, { st with mem := modify st.mem element fun e => { e with bits := 0 } })

/-- The head of a bitmap whose list ends with `prev` from now on; `head->current` is followed if there
is one.
Source: `bitmap.c` `bitmap_elt_clear_from` (`if (prev)`) -/
def clearHead (mem : ℕ → BitmapElement β) (h : BitmapHead) (prev : Option ℕ) : Option BitmapHead :=
  match prev with
  | some prev => do
    let current ← h.current
    if (mem current).indx > (mem prev).indx then
      some { h with current := some prev, indx := (mem prev).indx }
    else some h
  | none => some { h with first := none, current := none, indx := 0 }

/-- Source: `bitmap.c` `bitmap_elt_clear_from`. -/
def bitmapEltClearFrom (st : State β) (head : ℕ) (elt : Option ℕ) : Option (State β) :=
  match elt with
  | none => some st
  | some elt => do
    let bitObstack := (st.head head).obstack
    let prev := (st.mem elt).prev
    let mem := setNext st.mem prev none
    let h ← clearHead mem (st.head head) prev
    -- the entire list goes onto the free list in one operation
    some { st with
      mem := modify mem elt fun e => { e with prev := st.elements bitObstack }
      head := Function.update st.head head h
      elements := Function.update st.elements bitObstack (some elt) }

/-- The walk to an element before which the index belongs.
Source: `bitmap.c` `bitmap_element_link` (`ptr = ptr->prev`) -/
def linkBefore (mem : ℕ → BitmapElement β) (indx : ℕ) : ℕ → ℕ → Option ℕ
  | 0, _ => none
  | fuel + 1, ptr =>
    match (mem ptr).prev with
    | some prev => if (mem prev).indx > indx then linkBefore mem indx fuel prev else some ptr
    | none => some ptr

/-- The walk to an element after which the index belongs.
Source: `bitmap.c` `bitmap_element_link` (`ptr = ptr->next`) -/
def linkAfter (mem : ℕ → BitmapElement β) (indx : ℕ) : ℕ → ℕ → Option ℕ
  | 0, _ => none
  | fuel + 1, ptr =>
    match (mem ptr).next with
    | some next => if (mem next).indx < indx then linkAfter mem indx fuel next else some ptr
    | none => some ptr

/-- Source: `bitmap.c` `bitmap_element_link`. -/
def bitmapElementLink (fuel : ℕ) (st : State β) (head element : ℕ) : Option (State β) := do
  let h := st.head head
  let indx := (st.mem element).indx
  let (mem, first) ←
    if h.first = none then
      some (modify st.mem element fun e => { e with next := none, prev := none }, some element)
    else if indx < h.indx then do
      let ptr ← linkBefore st.mem indx fuel (← h.current)
      let prev := (st.mem ptr).prev
      let mem := setNext st.mem prev (some element)
      let mem := modify mem element fun e => { e with prev, next := some ptr }
      some (modify mem ptr fun e => { e with prev := some element },
        if prev = none then some element else h.first)
    else do
      let ptr ← linkAfter st.mem indx fuel (← h.current)
      let next := (st.mem ptr).next
      let mem := setPrev st.mem next (some element)
      let mem := modify mem element fun e => { e with next, prev := some ptr }
      some (modify mem ptr fun e => { e with next := some element }, h.first)
  some { st with
    mem
    head := Function.update st.head head { h with first, current := some element, indx } }

/-- The new element is returned. Source: `bitmap.c` `bitmap_elt_insert_after`. -/
def bitmapEltInsertAfter [Zero β] (st : State β) (head : ℕ) (elt : Option ℕ) (indx fresh : ℕ) :
    Option (ℕ × State β) :=
  let (node, st) := bitmapElementAllocate st head fresh
  let mem := modify st.mem node fun e => { e with indx }
  let h := st.head head
  match elt with
  | none =>
    let h' := if h.current = none then { h with current := some node, indx } else h
    let mem := modify mem node fun e => { e with next := h.first }
    let mem := setPrev mem h.first (some node)
    let mem := modify mem node fun e => { e with prev := none }
    some (node, { st with
      mem, head := Function.update st.head head { h' with first := some node } })
  | some elt =>
    if h.current = none then none
    else
      let next := (mem elt).next
      let mem := modify mem node fun e => { e with next }
      let mem := setPrev mem next (some node)
      let mem := modify mem elt fun e => { e with next := some node }
      let mem := modify mem node fun e => { e with prev := some elt }
      some (node, { st with mem })

/-- What `bitmap_set_bit` does where there is no element for the bit: the index and the words of the
new element are given.
Source: `bitmap.c` `bitmap_set_bit` (`if (ptr == 0)`) -/
def bitmapSetBitNew [Zero β] (fuel : ℕ) (st : State β) (head indx : ℕ) (bits : β) (fresh : ℕ) :
    Option (State β) :=
  let (ptr, st) := bitmapElementAllocate st head fresh
  bitmapElementLink fuel { st with mem := modify st.mem ptr fun e => { e with indx, bits } } head ptr

/-- Source: `bitmap.h` `bitmap_initialize_stat`. -/
def bitmapInitialize (st : State β) (head : ℕ) (obstack : Option ℕ) : State β :=
  let h := st.head head
  { st with
    head := Function.update st.head head { h with first := none, current := none, obstack } }

end Model

end GccCore.Gcc.Bitmap
