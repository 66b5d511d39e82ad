import Mathlib.Data.List.Basic

/-!
# Buffers of a fixed size

A buffer holds a fixed number of items. Items are copied out of it and into it by position, and a copy that
does not lie inside the buffer has no result.

* **Copies into a buffer** (`write_eq_some`): they succeed exactly inside the buffer.
* **Slices after a copy** (`slice_write`, `slice_write_before`, `slice_write_after`): the slice that was
  written holds what was copied, and slices beside it are unchanged.
-/

namespace GccCore.Lib

/-- A buffer of `n` items. -/
structure FixedBuffer (α : Type*) (n : ℕ) where
  items : List α
  length_eq : items.length = n

namespace FixedBuffer

variable {α : Type*} {n : ℕ} (b : FixedBuffer α n) {b' : FixedBuffer α n}

/-- Items in a row. -/
def slice (off len : ℕ) : List α := (b.items.drop off).take len

/-- A copy out of the buffer. -/
def read (off len : ℕ) : Option (List α) :=
  if off + len ≤ n then some (b.slice off len) else none

/-- A copy into the buffer. -/
def write (off : ℕ) (src : List α) : Option (FixedBuffer α n) :=
  if h : off + src.length ≤ n then
    some ⟨b.items.take off ++ src ++ b.items.drop (off + src.length), by
      have hlen := b.length_eq
      simp only [List.length_append, List.length_take, List.length_drop]
      omega⟩
  else none

variable {b} {off len : ℕ} {src : List α}

theorem read_of_le (h : off + len ≤ n) : b.read off len = some (b.slice off len) := if_pos h

theorem write_eq_some (b : FixedBuffer α n) (off : ℕ) (src : List α) :
    (∃ b', b.write off src = some b') ↔ off + src.length ≤ n := by
  constructor
  · rintro ⟨b', h⟩
    by_contra hn
    rw [write, dif_neg hn] at h
    exact absurd h nofun
  · intro h
    exact ⟨_, dif_pos h⟩

/-- **The items after a copy.** -/
theorem getElem?_write (h : b.write off src = some b') (i : ℕ) :
    b'.items[i]? = if off ≤ i ∧ i < off + src.length then src[i - off]? else b.items[i]? := by
  have hle : off + src.length ≤ n := (write_eq_some b off src).mp ⟨b', h⟩
  have hlen := b.length_eq
  rw [write, dif_pos hle, Option.some_inj] at h
  subst h
  have htake : (b.items.take off).length = off := by
    rw [List.length_take]
    omega
  change (b.items.take off ++ src ++ b.items.drop (off + src.length))[i]? = _
  rw [List.append_assoc, List.getElem?_append, htake]
  by_cases h1 : i < off
  · rw [if_pos h1, if_neg (by omega), List.getElem?_take_of_lt h1]
  · rw [if_neg h1, List.getElem?_append]
    by_cases h2 : i < off + src.length
    · rw [if_pos (by omega), if_pos (by omega)]
    · rw [if_neg (by omega), if_neg (by omega), List.getElem?_drop]
      congr 1
      omega

theorem getElem?_slice (b : FixedBuffer α n) (off len i : ℕ) :
    (b.slice off len)[i]? = if i < len then b.items[off + i]? else none := by
  rw [slice, List.getElem?_take, List.getElem?_drop]

theorem length_slice (h : off + len ≤ n) : (b.slice off len).length = len := by
  have hlen := b.length_eq
  rw [slice, List.length_take, List.length_drop]
  omega

theorem slice_zero (b : FixedBuffer α n) (off : ℕ) : b.slice off 0 = [] := List.take_zero

theorem slice_add (b : FixedBuffer α n) (off len len' : ℕ) :
    b.slice off (len + len') = b.slice off len ++ b.slice (off + len) len' := by
  unfold slice
  rw [List.take_add, List.drop_drop]

/-- What was copied. -/
theorem slice_write (h : b.write off src = some b') : b'.slice off src.length = src := by
  refine List.ext_getElem? fun i => ?_
  rw [getElem?_slice, getElem?_write h]
  split_ifs with h1 h2
  · rw [Nat.add_sub_cancel_left]
  · omega
  · rw [List.getElem?_eq_none (by omega)]

/-- What stands before a copy. -/
theorem slice_write_before (h : b.write off src = some b') {o : ℕ} (ho : o + len ≤ off) :
    b'.slice o len = b.slice o len := by
  refine List.ext_getElem? fun i => ?_
  rw [getElem?_slice, getElem?_slice, getElem?_write h]
  split_ifs with h1 h2
  · omega
  · rfl
  · rfl

/-- What stands behind a copy. -/
theorem slice_write_after (h : b.write off src = some b') {o : ℕ} (ho : off + src.length ≤ o) :
    b'.slice o len = b.slice o len := by
  refine List.ext_getElem? fun i => ?_
  rw [getElem?_slice, getElem?_slice, getElem?_write h]
  split_ifs with h1 h2
  · omega
  · rfl
  · rfl

end FixedBuffer

end GccCore.Lib
