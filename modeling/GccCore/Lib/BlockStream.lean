import Mathlib.Algebra.Order.Group.Nat
import Mathlib.Data.List.Basic

/-!
# Streams that are compressed in blocks

A compression takes a state and a block of `n` items to a state. A stream of items is compressed block by
block, and the items that do not fill a block yet are pending.

* **Blocks** (`absorb_append`): whole blocks can be compressed in any portions.
* **Streams** (`Streamed.push`, `Streamed.flush`, `Streamed.finish`): items are added, blocks of pending items
  are compressed, and in the end the pending items are filled up to whole blocks.
-/

namespace GccCore.Lib.BlockStream

variable {α σ : Type*} (compress : σ → List α → σ) (n : ℕ)

/-! ## Blocks -/

/-- `k` blocks one after the other. -/
def absorbBlocks : ℕ → σ → List α → σ
  | 0, s, _ => s
  | k + 1, s, l => absorbBlocks k (compress s (l.take n)) (l.drop n)

/-- All whole blocks of a list. -/
def absorb (s : σ) (l : List α) : σ := absorbBlocks compress n (l.length / n) s l

variable {compress n} {s s₀ : σ} {l m pending : List α}

theorem absorb_nil : absorb compress n s [] = s := by
  rw [absorb, List.length_nil, Nat.zero_div, absorbBlocks]

theorem absorbBlocks_append (k j : ℕ) (hl : l.length = k * n) :
    absorbBlocks compress n (k + j) s (l ++ m) =
      absorbBlocks compress n j (absorbBlocks compress n k s l) m := by
  induction k generalizing s l with
  | zero =>
    obtain rfl : l = [] := List.eq_nil_of_length_eq_zero (by rw [hl, Nat.zero_mul])
    rw [Nat.zero_add, List.nil_append, absorbBlocks]
  | succ k ih =>
    have hle : n ≤ l.length := by
      rw [hl]
      exact Nat.le_mul_of_pos_left n (Nat.succ_pos k)
    rw [Nat.add_right_comm, absorbBlocks, absorbBlocks, List.take_append_of_le_length hle,
      List.drop_append_of_le_length hle]
    refine ih ?_
    rw [List.length_drop, hl, Nat.succ_mul, Nat.add_sub_cancel]

/-- **Whole blocks** can be compressed in any portions. -/
theorem absorb_append (hn : 0 < n) (hl : n ∣ l.length) :
    absorb compress n s (l ++ m) = absorb compress n (absorb compress n s l) m := by
  obtain ⟨k, hk⟩ := hl
  have hlen : (l ++ m).length / n = k + m.length / n := by
    rw [List.length_append, hk, Nat.mul_add_div hn]
  rw [absorb, hlen, absorbBlocks_append k _ (by rw [hk, Nat.mul_comm]), absorb, absorb, hk,
    Nat.mul_div_cancel_left _ hn]

/-! ## Streams -/

variable (compress n s₀)

/-- The state after the blocks of a stream, and the items behind them. -/
def Streamed (m : List α) (s : σ) (pending : List α) : Prop :=
  ∃ done, m = done ++ pending ∧ n ∣ done.length ∧ s = absorb compress n s₀ done

variable {compress n s₀}

namespace Streamed

theorem start : Streamed compress n s₀ [] s₀ [] :=
  ⟨[], rfl, Nat.dvd_zero n, absorb_nil.symm⟩

theorem length_eq (h : Streamed compress n s₀ m s pending) : n ∣ m.length - pending.length := by
  obtain ⟨done, rfl, hd, -⟩ := h
  rwa [List.length_append, Nat.add_sub_cancel]

theorem length_le (h : Streamed compress n s₀ m s pending) : pending.length ≤ m.length := by
  obtain ⟨done, rfl, -, -⟩ := h
  rw [List.length_append]
  exact Nat.le_add_left _ _

/-- New items are pending. -/
theorem push (h : Streamed compress n s₀ m s pending) (l : List α) :
    Streamed compress n s₀ (m ++ l) s (pending ++ l) := by
  obtain ⟨done, rfl, hd, hs⟩ := h
  exact ⟨done, List.append_assoc .., hd, hs⟩

/-- Whole blocks of pending items are compressed. -/
theorem flush (hn : 0 < n) (h : Streamed compress n s₀ m s (l ++ pending)) (hl : n ∣ l.length) :
    Streamed compress n s₀ m (absorb compress n s l) pending := by
  obtain ⟨done, rfl, hd, rfl⟩ := h
  refine ⟨done ++ l, (List.append_assoc ..).symm, ?_, (absorb_append hn hd).symm⟩
  rw [List.length_append]
  exact Nat.dvd_add hd hl

/-- **The end of the stream**: the pending items are compressed with what fills them up. -/
theorem finish (hn : 0 < n) (h : Streamed compress n s₀ m s pending) (pad : List α) :
    absorb compress n s (pending ++ pad) = absorb compress n s₀ (m ++ pad) := by
  obtain ⟨done, rfl, hd, rfl⟩ := h
  rw [List.append_assoc, absorb_append hn hd]

end Streamed

end GccCore.Lib.BlockStream
