import Mathlib.Data.List.TakeWhile
import Mathlib.Tactic.IntervalCases

/-!
# Words and byte orders

A word of memory is four bytes in the order of their addresses. A number is stored in it in one of two orders.

* **Numbers** (`ByteOrder.encode`, `ByteOrder.decode`): the same order gives the number back
  (`decode_encode`), the other one gives it with its bytes reversed (`decode_encode_of_ne`, `swap_swap`).
* **Text** (`packed`): bytes with zeros behind them, read back up to the first zero (`takeWhile_packed`).
-/

namespace GccCore.Lib.Words

/-! ## Numbers -/

/-- Four bytes. -/
structure Word where
  b0 : BitVec 8
  b1 : BitVec 8
  b2 : BitVec 8
  b3 : BitVec 8
  deriving DecidableEq

/-- Which byte of a number comes first. -/
inductive ByteOrder
  | little
  | big
  deriving DecidableEq

/-- A number as it is stored. -/
def ByteOrder.encode : ByteOrder → BitVec 32 → Word
  | .little, v => ⟨v.extractLsb' 0 8, v.extractLsb' 8 8, v.extractLsb' 16 8, v.extractLsb' 24 8⟩
  | .big, v => ⟨v.extractLsb' 24 8, v.extractLsb' 16 8, v.extractLsb' 8 8, v.extractLsb' 0 8⟩

/-- The number that four bytes hold. -/
def ByteOrder.decode : ByteOrder → Word → BitVec 32
  | .little, w => w.b3 ++ w.b2 ++ w.b1 ++ w.b0
  | .big, w => w.b0 ++ w.b1 ++ w.b2 ++ w.b3

/-- A number with its bytes reversed. -/
def swap (v : BitVec 32) : BitVec 32 :=
  v.extractLsb' 0 8 ++ v.extractLsb' 8 8 ++ v.extractLsb' 16 8 ++ v.extractLsb' 24 8

/-- The bytes of a number make up the number. -/
theorem append_extract (v : BitVec 32) :
    v.extractLsb' 24 8 ++ v.extractLsb' 16 8 ++ v.extractLsb' 8 8 ++ v.extractLsb' 0 8 = v := by
  apply BitVec.eq_of_getLsbD_eq
  intro i hi
  rw [BitVec.getLsbD_append, BitVec.getLsbD_append, BitVec.getLsbD_append]
  simp only [BitVec.getLsbD_extractLsb']
  interval_cases i <;> simp

theorem decode_encode (o : ByteOrder) (v : BitVec 32) : o.decode (o.encode v) = v := by
  cases o with
  | little => exact append_extract v
  | big => exact append_extract v

theorem decode_encode_of_ne {o o' : ByteOrder} (h : o ≠ o') (v : BitVec 32) :
    o'.decode (o.encode v) = swap v := by
  cases o with
  | little =>
    cases o' with
    | little => exact absurd rfl h
    | big => rfl
  | big =>
    cases o' with
    | little => rfl
    | big => exact absurd rfl h

theorem getLsbD_swap (v : BitVec 32) {i : ℕ} (hi : i < 32) :
    (swap v).getLsbD i = v.getLsbD (8 * (3 - i / 8) + i % 8) := by
  unfold swap
  rw [BitVec.getLsbD_append, BitVec.getLsbD_append, BitVec.getLsbD_append]
  simp only [BitVec.getLsbD_extractLsb']
  interval_cases i <;> simp

theorem swap_swap (v : BitVec 32) : swap (swap v) = v := by
  apply BitVec.eq_of_getLsbD_eq
  intro i hi
  rw [getLsbD_swap _ hi, getLsbD_swap _ (by omega)]
  congr 1
  omega

/-- Bytes are reversed by swapping the halves, and then the bytes of each half. -/
theorem shifts_eq_swap (v : BitVec 32) :
    (((v >>> 16 ||| v <<< 16) &&& 0xff00ff#32) <<< 8) ||| (((v >>> 16 ||| v <<< 16) >>> 8) &&& 0xff00ff#32) =
      swap v := by
  apply BitVec.eq_of_getLsbD_eq
  intro i hi
  rw [getLsbD_swap v hi]
  interval_cases i <;> simp

/-- A number with its bytes reversed is stored in the other order. -/
theorem encode_swap {o o' : ByteOrder} (h : o ≠ o') (v : BitVec 32) : o.encode (swap v) = o'.encode v := by
  have hbytes : ∀ w : BitVec 32, ByteOrder.big.encode (swap w) = ByteOrder.little.encode w := by
    intro w
    rw [swap, ByteOrder.encode, ByteOrder.encode, Word.mk.injEq]
    refine ⟨?_, ?_, ?_, ?_⟩ <;>
    · apply BitVec.eq_of_getLsbD_eq
      intro i hi
      rw [BitVec.getLsbD_extractLsb', BitVec.getLsbD_append, BitVec.getLsbD_append,
        BitVec.getLsbD_append]
      simp only [BitVec.getLsbD_extractLsb']
      interval_cases i <;> simp
  cases o with
  | little =>
    cases o' with
    | little => exact absurd rfl h
    | big =>
      rw [← hbytes (swap v), swap_swap]
  | big =>
    cases o' with
    | little => exact hbytes v
    | big => exact absurd rfl h

/-- A number read in the other order has its bytes reversed. -/
theorem swap_decode {o o' : ByteOrder} (h : o ≠ o') (w : Word) : swap (o.decode w) = o'.decode w := by
  have hbits : swap (ByteOrder.little.decode w) = ByteOrder.big.decode w := by
    apply BitVec.eq_of_getLsbD_eq
    intro i hi
    rw [getLsbD_swap _ hi, ByteOrder.decode, ByteOrder.decode, BitVec.getLsbD_append,
      BitVec.getLsbD_append, BitVec.getLsbD_append, BitVec.getLsbD_append, BitVec.getLsbD_append,
      BitVec.getLsbD_append]
    interval_cases i <;> rfl
  cases o with
  | little =>
    cases o' with
    | little => exact absurd rfl h
    | big => exact hbits
  | big =>
    cases o' with
    | little => rw [← hbits, swap_swap]
    | big => exact absurd rfl h

/-! ## Text -/

/-- The bytes of a word. -/
def Word.bytes (w : Word) : List (BitVec 8) := [w.b0, w.b1, w.b2, w.b3]

/-- A word made of four bytes. -/
def Word.ofBytes (f : ℕ → BitVec 8) : Word := ⟨f 0, f 1, f 2, f 3⟩

/-- The words that hold some bytes, with zeros behind them. -/
def packed (bytes : List (BitVec 8)) (n : ℕ) : List Word :=
  (List.range n).map fun j => .ofBytes fun i => bytes.getD (4 * j + i) 0

theorem length_packed (bytes : List (BitVec 8)) (n : ℕ) : (packed bytes n).length = n := by
  unfold packed
  rw [List.length_map, List.length_range]

/-- The bytes of packed words are the bytes and zeros. -/
theorem flatMap_packed (bytes : List (BitVec 8)) (n : ℕ) :
    (packed bytes n).flatMap Word.bytes = (List.range (4 * n)).map fun i => bytes.getD i 0 := by
  unfold packed
  induction n with
  | zero => rfl
  | succ n ih =>
    have hfour : 4 * (n + 1) = 4 * n + 1 + 1 + 1 + 1 := by omega
    rw [List.range_succ, List.map_append, List.flatMap_append, ih, hfour]
    simp [List.range_succ, Word.bytes, Word.ofBytes]

/-- Text without zeros is read back up to the first zero. -/
theorem takeWhile_packed {bytes : List (BitVec 8)} {n : ℕ} (hzero : 0 ∉ bytes) (hlen : bytes.length < 4 * n) :
    ((packed bytes n).flatMap Word.bytes).takeWhile (· ≠ 0) = bytes := by
  have hsplit : (List.range (4 * n)).map (fun i => bytes.getD i 0) =
      bytes ++ List.replicate (4 * n - bytes.length) 0 := by
    apply List.ext_getElem
    · simp
      omega
    · intro i h1 h2
      rw [List.getElem_map, List.getElem_range, List.getD_eq_getElem?_getD]
      by_cases hi : i < bytes.length
      · rw [List.getElem_append_left hi, List.getElem?_eq_getElem hi]
        rfl
      · rw [List.getElem_append_right (not_lt.mp hi), List.getElem_replicate,
          List.getElem?_eq_none (not_lt.mp hi)]
        rfl
  obtain ⟨k, hk⟩ : ∃ k, 4 * n - bytes.length = k + 1 := ⟨4 * n - bytes.length - 1, by omega⟩
  rw [flatMap_packed, hsplit, hk, List.replicate_succ, List.takeWhile_append_of_pos]
  · rw [List.takeWhile_cons_of_neg (by simp), List.append_nil]
  · intro b hb
    have hne : b ≠ 0 := by
      rintro rfl
      exact hzero hb
    simpa using hne

end GccCore.Lib.Words
