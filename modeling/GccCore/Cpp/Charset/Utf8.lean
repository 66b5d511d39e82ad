import Mathlib.Tactic

/-!
# `libcpp/charset.c`: the one-character UTF-8 codec

`oneUtf8ToCppchar` and `oneCppcharToUtf8` are `charset.c`'s primitives between a UTF-8 byte stream
and one `cppchar_t`, with their mask, pattern and limit tables entry for entry. An input pointer
and its `inbytesleft` are the list of the bytes still to read; an output pointer and its
`outbytesleft` are an `OutBuf`.

`utf8Bytes` is the table of the file's comment ("UTF-8 encoding looks like this"), one row a case.

* **The encoder writes that table** (`cppcharBuf_eq`), for every value up to `0x7FFFFFFF`.
* **The decoder accepts that table except for the five-byte rows with an odd lead byte**
  (`utf8_codec`): the decoder's fifth mask is `0x02`, where the comment's row
  `111110xx` asks for `0x03`, so the lead bytes `F9` and `FB` match no pattern.
-/

namespace GccCore.Cpp.Charset

/-! ## The codec of the source -/

/-- The errno values the converters return; success (`0`) is `none` of `Option Errno`.
Source: `charset.c`, comment above `one_utf8_to_utf32` -/
inductive Errno
  | EINVAL
  | EILSEQ
  | E2BIG
  deriving DecidableEq, Repr

/-- An output pointer: the bytes written before it and the room `outbytesleft` behind it.
Source: `charset.c`, the `outbufp`, `outbytesleftp` arguments -/
structure OutBuf where
  /-- What stands before the pointer. -/
  bytes : List UInt8
  /-- `*outbytesleftp`. -/
  left : ℕ
  deriving DecidableEq, Repr

/-- `masks` of the decoder.
Source: `charset.c` `one_utf8_to_cppchar` -/
def decMasks : List UInt32 := [0x7F, 0x1F, 0x0F, 0x07, 0x02, 0x01]

/-- `patns` of the decoder.
Source: `charset.c` `one_utf8_to_cppchar` -/
def decPatns : List UInt32 := [0x00, 0xC0, 0xE0, 0xF0, 0xF8, 0xFC]

/-- The search for the length a lead byte announces.
Source: `charset.c` `one_utf8_to_cppchar` (`for (nbytes = 2; nbytes < 7; nbytes++)`) -/
def leadLength (c : UInt32) : Option ℕ :=
  [2, 3, 4, 5, 6].find? fun nbytes =>
    c &&& ~~~ decMasks.getD (nbytes - 1) 0 == decPatns.getD (nbytes - 1) 0

/-- The loop over the continuation bytes, `k` of them still to read.
Source: `charset.c` `one_utf8_to_cppchar` (`for (i = 1; i < nbytes; i++)`) -/
def contBytes : ℕ → UInt32 → List UInt8 → Option (UInt32 × List UInt8)
  | 0, c, inbuf => some (c, inbuf)
  | _ + 1, _, [] => none
  | k + 1, c, n :: inbuf =>
      if n.toUInt32 &&& 0xC0 != 0x80 then none
      else contBytes k ((c <<< 6) + (n.toUInt32 &&& 0x3F)) inbuf

/-- The five tests for an encoding longer than necessary.
Source: `charset.c` `one_utf8_to_cppchar` ("Make sure the shortest possible encoding was used") -/
def overlong (c : UInt32) (nbytes : ℕ) : Bool :=
  (c ≤ 0x7F && nbytes > 1) || (c ≤ 0x7FF && nbytes > 2) || (c ≤ 0xFFFF && nbytes > 3) ||
    (c ≤ 0x1FFFFF && nbytes > 4) || (c ≤ 0x3FFFFFF && nbytes > 5)

/-- The UTF-16 surrogate block.
Source: `charset.c` (`c >= 0xD800 && c <= 0xDFFF`) -/
def isSurrogate (c : UInt32) : Bool := c ≥ 0xD800 && c ≤ 0xDFFF

/-- Read one UTF-8 character: the return code, `*inbufp` afterwards, and `*cp` afterwards.
Source: `charset.c` `one_utf8_to_cppchar` -/
def oneUtf8ToCppchar (inbuf : List UInt8) (cp : UInt32) : Option Errno × List UInt8 × UInt32 :=
  match inbuf with
  | [] => (some .EINVAL, inbuf, cp)
  | b :: rest =>
    let c := b.toUInt32
    if c < 0x80 then (none, rest, c)
    else
      match leadLength c with
      | none => (some .EILSEQ, inbuf, cp)
      | some nbytes =>
        if inbuf.length < nbytes then (some .EINVAL, inbuf, cp)
        else
          match contBytes (nbytes - 1) (c &&& decMasks.getD (nbytes - 1) 0) rest with
          | none => (some .EILSEQ, inbuf, cp)
          | some (c, inbuf') =>
            if overlong c nbytes then (some .EILSEQ, inbuf, cp)
            else if c > 0x7FFFFFFF || isSurrogate c then (some .EILSEQ, inbuf, cp)
            else (none, inbuf', c)

/-- `masks` of the encoder.
Source: `charset.c` `one_cppchar_to_utf8` -/
def encMasks : List UInt32 := [0x00, 0xC0, 0xE0, 0xF0, 0xF8, 0xFC]

/-- `limits` of the encoder.
Source: `charset.c` `one_cppchar_to_utf8` -/
def encLimits : List UInt32 := [0x80, 0xE0, 0xF0, 0xF8, 0xFC, 0xFE]

/-- The `do … while` of the encoder, filling `buf[6]` from its end: `p` holds the bytes stored so
far. The first argument counts the passes the six-byte buffer still has room for after this one;
up to `0x7FFFFFFF` the loop test ends the loop before it does (`encLoop_eq`), and above that the
source reads past `limits`.
Source: `charset.c` `one_cppchar_to_utf8` -/
def encLoop : ℕ → UInt32 → ℕ → List UInt8 → UInt32 × ℕ × List UInt8
  | 0, c, nbytes, p => (c >>> 6, nbytes + 1, ((c &&& 0x3F) ||| 0x80).toUInt8 :: p)
  | k + 1, c, nbytes, p =>
      let p := ((c &&& 0x3F) ||| 0x80).toUInt8 :: p
      let c := c >>> 6
      let nbytes := nbytes + 1
      if c ≥ 0x3F || c &&& encLimits.getD (nbytes - 1) 0 != 0 then encLoop k c nbytes p
      else (c, nbytes, p)

/-- The bytes `one_cppchar_to_utf8` lays out in `buf`.
Source: `charset.c` `one_cppchar_to_utf8` -/
def cppcharBuf (c : UInt32) : List UInt8 :=
  if c < 0x80 then [c.toUInt8]
  else
    let (c, nbytes, p) := encLoop 4 c 1 []
    (c ||| encMasks.getD (nbytes - 1) 0).toUInt8 :: p

/-- Write one character as UTF-8: the return code and the output pointer afterwards.
Source: `charset.c` `one_cppchar_to_utf8` -/
def oneCppcharToUtf8 (c : UInt32) (out : OutBuf) : Option Errno × OutBuf :=
  let buf := cppcharBuf c
  if out.left < buf.length then (some .E2BIG, out)
  else (none, ⟨out.bytes ++ buf, out.left - buf.length⟩)

/-! ## The table of the comment -/

/-- The six rows of the encoding table, as numbers.
Source: `charset.c`, comment "UTF-8 encoding looks like this" -/
def utf8Row (c : ℕ) : List ℕ :=
  if c ≤ 0x7F then [c]
  else if c ≤ 0x7FF then [0xC0 + c / 2 ^ 6, 0x80 + c % 2 ^ 6]
  else if c ≤ 0xFFFF then [0xE0 + c / 2 ^ 12, 0x80 + c / 2 ^ 6 % 2 ^ 6, 0x80 + c % 2 ^ 6]
  else if c ≤ 0x1FFFFF then
    [0xF0 + c / 2 ^ 18, 0x80 + c / 2 ^ 12 % 2 ^ 6, 0x80 + c / 2 ^ 6 % 2 ^ 6, 0x80 + c % 2 ^ 6]
  else if c ≤ 0x3FFFFFF then
    [0xF8 + c / 2 ^ 24, 0x80 + c / 2 ^ 18 % 2 ^ 6, 0x80 + c / 2 ^ 12 % 2 ^ 6,
      0x80 + c / 2 ^ 6 % 2 ^ 6, 0x80 + c % 2 ^ 6]
  else
    [0xFC + c / 2 ^ 30, 0x80 + c / 2 ^ 24 % 2 ^ 6, 0x80 + c / 2 ^ 18 % 2 ^ 6,
      0x80 + c / 2 ^ 12 % 2 ^ 6, 0x80 + c / 2 ^ 6 % 2 ^ 6, 0x80 + c % 2 ^ 6]

/-- The encoding of a character by the table.
Source: `charset.c`, comment "UTF-8 encoding looks like this" -/
def utf8Bytes (c : UInt32) : List UInt8 := (utf8Row c.toNat).map UInt8.ofNat

/-- A **UTF-8 code point**: a value of the table's range outside the surrogate block.
Source: `charset.c`, comment ("Values in the 0000D800 ... 0000DFFF range (surrogates) are invalid") -/
def IsCodePoint (c : UInt32) : Prop := c ≤ 0x7FFFFFFF ∧ isSurrogate c = false

instance (c : UInt32) : Decidable (IsCodePoint c) := inferInstanceAs (Decidable (_ ∧ _))

/-- The characters the decoder's fifth mask loses: a five-byte row whose lead byte is odd.
Source: `charset.c` `one_utf8_to_cppchar` (`masks[4]` is `0x02`) -/
def LostByMask (c : UInt32) : Prop := 0x200000 ≤ c ∧ c ≤ 0x3FFFFFF ∧ c.toNat.testBit 24 = true

instance (c : UInt32) : Decidable (LostByMask c) := inferInstanceAs (Decidable (_ ∧ _ ∧ _))

/-! ## Base-64 digits -/

/-- The `k` low base-64 digits of `c`, the most significant first. -/
def lowDigits : ℕ → ℕ → List ℕ
  | 0, _ => []
  | k + 1, c => c / 64 ^ k % 64 :: lowDigits k c

/-- `lowDigits k c` has `k` digits. -/
theorem lowDigits_length (k c : ℕ) : (lowDigits k c).length = k := by
  induction k with
  | zero => rfl
  | succ k ih => simp [lowDigits, ih]

/-- Base-64 digits are below 64. -/
theorem lowDigits_lt (k c : ℕ) : ∀ d ∈ lowDigits k c, d < 64 := by
  induction k with
  | zero => simp [lowDigits]
  | succ k ih =>
    intro d hd
    rcases List.mem_cons.mp hd with rfl | hd
    · exact Nat.mod_lt _ (by norm_num)
    · exact ih d hd

/-- One more digit, split off at the low end. -/
theorem lowDigits_succ' (k c : ℕ) : lowDigits (k + 1) c = lowDigits k (c / 64) ++ [c % 64] := by
  induction k with
  | zero => simp [lowDigits]
  | succ k ih =>
    rw [lowDigits, ih, lowDigits, List.cons_append]
    congr 1
    rw [pow_succ', Nat.div_div_eq_div_mul]

/-- Horner's rule in base 64 from the accumulator `a`, the recurrence of the decoder's loop. -/
def ofDigits64 (a : ℕ) (ds : List ℕ) : ℕ := ds.foldl (fun a d => a * 64 + d) a

/-- A number is its leading part and its `k` low digits. -/
theorem ofDigits64_lowDigits (k c : ℕ) : ofDigits64 (c / 64 ^ k) (lowDigits k c) = c := by
  induction k with
  | zero => simp [ofDigits64, lowDigits]
  | succ k ih =>
    have h : c / 64 ^ (k + 1) * 64 + c / 64 ^ k % 64 = c / 64 ^ k := by
      rw [pow_succ, ← Nat.div_div_eq_div_mul]
      omega
    simpa [ofDigits64, lowDigits, h] using ih

/-- Horner's rule stays below the accumulator's bound times the digits' weight. -/
theorem ofDigits64_lt {a m : ℕ} {ds : List ℕ} (ha : a < m) (hd : ∀ d ∈ ds, d < 64) :
    ofDigits64 a ds < m * 64 ^ ds.length := by
  induction ds generalizing a m with
  | nil => simpa [ofDigits64] using ha
  | cons d ds ih =>
    have h1 : a * 64 + d < m * 64 := by have := hd d (by simp); omega
    have := ih h1 (fun e he => hd e (by simp [he]))
    simpa [ofDigits64, pow_succ, mul_assoc, mul_comm] using this

/-- Horner's rule loses nothing: the accumulator and the digits can be read back. -/
theorem ofDigits64_div {a : ℕ} {ds : List ℕ} (hd : ∀ d ∈ ds, d < 64) :
    ofDigits64 a ds / 64 ^ ds.length = a ∧ lowDigits ds.length (ofDigits64 a ds) = ds := by
  induction ds generalizing a with
  | nil => simp [ofDigits64, lowDigits]
  | cons d ds ih =>
    obtain ⟨h1, h2⟩ := @ih (a * 64 + d) (fun e he => hd e (by simp [he]))
    have hd0 : d < 64 := hd d (by simp)
    have hfold : ofDigits64 a (d :: ds) = ofDigits64 (a * 64 + d) ds := rfl
    refine ⟨?_, ?_⟩
    · rw [hfold, List.length_cons, pow_succ, ← Nat.div_div_eq_div_mul, h1]
      omega
    · rw [hfold, List.length_cons, lowDigits, h1, h2]
      congr 1
      omega

/-! ## The rows of the table -/

/-- The lead byte's fixed bits for each length, as a number. -/
def leadPattern : ℕ → ℕ
  | 2 => 0xC0
  | 3 => 0xE0
  | 4 => 0xF0
  | 5 => 0xF8
  | _ => 0xFC

/-- The number of the table's row, which is the length of the encoding. -/
def rowLength (c : ℕ) : ℕ :=
  if c ≤ 0x7F then 1 else if c ≤ 0x7FF then 2 else if c ≤ 0xFFFF then 3
  else if c ≤ 0x1FFFFF then 4 else if c ≤ 0x3FFFFFF then 5 else 6

/-- A value that fits `n` bytes stands in one of the first `n` rows. -/
theorem rowLength_le {c n : ℕ} (hn : 2 ≤ n) (hn6 : n ≤ 6) (hc : c < 2 ^ (7 - n) * 64 ^ (n - 1)) :
    rowLength c ≤ n := by
  unfold rowLength
  interval_cases n <;> norm_num at hc <;> split_ifs <;> omega

/-- The lead payload of a row has as many bits as the row leaves room for. -/
theorem rowLength_bounds (c : ℕ) (hc : 0x7F < c) (hc' : c ≤ 0x7FFFFFFF) :
    2 ≤ rowLength c ∧ rowLength c ≤ 6 ∧ c / 64 ^ (rowLength c - 1) < 2 ^ (7 - rowLength c) := by
  unfold rowLength
  split_ifs <;> norm_num <;> omega

/-- The row is found by dividing by 64 until the lead byte has room for the rest. -/
theorem rowLength_of_bounds {c j : ℕ} (hc : 0x7F < c) (hj : 1 ≤ j) (hj5 : j ≤ 5)
    (hstop : c / 64 ^ j < 2 ^ (6 - j)) (hgo : ∀ i, 1 ≤ i → i < j → 2 ^ (6 - i) ≤ c / 64 ^ i) :
    rowLength c = j + 1 := by
  have hlast : j = 1 ∨ 2 ^ (7 - j) ≤ c / 64 ^ (j - 1) := by
    by_cases h : j = 1
    · exact .inl h
    · have := hgo (j - 1) (by omega) (by omega)
      rw [show 6 - (j - 1) = 7 - j by omega] at this
      exact .inr this
  unfold rowLength
  interval_cases j <;> norm_num at hstop hlast ⊢ <;> split_ifs <;> omega

/-- A multi-byte row is its lead byte followed by base-64 digits. -/
theorem utf8Row_eq {c : ℕ} (hc : 0x7F < c) :
    utf8Row c = (leadPattern (rowLength c) + c / 64 ^ (rowLength c - 1)) ::
      (lowDigits (rowLength c - 1) c).map (0x80 + ·) := by
  unfold utf8Row rowLength
  split_ifs <;> first | omega | simp [leadPattern, lowDigits]

/-- A multi-byte row, as bytes. -/
theorem utf8Bytes_eq {c : UInt32} (hc : 0x7F < c.toNat) :
    utf8Bytes c =
      UInt8.ofNat (leadPattern (rowLength c.toNat) + c.toNat / 64 ^ (rowLength c.toNat - 1)) ::
        (lowDigits (rowLength c.toNat - 1) c.toNat).map (fun d => UInt8.ofNat (0x80 + d)) := by
  rw [utf8Bytes, utf8Row_eq hc, List.map_cons, List.map_map]
  rfl

/-- The lost characters are the fifth row's with an odd lead payload. -/
theorem lostByMask_iff (c : UInt32) :
    LostByMask c ↔ rowLength c.toNat = 5 ∧ c.toNat / 64 ^ 4 % 2 = 1 := by
  have hbit : c.toNat.testBit 24 = true ↔ c.toNat / 64 ^ 4 % 2 = 1 := by
    rw [Nat.testBit_eq_decide_div_mod_eq]
    simp
  have hrow : rowLength c.toNat = 5 ↔ 0x200000 ≤ c.toNat ∧ c.toNat ≤ 0x3FFFFFF := by
    unfold rowLength
    split_ifs <;> omega
  unfold LostByMask
  rw [UInt32.le_iff_toNat_le, UInt32.le_iff_toNat_le, hbit, hrow, and_assoc]
  rfl

/-- Code points, over the numbers. -/
theorem isCodePoint_iff (c : UInt32) :
    IsCodePoint c ↔ c.toNat ≤ 0x7FFFFFFF ∧ ¬ (0xD800 ≤ c.toNat ∧ c.toNat ≤ 0xDFFF) := by
  unfold IsCodePoint isSurrogate
  simp [UInt32.le_iff_toNat_le]

/-! ## The decoder -/

/-- Widening a byte keeps its number. -/
theorem toUInt32_eq_ofNat (b : UInt8) : b.toUInt32 = UInt32.ofNat b.toNat := by
  rw [← UInt32.toNat_inj]
  simp

/-- What the tests and masks do with each byte: the continuation-byte test, the lead bytes that each
length accepts (row five has `F8` and `FA` only), the payload of a lead byte, and the encoder's mark. -/
theorem byte_table : ∀ k < 256, (k &&& 0xC0 = 0x80 ↔ 0x80 ≤ k ∧ k < 0xC0) ∧
    (leadLength (UInt32.ofNat k) =
      if 0xC0 ≤ k ∧ k ≤ 0xDF then some 2 else if 0xE0 ≤ k ∧ k ≤ 0xEF then some 3
      else if 0xF0 ≤ k ∧ k ≤ 0xF7 then some 4 else if k = 0xF8 ∨ k = 0xFA then some 5
      else if k = 0xFC ∨ k = 0xFD then some 6 else none) ∧
    (∀ n < 7, leadLength (UInt32.ofNat k) = some n →
      (UInt32.ofNat k &&& decMasks.getD (n - 1) 0).toNat + leadPattern n = k) ∧
    (k < 64 → k ||| 0x80 = 0x80 + k) := by
  decide +kernel

/-- A lead byte is a byte from `80` on. -/
theorem leadPattern_add {n v : ℕ} (h2 : 2 ≤ n) (h7 : n < 7) (hv : v < 2 ^ (7 - n)) :
    0x80 ≤ leadPattern n + v ∧ leadPattern n + v < 256 := by
  interval_cases n <;> simp only [leadPattern] <;> omega

/-- What the tables hold for each row and payload: the decoder recognises its lead byte (in row five
the even ones) and the encoder stores it; and the encoder's loop test. -/
theorem row_table :
    (∀ n < 7, ∀ v < 32, 2 ≤ n ∧ v < 2 ^ (7 - n) ∧ (n ≠ 5 ∨ v % 2 = 0) →
      leadLength (UInt8.ofNat (leadPattern n + v)).toUInt32 = some n) ∧
    (∀ n < 7, ∀ v < 32, 2 ≤ n ∧ v < 2 ^ (7 - n) →
      (UInt32.ofNat v ||| encMasks.getD (n - 1) 0).toUInt8 = UInt8.ofNat (leadPattern n + v)) ∧
    ∀ n < 7, ∀ x < 63, 2 ≤ n →
      (UInt32.ofNat x &&& encLimits.getD (n - 1) 0 != 0) = decide (2 ^ (7 - n) ≤ x) := by
  refine ⟨?_, ?_, ?_⟩ <;> decide +kernel

/-- The continuation-byte test, as a range. -/
theorem cont_test (n : UInt8) :
    (n.toUInt32 &&& 0xC0 != 0x80) = false ↔ 0x80 ≤ n.toNat ∧ n.toNat < 0xC0 := by
  rw [bne_eq_false_iff_eq, ← UInt32.toNat_inj]
  simpa using (byte_table n.toNat n.toNat_lt).1

/-- One pass of the decoder's loop is one step of Horner's rule, while 26 bits are enough for the
accumulator. -/
theorem cont_step {c : UInt32} {n : UInt8} (hc : c.toNat < 2 ^ 26) :
    ((c <<< 6) + (n.toUInt32 &&& 0x3F)).toNat = c.toNat * 64 + n.toNat % 64 := by
  have hand : n.toNat &&& 63 = n.toNat % 64 := Nat.and_two_pow_sub_one_eq_mod n.toNat 6
  simp [UInt32.toNat_add, UInt32.toNat_shiftLeft, hand, Nat.shiftLeft_eq]
  omega

/-- One pass of the decoder's loop. -/
theorem contBytes_cons (k : ℕ) (c : UInt32) (n : UInt8) (l : List UInt8) :
    contBytes (k + 1) c (n :: l) =
      if 0x80 ≤ n.toNat ∧ n.toNat < 0xC0 then
        contBytes k ((c <<< 6) + (n.toUInt32 &&& 0x3F)) l
      else none := by
  simp only [contBytes]
  by_cases h : 0x80 ≤ n.toNat ∧ n.toNat < 0xC0
  · rw [(cont_test n).mpr h, if_pos h]; rfl
  · rw [if_neg h, if_pos]
    rw [← Bool.not_eq_false, cont_test]
    exact h

/-- What the decoder's loop has read when it ends well: `k` continuation bytes, whose digits
extend the accumulator. -/
theorem contBytes_some {k : ℕ} {c c' : UInt32} {l l' : List UInt8}
    (hc : (c.toNat + 1) * 64 ^ k ≤ 2 ^ 32) (h : contBytes k c l = some (c', l')) :
    ∃ ds : List ℕ, ds.length = k ∧ (∀ d ∈ ds, d < 64) ∧
      l = ds.map (fun d => UInt8.ofNat (0x80 + d)) ++ l' ∧ c'.toNat = ofDigits64 c.toNat ds := by
  induction k generalizing c l with
  | zero =>
    simp only [contBytes, Option.some.injEq, Prod.mk.injEq] at h
    obtain ⟨rfl, rfl⟩ := h
    exact ⟨[], rfl, by simp, by simp, rfl⟩
  | succ k ih =>
    cases l with
    | nil => simp [contBytes] at h
    | cons n l =>
      rw [contBytes_cons] at h
      split_ifs at h with hn
      have hpow : 1 ≤ 64 ^ k := Nat.one_le_pow _ _ (by norm_num)
      have hc26 : c.toNat < 2 ^ 26 := by
        rw [pow_succ] at hc
        nlinarith
      have hstep := cont_step (n := n) hc26
      have hc' : (((c <<< 6) + (n.toUInt32 &&& 0x3F)).toNat + 1) * 64 ^ k ≤ 2 ^ 32 := by
        rw [hstep]
        calc (c.toNat * 64 + n.toNat % 64 + 1) * 64 ^ k
            ≤ ((c.toNat + 1) * 64) * 64 ^ k := Nat.mul_le_mul_right _ (by omega)
          _ = (c.toNat + 1) * 64 ^ (k + 1) := by ring
          _ ≤ 2 ^ 32 := hc
      obtain ⟨ds, hlen, hlt, hl, hval⟩ := ih hc' h
      refine ⟨n.toNat % 64 :: ds, by simp [hlen], ?_, ?_, ?_⟩
      · intro d hd
        rcases List.mem_cons.mp hd with rfl | hd
        · exact Nat.mod_lt _ (by norm_num)
        · exact hlt d hd
      · have hbyte : UInt8.ofNat (0x80 + n.toNat % 64) = n := by
          rw [show 0x80 + n.toNat % 64 = n.toNat by omega, UInt8.ofNat_toNat]
        rw [List.map_cons, hbyte, hl, List.cons_append]
      · rw [hval, hstep]
        rfl

/-- The decoder's loop reads every sequence of continuation bytes. -/
theorem contBytes_digits {ds : List ℕ} {c : UInt32} (l' : List UInt8)
    (hd : ∀ d ∈ ds, d < 64) (hc : (c.toNat + 1) * 64 ^ ds.length ≤ 2 ^ 32) :
    contBytes ds.length c (ds.map (fun d => UInt8.ofNat (0x80 + d)) ++ l') =
      some (UInt32.ofNat (ofDigits64 c.toNat ds), l') := by
  induction ds generalizing c with
  | nil => simp [contBytes, ofDigits64]
  | cons d ds ih =>
    have hd0 : d < 64 := hd d (by simp)
    have hbyte : (UInt8.ofNat (0x80 + d)).toNat = 0x80 + d := by
      rw [UInt8.toNat_ofNat']
      omega
    have hpow : 1 ≤ 64 ^ ds.length := Nat.one_le_pow _ _ (by norm_num)
    have hc26 : c.toNat < 2 ^ 26 := by
      rw [List.length_cons, pow_succ] at hc
      nlinarith
    have hstep := cont_step (n := UInt8.ofNat (0x80 + d)) hc26
    rw [hbyte, show (0x80 + d) % 64 = d by omega] at hstep
    have hc' : (((c <<< 6) + ((UInt8.ofNat (0x80 + d)).toUInt32 &&& 0x3F)).toNat + 1) *
        64 ^ ds.length ≤ 2 ^ 32 := by
      rw [hstep]
      calc (c.toNat * 64 + d + 1) * 64 ^ ds.length
          ≤ ((c.toNat + 1) * 64) * 64 ^ ds.length := Nat.mul_le_mul_right _ (by omega)
        _ = (c.toNat + 1) * 64 ^ (ds.length + 1) := by ring
        _ ≤ 2 ^ 32 := hc
    rw [List.length_cons, List.map_cons, List.cons_append, contBytes_cons, hbyte,
      if_pos (by omega), ih (fun e he => hd e (by simp [he])) hc', hstep]
    rfl

/-- What a recognised lead byte says: its length, its payload, and in row five that the payload
is even. -/
theorem leadLength_spec {b : UInt8} {n : ℕ} (h : leadLength b.toUInt32 = some n) :
    2 ≤ n ∧ n ≤ 6 ∧ (b.toUInt32 &&& decMasks.getD (n - 1) 0).toNat + leadPattern n = b.toNat ∧
      (b.toUInt32 &&& decMasks.getD (n - 1) 0).toNat < 2 ^ (7 - n) ∧
      (n = 5 → (b.toUInt32 &&& decMasks.getD (n - 1) 0).toNat % 2 = 0) := by
  rw [toUInt32_eq_ofNat] at h ⊢
  obtain ⟨-, htab, hmasked, -⟩ := byte_table b.toNat b.toNat_lt
  rw [h] at htab
  have hmask := hmasked n
  split_ifs at htab <;> simp only [Option.some.injEq] at htab <;> subst htab <;>
    have := hmask (by norm_num) h <;> simp only [leadPattern] at this ⊢ <;>
    refine ⟨by omega, by omega, by omega, by omega, by omega⟩

/-- The five tests pass exactly when the length read is not above the row's. -/
theorem overlong_eq_false {c : UInt32} {n : ℕ} (hn : 2 ≤ n) (hn6 : n ≤ 6) :
    overlong c n = false ↔ n ≤ rowLength c.toNat := by
  unfold overlong rowLength
  simp only [Bool.or_eq_false_iff, Bool.and_eq_false_iff, decide_eq_false_iff_not,
    UInt32.le_iff_toNat_le, UInt32.reduceToNat]
  split_ifs <;> omega

/-- The decoder's validity test is `IsCodePoint`. -/
theorem invalid_eq_false {c : UInt32} :
    (c > 0x7FFFFFFF || isSurrogate c) = false ↔ IsCodePoint c := by
  rw [Bool.or_eq_false_iff, decide_eq_false_iff_not, IsCodePoint, gt_iff_lt, UInt32.not_lt]

/-- What a success of the decoder can be: a single byte below `80`, or a lead byte with its
continuation bytes. -/
theorem oneUtf8ToCppchar_ok {inbuf rest : List UInt8} {cp c : UInt32}
    (h : oneUtf8ToCppchar inbuf cp = (none, rest, c)) :
    (∃ b : UInt8, inbuf = b :: rest ∧ b.toNat < 0x80 ∧ c = b.toUInt32) ∨
    ∃ b rest' n, inbuf = b :: rest' ∧ leadLength b.toUInt32 = some n ∧
      contBytes (n - 1) (b.toUInt32 &&& decMasks.getD (n - 1) 0) rest' = some (c, rest) ∧
      overlong c n = false ∧ IsCodePoint c := by
  unfold oneUtf8ToCppchar at h
  split at h
  · simp at h
  · next b rest' =>
    simp only at h
    split_ifs at h with hb
    · simp only [Prod.mk.injEq, true_and] at h
      obtain ⟨rfl, rfl⟩ := h
      exact .inl ⟨b, rfl, by simpa [UInt32.lt_iff_toNat_lt] using hb, rfl⟩
    · split at h
      · simp at h
      · next n hlead =>
        split_ifs at h with hlen
        · simp at h
        · split at h
          · simp at h
          · next c' inbuf' hcont =>
            split_ifs at h with hov hval
            · simp at h
            · simp at h
            · simp only [Prod.mk.injEq, true_and] at h
              obtain ⟨rfl, rfl⟩ := h
              rw [Bool.not_eq_true] at hov hval
              exact .inr ⟨b, rest', n, rfl, hlead, hcont, hov, invalid_eq_false.mp hval⟩

/-- The decoder on a byte below `80`. -/
theorem oneUtf8ToCppchar_single {b : UInt8} (hb : b.toNat < 0x80) (rest : List UInt8)
    (cp : UInt32) :
    oneUtf8ToCppchar (b :: rest) cp = (none, rest, b.toUInt32) := by
  have h : b.toUInt32 < 0x80 := by
    rw [UInt32.lt_iff_toNat_lt]
    simpa using hb
  simp only [oneUtf8ToCppchar, if_pos h]

/-- The decoder on a lead byte with its continuation bytes. -/
theorem oneUtf8ToCppchar_multi {b : UInt8} {n : ℕ} {c cp : UInt32} {l rest : List UInt8}
    (hb : 0x80 ≤ b.toNat) (hlead : leadLength b.toUInt32 = some n) (hlen : n ≤ (b :: l).length)
    (hcont : contBytes (n - 1) (b.toUInt32 &&& decMasks.getD (n - 1) 0) l = some (c, rest))
    (hov : overlong c n = false) (hcp : IsCodePoint c) :
    oneUtf8ToCppchar (b :: l) cp = (none, rest, c) := by
  have h : ¬ b.toUInt32 < 0x80 := by
    rw [UInt32.lt_iff_toNat_lt]
    simpa using hb
  simp only [oneUtf8ToCppchar, if_neg h, hlead, if_neg (not_lt.mpr hlen), hcont, hov,
    invalid_eq_false.mpr hcp]
  rfl

/-- **The decoder accepts table rows only**, none of the lost ones.
Source: `charset.c` `one_utf8_to_cppchar`
Kind: P -/
theorem oneUtf8ToCppchar_sound {inbuf rest : List UInt8} {cp c : UInt32}
    (h : oneUtf8ToCppchar inbuf cp = (none, rest, c)) :
    inbuf = utf8Bytes c ++ rest ∧ IsCodePoint c ∧ ¬ LostByMask c := by
  rcases oneUtf8ToCppchar_ok h with ⟨b, rfl, hb, rfl⟩ | ⟨b, rest', n, rfl, hlead, hcont, hov, hcp⟩
  · have hc : b.toUInt32.toNat = b.toNat := by simp
    refine ⟨?_, ?_, ?_⟩
    · rw [utf8Bytes, hc, utf8Row, if_pos (by omega)]
      simp
    · rw [isCodePoint_iff, hc]; omega
    · rw [lostByMask_iff, hc, rowLength, if_pos (by omega)]
      omega
  · obtain ⟨h2, h6, hb, hv, hodd⟩ := leadLength_spec hlead
    set v := (b.toUInt32 &&& decMasks.getD (n - 1) 0).toNat with hvdef
    have hsmall : (v + 1) * 64 ^ (n - 1) ≤ 2 ^ 32 := by
      calc (v + 1) * 64 ^ (n - 1) ≤ 2 ^ (7 - n) * 64 ^ (n - 1) := Nat.mul_le_mul_right _ hv
        _ ≤ 2 ^ 32 := by interval_cases n <;> norm_num
    obtain ⟨ds, hds, hlt, hl, hc⟩ := contBytes_some hsmall hcont
    obtain ⟨hdiv, hdig⟩ := ofDigits64_div (a := v) hlt
    have hrow : rowLength c.toNat = n := by
      refine le_antisymm (rowLength_le h2 h6 ?_) ((overlong_eq_false h2 h6).mp hov)
      have hlen := ofDigits64_lt hv hlt
      rw [hds] at hlen
      exact hc ▸ hlen
    rw [← hc, hds] at hdiv hdig
    have hbig : 0x7F < c.toNat := by
      by_contra hle
      rw [rowLength, if_pos (by omega)] at hrow
      omega
    refine ⟨?_, hcp, ?_⟩
    · rw [utf8Bytes_eq hbig, hrow, hdiv, hdig, add_comm, hb, UInt8.ofNat_toNat, hl,
        List.cons_append]
    · rw [lostByMask_iff, hrow]
      rintro ⟨rfl, hbit⟩
      rw [hdiv, hodd rfl] at hbit
      omega

/-- **The decoder reads back every row that is not lost.**
Source: `charset.c` `one_utf8_to_cppchar`
Kind: P -/
theorem oneUtf8ToCppchar_complete {c : UInt32} (hcp : IsCodePoint c) (hl : ¬ LostByMask c)
    (rest : List UInt8) (cp : UInt32) :
    oneUtf8ToCppchar (utf8Bytes c ++ rest) cp = (none, rest, c) := by
  have hrange := (isCodePoint_iff c).mp hcp
  by_cases hc : c.toNat ≤ 0x7F
  · have hb : (UInt8.ofNat c.toNat).toNat = c.toNat := by
      rw [UInt8.toNat_ofNat']
      omega
    rw [utf8Bytes, utf8Row, if_pos hc, List.map_singleton, List.singleton_append,
      oneUtf8ToCppchar_single (by omega), toUInt32_eq_ofNat, hb, UInt32.ofNat_toNat]
  · rw [not_le] at hc
    obtain ⟨h2, h6, hv⟩ := rowLength_bounds c.toNat hc hrange.1
    have hodd : rowLength c.toNat ≠ 5 ∨ c.toNat / 64 ^ (rowLength c.toNat - 1) % 2 = 0 := by
      by_cases h5 : rowLength c.toNat = 5
      swap
      · exact .inl h5
      right
      rw [lostByMask_iff, h5] at hl
      rw [h5]
      omega
    have hov := (overlong_eq_false h2 h6).mpr le_rfl
    rw [utf8Bytes_eq hc]
    set n := rowLength c.toNat
    set v := c.toNat / 64 ^ (n - 1) with hvdef
    have hv32 : v < 32 :=
      lt_of_lt_of_le hv (Nat.pow_le_pow_right (by norm_num) (by omega : 7 - n ≤ 5))
    obtain ⟨hlo, hhi⟩ := leadPattern_add h2 (by omega) hv
    have hlead := row_table.1 n (by omega) v hv32 ⟨h2, hv, hodd⟩
    have hbyte : (UInt8.ofNat (leadPattern n + v)).toNat = leadPattern n + v := by
      rw [UInt8.toNat_ofNat']
      omega
    obtain ⟨-, -, hmask, -, -⟩ := leadLength_spec hlead
    set m := (UInt8.ofNat (leadPattern n + v)).toUInt32 &&& decMasks.getD (n - 1) 0 with hm
    have hval : m.toNat = v := by omega
    have hsmall : (v + 1) * 64 ^ (n - 1) ≤ 2 ^ 32 := by
      calc (v + 1) * 64 ^ (n - 1) ≤ 2 ^ (7 - n) * 64 ^ (n - 1) := Nat.mul_le_mul_right _ hv
        _ ≤ 2 ^ 32 := by clear_value n; interval_cases n <;> norm_num
    have hcont := contBytes_digits (c := m) rest (lowDigits_lt (n - 1) c.toNat)
      (by rw [hval, lowDigits_length]; exact hsmall)
    rw [hval, lowDigits_length, hvdef, ofDigits64_lowDigits, UInt32.ofNat_toNat] at hcont
    rw [List.cons_append]
    exact oneUtf8ToCppchar_multi (by omega) hlead (by simp [lowDigits_length]; omega) hcont hov hcp

/-- A refusal moves neither the input pointer nor `*cp`.
Source: `charset.c` `one_utf8_to_cppchar`
Kind: L -/
theorem oneUtf8ToCppchar_error {inbuf rest : List UInt8} {cp cp' : UInt32} {e : Errno}
    (h : oneUtf8ToCppchar inbuf cp = (some e, rest, cp')) : rest = inbuf ∧ cp' = cp := by
  unfold oneUtf8ToCppchar at h
  grind

/-! ## The encoder -/

/-- The byte the encoder's loop stores. -/
theorem encByte (c : UInt32) :
    ((c &&& 0x3F) ||| 0x80).toUInt8 = UInt8.ofNat (0x80 + c.toNat % 64) := by
  have hand : c.toNat &&& 63 = c.toNat % 64 := Nat.and_two_pow_sub_one_eq_mod c.toNat 6
  rw [← UInt8.toNat_inj]
  have hd : c.toNat % 64 < 64 := Nat.mod_lt _ (by norm_num)
  have := (byte_table (c.toNat % 64) (hd.trans (by norm_num))).2.2.2 hd
  simp only [UInt32.toNat_toUInt8, UInt32.toNat_or, UInt32.toNat_and, UInt32.reduceToNat, hand,
    this, UInt8.toNat_ofNat']

/-- The encoder's loop test: the rest does not fit the lead byte of `n` bytes. -/
theorem enc_test {c : UInt32} {n : ℕ} (h2 : 2 ≤ n) (h6 : n ≤ 6) :
    (c ≥ 0x3F || c &&& encLimits.getD (n - 1) 0 != 0) = true ↔ 2 ^ (7 - n) ≤ c.toNat := by
  by_cases hc : 0x3F ≤ c.toNat
  · have : c ≥ 0x3F := by rw [ge_iff_le, UInt32.le_iff_toNat_le]; exact hc
    simp only [this, decide_true, Bool.true_or, true_iff]
    calc 2 ^ (7 - n) ≤ 2 ^ 5 := Nat.pow_le_pow_right (by norm_num) (by omega)
      _ ≤ c.toNat := by omega
  · have : ¬ c ≥ 0x3F := by rw [ge_iff_le, UInt32.le_iff_toNat_le]; exact hc
    have hk := row_table.2.2 n (by omega) c.toNat (by omega) h2
    rw [UInt32.ofNat_toNat] at hk
    simp only [this, decide_false, Bool.false_or, hk, decide_eq_true_eq]

/-- `c >>= 6` divides by 64. -/
theorem toNat_shiftRight_six (c : UInt32) : (c >>> 6).toNat = c.toNat / 64 := by
  rw [UInt32.toNat_shiftRight]
  simp [Nat.shiftRight_eq_div_pow]

/-- One pass of the encoder's loop, in digits. -/
theorem enc_pass (c : UInt32) (nbytes : ℕ) (p : List UInt8) :
    (c >>> 6, nbytes + 1, ((c &&& 0x3F) ||| 0x80).toUInt8 :: p) =
      (UInt32.ofNat (c.toNat / 64 ^ 1), nbytes + 1,
        (lowDigits 1 c.toNat).map (fun d => UInt8.ofNat (0x80 + d)) ++ p) := by
  rw [encByte, pow_one, ← toNat_shiftRight_six, UInt32.ofNat_toNat]
  simp only [lowDigits, pow_zero, Nat.div_one, List.map_cons, List.map_nil, List.cons_append,
    List.nil_append]

/-- What the encoder's loop leaves: after `j` passes the `j` low digits are stored, and `j` is the
first count at which the rest fits the lead byte. -/
theorem encLoop_eq {k : ℕ} {c : UInt32} (nbytes : ℕ) (p : List UInt8) (h1 : 1 ≤ nbytes)
    (hk : nbytes + k = 5) (hc : c.toNat < 2 * 64 ^ (k + 1)) :
    ∃ j, 1 ≤ j ∧ j ≤ k + 1 ∧
      encLoop k c nbytes p = (UInt32.ofNat (c.toNat / 64 ^ j), nbytes + j,
        (lowDigits j c.toNat).map (fun d => UInt8.ofNat (0x80 + d)) ++ p) ∧
      c.toNat / 64 ^ j < 2 ^ (7 - (nbytes + j)) ∧
      ∀ i, 1 ≤ i → i < j → 2 ^ (7 - (nbytes + i)) ≤ c.toNat / 64 ^ i := by
  induction k generalizing c nbytes p with
  | zero =>
    refine ⟨1, le_rfl, le_rfl, enc_pass c nbytes p, ?_, by omega⟩
    obtain rfl : nbytes = 5 := by omega
    norm_num at hc ⊢
    omega
  | succ k ih =>
    by_cases hgo : 2 ^ (7 - (nbytes + 1)) ≤ (c >>> 6).toNat
    · have hc' : (c >>> 6).toNat < 2 * 64 ^ (k + 1) := by
        rw [toNat_shiftRight_six, Nat.div_lt_iff_lt_mul (by norm_num)]
        calc c.toNat < 2 * 64 ^ (k + 1 + 1) := hc
          _ = 2 * 64 ^ (k + 1) * 64 := by ring
      obtain ⟨j, hj1, hjk, hrun, hstop, hgo'⟩ :=
        ih (nbytes + 1) (((c &&& 0x3F) ||| 0x80).toUInt8 :: p) (by omega) (by omega) hc'
      have hdiv : ∀ i, (c >>> 6).toNat / 64 ^ i = c.toNat / 64 ^ (i + 1) := fun i => by
        rw [toNat_shiftRight_six, Nat.div_div_eq_div_mul, pow_succ']
      refine ⟨j + 1, by omega, by omega, ?_, ?_, ?_⟩
      · simp only [encLoop]
        rw [if_pos (by rwa [enc_test (by omega) (by omega)]), hrun, hdiv, lowDigits_succ',
          ← toNat_shiftRight_six, encByte]
        simp [add_assoc, add_comm 1 j]
      · rw [← hdiv]
        convert hstop using 2
        omega
      · intro i hi1 hij
        rcases Nat.eq_or_lt_of_le hi1 with rfl | hi
        · rwa [pow_one, ← toNat_shiftRight_six]
        · have := hgo' (i - 1) (by omega) (by omega)
          rw [hdiv, show i - 1 + 1 = i by omega] at this
          convert this using 2
          omega
    · refine ⟨1, le_rfl, by omega, ?_, ?_, by omega⟩
      · rw [← enc_pass]
        simp only [encLoop]
        rw [if_neg (by rwa [enc_test (by omega) (by omega)])]
      · rw [pow_one, ← toNat_shiftRight_six]
        exact not_le.mp hgo

/-- **The encoder writes the table.**
Source: `charset.c` `one_cppchar_to_utf8`
Kind: P -/
theorem cppcharBuf_eq {c : UInt32} (hc : c ≤ 0x7FFFFFFF) : cppcharBuf c = utf8Bytes c := by
  have hc' : c.toNat ≤ 0x7FFFFFFF := UInt32.le_iff_toNat_le.mp hc
  unfold cppcharBuf
  by_cases hlt : c < 0x80
  · have hlt' : c.toNat < 0x80 := UInt32.lt_iff_toNat_lt.mp hlt
    rw [if_pos hlt, utf8Bytes, utf8Row, if_pos (by omega)]
    simp
  · have hge : 0x7F < c.toNat := by
      rw [UInt32.lt_iff_toNat_lt] at hlt
      exact not_lt.mp hlt
    obtain ⟨j, hj1, hj5, hrun, hstop, hgo⟩ :=
      encLoop_eq (k := 4) (c := c) 1 [] le_rfl rfl (by norm_num; omega)
    have hstop' : c.toNat / 64 ^ j < 2 ^ (6 - j) := by
      rwa [show 7 - (1 + j) = 6 - j by omega] at hstop
    have hv32 : c.toNat / 64 ^ j < 32 :=
      lt_of_lt_of_le hstop' (Nat.pow_le_pow_right (by norm_num) (by omega : 6 - j ≤ 5))
    have hrow : rowLength c.toNat = j + 1 := by
      refine rowLength_of_bounds hge hj1 hj5 ?_ ?_
      · exact hstop'
      · intro i hi hij
        have := hgo i hi hij
        rwa [show 7 - (1 + i) = 6 - i by omega] at this
    rw [if_neg hlt, hrun, utf8Bytes_eq hge, hrow]
    simp only [List.append_nil, Nat.add_sub_cancel, List.cons.injEq, and_true]
    have hrange : 2 ≤ j + 1 ∧ c.toNat / 64 ^ j < 2 ^ (7 - (j + 1)) :=
      ⟨by omega, by rwa [show 7 - (j + 1) = 6 - j by omega]⟩
    have hlead := row_table.2.1 (j + 1) (by omega) _ hv32 hrange
    rw [Nat.add_sub_cancel] at hlead
    rw [Nat.add_sub_cancel_left]
    exact hlead

/-- No character takes more than six bytes.
Source: `charset.c` `one_cppchar_to_utf8` (`uchar buf[6]`)
Kind: L -/
theorem utf8Bytes_length_le (c : UInt32) : (utf8Bytes c).length ≤ 6 := by
  unfold utf8Bytes utf8Row
  split_ifs <;> simp

/-- The encoder with room for a whole `buf`.
Source: `charset.c` `one_cppchar_to_utf8`
Kind: L -/
theorem oneCppcharToUtf8_eq {c : UInt32} (hc : c ≤ 0x7FFFFFFF) {out : OutBuf}
    (hroom : 6 ≤ out.left) :
    oneCppcharToUtf8 c out =
      (none, ⟨out.bytes ++ utf8Bytes c, out.left - (utf8Bytes c).length⟩) := by
  have hlen := utf8Bytes_length_le c
  rw [oneCppcharToUtf8, cppcharBuf_eq hc, if_neg (by omega)]

/-! ## The round trip -/

/-- **The round trip of a character**: what the encoder appends to any output buffer with room, the
decoder reads back, whatever follows it, consuming exactly those bytes.
Source: `charset.c` `one_cppchar_to_utf8`, `one_utf8_to_cppchar` -/
def RoundTrips (c : UInt32) : Prop :=
  ∀ (out : OutBuf) (rest : List UInt8) (cp : UInt32), 6 ≤ out.left →
    ∃ bytes, oneCppcharToUtf8 c out = (none, ⟨out.bytes ++ bytes, out.left - bytes.length⟩) ∧
      oneUtf8ToCppchar (bytes ++ rest) cp = (none, rest, c)

/-- **Canonical acceptance of an input**: what the decoder accepts starts with exactly the bytes the
encoder writes for the value, and what it refuses leaves the input pointer and `*cp` alone.
Source: `charset.c` `one_utf8_to_cppchar` -/
def AcceptsCanonically (inbuf : List UInt8) (cp : UInt32) : Prop :=
  match oneUtf8ToCppchar inbuf cp with
  | (none, rest, c) => ∀ out : OutBuf, 6 ≤ out.left →
      ∃ bytes, oneCppcharToUtf8 c out = (none, ⟨out.bytes ++ bytes, out.left - bytes.length⟩) ∧
        inbuf = bytes ++ rest
  | (some _, rest, c) => rest = inbuf ∧ c = cp

/-- **The UTF-8 codec**: every code point makes the round trip exactly when the decoder's fifth mask
does not lose it, and every input is accepted canonically or refused in place.
Source: `charset.c` `one_utf8_to_cppchar`, `one_cppchar_to_utf8`
Kind: P -/
theorem utf8_codec (c : UInt32) (inbuf : List UInt8) (cp : UInt32) :
    (IsCodePoint c → (RoundTrips c ↔ ¬ LostByMask c)) ∧ AcceptsCanonically inbuf cp := by
  refine ⟨fun hc => ⟨fun h => ?_, fun hl out rest cp hroom => ?_⟩, ?_⟩
  · obtain ⟨bytes, -, hdec⟩ := h ⟨[], 6⟩ [] 0 le_rfl
    exact (oneUtf8ToCppchar_sound hdec).2.2
  · exact ⟨utf8Bytes c, oneCppcharToUtf8_eq hc.1 hroom, oneUtf8ToCppchar_complete hc hl rest cp⟩
  · unfold AcceptsCanonically
    split
    · next rest c' h =>
      obtain ⟨hin, hcp, -⟩ := oneUtf8ToCppchar_sound h
      exact fun out hroom => ⟨utf8Bytes c', oneCppcharToUtf8_eq hcp.1 hroom, hin⟩
    · next h => exact oneUtf8ToCppchar_error h

/-- The codec at `U+20AC`, a three-byte row. -/
theorem utf8_codec_euro :
    IsCodePoint 0x20AC ∧ (RoundTrips 0x20AC ↔ ¬ LostByMask 0x20AC) ∧
      AcceptsCanonically [0xE2, 0x82, 0xAC] 0 :=
  ⟨by decide, (utf8_codec 0x20AC [0xE2, 0x82, 0xAC] 0).1 (by decide),
    (utf8_codec 0x20AC [0xE2, 0x82, 0xAC] 0).2⟩

/-- `0x1000000` is written as `F9 80 80 80 80`, which the decoder refuses.
Source: `charset.c` `one_utf8_to_cppchar` (`masks[4]` is `0x02`)
Kind: C -/
theorem utf8_roundTrip_fails_at_1000000 :
    IsCodePoint 0x1000000 ∧ cppcharBuf 0x1000000 = [0xF9, 0x80, 0x80, 0x80, 0x80] ∧
      oneUtf8ToCppchar [0xF9, 0x80, 0x80, 0x80, 0x80] 0 =
        (some .EILSEQ, [0xF9, 0x80, 0x80, 0x80, 0x80], 0) ∧
      ¬ ∀ c, IsCodePoint c → RoundTrips c := by
  refine ⟨by decide, by decide +kernel, by decide +kernel, fun h => ?_⟩
  obtain ⟨bytes, -, hdec⟩ := h 0x1000000 (by decide) ⟨[], 6⟩ [] 0 le_rfl
  exact (oneUtf8ToCppchar_sound hdec).2.2 (by decide +kernel)

end GccCore.Cpp.Charset
