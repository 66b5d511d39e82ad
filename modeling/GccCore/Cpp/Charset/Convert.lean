import GccCore.Cpp.Charset.Utf8

/-!
# `libcpp/charset.c`: whole strings between UTF-8 and UTF-16/UTF-32

The four one-character converters, `conversion_loop` over a growing `_cpp_strbuf`, and the four
`convert_*` functions. `BIGEND` is a `Bool`; an array of bytes is a list in memory order.

* **The loop runs a table** (`conversionLoop_append`, `convert_all`, `convert_refused`): if a
  one-character converter takes `src a` to `dst a` and leaves its buffers alone when there is no
  room, then `conversion_loop` takes the concatenation of the `src a` to that of the `dst a`,
  however often it has to grow the buffer, and stops at the first `src a` the converter refuses.
* **UTF-16** (`utf16_roundTrip_iff`): the round trip holds exactly for the strings without `U+FFFF`,
  because `one_utf8_to_utf16` tests `s < 0xFFFF` where the comment's range ends at `0000FFFF`.
* **UTF-32** (`utf32_roundTrip_iff`): the round trip holds exactly for the sequences without
  `7FFFFFFF` (`one_utf32_to_utf8` tests `s >= 0x7FFFFFFF`) and without a value that the UTF-8
  decoder's fifth mask loses.
-/

namespace GccCore.Cpp.Charset

/-! ## The one-character converters -/

/-- Store `bs` at the output pointer.
Source: `charset.c` (`*outbufp += n; *outbytesleftp -= n`) -/
def OutBuf.put (out : OutBuf) (bs : List UInt8) : OutBuf :=
  ⟨out.bytes ++ bs, out.left - bs.length⟩

/-- The four bytes `outbuf[0..3]` of `one_utf8_to_utf32`, in memory order.
Source: `charset.c` `one_utf8_to_utf32` -/
def utf32Bytes (bigend : Bool) (s : UInt32) : List UInt8 :=
  let b0 := (s &&& 0x000000FF).toUInt8
  let b1 := ((s &&& 0x0000FF00) >>> 8).toUInt8
  let b2 := ((s &&& 0x00FF0000) >>> 16).toUInt8
  let b3 := ((s &&& 0xFF000000) >>> 24).toUInt8
  if bigend then [b3, b2, b1, b0] else [b0, b1, b2, b3]

/-- Two bytes of a UTF-16 unit, in memory order.
Source: `charset.c` `one_utf8_to_utf16` (`outbuf[bigend ? 1 : 0]`, `outbuf[bigend ? 0 : 1]`) -/
def unit16Bytes (bigend : Bool) (s : UInt32) : List UInt8 :=
  let b0 := (s &&& 0x00FF).toUInt8
  let b1 := ((s &&& 0xFF00) >>> 8).toUInt8
  if bigend then [b1, b0] else [b0, b1]

/-- Source: `charset.c` `one_utf8_to_utf32` -/
def oneUtf8ToUtf32 (bigend : Bool) (inbuf : List UInt8) (out : OutBuf) :
    Option Errno × List UInt8 × OutBuf :=
  -- room is checked first, since four bytes are always needed
  if out.left < 4 then (some .E2BIG, inbuf, out)
  else
    match oneUtf8ToCppchar inbuf 0 with
    | (some rval, inbuf', _) => (some rval, inbuf', out)
    | (none, inbuf', s) => (none, inbuf', out.put (utf32Bytes bigend s))

/-- Source: `charset.c` `one_utf32_to_utf8` -/
def oneUtf32ToUtf8 (bigend : Bool) (inbuf : List UInt8) (out : OutBuf) :
    Option Errno × List UInt8 × OutBuf :=
  match inbuf with
  | i0 :: i1 :: i2 :: i3 :: rest =>
    let s := ((if bigend then i0 else i3).toUInt32 <<< 24) +
      ((if bigend then i1 else i2).toUInt32 <<< 16) +
      ((if bigend then i2 else i1).toUInt32 <<< 8) + (if bigend then i3 else i0).toUInt32
    if s ≥ 0x7FFFFFFF || isSurrogate s then (some .EILSEQ, inbuf, out)
    else
      match oneCppcharToUtf8 s out with
      | (some rval, out') => (some rval, inbuf, out')
      | (none, out') => (none, rest, out')
  | _ => (some .EINVAL, inbuf, out)

/-- Source: `charset.c` `one_utf8_to_utf16` -/
def oneUtf8ToUtf16 (bigend : Bool) (inbuf : List UInt8) (out : OutBuf) :
    Option Errno × List UInt8 × OutBuf :=
  match oneUtf8ToCppchar inbuf 0 with
  | (some rval, inbuf', _) => (some rval, inbuf', out)
  | (none, inbuf', s) =>
    if s > 0x0010FFFF then (some .EILSEQ, inbuf, out)
    else if s < 0xFFFF then
      if out.left < 2 then (some .E2BIG, inbuf, out)
      else (none, inbuf', out.put (unit16Bytes bigend s))
    else if out.left < 4 then (some .E2BIG, inbuf, out)
    else
      let hi := (s - 0x10000) / 0x400 + 0xD800
      let lo := (s - 0x10000) % 0x400 + 0xDC00
      (none, inbuf', out.put (unit16Bytes bigend hi ++ unit16Bytes bigend lo))

/-- Source: `charset.c` `one_utf16_to_utf8` -/
def oneUtf16ToUtf8 (bigend : Bool) (inbuf : List UInt8) (out : OutBuf) :
    Option Errno × List UInt8 × OutBuf :=
  match inbuf with
  | i0 :: i1 :: rest =>
    let s := ((if bigend then i0 else i1).toUInt32 <<< 8) + (if bigend then i1 else i0).toUInt32
    -- a low surrogate without a high one before it
    if s ≥ 0xDC00 && s ≤ 0xDFFF then (some .EILSEQ, inbuf, out)
    else if s ≥ 0xD800 && s ≤ 0xDBFF then
      match rest with
      | i2 :: i3 :: rest' =>
        let lo := ((if bigend then i2 else i3).toUInt32 <<< 8) +
          (if bigend then i3 else i2).toUInt32
        if lo < 0xDC00 || lo > 0xDFFF then (some .EILSEQ, inbuf, out)
        else
          let s := (s - 0xD800) * 0x400 + (lo - 0xDC00) + 0x10000
          match oneCppcharToUtf8 s out with
          | (some rval, out') => (some rval, inbuf, out')
          -- the source advances by the size of the value, not of what it read
          | (none, out') => (none, if s ≤ 0xFFFF then rest else rest', out')
      | _ => (some .EINVAL, inbuf, out)
    else
      match oneCppcharToUtf8 s out with
      | (some rval, out') => (some rval, inbuf, out')
      | (none, out') => (none, rest, out')
  | _ => (some .EINVAL, inbuf, out)

/-! ## The loop -/

/-- `struct _cpp_strbuf`: the `len` bytes of text and the allocated size.
Source: `charset.c` `struct _cpp_strbuf` -/
structure StrBuf where
  /-- `text[0 .. len)`. -/
  text : List UInt8
  /-- `asize`. -/
  asize : ℕ
  /-- The text fits its allocation. -/
  len_le : text.length ≤ asize

/-- Source: `charset.c` (`#define OUTBUF_BLOCK_SIZE 256`) -/
def outbufBlockSize : ℕ := 256

/-- Reallocate with one more block.
Source: `charset.c` `conversion_loop` (`to->asize += OUTBUF_BLOCK_SIZE`) -/
def StrBuf.grow (buf : StrBuf) : StrBuf :=
  ⟨buf.text, buf.asize + outbufBlockSize, Nat.le_add_right_of_le buf.len_le⟩

/-- Give the buffer the length `asize - outbytesleft`.
Source: `charset.c` `conversion_loop` (`to->len = to->asize - outbytesleft`) -/
def StrBuf.close (buf : StrBuf) (out : OutBuf) : StrBuf :=
  ⟨out.bytes.take (buf.asize - out.left), buf.asize, by
    rw [List.length_take]
    omega⟩

/-- The body of `conversion_loop`, one call of `one_conversion` a pass: the inner `do … while` goes
on while there is input and no error, the outer `for` ends with the input, fails with an error
other than `E2BIG`, and grows the buffer on `E2BIG`. `none` is a run longer than the fuel; the
first component of a result is `errno` of a `false` return.
Source: `charset.c` `conversion_loop` -/
def conversionLoop (oneConversion : List UInt8 → OutBuf → Option Errno × List UInt8 × OutBuf) :
    ℕ → List UInt8 → OutBuf → StrBuf → Option (Option Errno × StrBuf)
  | 0, _, _, _ => none
  | fuel + 1, inbuf, out, buf =>
    match oneConversion inbuf out with
    | (rval, inbuf, out) =>
      if inbuf ≠ [] ∧ rval = none then conversionLoop oneConversion fuel inbuf out buf
      else if inbuf = [] then some (none, buf.close out)
      else if rval ≠ some .E2BIG then some (rval, buf)
      else conversionLoop oneConversion fuel inbuf ⟨out.bytes, out.left + outbufBlockSize⟩ buf.grow

/-- `conversion_loop` from its entry.
Source: `charset.c` `conversion_loop` -/
def convert (oneConversion : List UInt8 → OutBuf → Option Errno × List UInt8 × OutBuf)
    (fuel : ℕ) (from_ : List UInt8) (buf : StrBuf) : Option (Option Errno × StrBuf) :=
  conversionLoop oneConversion fuel from_ ⟨buf.text, buf.asize - buf.text.length⟩ buf

/-- Source: `charset.c` `convert_utf8_utf16`. -/
def convertUtf8Utf16 (fuel : ℕ) (bigend : Bool) := convert (oneUtf8ToUtf16 bigend) fuel

/-- Source: `charset.c` `convert_utf8_utf32`. -/
def convertUtf8Utf32 (fuel : ℕ) (bigend : Bool) := convert (oneUtf8ToUtf32 bigend) fuel

/-- Source: `charset.c` `convert_utf16_utf8`. -/
def convertUtf16Utf8 (fuel : ℕ) (bigend : Bool) := convert (oneUtf16ToUtf8 bigend) fuel

/-- Source: `charset.c` `convert_utf32_utf8`. -/
def convertUtf32Utf8 (fuel : ℕ) (bigend : Bool) := convert (oneUtf32ToUtf8 bigend) fuel

/-! ## Runs of the loop -/

section Loop

variable {conv : List UInt8 → OutBuf → Option Errno × List UInt8 × OutBuf}

/-- The converter **takes** `s` to `d`: with room it reads `s`, whatever follows, and appends `d`;
without room it leaves both buffers alone.
Source: `charset.c`, comment "The return value is either 0 for success, or an errno value" -/
structure Takes (conv : List UInt8 → OutBuf → Option Errno × List UInt8 × OutBuf)
    (s d : List UInt8) : Prop where
  /-- Every character has bytes. -/
  ne_nil : s ≠ []
  /-- One block of growth is room enough. -/
  length_le : d.length ≤ outbufBlockSize
  /-- The call itself. -/
  call : ∀ rest out, conv (s ++ rest) out =
    if out.left < d.length then (some .E2BIG, s ++ rest, out) else (none, rest, out.put d)

/-- The converter **refuses** `s`: it asks for at most `n` bytes of room and then reports `e`.
Source: `charset.c`, comment "The return value is either 0 for success, or an errno value" -/
structure Refuses (conv : List UInt8 → OutBuf → Option Errno × List UInt8 × OutBuf)
    (s : List UInt8) (n : ℕ) (e : Errno) : Prop where
  /-- Every character has bytes. -/
  ne_nil : s ≠ []
  /-- The refusal is not a request for room. -/
  ne_E2BIG : e ≠ .E2BIG
  /-- One block of growth is room enough. -/
  room_le : n ≤ outbufBlockSize
  /-- The call itself. -/
  call : ∀ rest out, conv (s ++ rest) out =
    (if out.left < n then some .E2BIG else some e, s ++ rest, out)

/-- A pass that reads one character and finds input behind it.
Source: `charset.c` `conversion_loop`
Kind: L -/
theorem conversionLoop_take {s d : List UInt8} (h : Takes conv s d) {rest : List UInt8}
    (hrest : rest ≠ []) {out : OutBuf} (hroom : d.length ≤ out.left) (fuel : ℕ) (buf : StrBuf) :
    conversionLoop conv (fuel + 1) (s ++ rest) out buf =
      conversionLoop conv fuel rest (out.put d) buf := by
  simp [conversionLoop, h.call, not_lt.mpr hroom, hrest]

/-- A pass that reads the last character.
Source: `charset.c` `conversion_loop`
Kind: L -/
theorem conversionLoop_last {s d : List UInt8} (h : Takes conv s d) {out : OutBuf}
    (hroom : d.length ≤ out.left) (fuel : ℕ) (buf : StrBuf) :
    conversionLoop conv (fuel + 1) s out buf = some (none, buf.close (out.put d)) := by
  have hcall := h.call [] out
  rw [List.append_nil, if_neg (not_lt.mpr hroom)] at hcall
  simp [conversionLoop, hcall]

/-- A pass that finds no room grows the buffer and starts again.
Source: `charset.c` `conversion_loop`
Kind: L -/
theorem conversionLoop_grow {inbuf : List UInt8} {out : OutBuf} (hin : inbuf ≠ [])
    (h : conv inbuf out = (some .E2BIG, inbuf, out)) (fuel : ℕ) (buf : StrBuf) :
    conversionLoop conv (fuel + 1) inbuf out buf =
      conversionLoop conv fuel inbuf ⟨out.bytes, out.left + outbufBlockSize⟩ buf.grow := by
  simp [conversionLoop, h, hin]

/-- The output pointer stands in the buffer: what is written and the room left make its size.
Source: `charset.c` `conversion_loop` (`outbuf = to->text + to->asize - outbytesleft`) -/
def OutBuf.FillsTo (out : OutBuf) (buf : StrBuf) : Prop := out.bytes.length + out.left = buf.asize

/-- Growing keeps the pointer in the buffer.
Source: `charset.c` `conversion_loop`
Kind: L -/
theorem OutBuf.FillsTo.grow {out : OutBuf} {buf : StrBuf} (h : out.FillsTo buf) :
    OutBuf.FillsTo ⟨out.bytes, out.left + outbufBlockSize⟩ buf.grow := by
  simp only [OutBuf.FillsTo, StrBuf.grow] at h ⊢
  omega

/-- Writing what there is room for keeps the pointer in the buffer.
Source: `charset.c` `conversion_loop`
Kind: L -/
theorem OutBuf.FillsTo.put {out : OutBuf} {buf : StrBuf} (h : out.FillsTo buf) {d : List UInt8}
    (hroom : d.length ≤ out.left) : (out.put d).FillsTo buf := by
  simp only [OutBuf.FillsTo, OutBuf.put, List.length_append] at h ⊢
  omega

/-- The length set at the end covers exactly what was written.
Source: `charset.c` `conversion_loop` (`to->len = to->asize - outbytesleft`)
Kind: L -/
theorem StrBuf.close_text {out : OutBuf} {buf : StrBuf} (h : out.FillsTo buf) :
    (buf.close out).text = out.bytes := by
  simp only [StrBuf.close, OutBuf.FillsTo] at h ⊢
  exact List.take_of_length_le (by omega)

/-- Room can be assumed: at a character the converter takes, the loop arrives, with at most one more
pass, at the same place with room for it.
Source: `charset.c` `conversion_loop`
Kind: L -/
theorem conversionLoop_room {inbuf : List UInt8} {n : ℕ} (hin : inbuf ≠ [])
    (hn : n ≤ outbufBlockSize)
    (hfull : ∀ out : OutBuf, out.left < n → conv inbuf out = (some .E2BIG, inbuf, out))
    {out : OutBuf} {buf : StrBuf} (h : out.FillsTo buf) :
    ∃ k out' buf', out'.bytes = out.bytes ∧ n ≤ out'.left ∧ out'.FillsTo buf' ∧
      ∀ fuel, conversionLoop conv (fuel + k) inbuf out buf =
        conversionLoop conv fuel inbuf out' buf' := by
  by_cases hroom : n ≤ out.left
  · exact ⟨0, out, buf, rfl, hroom, h, fun _ => rfl⟩
  · refine ⟨1, ⟨out.bytes, out.left + outbufBlockSize⟩, buf.grow, rfl, ?_, h.grow, fun fuel => ?_⟩
    · exact hn.trans (Nat.le_add_left _ _)
    · exact conversionLoop_grow hin (hfull out (not_le.mp hroom)) fuel buf

variable {α : Type*} {src dst : α → List UInt8}

/-- **The loop over a prefix**: characters the converter takes are converted one after the other,
and the loop arrives at what follows them.
Source: `charset.c` `conversion_loop`
Kind: L -/
theorem conversionLoop_append {as : List α} (h : ∀ a ∈ as, Takes conv (src a) (dst a))
    {rest : List UInt8} (hrest : rest ≠ []) {out : OutBuf} {buf : StrBuf}
    (hfill : out.FillsTo buf) :
    ∃ k out' buf', out'.bytes = out.bytes ++ as.flatMap dst ∧ out'.FillsTo buf' ∧
      ∀ fuel, conversionLoop conv (fuel + k) (as.flatMap src ++ rest) out buf =
        conversionLoop conv fuel rest out' buf' := by
  induction as generalizing out buf with
  | nil => exact ⟨0, out, buf, by simp, hfill, fun _ => by simp⟩
  | cons a as ih =>
    have ha := h a (by simp)
    have hne : as.flatMap src ++ rest ≠ [] := by simp [hrest]
    have hfull : ∀ o : OutBuf, o.left < (dst a).length →
        conv (src a ++ (as.flatMap src ++ rest)) o =
          (some .E2BIG, src a ++ (as.flatMap src ++ rest), o) := fun o ho => by
      rw [ha.call, if_pos ho]
    obtain ⟨k₁, out₁, buf₁, hb₁, hroom, hf₁, hrun₁⟩ :=
      conversionLoop_room (by simp [ha.ne_nil]) ha.length_le hfull hfill
    obtain ⟨k₂, out₂, buf₂, hb₂, hf₂, hrun₂⟩ := ih (fun b hb => h b (by simp [hb])) (hf₁.put hroom)
    refine ⟨k₂ + 1 + k₁, out₂, buf₂, ?_, hf₂, fun fuel => ?_⟩
    · rw [hb₂, OutBuf.put, hb₁, List.flatMap_cons, List.append_assoc]
    · rw [List.flatMap_cons, List.append_assoc, ← add_assoc, hrun₁, ← add_assoc,
        conversionLoop_take ha hne hroom, hrun₂]

/-- **The loop over a whole string**: it ends with success, with the conversion of every character
behind what the buffer held.
Source: `charset.c` `conversion_loop`
Kind: L -/
theorem convert_all {as : List α} (h : ∀ a ∈ as, Takes conv (src a) (dst a))
    (hnil : ∀ out, ∃ rval, conv [] out = (rval, [], out)) (buf : StrBuf) :
    ∃ N buf', buf'.text = buf.text ++ as.flatMap dst ∧
      ∀ fuel ≥ N, convert conv fuel (as.flatMap src) buf = some (none, buf') := by
  have hfill : OutBuf.FillsTo ⟨buf.text, buf.asize - buf.text.length⟩ buf :=
    Nat.add_sub_cancel' buf.len_le
  rcases as.eq_nil_or_concat with rfl | ⟨as, a, rfl⟩
  · refine ⟨1, buf.close ⟨buf.text, buf.asize - buf.text.length⟩, ?_, fun fuel hf => ?_⟩
    · simp [StrBuf.close_text hfill]
    · obtain ⟨fuel, rfl⟩ := Nat.exists_eq_add_of_le' hf
      obtain ⟨rval, hcall⟩ := hnil ⟨buf.text, buf.asize - buf.text.length⟩
      simp [convert, conversionLoop, hcall]
  · have ha := h a (by simp)
    have hpre : ∀ b ∈ as, Takes conv (src b) (dst b) := fun b hb => h b (by simp [hb])
    have hfull : ∀ o : OutBuf, o.left < (dst a).length →
        conv (src a) o = (some .E2BIG, src a, o) := fun o ho => by
      simpa [if_pos ho] using ha.call [] o
    obtain ⟨k₁, out₁, buf₁, hb₁, hf₁, hrun₁⟩ := conversionLoop_append hpre ha.ne_nil hfill
    obtain ⟨k₂, out₂, buf₂, hb₂, hroom, hf₂, hrun₂⟩ :=
      conversionLoop_room ha.ne_nil ha.length_le hfull hf₁
    refine ⟨1 + k₂ + k₁, buf₂.close (out₂.put (dst a)), ?_, fun fuel hf => ?_⟩
    · rw [StrBuf.close_text (hf₂.put hroom), OutBuf.put, hb₂, hb₁]
      simp
    · obtain ⟨fuel, rfl⟩ := Nat.exists_eq_add_of_le' hf
      rw [convert, List.concat_eq_append, List.flatMap_append, List.flatMap_singleton,
        show fuel + (1 + k₂ + k₁) = fuel + 1 + k₂ + k₁ by omega, hrun₁, hrun₂,
        conversionLoop_last ha hroom]

/-- **The loop up to a refusal**: it ends with failure at the first character that is refused.
Source: `charset.c` `conversion_loop`
Kind: L -/
theorem convert_refused {as : List α} (h : ∀ a ∈ as, Takes conv (src a) (dst a))
    {s : List UInt8} {n : ℕ} {e : Errno} (hs : Refuses conv s n e) (rest : List UInt8)
    (buf : StrBuf) :
    ∃ N buf', ∀ fuel ≥ N, convert conv fuel (as.flatMap src ++ (s ++ rest)) buf =
      some (some e, buf') := by
  have hfill : OutBuf.FillsTo ⟨buf.text, buf.asize - buf.text.length⟩ buf :=
    Nat.add_sub_cancel' buf.len_le
  have hne : s ++ rest ≠ [] := by simp [hs.ne_nil]
  obtain ⟨k₁, out₁, buf₁, -, hf₁, hrun₁⟩ := conversionLoop_append h hne hfill
  have hfull : ∀ o : OutBuf, o.left < n →
      conv (s ++ rest) o = (some .E2BIG, s ++ rest, o) := fun o ho => by
    rw [hs.call, if_pos ho]
  obtain ⟨k₂, out₂, buf₂, -, hroom, -, hrun₂⟩ := conversionLoop_room hne hs.room_le hfull hf₁
  refine ⟨1 + k₂ + k₁, buf₂, fun fuel hf => ?_⟩
  obtain ⟨fuel, rfl⟩ := Nat.exists_eq_add_of_le' hf
  have hcall := hs.call rest out₂
  rw [if_neg (not_lt.mpr hroom)] at hcall
  rw [convert, show fuel + (1 + k₂ + k₁) = fuel + 1 + k₂ + k₁ by omega, hrun₁, hrun₂]
  simp [conversionLoop, hcall, hne, hs.ne_E2BIG]

end Loop

/-! ## The encodings of the comment -/

/-- The UTF-16 units of a character: itself in the BMP, the pair `(H, L)` above it.
Source: `charset.c`, comment "UTF-16 encoding uses two-byte binary numbers" -/
def utf16Units (c : ℕ) : List ℕ :=
  if c ≤ 0xFFFF then [c] else [(c - 0x10000) / 0x400 + 0xD800, (c - 0x10000) % 0x400 + 0xDC00]

/-- A two-byte binary number in memory.
Source: `charset.c`, comment ("in big- and little-endian variants") -/
def unitMem (bigend : Bool) (u : ℕ) : List UInt8 :=
  if bigend then [UInt8.ofNat (u / 2 ^ 8), UInt8.ofNat u]
  else [UInt8.ofNat u, UInt8.ofNat (u / 2 ^ 8)]

/-- **UTF-16** of a character: the units in order, each in its byte order.
Source: `charset.c`, comment "UTF-16 encoding uses two-byte binary numbers" -/
def utf16Bytes (bigend : Bool) (c : UInt32) : List UInt8 :=
  (utf16Units c.toNat).flatMap (unitMem bigend)

/-- **UTF-32** of a character.
Source: `charset.c`, comment "UTF-32 encoding is nice and simple: a four-byte binary number" -/
def utf32Mem (bigend : Bool) (c : UInt32) : List UInt8 :=
  let bs := [UInt8.ofNat (c.toNat / 2 ^ 24), UInt8.ofNat (c.toNat / 2 ^ 16),
    UInt8.ofNat (c.toNat / 2 ^ 8), UInt8.ofNat c.toNat]
  if bigend then bs else bs.reverse

/-- Masking and shifting out a byte of a word. -/
theorem maskByte (s : UInt32) :
    (s &&& 0x000000FF).toUInt8 = UInt8.ofNat s.toNat ∧
      ((s &&& 0x0000FF00) >>> 8).toUInt8 = UInt8.ofNat (s.toNat / 2 ^ 8) ∧
      ((s &&& 0x00FF0000) >>> 16).toUInt8 = UInt8.ofNat (s.toNat / 2 ^ 16) ∧
      ((s &&& 0xFF000000) >>> 24).toUInt8 = UInt8.ofNat (s.toNat / 2 ^ 24) := by
  have key : ∀ k : ℕ, (s.toNat &&& (0xFF * 2 ^ k)) >>> k % 2 ^ 8 = s.toNat / 2 ^ k % 2 ^ 8 := by
    intro k
    rw [Nat.shiftRight_and_distrib, ← Nat.shiftRight_eq_div_pow,
      Nat.shiftRight_eq_div_pow (0xFF * 2 ^ k), Nat.mul_div_cancel _ (by positivity),
      show (0xFF : ℕ) = 2 ^ 8 - 1 from rfl, Nat.and_two_pow_sub_one_eq_mod, Nat.mod_mod]
  refine ⟨?_, ?_, ?_, ?_⟩ <;> rw [← UInt8.toNat_inj]
  · rw [UInt32.toNat_toUInt8, UInt8.toNat_ofNat']
    simpa using key 0
  · simpa using key 8
  · simpa using key 16
  · simpa using key 24

/-- The unit the source stores. -/
theorem unit16Bytes_eq (bigend : Bool) (s : UInt32) :
    unit16Bytes bigend s = unitMem bigend s.toNat := by
  obtain ⟨h0, h1, -, -⟩ := maskByte s
  simp only [unit16Bytes, unitMem]
  rw [← h0, ← h1]

/-- The number the source stores. -/
theorem utf32Bytes_eq (bigend : Bool) (s : UInt32) :
    utf32Bytes bigend s = utf32Mem bigend s := by
  obtain ⟨h0, h1, h2, h3⟩ := maskByte s
  simp only [utf32Bytes, utf32Mem, h0, h1, h2, h3]
  cases bigend <;> rfl

/-- Reading a unit back. -/
theorem readUnit (u : ℕ) (hu : u ≤ 0xFFFF) :
    ((UInt8.ofNat (u / 2 ^ 8)).toUInt32 <<< 8) + (UInt8.ofNat u).toUInt32 = UInt32.ofNat u := by
  rw [← UInt32.toNat_inj]
  simp [UInt32.toNat_add, UInt32.toNat_shiftLeft, Nat.shiftLeft_eq]
  omega

/-- Reading a four-byte number back. -/
theorem readWord (c : UInt32) :
    ((UInt8.ofNat (c.toNat / 2 ^ 24)).toUInt32 <<< 24) +
      ((UInt8.ofNat (c.toNat / 2 ^ 16)).toUInt32 <<< 16) +
      ((UInt8.ofNat (c.toNat / 2 ^ 8)).toUInt32 <<< 8) + (UInt8.ofNat c.toNat).toUInt32 = c := by
  have := c.toNat_lt
  rw [← UInt32.toNat_inj]
  simp [UInt32.toNat_add, UInt32.toNat_shiftLeft, Nat.shiftLeft_eq]
  omega

/-! ## What the one-character converters take and refuse -/

/-- The encoder called from a converter.
Source: `charset.c` `one_cppchar_to_utf8`
Kind: L -/
theorem oneCppcharToUtf8_call {c : UInt32} (hc : c ≤ 0x7FFFFFFF) (out : OutBuf) :
    oneCppcharToUtf8 c out =
      if out.left < (utf8Bytes c).length then (some .E2BIG, out)
      else (none, out.put (utf8Bytes c)) := by
  rw [oneCppcharToUtf8, cppcharBuf_eq hc]
  rfl

/-- Every row of the table has a byte. -/
theorem utf8Bytes_ne_nil (c : UInt32) : utf8Bytes c ≠ [] := by
  unfold utf8Bytes utf8Row
  split_ifs <;> simp

/-- Six bytes fit a block. -/
theorem utf8Bytes_length_le_block (c : UInt32) : (utf8Bytes c).length ≤ outbufBlockSize :=
  (utf8Bytes_length_le c).trans (by decide)

/-- The length of UTF-32 text. -/
theorem utf32Mem_length (bigend : Bool) (c : UInt32) : (utf32Mem bigend c).length = 4 := by
  cases bigend <;> rfl

/-- `one_utf8_to_utf32` takes every character the decoder reads.
Source: `charset.c` `one_utf8_to_utf32`
Kind: L -/
theorem oneUtf8ToUtf32_takes (bigend : Bool) {c : UInt32} (hc : IsCodePoint c)
    (hl : ¬ LostByMask c) : Takes (oneUtf8ToUtf32 bigend) (utf8Bytes c) (utf32Mem bigend c) where
  ne_nil := utf8Bytes_ne_nil c
  length_le := by rw [utf32Mem_length]; decide
  call rest out := by
    rw [oneUtf8ToUtf32, oneUtf8ToCppchar_complete hc hl, utf32Mem_length, ← utf32Bytes_eq]

/-- The decoder finds no pattern for the lead byte of a lost character.
Source: `charset.c` `one_utf8_to_cppchar` (`masks[4]` is `0x02`)
Kind: L -/
theorem oneUtf8ToCppchar_lost {c : UInt32} (hl : LostByMask c) (rest : List UInt8) (cp : UInt32) :
    oneUtf8ToCppchar (utf8Bytes c ++ rest) cp = (some .EILSEQ, utf8Bytes c ++ rest, cp) := by
  obtain ⟨hrow, hodd⟩ := (lostByMask_iff c).mp hl
  have hbig : 0x7F < c.toNat := by
    by_contra hle
    rw [rowLength, if_pos (by omega)] at hrow
    omega
  have hmax : c.toNat ≤ 0x3FFFFFF := UInt32.le_iff_toNat_le.mp hl.2.1
  have key : ∀ v < 4, v % 2 = 1 → ¬ (UInt8.ofNat (leadPattern 5 + v)).toUInt32 < 0x80 ∧
      leadLength (UInt8.ofNat (leadPattern 5 + v)).toUInt32 = none := by decide +kernel
  obtain ⟨hlo, hnone⟩ := key (c.toNat / 64 ^ 4) (by omega) hodd
  rw [utf8Bytes_eq hbig, hrow, List.cons_append]
  simp only [oneUtf8ToCppchar, Nat.add_one_sub_one, if_neg hlo, hnone]

/-- `one_utf8_to_utf32` refuses the characters the decoder loses.
Source: `charset.c` `one_utf8_to_utf32`
Kind: L -/
theorem oneUtf8ToUtf32_refuses (bigend : Bool) {c : UInt32} (hl : LostByMask c) :
    Refuses (oneUtf8ToUtf32 bigend) (utf8Bytes c) 4 .EILSEQ where
  ne_nil := utf8Bytes_ne_nil c
  ne_E2BIG := by decide
  room_le := by decide
  call rest out := by
    rw [oneUtf8ToUtf32, oneUtf8ToCppchar_lost hl]
    split_ifs <;> rfl

/-- What `one_utf32_to_utf8` does with a whole number in front.
Source: `charset.c` `one_utf32_to_utf8`
Kind: L -/
theorem oneUtf32ToUtf8_eq (bigend : Bool) (c : UInt32) (rest : List UInt8) (out : OutBuf) :
    oneUtf32ToUtf8 bigend (utf32Mem bigend c ++ rest) out =
      if c ≥ 0x7FFFFFFF || isSurrogate c then (some .EILSEQ, utf32Mem bigend c ++ rest, out)
      else
        match oneCppcharToUtf8 c out with
        | (some rval, out') => (some rval, utf32Mem bigend c ++ rest, out')
        | (none, out') => (none, rest, out') := by
  have hread := readWord c
  cases bigend <;> simp only [utf32Mem, oneUtf32ToUtf8, List.reverse_cons, List.reverse_nil,
    List.nil_append, List.cons_append, if_true, if_false, Bool.false_eq_true, hread]

/-- `one_utf32_to_utf8` takes every code point below `7FFFFFFF`.
Source: `charset.c` `one_utf32_to_utf8`
Kind: L -/
theorem oneUtf32ToUtf8_takes (bigend : Bool) {c : UInt32} (hc : IsCodePoint c)
    (hmax : c ≠ 0x7FFFFFFF) : Takes (oneUtf32ToUtf8 bigend) (utf32Mem bigend c) (utf8Bytes c) where
  ne_nil := List.ne_nil_of_length_pos (by rw [utf32Mem_length]; decide)
  length_le := utf8Bytes_length_le_block c
  call rest out := by
    have hlt : ¬ c ≥ 0x7FFFFFFF := fun hge => hmax (UInt32.le_antisymm hc.1 hge)
    rw [oneUtf32ToUtf8_eq, oneCppcharToUtf8_call hc.1]
    simp only [hlt, hc.2, decide_false, Bool.or_self, Bool.false_eq_true, if_false]
    split_ifs <;> rfl

/-- `one_utf32_to_utf8` refuses `7FFFFFFF`.
Source: `charset.c` `one_utf32_to_utf8` (`s >= 0x7FFFFFFF`)
Kind: L -/
theorem oneUtf32ToUtf8_refuses (bigend : Bool) :
    Refuses (oneUtf32ToUtf8 bigend) (utf32Mem bigend 0x7FFFFFFF) 0 .EILSEQ where
  ne_nil := List.ne_nil_of_length_pos (by rw [utf32Mem_length]; decide)
  ne_E2BIG := by decide
  room_le := by decide
  call rest out := by
    rw [oneUtf32ToUtf8_eq]
    simp

/-- The UTF-16 the source writes for a character: the comment's, except that `U+FFFF` goes through
the branch for pairs, where `s - 0x10000` wraps.
Source: `charset.c` `one_utf8_to_utf16` (`s < 0xFFFF`) -/
def utf16Written (bigend : Bool) (c : UInt32) : List UInt8 :=
  if c = 0xFFFF then unitMem bigend 0xD7FF ++ unitMem bigend 0xDFFF else utf16Bytes bigend c

/-- A character takes at most four bytes of UTF-16. -/
theorem utf16Bytes_length (bigend : Bool) (c : UInt32) :
    (utf16Bytes bigend c).length = if c.toNat ≤ 0xFFFF then 2 else 4 := by
  unfold utf16Bytes utf16Units unitMem
  split_ifs <;> simp

/-- `one_utf8_to_utf16` takes every code point of UTF-16, `U+FFFF` to a pair that is none.
Source: `charset.c` `one_utf8_to_utf16`
Kind: L -/
theorem oneUtf8ToUtf16_takes (bigend : Bool) {c : UInt32} (hc : IsCodePoint c)
    (hmax : c ≤ 0x10FFFF) :
    Takes (oneUtf8ToUtf16 bigend) (utf8Bytes c) (utf16Written bigend c) where
  ne_nil := utf8Bytes_ne_nil c
  length_le := by
    unfold utf16Written
    split_ifs
    · cases bigend <;> decide
    · rw [utf16Bytes_length]
      split_ifs <;> decide
  call rest out := by
    have hnat : c.toNat ≤ 0x10FFFF := UInt32.le_iff_toNat_le.mp hmax
    have hl : ¬ LostByMask c := fun h => by
      have : 0x200000 ≤ c.toNat := UInt32.le_iff_toNat_le.mp h.1
      omega
    have htop : ¬ c > 0x10FFFF := UInt32.not_lt.mpr hmax
    rw [oneUtf8ToUtf16, oneUtf8ToCppchar_complete hc hl]
    simp only [if_neg htop, unit16Bytes_eq]
    rcases lt_trichotomy c.toNat 0xFFFF with h | h | h
    · have hlt : c < 0xFFFF := UInt32.lt_iff_toNat_lt.mpr h
      have hne : c ≠ 0xFFFF := fun he => by simp [he] at h
      have hbytes : utf16Bytes bigend c = unitMem bigend c.toNat := by
        rw [utf16Bytes, utf16Units, if_pos (by omega), List.flatMap_singleton]
      rw [utf16Written, if_neg hne, utf16Bytes_length, if_pos hlt,
        if_pos (show c.toNat ≤ 0xFFFF by omega), hbytes]
    · obtain rfl : c = 0xFFFF := UInt32.toNat_inj.mp h
      cases bigend <;> rfl
    · have hge : ¬ c < 0xFFFF := by rw [UInt32.lt_iff_toNat_lt]; exact not_lt.mpr h.le
      have hne : c ≠ 0xFFFF := fun he => by simp [he] at h
      have hsub : (c - 0x10000).toNat = c.toNat - 0x10000 :=
        UInt32.toNat_sub_of_le _ _ (UInt32.le_iff_toNat_le.mpr h)
      have hhi : ((c - 0x10000) / 0x400 + 0xD800).toNat =
          (c.toNat - 0x10000) / 0x400 + 0xD800 := by
        simp [UInt32.toNat_add, UInt32.toNat_div, hsub]
        omega
      have hlo : ((c - 0x10000) % 0x400 + 0xDC00).toNat =
          (c.toNat - 0x10000) % 0x400 + 0xDC00 := by
        simp [UInt32.toNat_add, UInt32.toNat_mod, hsub]
        omega
      have hbytes : utf16Bytes bigend c = unitMem bigend ((c.toNat - 0x10000) / 0x400 + 0xD800) ++
          unitMem bigend ((c.toNat - 0x10000) % 0x400 + 0xDC00) := by
        rw [utf16Bytes, utf16Units, if_neg (by omega)]
        simp
      rw [utf16Written, if_neg hne, utf16Bytes_length, if_neg hge,
        if_neg (show ¬ c.toNat ≤ 0xFFFF by omega), hbytes, hhi, hlo]

/-- `one_utf16_to_utf8` at a unit outside the surrogate block.
Source: `charset.c` `one_utf16_to_utf8`
Kind: L -/
theorem oneUtf16ToUtf8_unit (bigend : Bool) {u : ℕ} (hu : u ≤ 0xFFFF)
    (hs : ¬ (0xD800 ≤ u ∧ u ≤ 0xDFFF)) (rest : List UInt8) (out : OutBuf) :
    oneUtf16ToUtf8 bigend (unitMem bigend u ++ rest) out =
      match oneCppcharToUtf8 (UInt32.ofNat u) out with
      | (some rval, out') => (some rval, unitMem bigend u ++ rest, out')
      | (none, out') => (none, rest, out') := by
  have hread := readUnit u hu
  have hnat : (UInt32.ofNat u).toNat = u := by
    rw [UInt32.toNat_ofNat']
    omega
  have hlow : (UInt32.ofNat u ≥ 0xDC00 && UInt32.ofNat u ≤ 0xDFFF) = false := by
    simp only [ge_iff_le, UInt32.le_iff_toNat_le, hnat, UInt32.reduceToNat]
    simp
    omega
  have hhigh : (UInt32.ofNat u ≥ 0xD800 && UInt32.ofNat u ≤ 0xDBFF) = false := by
    simp only [ge_iff_le, UInt32.le_iff_toNat_le, hnat, UInt32.reduceToNat]
    simp
    omega
  cases bigend <;> simp only [unitMem, oneUtf16ToUtf8, List.nil_append, List.cons_append, if_true,
    if_false, Bool.false_eq_true, hread, hlow, hhigh]

/-- `one_utf16_to_utf8` at a surrogate pair.
Source: `charset.c` `one_utf16_to_utf8`
Kind: L -/
theorem oneUtf16ToUtf8_pair (bigend : Bool) {h l : ℕ} (hh : h < 0x400) (hl : l < 0x400)
    (rest : List UInt8) (out : OutBuf) :
    oneUtf16ToUtf8 bigend (unitMem bigend (h + 0xD800) ++ unitMem bigend (l + 0xDC00) ++ rest) out =
      match oneCppcharToUtf8 (UInt32.ofNat (h * 0x400 + l + 0x10000)) out with
      | (some rval, out') =>
        (some rval, unitMem bigend (h + 0xD800) ++ unitMem bigend (l + 0xDC00) ++ rest, out')
      | (none, out') => (none, rest, out') := by
  have hreadh := readUnit (h + 0xD800) (by omega)
  have hreadl := readUnit (l + 0xDC00) (by omega)
  have hnath : (UInt32.ofNat (h + 0xD800)).toNat = h + 0xD800 := by
    rw [UInt32.toNat_ofNat']
    omega
  have hnatl : (UInt32.ofNat (l + 0xDC00)).toNat = l + 0xDC00 := by
    rw [UInt32.toNat_ofNat']
    omega
  have hlow : (UInt32.ofNat (h + 0xD800) ≥ 0xDC00 && UInt32.ofNat (h + 0xD800) ≤ 0xDFFF) =
      false := by
    simp only [ge_iff_le, UInt32.le_iff_toNat_le, hnath, UInt32.reduceToNat]
    simp
    omega
  have hhigh : (UInt32.ofNat (h + 0xD800) ≥ 0xD800 && UInt32.ofNat (h + 0xD800) ≤ 0xDBFF) =
      true := by
    simp only [ge_iff_le, UInt32.le_iff_toNat_le, hnath, UInt32.reduceToNat]
    simp
    omega
  have hpair : (UInt32.ofNat (l + 0xDC00) < 0xDC00 || UInt32.ofNat (l + 0xDC00) > 0xDFFF) =
      false := by
    simp only [gt_iff_lt, UInt32.lt_iff_toNat_lt, hnatl, UInt32.reduceToNat]
    simp
    omega
  have hval : (UInt32.ofNat (h + 0xD800) - 0xD800) * 0x400 + (UInt32.ofNat (l + 0xDC00) - 0xDC00) +
      0x10000 = UInt32.ofNat (h * 0x400 + l + 0x10000) := by
    rw [← UInt32.toNat_inj]
    simp [UInt32.toNat_add, UInt32.toNat_mul]
  have hbig : ¬ UInt32.ofNat (h * 0x400 + l + 0x10000) ≤ 0xFFFF := by
    rw [UInt32.le_iff_toNat_le, UInt32.toNat_ofNat']
    simp
    omega
  cases bigend <;> simp only [unitMem, oneUtf16ToUtf8, List.nil_append, List.cons_append, if_true,
    if_false, Bool.false_eq_true, hreadh, hreadl, hlow, hhigh, hpair, hval, hbig]

/-- `one_utf16_to_utf8` takes every code point of UTF-16.
Source: `charset.c` `one_utf16_to_utf8`
Kind: L -/
theorem oneUtf16ToUtf8_takes (bigend : Bool) {c : UInt32} (hc : IsCodePoint c)
    (hmax : c ≤ 0x10FFFF) :
    Takes (oneUtf16ToUtf8 bigend) (utf16Bytes bigend c) (utf8Bytes c) where
  ne_nil := List.ne_nil_of_length_pos (by rw [utf16Bytes_length]; split_ifs <;> decide)
  length_le := utf8Bytes_length_le_block c
  call rest out := by
    have hnat : c.toNat ≤ 0x10FFFF := UInt32.le_iff_toNat_le.mp hmax
    have hsur := ((isCodePoint_iff c).mp hc).2
    by_cases h : c.toNat ≤ 0xFFFF
    · rw [utf16Bytes, utf16Units, if_pos h, List.flatMap_singleton,
        oneUtf16ToUtf8_unit bigend h hsur, UInt32.ofNat_toNat, oneCppcharToUtf8_call hc.1]
      split_ifs <;> rfl
    · have hval : (c.toNat - 0x10000) / 0x400 * 0x400 + (c.toNat - 0x10000) % 0x400 + 0x10000 =
          c.toNat := by omega
      rw [utf16Bytes, utf16Units, if_neg h, List.flatMap_cons, List.flatMap_singleton,
        oneUtf16ToUtf8_pair bigend (by omega) (by omega), hval, UInt32.ofNat_toNat,
        oneCppcharToUtf8_call hc.1]
      split_ifs <;> rfl

/-! ## Whole strings -/

/-- The conversion `run` **appends** `bytes` to every buffer and reports success, whatever fuel
from some number on it gets.
Source: `charset.c`, comment ("the result appended to TO. On any error, false is returned") -/
def Appends (run : ℕ → StrBuf → Option (Option Errno × StrBuf)) (bytes : List UInt8) : Prop :=
  ∀ buf, ∃ N buf', buf'.text = buf.text ++ bytes ∧ ∀ fuel ≥ N, run fuel buf = some (none, buf')

/-- A conversion appends one text only. -/
theorem Appends.unique {run : ℕ → StrBuf → Option (Option Errno × StrBuf)} {bs bs' : List UInt8}
    (h : Appends run bs) (h' : Appends run bs') : bs = bs' := by
  obtain ⟨N, buf, ht, hrun⟩ := h ⟨[], 0, le_rfl⟩
  obtain ⟨N', buf', ht', hrun'⟩ := h' ⟨[], 0, le_rfl⟩
  have := (hrun (max N N') (le_max_left _ _)).symm.trans (hrun' (max N N') (le_max_right _ _))
  obtain rfl : buf = buf' := by simpa using this
  simpa using ht.symm.trans ht'

/-- A conversion that fails appends nothing. -/
theorem not_appends {run : ℕ → StrBuf → Option (Option Errno × StrBuf)} {e : Errno}
    (h : ∀ buf, ∃ N buf', ∀ fuel ≥ N, run fuel buf = some (some e, buf')) (bs : List UInt8) :
    ¬ Appends run bs := by
  intro ha
  obtain ⟨N, buf, -, hrun⟩ := ha ⟨[], 0, le_rfl⟩
  obtain ⟨N', buf', hrun'⟩ := h ⟨[], 0, le_rfl⟩
  have := (hrun (max N N') (le_max_left _ _)).symm.trans (hrun' (max N N') (le_max_right _ _))
  simp at this

/-- The UTF-16 round trip of the string of `cs`: there is an intermediate text, it is the UTF-16 of
the comment, and converting it gives the string back.
Source: `charset.c` `convert_utf8_utf16`, `convert_utf16_utf8` -/
def RoundTrips16 (bigend : Bool) (cs : List UInt32) : Prop :=
  ∃ mid, Appends (fun fuel => convertUtf8Utf16 fuel bigend (cs.flatMap utf8Bytes)) mid ∧
    mid = cs.flatMap (utf16Bytes bigend) ∧
    Appends (fun fuel => convertUtf16Utf8 fuel bigend mid) (cs.flatMap utf8Bytes)

/-- The UTF-32 round trip of the values `cs`.
Source: `charset.c` `convert_utf32_utf8`, `convert_utf8_utf32` -/
def RoundTrips32 (bigend : Bool) (cs : List UInt32) : Prop :=
  ∃ mid, Appends (fun fuel => convertUtf32Utf8 fuel bigend (cs.flatMap (utf32Mem bigend))) mid ∧
    Appends (fun fuel => convertUtf8Utf32 fuel bigend mid) (cs.flatMap (utf32Mem bigend))

/-- No converter reads from an empty input. -/
theorem converters_nil (bigend : Bool) (out : OutBuf) :
    (∃ rval, oneUtf8ToUtf16 bigend [] out = (rval, [], out)) ∧
      (∃ rval, oneUtf16ToUtf8 bigend [] out = (rval, [], out)) ∧
      (∃ rval, oneUtf8ToUtf32 bigend [] out = (rval, [], out)) ∧
      ∃ rval, oneUtf32ToUtf8 bigend [] out = (rval, [], out) := by
  refine ⟨⟨_, rfl⟩, ⟨_, rfl⟩, ?_, ⟨_, rfl⟩⟩
  unfold oneUtf8ToUtf32
  split_ifs <;> exact ⟨_, rfl⟩

/-- `convert_utf8_utf16` writes what its converter writes.
Source: `charset.c` `convert_utf8_utf16`
Kind: L -/
theorem convertUtf8Utf16_appends (bigend : Bool) {cs : List UInt32}
    (h : ∀ c ∈ cs, IsCodePoint c ∧ c ≤ 0x10FFFF) :
    Appends (fun fuel => convertUtf8Utf16 fuel bigend (cs.flatMap utf8Bytes))
      (cs.flatMap (utf16Written bigend)) :=
  convert_all (fun c hc => oneUtf8ToUtf16_takes bigend (h c hc).1 (h c hc).2)
    (fun out => (converters_nil bigend out).1)

/-- `convert_utf16_utf8` reads the comment's UTF-16.
Source: `charset.c` `convert_utf16_utf8`
Kind: L -/
theorem convertUtf16Utf8_appends (bigend : Bool) {cs : List UInt32}
    (h : ∀ c ∈ cs, IsCodePoint c ∧ c ≤ 0x10FFFF) :
    Appends (fun fuel => convertUtf16Utf8 fuel bigend (cs.flatMap (utf16Bytes bigend)))
      (cs.flatMap utf8Bytes) :=
  convert_all (fun c hc => oneUtf16ToUtf8_takes bigend (h c hc).1 (h c hc).2)
    (fun out => (converters_nil bigend out).2.1)

/-- The text written is UTF-16 exactly when `U+FFFF` does not occur: at its first occurrence the
first unit already differs.
Source: `charset.c` `one_utf8_to_utf16` (`s < 0xFFFF`)
Kind: L -/
theorem utf16Written_flatMap_eq_iff (bigend : Bool) (cs : List UInt32) :
    cs.flatMap (utf16Written bigend) = cs.flatMap (utf16Bytes bigend) ↔ 0xFFFF ∉ cs := by
  induction cs with
  | nil => simp
  | cons c cs ih =>
    rw [List.flatMap_cons, List.flatMap_cons, List.mem_cons, not_or]
    by_cases hc : c = 0xFFFF
    · subst hc
      have hunit : utf16Bytes bigend 0xFFFF = unitMem bigend 0xFFFF := by
        cases bigend <;> decide
      rw [utf16Written, if_pos rfl, hunit]
      cases bigend <;> simp [unitMem]
    · rw [utf16Written, if_neg hc, List.append_cancel_left_eq, ih]
      simp [Ne.symm hc]

/-- `convert_utf32_utf8` writes the table's rows.
Source: `charset.c` `convert_utf32_utf8`
Kind: L -/
theorem convertUtf32Utf8_appends (bigend : Bool) {cs : List UInt32}
    (h : ∀ c ∈ cs, IsCodePoint c) (hmax : 0x7FFFFFFF ∉ cs) :
    Appends (fun fuel => convertUtf32Utf8 fuel bigend (cs.flatMap (utf32Mem bigend)))
      (cs.flatMap utf8Bytes) :=
  convert_all (fun c hc => oneUtf32ToUtf8_takes bigend (h c hc) (fun he => hmax (he ▸ hc)))
    (fun out => (converters_nil bigend out).2.2.2)

/-- `convert_utf32_utf8` fails at the first `7FFFFFFF`.
Source: `charset.c` `convert_utf32_utf8`
Kind: L -/
theorem convertUtf32Utf8_fails (bigend : Bool) {cs : List UInt32}
    (h : ∀ c ∈ cs, IsCodePoint c) (hmax : 0x7FFFFFFF ∈ cs) (bs : List UInt8) :
    ¬ Appends (fun fuel => convertUtf32Utf8 fuel bigend (cs.flatMap (utf32Mem bigend))) bs := by
  obtain ⟨pre, post, rfl, hpre⟩ := List.eq_append_cons_of_mem hmax
  refine not_appends (e := .EILSEQ) (fun buf => ?_) bs
  have htakes : ∀ c ∈ pre, Takes (oneUtf32ToUtf8 bigend) (utf32Mem bigend c) (utf8Bytes c) :=
    fun c hc => oneUtf32ToUtf8_takes bigend (h c (by simp [hc])) (fun he => hpre (he ▸ hc))
  simpa [convertUtf32Utf8] using convert_refused htakes (oneUtf32ToUtf8_refuses bigend)
    (post.flatMap (utf32Mem bigend)) buf

/-- `convert_utf8_utf32` reads the table's rows that are not lost.
Source: `charset.c` `convert_utf8_utf32`
Kind: L -/
theorem convertUtf8Utf32_appends (bigend : Bool) {cs : List UInt32}
    (h : ∀ c ∈ cs, IsCodePoint c) (hlost : ∀ c ∈ cs, ¬ LostByMask c) :
    Appends (fun fuel => convertUtf8Utf32 fuel bigend (cs.flatMap utf8Bytes))
      (cs.flatMap (utf32Mem bigend)) :=
  convert_all (fun c hc => oneUtf8ToUtf32_takes bigend (h c hc) (hlost c hc))
    (fun out => (converters_nil bigend out).2.2.1)

/-- `convert_utf8_utf32` fails at the first lost character.
Source: `charset.c` `convert_utf8_utf32`
Kind: L -/
theorem convertUtf8Utf32_fails (bigend : Bool) {cs : List UInt32}
    (h : ∀ c ∈ cs, IsCodePoint c) {x : UInt32} (hx : x ∈ cs) (hlost : LostByMask x)
    (bs : List UInt8) :
    ¬ Appends (fun fuel => convertUtf8Utf32 fuel bigend (cs.flatMap utf8Bytes)) bs := by
  -- the loop stops at the first lost character, which need not be `x`
  have hsome : (cs.find? fun c => decide (LostByMask c)).isSome :=
    List.find?_isSome.mpr ⟨x, hx, decide_eq_true hlost⟩
  obtain ⟨y, hy⟩ := Option.isSome_iff_exists.mp hsome
  obtain ⟨hlost', pre, post, rfl, hpre⟩ := List.find?_eq_some_iff_append.mp hy
  have htakes : ∀ c ∈ pre, Takes (oneUtf8ToUtf32 bigend) (utf8Bytes c) (utf32Mem bigend c) :=
    fun c hc => oneUtf8ToUtf32_takes bigend (h c (by simp [hc])) (by simpa using hpre c hc)
  refine not_appends (e := .EILSEQ) (fun buf => ?_) bs
  simpa [convertUtf8Utf32] using convert_refused htakes
    (oneUtf8ToUtf32_refuses bigend (of_decide_eq_true hlost')) (post.flatMap utf8Bytes) buf

/-- **UTF-16 round trips**: for a valid string of code points up to `10FFFF`, exactly when `U+FFFF`
does not occur.
Source: `charset.c` `one_utf8_to_utf16`, `one_utf16_to_utf8`, `conversion_loop`
Kind: P -/
theorem utf16_roundTrip_iff (bigend : Bool) {cs : List UInt32}
    (h : ∀ c ∈ cs, IsCodePoint c ∧ c ≤ 0x10FFFF) :
    RoundTrips16 bigend cs ↔ 0xFFFF ∉ cs := by
  rw [← utf16Written_flatMap_eq_iff bigend]
  constructor
  · rintro ⟨mid, happ, rfl, -⟩
    exact (convertUtf8Utf16_appends bigend h).unique happ
  · intro heq
    refine ⟨_, heq ▸ convertUtf8Utf16_appends bigend h, rfl, convertUtf16Utf8_appends bigend h⟩

/-- **UTF-32 round trips**: for a sequence of code points, exactly when neither `7FFFFFFF` nor a
value the decoder's fifth mask loses occurs.
Source: `charset.c` `one_utf32_to_utf8`, `one_utf8_to_utf32`, `conversion_loop`
Kind: P -/
theorem utf32_roundTrip_iff (bigend : Bool) {cs : List UInt32} (h : ∀ c ∈ cs, IsCodePoint c) :
    RoundTrips32 bigend cs ↔ 0x7FFFFFFF ∉ cs ∧ ∀ c ∈ cs, ¬ LostByMask c := by
  constructor
  · rintro ⟨mid, happ, hback⟩
    have hmax : 0x7FFFFFFF ∉ cs := fun hmem => convertUtf32Utf8_fails bigend h hmem mid happ
    obtain rfl := (convertUtf32Utf8_appends bigend h hmax).unique happ
    exact ⟨hmax, fun c hc hlost => convertUtf8Utf32_fails bigend h hc hlost _ hback⟩
  · rintro ⟨hmax, hlost⟩
    exact ⟨_, convertUtf32Utf8_appends bigend h hmax, convertUtf8Utf32_appends bigend h hlost⟩

/-- **The string converters round trip** in either byte order: UTF-16 exactly on the strings without
`U+FFFF`, UTF-32 exactly on the sequences without `7FFFFFFF` and without a lost value.
Source: `charset.c` `convert_utf8_utf16` and its three siblings
Kind: P -/
theorem convert_roundTrips_iff (bigend : Bool) (cs : List UInt32) :
    ((∀ c ∈ cs, IsCodePoint c ∧ c ≤ 0x10FFFF) → (RoundTrips16 bigend cs ↔ 0xFFFF ∉ cs)) ∧
      ((∀ c ∈ cs, IsCodePoint c) →
        (RoundTrips32 bigend cs ↔ 0x7FFFFFFF ∉ cs ∧ ∀ c ∈ cs, ¬ LostByMask c)) :=
  ⟨utf16_roundTrip_iff bigend, utf32_roundTrip_iff bigend⟩

/-- The round trips of a string with a two-byte row and a surrogate pair. -/
theorem convert_roundTrips_example :
    RoundTrips16 true [0xE9, 0x1F600] ∧ RoundTrips32 false [0xE9, 0x1F600] := by
  -- The list is taken apart first: `decide` on the quantifier would run through all of `UInt32`.
  have hpoint : ∀ c ∈ ([0xE9, 0x1F600] : List UInt32), IsCodePoint c ∧ c ≤ 0x10FFFF := by
    simp only [List.forall_mem_cons, List.not_mem_nil, false_imp_iff, implies_true, and_true]
    decide
  have hlost : ∀ c ∈ ([0xE9, 0x1F600] : List UInt32), ¬ LostByMask c := by
    simp only [List.forall_mem_cons, List.not_mem_nil, false_imp_iff, implies_true, and_true]
    decide
  refine ⟨((convert_roundTrips_iff true [0xE9, 0x1F600]).1 hpoint).mpr (by decide), ?_⟩
  exact ((convert_roundTrips_iff false [0xE9, 0x1F600]).2 fun c hc => (hpoint c hc).1).mpr
    ⟨by decide, hlost⟩

/-- `U+FFFF` alone, a valid UTF-8 string, becomes `D7FF DFFF`; and the value `7FFFFFFF` alone is
refused on its way to UTF-8.
Source: `charset.c` `one_utf8_to_utf16` (`s < 0xFFFF`), `one_utf32_to_utf8` (`s >= 0x7FFFFFFF`)
Kind: C -/
theorem convert_roundTrips_fail_at_limits :
    (IsCodePoint 0xFFFF ∧ utf8Bytes 0xFFFF = [0xEF, 0xBF, 0xBF] ∧
      oneUtf8ToUtf16 true [0xEF, 0xBF, 0xBF] ⟨[], 256⟩ =
        (none, [], ⟨[0xD7, 0xFF, 0xDF, 0xFF], 252⟩) ∧ ¬ RoundTrips16 true [0xFFFF]) ∧
      IsCodePoint 0x7FFFFFFF ∧
      oneUtf32ToUtf8 true [0x7F, 0xFF, 0xFF, 0xFF] ⟨[], 256⟩ =
        (some .EILSEQ, [0x7F, 0xFF, 0xFF, 0xFF], ⟨[], 256⟩) ∧ ¬ RoundTrips32 true [0x7FFFFFFF] := by
  have hpoint16 : ∀ c ∈ ([0xFFFF] : List UInt32), IsCodePoint c ∧ c ≤ 0x10FFFF := by
    simp only [List.forall_mem_cons, List.not_mem_nil, false_imp_iff, implies_true, and_true]
    decide
  have hpoint32 : ∀ c ∈ ([0x7FFFFFFF] : List UInt32), IsCodePoint c := by
    simp only [List.forall_mem_cons, List.not_mem_nil, false_imp_iff, implies_true, and_true]
    decide
  refine ⟨⟨by decide, by decide +kernel, by decide +kernel, fun h => ?_⟩, by decide,
    by decide +kernel, fun h => ?_⟩
  · exact (utf16_roundTrip_iff true hpoint16).mp h (by decide)
  · exact ((utf32_roundTrip_iff true hpoint32).mp h).1 (by decide)

end GccCore.Cpp.Charset
