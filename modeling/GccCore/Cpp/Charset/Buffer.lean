import GccCore.Cpp.Charset.Convert

/-!
# `libcpp/charset.c`: conversion and the output buffer

`conversion_loop` resumes after it has grown its buffer in the middle of the input.

* **One character** (`Atomic`): a step reads a character and writes it whole, or leaves all pointers where they are. It is one
  for the four converters (`atomic_oneConversion`).
* **The loop** (`conversionLoop_oneByOne`): it appends what the characters give, each converted into a buffer of its own.
* **All buffers** (`convert_oneByOne`): success and what is appended do not depend on the room in the buffer.
-/

namespace GccCore.Cpp.Charset

/-! ## Conversion without a shared buffer -/

section Model

/-- The conversions between UTF encodings. Source: `charset.c` (`conversion_tab`). -/
inductive UtfConversion
  | utf8Utf32
  | utf8Utf16
  | utf32Utf8
  | utf16Utf8
  deriving DecidableEq

/-- Source: `charset.c` `convert_utf8_utf16`, ..., `convert_utf32_utf8` (`conversion_loop (one_..., ...)`). -/
def UtfConversion.oneConversion (bigend : Bool) : UtfConversion → List UInt8 → OutBuf → Option Errno × List UInt8 × OutBuf
  | .utf8Utf32 => oneUtf8ToUtf32 bigend
  | .utf8Utf16 => oneUtf8ToUtf16 bigend
  | .utf32Utf8 => oneUtf32ToUtf8 bigend
  | .utf16Utf8 => oneUtf16ToUtf8 bigend

/-- The characters one by one, each of them into an empty block of its own: the first error, and the bytes in order.
Source: none: the abstract conversion that the loop is compared with -/
def oneByOne (conv : List UInt8 → OutBuf → Option Errno × List UInt8 × OutBuf) (inbuf : List UInt8) :
    Option Errno × List UInt8 :=
  if inbuf = [] then (none, [])
  else
    match conv inbuf ⟨[], outbufBlockSize⟩ with
    | (some rval, _, _) => (some rval, [])
    | (none, rest, out) =>
      -- a character that is read has bytes
      if rest.length < inbuf.length then
        let (rval, bytes) := oneByOne conv rest
        (rval, out.bytes ++ bytes)
      else (none, [])
termination_by inbuf.length

end Model

/-! ## Steps that are atomic -/

section Steps

variable {conv : List UInt8 → OutBuf → Option Errno × List UInt8 × OutBuf} {inbuf rest d : List UInt8} {n : ℕ} {e : Errno}

/-- The step **reads** a character and writes `d`, or does nothing for lack of room.
Source: `charset.c` (`E2BIG (need more space)`) -/
structure Reads (conv : List UInt8 → OutBuf → Option Errno × List UInt8 × OutBuf) (inbuf rest d : List UInt8) : Prop where
  shorter : rest.length < inbuf.length
  block : d.length ≤ outbufBlockSize
  call : ∀ out, conv inbuf out = if out.left < d.length then (some .E2BIG, inbuf, out) else (none, rest, out.put d)

/-- The step **fails**, once there is room for `n` bytes, and does nothing.
Source: `charset.c` (`EILSEQ (ill-formed input sequence), ir EINVAL (incomplete input sequence)`) -/
structure Fails (conv : List UInt8 → OutBuf → Option Errno × List UInt8 × OutBuf) (inbuf : List UInt8) (n : ℕ) (e : Errno) :
    Prop where
  other : e ≠ .E2BIG
  block : n ≤ outbufBlockSize
  call : ∀ out, conv inbuf out = (if out.left < n then some .E2BIG else some e, inbuf, out)

/-- A step that fails whatever room there is. -/
theorem Fails.of_call (he : e ≠ .E2BIG) (hcall : ∀ out, conv inbuf out = (some e, inbuf, out)) : Fails conv inbuf 0 e :=
  ⟨he, Nat.zero_le _, hcall⟩

/-- **A step is atomic**: it reads and writes a whole character, or leaves the pointers as they are.
Source: `charset.c` `conversion_loop` -/
def Atomic (conv : List UInt8 → OutBuf → Option Errno × List UInt8 × OutBuf) : Prop :=
  ∀ inbuf, (∃ rest d, Reads conv inbuf rest d) ∨ ∃ n e, Fails conv inbuf n e

/-- **Lack of room** leaves all four pointers unchanged. Source: `charset.c` (`return E2BIG`). Kind: L -/
theorem Atomic.unchanged (h : Atomic conv) {out : OutBuf} (hbig : (conv inbuf out).1 = some .E2BIG) :
    (conv inbuf out).2 = (inbuf, out) := by
  rcases h inbuf with ⟨rest, d, hreads⟩ | ⟨n, e, hfails⟩
  · rw [hreads.call] at hbig ⊢
    split_ifs at hbig ⊢
    rfl
  · rw [hfails.call]

theorem Reads.oneByOne_eq (h : Reads conv inbuf rest d) :
    oneByOne conv inbuf = ((oneByOne conv rest).1, d ++ (oneByOne conv rest).2) := by
  have hne : inbuf ≠ [] := by
    rintro rfl
    exact absurd h.shorter (by simp)
  have hroom : ¬ (⟨[], outbufBlockSize⟩ : OutBuf).left < d.length := not_lt.mpr h.block
  rw [oneByOne, if_neg hne, h.call, if_neg hroom]
  simp [h.shorter, OutBuf.put]

theorem Fails.oneByOne_eq (h : Fails conv inbuf n e) (hne : inbuf ≠ []) : oneByOne conv inbuf = (some e, []) := by
  have hroom : ¬ (⟨[], outbufBlockSize⟩ : OutBuf).left < n := not_lt.mpr h.block
  rw [oneByOne, if_neg hne, h.call, if_neg hroom]

theorem oneByOne_nil : oneByOne conv [] = (none, []) := by rw [oneByOne, if_pos rfl]

end Steps

/-! ## The loop -/

section Loop

variable {conv : List UInt8 → OutBuf → Option Errno × List UInt8 × OutBuf}

/-- What the loop leaves in the buffer: on success the text that stood there and the bytes, on failure its text.
Source: `charset.c` `conversion_loop` -/
def leaves (result : Option Errno × List UInt8) (written text : List UInt8) : List UInt8 :=
  if result.1 = none then written ++ result.2 else text

/-- **The loop** over the rest of the input, from any place in the buffer, and with any room there.
Source: `charset.c` `conversion_loop`
Kind: L -/
theorem conversionLoop_oneByOne (h : Atomic conv) {inbuf : List UInt8} (hne : inbuf ≠ []) {out : OutBuf} {buf : StrBuf}
    (hfill : out.FillsTo buf) :
    ∃ buf', (∀ fuel ≥ 2 * inbuf.length, conversionLoop conv fuel inbuf out buf = some ((oneByOne conv inbuf).1, buf')) ∧
      buf'.text = leaves (oneByOne conv inbuf) out.bytes buf.text := by
  induction hlen : inbuf.length using Nat.strong_induction_on generalizing inbuf out buf with
  | _ len ih =>
    subst hlen
    have hpos : 0 < inbuf.length := List.length_pos_iff.mpr hne
    rcases h inbuf with ⟨rest, d, hreads⟩ | ⟨n, e, hfails⟩
    · -- with room, the character is written whole
      have hroomy : ∀ {out : OutBuf} {buf : StrBuf}, out.FillsTo buf → d.length ≤ out.left →
          ∃ buf', (∀ fuel ≥ 2 * inbuf.length - 1,
              conversionLoop conv fuel inbuf out buf = some ((oneByOne conv inbuf).1, buf')) ∧
            buf'.text = leaves (oneByOne conv inbuf) out.bytes buf.text := by
        intro out buf hfill hroom
        have hcall := hreads.call out
        rw [if_neg (not_lt.mpr hroom)] at hcall
        by_cases hrest : rest = []
        · subst hrest
          refine ⟨buf.close (out.put d), fun fuel hfuel => ?_, ?_⟩
          · obtain ⟨fuel, rfl⟩ : ∃ fuel', fuel = fuel' + 1 := ⟨fuel - 1, by omega⟩
            simp [conversionLoop, hcall, hreads.oneByOne_eq, oneByOne_nil]
          · rw [StrBuf.close_text (hfill.put hroom), hreads.oneByOne_eq, oneByOne_nil]
            simp [leaves, OutBuf.put]
        · obtain ⟨buf', hrun, htext⟩ := ih rest.length hreads.shorter hrest (hfill.put hroom) rfl
          refine ⟨buf', fun fuel hfuel => ?_, ?_⟩
          · obtain ⟨fuel, rfl⟩ : ∃ fuel', fuel = fuel' + 1 := ⟨fuel - 1, by omega⟩
            have hshort := hreads.shorter
            rw [hreads.oneByOne_eq, ← hrun fuel (by omega)]
            simp [conversionLoop, hcall, hrest]
          · rw [htext, hreads.oneByOne_eq]
            simp [leaves, OutBuf.put, List.append_assoc]
      by_cases hroom : d.length ≤ out.left
      · obtain ⟨buf', hrun, htext⟩ := hroomy hfill hroom
        exact ⟨buf', fun fuel hfuel => hrun fuel (by omega), htext⟩
      · -- without room, the loop starts again in a larger buffer
        obtain ⟨buf', hrun, htext⟩ := hroomy hfill.grow (hreads.block.trans (Nat.le_add_left _ _))
        refine ⟨buf', fun fuel hfuel => ?_, htext⟩
        obtain ⟨fuel, rfl⟩ : ∃ fuel', fuel = fuel' + 1 := ⟨fuel - 1, by omega⟩
        have hcall := hreads.call out
        rw [if_pos (not_le.mp hroom)] at hcall
        rw [conversionLoop_grow hne hcall, hrun fuel (by omega)]
    · have hroomy : ∀ {out : OutBuf} {buf : StrBuf}, n ≤ out.left → ∀ fuel ≥ 1,
          conversionLoop conv fuel inbuf out buf = some ((oneByOne conv inbuf).1, buf) := by
        intro out buf hroom fuel hfuel
        obtain ⟨fuel, rfl⟩ : ∃ fuel', fuel = fuel' + 1 := ⟨fuel - 1, by omega⟩
        have hcall := hfails.call out
        rw [if_neg (not_lt.mpr hroom)] at hcall
        simp [conversionLoop, hcall, hne, hfails.other, hfails.oneByOne_eq hne]
      have htext : ∀ written text, leaves (oneByOne conv inbuf) written text = text := by
        simp [hfails.oneByOne_eq hne, leaves]
      by_cases hroom : n ≤ out.left
      · exact ⟨buf, fun fuel hfuel => hroomy hroom fuel (by omega), (htext _ _).symm⟩
      · refine ⟨buf.grow, fun fuel hfuel => ?_, (htext _ _).symm⟩
        obtain ⟨fuel, rfl⟩ : ∃ fuel', fuel = fuel' + 1 := ⟨fuel - 1, by omega⟩
        have hcall := hfails.call out
        rw [if_pos (not_le.mp hroom)] at hcall
        rw [conversionLoop_grow hne hcall]
        exact hroomy (hfails.block.trans (Nat.le_add_left _ _)) fuel (by omega)

/-- **A whole run** of the loop, from its entry. Source: `charset.c` `conversion_loop`. Kind: L -/
theorem Atomic.convert_eq (h : Atomic conv) (from_ : List UInt8) (buf : StrBuf) :
    ∃ buf', (∀ fuel ≥ 2 * from_.length + 1, convert conv fuel from_ buf = some ((oneByOne conv from_).1, buf')) ∧
      buf'.text = leaves (oneByOne conv from_) buf.text buf.text := by
  have hfill : OutBuf.FillsTo ⟨buf.text, buf.asize - buf.text.length⟩ buf := Nat.add_sub_cancel' buf.len_le
  by_cases hne : from_ = []
  · subst hne
    refine ⟨buf.close ⟨buf.text, buf.asize - buf.text.length⟩, fun fuel hfuel => ?_, ?_⟩
    · obtain ⟨fuel, rfl⟩ : ∃ fuel', fuel = fuel' + 1 := ⟨fuel - 1, by omega⟩
      rcases h [] with ⟨rest, d, hreads⟩ | ⟨n, e, hfails⟩
      · exact absurd hreads.shorter (by simp)
      · simp [convert, conversionLoop, hfails.call, oneByOne_nil]
    · rw [StrBuf.close_text hfill, oneByOne_nil]
      simp [leaves]
  · obtain ⟨buf', hrun, htext⟩ := conversionLoop_oneByOne h hne hfill
    exact ⟨buf', fun fuel hfuel => hrun fuel (by omega), htext⟩

end Loop

/-! ## The converters -/

section Converters

/-- A character that is read has bytes, and an error of the decoder is no lack of room.
Source: `charset.c` `one_utf8_to_cppchar`
Kind: L -/
theorem oneUtf8ToCppchar_progress {inbuf rest : List UInt8} {cp c : UInt32} {rval : Option Errno}
    (h : oneUtf8ToCppchar inbuf cp = (rval, rest, c)) :
    rval = none ∧ rest.length < inbuf.length ∨ (∃ e, rval = some e ∧ e ≠ .E2BIG) ∧ rest = inbuf := by
  rcases rval with _ | e
  · left
    have hne := List.length_pos_iff.mpr (utf8Bytes_ne_nil c)
    rw [(oneUtf8ToCppchar_sound h).1, List.length_append]
    exact ⟨rfl, by omega⟩
  · right
    refine ⟨⟨e, rfl, ?_⟩, (oneUtf8ToCppchar_error h).1⟩
    rintro rfl
    unfold oneUtf8ToCppchar at h
    grind

/-- The loop of the encoder stores one byte a pass. Source: `charset.c` `one_cppchar_to_utf8`. Kind: L -/
theorem encLoop_length_le (k : ℕ) (c : UInt32) (nbytes : ℕ) (p : List UInt8) :
    (encLoop k c nbytes p).2.2.length ≤ p.length + k + 1 := by
  induction k generalizing c nbytes p with
  | zero => simp [encLoop]
  | succ k ih =>
    rw [encLoop]
    split_ifs
    · refine (ih _ _ _).trans ?_
      rw [List.length_cons]
      omega
    · rw [List.length_cons]
      omega

/-- An encoded character fits a block. Source: `charset.c` `one_cppchar_to_utf8` (`uchar buf[6]`). Kind: L -/
theorem cppcharBuf_length_le (c : UInt32) : (cppcharBuf c).length ≤ outbufBlockSize := by
  have hloop := encLoop_length_le 4 c 1 []
  unfold cppcharBuf outbufBlockSize
  rcases hrun : encLoop 4 c 1 [] with ⟨c', nbytes, p⟩
  rw [hrun, List.length_nil] at hloop
  split_ifs
  · simp
  · rw [List.length_cons]
    dsimp only at hloop
    omega

/-- A character is encoded whole, or not at all. Source: `charset.c` `one_cppchar_to_utf8`. Kind: L -/
theorem oneCppcharToUtf8_put (s : UInt32) (out : OutBuf) :
    oneCppcharToUtf8 s out =
      if out.left < (cppcharBuf s).length then (some .E2BIG, out) else (none, out.put (cppcharBuf s)) := rfl

theorem atomic_oneUtf8ToUtf32 (bigend : Bool) : Atomic (oneUtf8ToUtf32 bigend) := by
  intro inbuf
  rcases hdec : oneUtf8ToCppchar inbuf 0 with ⟨rval, rest, s⟩
  have hlen : (utf32Bytes bigend s).length = 4 := by cases bigend <;> rfl
  rcases oneUtf8ToCppchar_progress hdec with ⟨rfl, hshort⟩ | ⟨⟨e, rfl, he⟩, rfl⟩
  · refine .inl ⟨rest, utf32Bytes bigend s, hshort, by rw [hlen, outbufBlockSize]; omega, fun out => ?_⟩
    rw [hlen, oneUtf8ToUtf32, hdec]
  · refine .inr ⟨4, e, he, by rw [outbufBlockSize]; omega, fun out => ?_⟩
    rw [oneUtf8ToUtf32, hdec]
    split_ifs <;> rfl

theorem atomic_oneUtf8ToUtf16 (bigend : Bool) : Atomic (oneUtf8ToUtf16 bigend) := by
  intro inbuf
  rcases hdec : oneUtf8ToCppchar inbuf 0 with ⟨rval, rest, s⟩
  have hlen : ∀ u, (unit16Bytes bigend u).length = 2 := fun u => by cases bigend <;> rfl
  rcases oneUtf8ToCppchar_progress hdec with ⟨rfl, hshort⟩ | ⟨⟨e, rfl, he⟩, rfl⟩
  · by_cases hlarge : s > 0x0010FFFF
    · -- the pointers are put back
      refine .inr ⟨0, .EILSEQ, .of_call (by simp) fun out => ?_⟩
      rw [oneUtf8ToUtf16, hdec]
      exact if_pos hlarge
    · by_cases hsmall : s < 0xFFFF
      · refine .inl ⟨rest, unit16Bytes bigend s, hshort, by rw [hlen, outbufBlockSize]; omega, fun out => ?_⟩
        rw [hlen, oneUtf8ToUtf16, hdec]
        dsimp only
        rw [if_neg hlarge, if_pos hsmall]
      · refine .inl ⟨rest, unit16Bytes bigend ((s - 0x10000) / 0x400 + 0xD800) ++ unit16Bytes bigend ((s - 0x10000) % 0x400 + 0xDC00),
          hshort, by rw [List.length_append, hlen, hlen, outbufBlockSize]; omega, fun out => ?_⟩
        rw [List.length_append, hlen, hlen, oneUtf8ToUtf16, hdec]
        dsimp only
        rw [if_neg hlarge, if_neg hsmall]
  · refine .inr ⟨0, e, .of_call he fun out => ?_⟩
    rw [oneUtf8ToUtf16, hdec]

theorem atomic_oneUtf32ToUtf8 (bigend : Bool) : Atomic (oneUtf32ToUtf8 bigend) := by
  rintro (_ | ⟨i0, _ | ⟨i1, _ | ⟨i2, _ | ⟨i3, rest⟩⟩⟩⟩)
  · exact .inr ⟨0, .EINVAL, .of_call (by simp) fun out => rfl⟩
  · exact .inr ⟨0, .EINVAL, .of_call (by simp) fun out => rfl⟩
  · exact .inr ⟨0, .EINVAL, .of_call (by simp) fun out => rfl⟩
  · exact .inr ⟨0, .EINVAL, .of_call (by simp) fun out => rfl⟩
  · generalize hs : ((if bigend then i0 else i3).toUInt32 <<< 24) + ((if bigend then i1 else i2).toUInt32 <<< 16) +
      ((if bigend then i2 else i1).toUInt32 <<< 8) + (if bigend then i3 else i0).toUInt32 = s
    by_cases hbad : (s ≥ 0x7FFFFFFF || isSurrogate s) = true
    · refine .inr ⟨0, .EILSEQ, .of_call (by simp) fun out => ?_⟩
      simp only [oneUtf32ToUtf8, hs, if_pos hbad]
    · refine .inl ⟨rest, cppcharBuf s, by simp only [List.length_cons]; omega, cppcharBuf_length_le s, fun out => ?_⟩
      simp only [oneUtf32ToUtf8, hs, if_neg hbad, oneCppcharToUtf8_put]
      split_ifs <;> rfl

theorem atomic_oneUtf16ToUtf8 (bigend : Bool) : Atomic (oneUtf16ToUtf8 bigend) := by
  rintro (_ | ⟨i0, _ | ⟨i1, rest⟩⟩)
  · exact .inr ⟨0, .EINVAL, .of_call (by simp) fun out => rfl⟩
  · exact .inr ⟨0, .EINVAL, .of_call (by simp) fun out => rfl⟩
  · generalize hs : ((if bigend then i0 else i1).toUInt32 <<< 8) + (if bigend then i1 else i0).toUInt32 = s
    by_cases hlow : (s ≥ 0xDC00 && s ≤ 0xDFFF) = true
    · refine .inr ⟨0, .EILSEQ, .of_call (by simp) fun out => ?_⟩
      simp only [oneUtf16ToUtf8, hs, if_pos hlow]
    · by_cases hhigh : (s ≥ 0xD800 && s ≤ 0xDBFF) = true
      · rcases rest with _ | ⟨i2, _ | ⟨i3, rest⟩⟩
        · refine .inr ⟨0, .EINVAL, .of_call (by simp) fun out => ?_⟩
          simp only [oneUtf16ToUtf8, hs, if_neg hlow, if_pos hhigh]
        · refine .inr ⟨0, .EINVAL, .of_call (by simp) fun out => ?_⟩
          simp only [oneUtf16ToUtf8, hs, if_neg hlow, if_pos hhigh]
        · generalize hlo : ((if bigend then i2 else i3).toUInt32 <<< 8) + (if bigend then i3 else i2).toUInt32 = lo
          by_cases hbad : (lo < 0xDC00 || lo > 0xDFFF) = true
          · refine .inr ⟨0, .EILSEQ, .of_call (by simp) fun out => ?_⟩
            simp only [oneUtf16ToUtf8, hs, hlo, if_neg hlow, if_pos hhigh, if_pos hbad]
          · generalize hv : (s - 0xD800) * 0x400 + (lo - 0xDC00) + 0x10000 = v
            refine .inl ⟨if v ≤ 0xFFFF then i2 :: i3 :: rest else rest, cppcharBuf v, ?_, cppcharBuf_length_le v,
              fun out => ?_⟩
            · split_ifs <;> simp only [List.length_cons] <;> omega
            · unfold oneUtf16ToUtf8
              dsimp only
              rw [hs, if_neg hlow, if_pos hhigh, hlo, if_neg hbad, hv, oneCppcharToUtf8_put]
              split_ifs <;> rfl
      · refine .inl ⟨rest, cppcharBuf s, by simp only [List.length_cons]; omega, cppcharBuf_length_le s, fun out => ?_⟩
        unfold oneUtf16ToUtf8
        dsimp only
        rw [hs, if_neg hlow, if_neg hhigh, oneCppcharToUtf8_put]
        split_ifs <;> rfl

/-- **The four converters** are atomic. Source: `charset.c` `one_utf8_to_utf32`, ..., `one_utf16_to_utf8`. Kind: L -/
theorem atomic_oneConversion (bigend : Bool) (conversion : UtfConversion) : Atomic (conversion.oneConversion bigend) := by
  cases conversion
  · exact atomic_oneUtf8ToUtf32 bigend
  · exact atomic_oneUtf8ToUtf16 bigend
  · exact atomic_oneUtf32ToUtf8 bigend
  · exact atomic_oneUtf16ToUtf8 bigend

/-- **The buffer** does not matter: for every input there is one result and one list of bytes, those of the characters one by
one, such that the loop returns that result from every buffer, appends the bytes if it is a success, and leaves the text if it
is a failure. A step that lacks room changes no pointer.
Source: `charset.c` `conversion_loop`
Kind: C -/
theorem convert_oneByOne (bigend : Bool) (conversion : UtfConversion) :
    (∀ (from_ : List UInt8) (buf : StrBuf), ∃ buf',
      (∀ fuel ≥ 2 * from_.length + 1, convert (conversion.oneConversion bigend) fuel from_ buf =
        some ((oneByOne (conversion.oneConversion bigend) from_).1, buf')) ∧
      ((oneByOne (conversion.oneConversion bigend) from_).1 = none →
        buf'.text = buf.text ++ (oneByOne (conversion.oneConversion bigend) from_).2) ∧
      ((oneByOne (conversion.oneConversion bigend) from_).1 ≠ none → buf'.text = buf.text)) ∧
    ∀ inbuf out, (conversion.oneConversion bigend inbuf out).1 = some .E2BIG →
      (conversion.oneConversion bigend inbuf out).2 = (inbuf, out) := by
  have hatomic := atomic_oneConversion bigend conversion
  refine ⟨fun from_ buf => ?_, fun inbuf out => hatomic.unchanged⟩
  obtain ⟨buf', hrun, htext⟩ := hatomic.convert_eq from_ buf
  refine ⟨buf', hrun, fun hok => ?_, fun hbad => ?_⟩
  · rw [htext, leaves, if_pos hok]
  · rw [htext, leaves, if_neg hbad]

end Converters

end GccCore.Cpp.Charset
