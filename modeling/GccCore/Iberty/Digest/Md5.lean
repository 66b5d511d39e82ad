import GccCore.Iberty.Digest.Basic

/-!
# `libiberty/md5.c`: the MD5 digest of a message that comes in chunks

* **One call** (`processBytes_spec`): it takes all bytes of its chunk, except where it loses a block
  (`LosesBlock`): blocks are copied one by one because of the alignment, the last 64 bytes remain, and the
  length is then reduced as if they had been compressed.
* **The end** (`finishCtx_spec`): the padding is appended to the carried bytes.
* **The digest** (`md5_independent_of_chunks_iff`): in a whole computation the counts and the digest are always
  right if and only if no call loses a block.
-/

namespace GccCore.Iberty.Digest.Md5

open GccCore.Lib GccCore.Lib.BlockStream GccCore.Lib.Words

/-! ## The functions -/

/-- Source: `md5.h` `struct md5_ctx` (`A` to `D`). -/
structure Regs where
  a : BitVec 32
  b : BitVec 32
  c : BitVec 32
  d : BitVec 32

/-- Source: `md5.c` (`SWAP`). -/
def swap (host : Host) (n : BitVec 32) : BitVec 32 := if host.order = .big then swapBytes n else n

/-- Source: `md5.c` (`CYCLIC`). -/
def cyclic (w : BitVec 32) (s : ℕ) : BitVec 32 := (w <<< s) ||| (w >>> (32 - s))

/-- Source: `md5.c` (`FF`). -/
def ff (b c d : BitVec 32) : BitVec 32 := d ^^^ (b &&& (c ^^^ d))

/-- Source: `md5.c` (`FG`). -/
def fg (b c d : BitVec 32) : BitVec 32 := ff d b c

/-- Source: `md5.c` (`FH`). -/
def fh (b c d : BitVec 32) : BitVec 32 := b ^^^ c ^^^ d

/-- Source: `md5.c` (`FI`). -/
def fi (b c d : BitVec 32) : BitVec 32 := c ^^^ (b ||| ~~~d)

/-- One use of `OP`: the function, the word, the rotation and the constant. Source: `md5.c` (`OP`). -/
abbrev Op := (BitVec 32 → BitVec 32 → BitVec 32 → BitVec 32) × ℕ × ℕ × BitVec 32

/-- Source: `md5.c` `md5_process_block` (rounds 1 to 4). -/
def ops : List Op :=
  [ -- Round 1.
    (ff, 0, 7, 0xd76aa478#32), (ff, 1, 12, 0xe8c7b756#32),
    (ff, 2, 17, 0x242070db#32), (ff, 3, 22, 0xc1bdceee#32),
    (ff, 4, 7, 0xf57c0faf#32), (ff, 5, 12, 0x4787c62a#32),
    (ff, 6, 17, 0xa8304613#32), (ff, 7, 22, 0xfd469501#32),
    (ff, 8, 7, 0x698098d8#32), (ff, 9, 12, 0x8b44f7af#32),
    (ff, 10, 17, 0xffff5bb1#32), (ff, 11, 22, 0x895cd7be#32),
    (ff, 12, 7, 0x6b901122#32), (ff, 13, 12, 0xfd987193#32),
    (ff, 14, 17, 0xa679438e#32), (ff, 15, 22, 0x49b40821#32),
    -- Round 2.
    (fg, 1, 5, 0xf61e2562#32), (fg, 6, 9, 0xc040b340#32),
    (fg, 11, 14, 0x265e5a51#32), (fg, 0, 20, 0xe9b6c7aa#32),
    (fg, 5, 5, 0xd62f105d#32), (fg, 10, 9, 0x02441453#32),
    (fg, 15, 14, 0xd8a1e681#32), (fg, 4, 20, 0xe7d3fbc8#32),
    (fg, 9, 5, 0x21e1cde6#32), (fg, 14, 9, 0xc33707d6#32),
    (fg, 3, 14, 0xf4d50d87#32), (fg, 8, 20, 0x455a14ed#32),
    (fg, 13, 5, 0xa9e3e905#32), (fg, 2, 9, 0xfcefa3f8#32),
    (fg, 7, 14, 0x676f02d9#32), (fg, 12, 20, 0x8d2a4c8a#32),
    -- Round 3.
    (fh, 5, 4, 0xfffa3942#32), (fh, 8, 11, 0x8771f681#32),
    (fh, 11, 16, 0x6d9d6122#32), (fh, 14, 23, 0xfde5380c#32),
    (fh, 1, 4, 0xa4beea44#32), (fh, 4, 11, 0x4bdecfa9#32),
    (fh, 7, 16, 0xf6bb4b60#32), (fh, 10, 23, 0xbebfbc70#32),
    (fh, 13, 4, 0x289b7ec6#32), (fh, 0, 11, 0xeaa127fa#32),
    (fh, 3, 16, 0xd4ef3085#32), (fh, 6, 23, 0x04881d05#32),
    (fh, 9, 4, 0xd9d4d039#32), (fh, 12, 11, 0xe6db99e5#32),
    (fh, 15, 16, 0x1fa27cf8#32), (fh, 2, 23, 0xc4ac5665#32),
    -- Round 4.
    (fi, 0, 6, 0xf4292244#32), (fi, 7, 10, 0x432aff97#32),
    (fi, 14, 15, 0xab9423a7#32), (fi, 5, 21, 0xfc93a039#32),
    (fi, 12, 6, 0x655b59c3#32), (fi, 3, 10, 0x8f0ccc92#32),
    (fi, 10, 15, 0xffeff47d#32), (fi, 1, 21, 0x85845dd1#32),
    (fi, 8, 6, 0x6fa87e4f#32), (fi, 15, 10, 0xfe2ce6e0#32),
    (fi, 6, 15, 0xa3014314#32), (fi, 13, 21, 0x4e0811a1#32),
    (fi, 4, 6, 0xf7537e82#32), (fi, 11, 10, 0xbd3af235#32),
    (fi, 2, 15, 0x2ad7d2bb#32), (fi, 9, 21, 0xeb86d391#32)]

/-- One use of `OP`. The next one has its arguments rotated, which the result already is. Source: `md5.c` (`OP`). -/
def op (correctWords : List (BitVec 32)) (r : Regs) (o : Op) : Regs :=
  let a := r.a + (o.1 r.b r.c r.d + correctWords.getD o.2.1 0 + o.2.2.2)
  { a := r.d, b := cyclic a o.2.2.1 + r.b, c := r.b, d := r.c }

/-- The words of one block. Source: `md5.c` `md5_process_block` (`while (words < endp)`). -/
def compressWords (ctx : Regs) (correctWords : List (BitVec 32)) : Regs :=
  let r := ops.foldl (op correctWords) ctx
  { a := r.a + ctx.a, b := r.b + ctx.b, c := r.c + ctx.c, d := r.d + ctx.d }

/-- One block. Source: `md5.c` `md5_process_block`. -/
def compress (host : Host) (ctx : Regs) (block : List Byte) : Regs :=
  compressWords ctx ((words block).map fun w => swap host (host.order.decode w))

/-- Source: `md5.c` `md5_init_ctx`. -/
def initRegs : Regs := ⟨0x67452301#32, 0xefcdab89#32, 0x98badcfe#32, 0x10325476#32⟩

/-- Source: `md5.c` `md5_init_ctx`. -/
def initCtx (buffer : FixedBuffer Byte 128) : Ctx Regs := ⟨initRegs, ⟨0, 0⟩, 0, buffer⟩

/-- Source: `md5.c` `md5_read_ctx`. -/
def readCtx (host : Host) (ctx : Ctx Regs) : List Byte :=
  [ctx.regs.a, ctx.regs.b, ctx.regs.c, ctx.regs.d].flatMap fun w =>
    (host.order.encode (swap host w)).bytes

/-- Source: `md5.c` `md5_finish_ctx`. -/
def finishCtx (host : Host) (ctx : Ctx Regs) : Option (List Byte) := do
  let bytes := ctx.buflen
  let total := ctx.total.add bytes
  let pad := if bytes ≥ 56 then 64 + 56 - bytes else 56 - bytes
  let fill ← fillbuf.read 0 pad
  let buffer ← ctx.buffer.write bytes fill
  let low := host.order.encode (swap host (total.t0 <<< 3))
  let high := host.order.encode (swap host ((total.t1 <<< 3) ||| (total.t0 >>> 29)))
  let buffer ← buffer.write (bytes + pad) low.bytes
  let buffer ← buffer.write (bytes + pad + 4) high.bytes
  let blocks ← buffer.read 0 (bytes + pad + 8)
  some (readCtx host (processBlock (compress host) blocks { ctx with total := total, buffer := buffer }))

/-- What stands behind the choice is executed for both branches. Source: `md5.c` `md5_process_bytes`
(`len > 64`) -/
def completeBlocks (host : Host) (buffer : Chunk) (ctx : Ctx Regs) : Option (Ctx Regs × Chunk) :=
  if buffer.bytes.length > 64 then do
    let processed ←
      if host.unaligned buffer then copyBlocks (compress host) buffer ctx
      else
        let blocks := buffer.bytes.take (wholeBlocks buffer.bytes.length)
        some (processBlock (compress host) blocks ctx, buffer)
    some (processed.1, processed.2.advance (wholeBlocks processed.2.bytes.length))
  else some (ctx, buffer)

/-- Source: `md5.c` `md5_process_bytes` (`len > 0`). -/
def moveRemaining (buffer : Chunk) (ctx : Ctx Regs) : Option (Ctx Regs) :=
  if buffer.bytes.length > 0 then do
    let copied ← ctx.buffer.write 0 buffer.bytes
    some { ctx with buffer := copied, buflen := buffer.bytes.length }
  else some ctx

/-- Source: `md5.c` `md5_process_bytes`. -/
def processBytes (host : Host) (buffer : Chunk) (ctx : Ctx Regs) : Option (Ctx Regs) := do
  let filled ← fillBuffer (compress host) buffer ctx
  let completed ← completeBlocks host filled.2 filled.1
  moveRemaining completed.2 completed.1

/-- The calls of one computation, without the last one. Source: `md5.h` `md5_process_bytes`. -/
def processChunks (host : Host) (chunks : List Chunk) (ctx : Ctx Regs) : Option (Ctx Regs) :=
  chunks.foldlM (fun ctx buffer => processBytes host buffer ctx) ctx

/-! ## What the digest is -/

/-- Blocks of little-endian words. -/
def compressBlock (regs : Regs) (block : List Byte) : Regs :=
  compressWords regs ((words block).map ByteOrder.little.decode)

/-- The registers as little-endian words. -/
def Regs.bytes (regs : Regs) : List Byte :=
  [regs.a, regs.b, regs.c, regs.d].flatMap fun w => (ByteOrder.little.encode w).bytes

/-- **The digest of a message**: the blocks of the padded message are compressed. -/
def digest (m : List Byte) : List Byte :=
  (absorb compressBlock 64 initRegs (m ++ padding .little m.length)).bytes

/-- All whole blocks are copied one by one, so that 64 bytes remain, and these are skipped.
Source: `md5.c` `md5_process_bytes` (`len > 64`) -/
def LosesBlock (host : Host) (ctx : Ctx Regs) (buffer : Chunk) : Prop :=
  host.unaligned (buffer.advance (taken ctx buffer.bytes.length)) = true ∧
    64 < buffer.bytes.length - taken ctx buffer.bytes.length ∧
    64 ∣ buffer.bytes.length - taken ctx buffer.bytes.length

/-- **What is promised** between two calls, when the bytes of the chunks so far are `m`. Source: `md5.h`. -/
structure Right (host : Host) (ctx : Ctx Regs) (m : List Byte) : Prop where
  buflen_le : ctx.buflen ≤ 64
  count_eq : (ctx.total.count + ctx.buflen) % 2 ^ 64 = m.length % 2 ^ 64
  exact : m.length < 2 ^ 64 → ctx.total.count + ctx.buflen = m.length
  digest_eq : finishCtx host ctx = some (digest m)

/-! ## The host -/

section Host

variable (host : Host)

/-- Words are stored little-endian on every host. Source: `md5.c` (`SWAP`). Kind: L -/
theorem encode_swap (n : BitVec 32) : host.order.encode (swap host n) = ByteOrder.little.encode n := by
  unfold swap
  split_ifs with h
  · rw [swapBytes_eq, h]
    exact Words.encode_swap (by decide) n
  · cases horder : host.order with
    | little => rfl
    | big => exact absurd horder h

/-- Words are read little-endian on every host. Source: `md5.c` (`SWAP`). Kind: L -/
theorem swap_decode (w : Word) : swap host (host.order.decode w) = ByteOrder.little.decode w := by
  unfold swap
  split_ifs with h
  · rw [swapBytes_eq, h]
    exact Words.swap_decode (by decide) w
  · cases horder : host.order with
    | little => rfl
    | big => exact absurd horder h

theorem compress_eq : compress host = compressBlock := by
  funext regs block
  unfold compress compressBlock
  simp only [swap_decode]

theorem readCtx_eq (ctx : Ctx Regs) : readCtx host ctx = ctx.regs.bytes := by
  unfold readCtx Regs.bytes
  simp only [encode_swap]

end Host

/-! ## The calls -/

section Calls

variable (host : Host) {ctx : Ctx Regs} {m : List Byte}

theorem completeBlocks_spec (buffer : Chunk) (hz : ctx.buflen = 0)
    (h : Consumed compressBlock initRegs ctx.regs ctx.total m []) :
    ∃ ctx' rest l, completeBlocks host buffer ctx = some (ctx', rest) ∧ ctx'.buflen = 0 ∧
      Consumed compressBlock initRegs ctx'.regs ctx'.total (m ++ l) [] ∧ rest.bytes.length ≤ 64 ∧
      (¬(host.unaligned buffer = true ∧ 64 < buffer.bytes.length ∧ 64 ∣ buffer.bytes.length) →
        l ++ rest.bytes = buffer.bytes) ∧
      (host.unaligned buffer = true ∧ 64 < buffer.bytes.length ∧ 64 ∣ buffer.bytes.length →
        rest.bytes = [] ∧ l = buffer.bytes.take (buffer.bytes.length - 64)) := by
  have hdrop : ∀ k, (buffer.advance k).bytes = buffer.bytes.drop k := fun _ => rfl
  unfold completeBlocks
  rw [compress_eq]
  by_cases hlen : buffer.bytes.length > 64
  · rw [if_pos hlen]
    by_cases halign : host.unaligned buffer = true
    · rw [if_pos halign]
      obtain ⟨ctx', hrun, hz', hconsumed⟩ := copyBlocks_spec buffer hz h
      rw [hrun]
      simp only [Option.bind_eq_bind, Option.bind_some]
      set k := (buffer.bytes.length - 1) / 64 * 64 with hk
      have hleft : (buffer.advance k).bytes.length = buffer.bytes.length - k := by
        rw [hdrop, List.length_drop]
      have htake : (buffer.bytes.take k).length = k := by
        rw [List.length_take]
        omega
      have hrest : ((buffer.advance k).advance (wholeBlocks (buffer.advance k).bytes.length)).bytes =
          (buffer.bytes.drop k).drop (wholeBlocks (buffer.bytes.length - k)) := by
        rw [← hleft]
        rfl
      refine ⟨ctx', _, buffer.bytes.take k, rfl, hz', hconsumed, ?_, fun hkeep => ?_, fun hlose => ⟨?_, ?_⟩⟩
      · rw [hrest, List.length_drop, List.length_drop]
        omega
      · have hndvd : ¬64 ∣ buffer.bytes.length := fun hdvd => hkeep ⟨halign, hlen, hdvd⟩
        have hzero : wholeBlocks (buffer.bytes.length - k) = 0 := by
          unfold wholeBlocks
          omega
        rw [hrest, hzero, List.drop_zero, List.take_append_drop]
      · have hblock : wholeBlocks (buffer.bytes.length - k) = buffer.bytes.length - k := by
          have hdvd := hlose.2.2
          unfold wholeBlocks
          omega
        rw [hrest, hblock, ← List.length_drop, List.drop_length]
      · have hdvd := hlose.2.2
        congr 1
        omega
    · rw [if_neg halign]
      refine ⟨_, _, _, rfl, hz, h.inPlace buffer, ?_, fun _ => List.take_append_drop _ _,
        fun hlose => absurd hlose.1 halign⟩
      change (buffer.bytes.drop (wholeBlocks buffer.bytes.length)).length ≤ 64
      rw [List.length_drop]
      unfold wholeBlocks
      omega
  · rw [if_neg hlen]
    refine ⟨ctx, buffer, [], rfl, hz, ?_, by omega, fun _ => rfl, fun hlose => absurd hlose.2.1 hlen⟩
    rwa [List.append_nil]

theorem moveRemaining_spec (buffer : Chunk) (hle : buffer.bytes.length ≤ 64) (hz : ctx.buflen = 0)
    (h : Consumed compressBlock initRegs ctx.regs ctx.total m []) :
    ∃ ctx', moveRemaining buffer ctx = some ctx' ∧
      ctx'.Holds compressBlock initRegs (m ++ buffer.bytes) := by
  by_cases hnil : buffer.bytes = []
  · refine ⟨ctx, ?_, ?_⟩
    · rw [moveRemaining, hnil, if_neg (by decide)]
    · rw [hnil, List.append_nil]
      exact .of_empty hz h
  have hpos : buffer.bytes.length > 0 := List.length_pos_of_ne_nil hnil
  obtain ⟨copied, hcopied⟩ :=
    (FixedBuffer.write_eq_some ctx.buffer 0 buffer.bytes).mpr (by omega)
  have hpush := h.push buffer.bytes
  rw [List.nil_append] at hpush
  rw [moveRemaining, if_pos hpos, hcopied]
  refine ⟨_, rfl, hle, ?_⟩
  change Consumed _ _ _ _ _ (copied.slice 0 buffer.bytes.length)
  rwa [FixedBuffer.slice_write hcopied]

/-- **One call** takes all bytes of its chunk, or all but 64. Source: `md5.c` `md5_process_bytes`. Kind: L -/
theorem processBytes_spec (h : ctx.Holds compressBlock initRegs m) (buffer : Chunk) :
    ∃ ctx' l, processBytes host buffer ctx = some ctx' ∧ ctx'.Holds compressBlock initRegs (m ++ l) ∧
      (¬LosesBlock host ctx buffer → l = buffer.bytes) ∧
      (LosesBlock host ctx buffer → l = buffer.bytes.take (buffer.bytes.length - 64)) := by
  obtain ⟨filled, hfill, hholds, hempty⟩ := fillBuffer_spec h buffer
  unfold LosesBlock
  set k := taken ctx buffer.bytes.length with hk
  have hbytes : (buffer.advance k).bytes = buffer.bytes.drop k := rfl
  have hlen : (buffer.advance k).bytes.length = buffer.bytes.length - k := by
    rw [hbytes, List.length_drop]
  rw [processBytes, compress_eq, hfill]
  simp only [Option.bind_eq_bind, Option.bind_some]
  by_cases hlt : k < buffer.bytes.length
  · obtain ⟨ctx₁, rest, l, hrun, hz, hconsumed, hshort, hkeep, hlose⟩ :=
      completeBlocks_spec host (buffer.advance k) (hempty hlt) (hholds.empty (hempty hlt))
    rw [hlen] at hkeep hlose
    obtain ⟨ctx', hmove, hfinal⟩ := moveRemaining_spec rest hshort hz hconsumed
    rw [List.append_assoc, List.append_assoc] at hfinal
    refine ⟨ctx', buffer.bytes.take k ++ (l ++ rest.bytes), ?_, hfinal, fun hnot => ?_, fun hyes => ?_⟩
    · rw [hrun]
      exact hmove
    · rw [hkeep hnot, hbytes, List.take_append_drop]
    · obtain ⟨hnil, hlost⟩ := hlose hyes
      have hsplit : buffer.bytes.length - 64 = k + (buffer.bytes.length - k - 64) := by omega
      rw [hnil, List.append_nil, hlost, hbytes, hsplit, List.take_add]
  · have hnil : (buffer.advance k).bytes = [] := by
      rw [hbytes, List.drop_eq_nil_of_le (by omega)]
    refine ⟨filled, buffer.bytes.take k, ?_, hholds, fun _ => List.take_of_length_le (by omega),
      fun hyes => ?_⟩
    · rw [completeBlocks, hnil, if_neg (by decide)]
      simp only [Option.bind_some]
      rw [moveRemaining, hnil, if_neg (by decide)]
    · exact absurd hyes.2.1 (by omega)

theorem initCtx_holds (buffer : FixedBuffer Byte 128) :
    (initCtx buffer).Holds compressBlock initRegs [] :=
  .of_empty rfl ⟨.start, rfl⟩

/-- **The end.** The padding is written behind the carried bytes, and no copy leaves the buffer.
Source: `md5.c` `md5_finish_ctx`
Kind: L -/
theorem finishCtx_spec (h : ctx.Holds compressBlock initRegs m) :
    finishCtx host ctx = some (digest m) := by
  have hle := h.buflen_le
  set P := if ctx.buflen < 56 then 56 else 120 with hP
  have hP2 : P = 56 ∧ ctx.buflen < 56 ∨ P = 120 ∧ ¬ctx.buflen < 56 := by
    rw [hP]
    split_ifs with hlt
    · exact .inl ⟨rfl, hlt⟩
    · exact .inr ⟨rfl, hlt⟩
  have hpad : (if ctx.buflen ≥ 56 then 64 + 56 - ctx.buflen else 56 - ctx.buflen) = P - ctx.buflen := by
    split_ifs <;> omega
  have hsum : ctx.buflen + (P - ctx.buflen) = P := by omega
  rw [finishCtx]
  simp only [hpad, hsum, encode_swap, compress_eq]
  set total := ctx.total.add ctx.buflen with htotal
  set high := ByteOrder.little.encode ((total.t1 <<< 3) ||| (total.t0 >>> 29)) with hhigh
  set low := ByteOrder.little.encode (total.t0 <<< 3) with hlow
  have hlenh : high.bytes.length = 4 := rfl
  have hlenl : low.bytes.length = 4 := rfl
  have hlenf : (fillbuf.slice 0 (P - ctx.buflen)).length = P - ctx.buflen :=
    FixedBuffer.length_slice (by omega)
  obtain ⟨b1, h1⟩ := (FixedBuffer.write_eq_some ctx.buffer ctx.buflen
    (fillbuf.slice 0 (P - ctx.buflen))).mpr (by omega)
  obtain ⟨b2, h2⟩ := (FixedBuffer.write_eq_some b1 P low.bytes).mpr (by omega)
  obtain ⟨b3, h3⟩ := (FixedBuffer.write_eq_some b2 (P + 4) high.bytes).mpr (by omega)
  have hblocks : b3.slice 0 (P + 8) = ctx.buffer.slice 0 ctx.buflen ++ padding .little m.length := by
    have hcarried : b3.slice 0 ctx.buflen = ctx.buffer.slice 0 ctx.buflen := by
      rw [FixedBuffer.slice_write_before h3 (by omega), FixedBuffer.slice_write_before h2 (by omega),
        FixedBuffer.slice_write_before h1 (by omega)]
    have hzeros : b3.slice ctx.buflen (P - ctx.buflen) = fillbuf.slice 0 (P - ctx.buflen) := by
      rw [FixedBuffer.slice_write_before h3 (by omega), FixedBuffer.slice_write_before h2 (by omega)]
      conv_lhs => rw [← hlenf]
      exact FixedBuffer.slice_write h1
    have hlows : b3.slice P 4 = low.bytes := by
      rw [FixedBuffer.slice_write_before h3 (by omega)]
      exact FixedBuffer.slice_write h2
    have hhighs : b3.slice (P + 4) 4 = high.bytes := FixedBuffer.slice_write h3
    have hcount : low.bytes ++ high.bytes = count64 .little (8 * m.length) :=
      (count64_eq h.bits).1.symm
    have hsplit : P + 8 = ctx.buflen + (P - ctx.buflen) + 4 + 4 := by omega
    rw [hsplit, FixedBuffer.slice_add, FixedBuffer.slice_add, FixedBuffer.slice_add, hsum, Nat.zero_add,
      Nat.zero_add, Nat.zero_add, hcarried, hzeros, hhighs, hlows, List.append_assoc, List.append_assoc,
      hcount, ← h.padding_eq]
  rw [FixedBuffer.read_of_le (by omega)]
  simp only [Option.bind_eq_bind, Option.bind_some, h1, h2, h3]
  rw [FixedBuffer.read_of_le (by omega), Option.bind_some, readCtx_eq, hblocks, digest]
  change some (absorb compressBlock 64 ctx.regs _).bytes = _
  rw [h.consumed.1.finish (by decide)]

/-- The invariant is what is promised. Source: `md5.c`. Kind: L -/
theorem right_of_holds (h : ctx.Holds compressBlock initRegs m) : Right host ctx m := by
  have hle := h.buflen_le
  have hlen := h.consumed.1.length_le
  have hcount := h.consumed.2
  rw [length_carried (by omega)] at hlen hcount
  refine ⟨hle, ?_, fun hlt => ?_, finishCtx_spec host h⟩
  · omega
  · omega

/-- **A computation from a right state.** Source: `md5.c` `md5_process_bytes`. Kind: L -/
theorem right_iff_of_holds (chunks : List Chunk) (h : ctx.Holds compressBlock initRegs m) :
    (∀ pre, pre <+: chunks → ∃ ctx', processChunks host pre ctx = some ctx' ∧
      Right host ctx' (m ++ pre.flatMap Chunk.bytes)) ↔
    (∀ pre buffer, pre ++ [buffer] <+: chunks → ∀ ctx', processChunks host pre ctx = some ctx' →
      ¬LosesBlock host ctx' buffer) := by
  induction chunks generalizing ctx m with
  | nil =>
    refine ⟨fun _ pre buffer hpre => absurd (List.prefix_nil.mp hpre) (by simp), fun _ pre hpre => ?_⟩
    obtain rfl := List.prefix_nil.mp hpre
    exact ⟨ctx, rfl, by rw [List.flatMap_nil, List.append_nil]; exact right_of_holds host h⟩
  | cons buffer chunks ih =>
    obtain ⟨ctx₁, l, hone, hholds, hkeep, hlose⟩ := processBytes_spec host h buffer
    have hrun : ∀ pre, processChunks host (buffer :: pre) ctx = processChunks host pre ctx₁ := by
      intro pre
      rw [processChunks, List.foldlM_cons, hone]
      rfl
    by_cases hloses : LosesBlock host ctx buffer
    · -- The count after the call is that of a message without the 64 bytes.
      refine iff_of_false (fun hright => ?_) fun hnever => hnever [] buffer ?_ ctx rfl hloses
      · obtain ⟨ctx', hctx', hright'⟩ := hright [buffer] (List.prefix_append [buffer] chunks)
        rw [hrun] at hctx'
        obtain rfl : ctx₁ = ctx' := Option.some_inj.mp hctx'
        have hcount := hright'.count_eq
        have hcount' := (right_of_holds host hholds).count_eq
        have hlost := hloses.2.1
        rw [List.length_append, List.flatMap_cons, List.flatMap_nil, List.append_nil] at hcount
        rw [List.length_append, hlose hloses, List.length_take] at hcount'
        omega
      · exact List.prefix_append [buffer] chunks
    · obtain rfl := hkeep hloses
      have hrest := ih hholds
      constructor
      · intro hright pre buffer' hpre ctx' hctx'
        cases pre with
        | nil =>
          obtain rfl : ctx = ctx' := Option.some_inj.mp hctx'
          obtain ⟨rfl, -⟩ := List.cons_prefix_cons.mp hpre
          exact hloses
        | cons first pre =>
          obtain ⟨rfl, hpre'⟩ := List.cons_prefix_cons.mp hpre
          rw [hrun] at hctx'
          refine hrest.mp (fun pre' hpre' => ?_) pre buffer' hpre' ctx' hctx'
          obtain ⟨ctx₂, hctx₂, hright₂⟩ :=
            hright (first :: pre') (List.cons_prefix_cons.mpr ⟨rfl, hpre'⟩)
          rw [hrun] at hctx₂
          rw [List.flatMap_cons, ← List.append_assoc] at hright₂
          exact ⟨ctx₂, hctx₂, hright₂⟩
      · intro hnever pre hpre
        cases pre with
        | nil =>
          refine ⟨ctx, rfl, ?_⟩
          rw [List.flatMap_nil, List.append_nil]
          exact right_of_holds host h
        | cons first pre =>
          obtain ⟨rfl, hpre'⟩ := List.cons_prefix_cons.mp hpre
          rw [hrun, List.flatMap_cons, ← List.append_assoc]
          refine hrest.mpr (fun pre' buffer' hpre₁ ctx' hctx' => ?_) pre hpre'
          refine hnever (first :: pre') buffer' (List.cons_prefix_cons.mpr ⟨rfl, hpre₁⟩) ctx' ?_
          rw [hrun]
          exact hctx'

/-- **The counts and the digest are right** after every call of a computation if and only if no call loses a
block.
Source: `md5.c` `md5_process_bytes`, `md5_finish_ctx`
Kind: P -/
theorem md5_independent_of_chunks_iff (host : Host) (buffer : FixedBuffer Byte 128)
    (chunks : List Chunk) :
    (∀ pre, pre <+: chunks → ∃ ctx, processChunks host pre (initCtx buffer) = some ctx ∧
      Right host ctx (pre.flatMap Chunk.bytes)) ↔
    (∀ pre chunk, pre ++ [chunk] <+: chunks →
      ∀ ctx, processChunks host pre (initCtx buffer) = some ctx → ¬LosesBlock host ctx chunk) := by
  have h := right_iff_of_holds host chunks (initCtx_holds buffer)
  simpa only [List.nil_append] using h

end Calls

/-! ## A chunk that is not taken whole -/

section Unaligned

/-- A host on which chunks that are not aligned are copied. Source: none: example. -/
def alignedHost : Host := ⟨.little, false, 4⟩

/-- 128 zeros at an address. Source: none: example. -/
def zeros (addr : ℕ) : Chunk := ⟨addr, List.replicate 128 0#8, by
  rw [List.length_replicate]
  decide⟩

theorem length_zeros (addr : ℕ) : (zeros addr).bytes.length = 128 := List.length_replicate

def emptyBuffer : FixedBuffer Byte 128 := ⟨List.replicate 128 0#8, rfl⟩

/-- The two digests are not the same. Source: none: example. Kind: L -/
theorem digest_zeros_ne :
    digest ((zeros 1).bytes.take ((zeros 1).bytes.length - 64)) ≠ digest (zeros 0).bytes := by
  decide +kernel

theorem losesBlock_zeros : LosesBlock alignedHost (initCtx emptyBuffer) (zeros 1) := by
  have htaken : taken (initCtx emptyBuffer) (zeros 1).bytes.length = 0 := if_neg (not_not.mpr rfl)
  rw [LosesBlock, htaken, length_zeros]
  exact ⟨rfl, by decide, by decide⟩

/-- **The defect**: of 128 bytes at the address 1 only 64 are consumed, and the digest is another one than for the
same bytes at the address 0.
Source: `md5.c` `md5_process_bytes` (`len > 64`)
Kind: C -/
theorem md5_depends_on_address :
    ∃ ctx ctx', processBytes alignedHost (zeros 1) (initCtx emptyBuffer) = some ctx ∧
      processBytes alignedHost (zeros 0) (initCtx emptyBuffer) = some ctx' ∧
      ctx.total.count + ctx.buflen ≠ (zeros 1).bytes.length ∧
      finishCtx alignedHost ctx ≠ finishCtx alignedHost ctx' := by
  obtain ⟨ctx, l, hrun, hholds, -, hlose⟩ :=
    processBytes_spec alignedHost (initCtx_holds emptyBuffer) (zeros 1)
  obtain ⟨ctx', l', hrun', hholds', hkeep', -⟩ :=
    processBytes_spec alignedHost (initCtx_holds emptyBuffer) (zeros 0)
  rw [hlose losesBlock_zeros, List.nil_append] at hholds
  rw [hkeep' fun h => Bool.false_ne_true h.1, List.nil_append] at hholds'
  refine ⟨ctx, ctx', hrun, hrun', ?_, ?_⟩
  · have hlen : ((zeros 1).bytes.take ((zeros 1).bytes.length - 64)).length = 64 := by
      rw [List.length_take, length_zeros]
      rfl
    have hexact := (right_of_holds alignedHost hholds).exact
    rw [hlen] at hexact
    rw [hexact (by norm_num), length_zeros]
    norm_num
  · rw [finishCtx_spec alignedHost hholds, finishCtx_spec alignedHost hholds', ne_eq, Option.some_inj]
    exact digest_zeros_ne

end Unaligned

end GccCore.Iberty.Digest.Md5
