import GccCore.Iberty.Digest.Basic

/-!
# `libiberty/sha1.c`: the SHA-1 digest of a message that comes in chunks

* **One call** (`processBytes_spec`): it takes all bytes of its chunk, and every copy lies inside the buffer.
* **The end** (`finishCtx_spec`): the padding is appended to the carried bytes, in one block or two.
* **The digest** (`sha1_independent_of_chunks`): it is the digest of the concatenated chunks, however the
  message is split, wherever the chunks stand and on every host.
-/

namespace GccCore.Iberty.Digest.Sha1

open GccCore.Lib GccCore.Lib.BlockStream GccCore.Lib.Words

/-! ## The functions -/

/-- Source: `sha1.h` `struct sha1_ctx` (`A` to `E`). -/
structure Regs where
  a : BitVec 32
  b : BitVec 32
  c : BitVec 32
  d : BitVec 32
  e : BitVec 32

/-- Source: `sha1.c` (`SWAP`). -/
def swap (host : Host) (n : BitVec 32) : BitVec 32 := if host.order = .big then n else swapBytes n

/-- Source: `sha1.c` (`rol`). -/
def rol (x : BitVec 32) (n : ℕ) : BitVec 32 := (x <<< n) ||| (x >>> (32 - n))

/-- Source: `sha1.c` (`F1`). -/
def f1 (b c d : BitVec 32) : BitVec 32 := d ^^^ (b &&& (c ^^^ d))

/-- Source: `sha1.c` (`F2`, `F4`). -/
def f2 (b c d : BitVec 32) : BitVec 32 := b ^^^ c ^^^ d

/-- Source: `sha1.c` (`F3`). -/
def f3 (b c d : BitVec 32) : BitVec 32 := (b &&& c) ||| (d &&& (b ||| c))

/-- The function and the constant of a round. Source: `sha1.c` (`K1` to `K4`, `F1` to `F4`). -/
def roundOf (t : ℕ) : (BitVec 32 → BitVec 32 → BitVec 32 → BitVec 32) × BitVec 32 :=
  if t < 20 then (f1, 0x5a827999#32)
  else if t < 40 then (f2, 0x6ed9eba1#32)
  else if t < 60 then (f3, 0x8f1bbcdc#32)
  else (f2, 0xca62c1d6#32)

/-- The words after `M (t)`, which is used from round 16 on. Source: `sha1.c` (`M`). -/
def schedule (t : ℕ) (x : List (BitVec 32)) : List (BitVec 32) :=
  if t < 16 then x
  else
    let tm := x.getD (t % 16) 0 ^^^ x.getD ((t - 14) % 16) 0 ^^^ x.getD ((t - 8) % 16) 0 ^^^
      x.getD ((t - 3) % 16) 0
    x.set (t % 16) (rol tm 1)

/-- One round. The next one has its arguments rotated, which the result already is. Source: `sha1.c` (`R`). -/
def round (state : List (BitVec 32) × Regs) (t : ℕ) : List (BitVec 32) × Regs :=
  let x := schedule t state.1
  let s := state.2
  let e := s.e + (rol s.a 5 + (roundOf t).1 s.b s.c s.d + (roundOf t).2 + x.getD (t % 16) 0)
  (x, { a := e, b := s.a, c := rol s.b 30, d := s.c, e := s.d })

/-- The words of one block. Source: `sha1.c` `sha1_process_block` (`while (words < endp)`). -/
def compressWords (ctx : Regs) (x : List (BitVec 32)) : Regs :=
  let s := ((List.range 80).foldl round (x, ctx)).2
  { a := ctx.a + s.a, b := ctx.b + s.b, c := ctx.c + s.c, d := ctx.d + s.d, e := ctx.e + s.e }

/-- One block. Source: `sha1.c` `sha1_process_block`. -/
def compress (host : Host) (ctx : Regs) (block : List Byte) : Regs :=
  compressWords ctx ((words block).map fun w => swap host (host.order.decode w))

/-- Source: `sha1.c` `sha1_init_ctx`. -/
def initRegs : Regs := ⟨0x67452301#32, 0xefcdab89#32, 0x98badcfe#32, 0x10325476#32, 0xc3d2e1f0#32⟩

/-- Source: `sha1.c` `sha1_init_ctx`. -/
def initCtx (buffer : FixedBuffer Byte 128) : Ctx Regs := ⟨initRegs, ⟨0, 0⟩, 0, buffer⟩

/-- Source: `sha1.c` `sha1_read_ctx`. -/
def readCtx (host : Host) (ctx : Ctx Regs) : List Byte :=
  [ctx.regs.a, ctx.regs.b, ctx.regs.c, ctx.regs.d, ctx.regs.e].flatMap fun w =>
    (host.order.encode (swap host w)).bytes

/-- Source: `sha1.c` `sha1_finish_ctx`. -/
def finishCtx (host : Host) (ctx : Ctx Regs) : Option (List Byte) := do
  let bytes := ctx.buflen
  let size := if bytes < 56 then 64 / 4 else 64 * 2 / 4
  let total := ctx.total.add bytes
  let high := host.order.encode (swap host ((total.t1 <<< 3) ||| (total.t0 >>> 29)))
  let low := host.order.encode (swap host (total.t0 <<< 3))
  let buffer ← ctx.buffer.write ((size - 2) * 4) high.bytes
  let buffer ← buffer.write ((size - 1) * 4) low.bytes
  let fill ← fillbuf.read 0 ((size - 2) * 4 - bytes)
  let buffer ← buffer.write bytes fill
  let blocks ← buffer.read 0 (size * 4)
  some (readCtx host (processBlock (compress host) blocks { ctx with total := total, buffer := buffer }))

/-- Source: `sha1.c` `sha1_process_bytes` (`len >= 64`). -/
def completeBlocks (host : Host) (buffer : Chunk) (ctx : Ctx Regs) : Option (Ctx Regs × Chunk) :=
  if buffer.bytes.length ≥ 64 then
    if host.unaligned buffer then copyBlocks (compress host) buffer ctx
    else
      let n := wholeBlocks buffer.bytes.length
      some (processBlock (compress host) (buffer.bytes.take n) ctx, buffer.advance n)
  else some (ctx, buffer)

/-- Source: `sha1.c` `sha1_process_bytes` (`len > 0`). -/
def moveRemaining (host : Host) (buffer : Chunk) (ctx : Ctx Regs) : Option (Ctx Regs) :=
  if buffer.bytes.length > 0 then do
    let copied ← ctx.buffer.write ctx.buflen buffer.bytes
    let leftOver := ctx.buflen + buffer.bytes.length
    if leftOver ≥ 64 then do
      let block ← copied.read 0 64
      let rest ← copied.read 64 (leftOver - 64)
      let moved ← copied.write 0 rest
      some { processBlock (compress host) block ctx with buffer := moved, buflen := leftOver - 64 }
    else some { ctx with buffer := copied, buflen := leftOver }
  else some ctx

/-- Source: `sha1.c` `sha1_process_bytes`. -/
def processBytes (host : Host) (buffer : Chunk) (ctx : Ctx Regs) : Option (Ctx Regs) := do
  let filled ← fillBuffer (compress host) buffer ctx
  let completed ← completeBlocks host filled.2 filled.1
  moveRemaining host completed.2 completed.1

/-- The calls of one computation, without the last one. Source: `sha1.h` `sha1_process_bytes`. -/
def processChunks (host : Host) (chunks : List Chunk) (ctx : Ctx Regs) : Option (Ctx Regs) :=
  chunks.foldlM (fun ctx buffer => processBytes host buffer ctx) ctx

/-! ## What the digest is -/

/-- Blocks of big-endian words. -/
def compressBlock (regs : Regs) (block : List Byte) : Regs :=
  compressWords regs ((words block).map ByteOrder.big.decode)

/-- The registers as big-endian words. -/
def Regs.bytes (regs : Regs) : List Byte :=
  [regs.a, regs.b, regs.c, regs.d, regs.e].flatMap fun w => (ByteOrder.big.encode w).bytes

/-- **The digest of a message**: the blocks of the padded message are compressed. -/
def digest (m : List Byte) : List Byte :=
  (absorb compressBlock 64 initRegs (m ++ padding .big m.length)).bytes

/-! ## The host -/

section Host

variable (host : Host)

/-- Words are stored big-endian on every host. Source: `sha1.c` (`SWAP`). Kind: L -/
theorem encode_swap (n : BitVec 32) : host.order.encode (swap host n) = ByteOrder.big.encode n := by
  unfold swap
  split_ifs with h
  · rw [h]
  · rw [swapBytes_eq, Words.encode_swap h]

/-- Words are read big-endian on every host. Source: `sha1.c` (`SWAP`). Kind: L -/
theorem swap_decode (w : Word) : swap host (host.order.decode w) = ByteOrder.big.decode w := by
  unfold swap
  split_ifs with h
  · rw [h]
  · rw [swapBytes_eq, Words.swap_decode h]

theorem compress_eq : compress host = compressBlock := by
  funext regs block
  unfold compress compressBlock
  simp only [swap_decode]

theorem readCtx_eq (ctx : Ctx Regs) : readCtx host ctx = ctx.regs.bytes := by
  unfold readCtx Regs.bytes
  simp only [encode_swap]

end Host

/-! ## The calls -/

section Calls

variable (host : Host) {ctx : Ctx Regs} {m : List Byte}

theorem completeBlocks_spec (buffer : Chunk) (hz : ctx.buflen = 0)
    (h : Consumed compressBlock initRegs ctx.regs ctx.total m []) :
    ∃ ctx' k, completeBlocks host buffer ctx = some (ctx', buffer.advance k) ∧ ctx'.buflen = 0 ∧
      Consumed compressBlock initRegs ctx'.regs ctx'.total (m ++ buffer.bytes.take k) [] ∧
      buffer.bytes.length - k ≤ 64 := by
  unfold completeBlocks
  rw [compress_eq]
  split_ifs with hlen halign
  · obtain ⟨ctx', hrun, hz', hconsumed⟩ := copyBlocks_spec buffer hz h
    exact ⟨ctx', _, hrun, hz', hconsumed, by omega⟩
  · refine ⟨_, _, rfl, hz, h.inPlace buffer, ?_⟩
    unfold wholeBlocks
    omega
  · refine ⟨ctx, 0, by rw [buffer.advance_zero], hz, ?_, by omega⟩
    rwa [List.take_zero, List.append_nil]

theorem moveRemaining_spec (buffer : Chunk) (hle : buffer.bytes.length ≤ 64) (hz : ctx.buflen = 0)
    (h : Consumed compressBlock initRegs ctx.regs ctx.total m []) :
    ∃ ctx', moveRemaining host buffer ctx = some ctx' ∧
      ctx'.Holds compressBlock initRegs (m ++ buffer.bytes) := by
  by_cases hnil : buffer.bytes = []
  · refine ⟨ctx, ?_, ?_⟩
    · rw [moveRemaining, hnil, if_neg (by decide)]
    · rw [hnil, List.append_nil]
      exact .of_empty hz h
  have hpos : buffer.bytes.length > 0 := List.length_pos_of_ne_nil hnil
  obtain ⟨copied, hcopied⟩ :=
    (FixedBuffer.write_eq_some ctx.buffer 0 buffer.bytes).mpr (by omega)
  have hslice := FixedBuffer.slice_write hcopied
  have hpush := h.push buffer.bytes
  rw [List.nil_append] at hpush
  rw [moveRemaining, if_pos hpos, hz, hcopied]
  simp only [Option.bind_eq_bind, Option.bind_some, Nat.zero_add]
  by_cases hfull : buffer.bytes.length ≥ 64
  · -- The bytes fill exactly one block, and nothing is carried.
    have hlen : buffer.bytes.length = 64 := by omega
    obtain ⟨moved, hmoved⟩ := (FixedBuffer.write_eq_some copied 0 []).mpr (Nat.zero_le _)
    rw [hlen] at hslice
    rw [if_pos hfull, hlen, FixedBuffer.read_of_le (by omega), FixedBuffer.read_of_le (by omega),
      hslice, Nat.sub_self, FixedBuffer.slice_zero]
    simp only [Option.bind_some, hmoved, compress_eq]
    refine ⟨_, rfl, .of_empty rfl ?_⟩
    refine Consumed.process ?_ (by rw [hlen]) (by omega)
    rwa [List.append_nil]
  · rw [if_neg hfull]
    refine ⟨_, rfl, hle, ?_⟩
    change Consumed _ _ _ _ _ (copied.slice 0 buffer.bytes.length)
    rwa [hslice]

/-- **One call** takes all bytes of its chunk. Source: `sha1.c` `sha1_process_bytes`. Kind: L -/
theorem processBytes_spec (h : ctx.Holds compressBlock initRegs m) (buffer : Chunk) :
    ∃ ctx', processBytes host buffer ctx = some ctx' ∧
      ctx'.Holds compressBlock initRegs (m ++ buffer.bytes) := by
  obtain ⟨filled, hfill, hholds, hempty⟩ := fillBuffer_spec h buffer
  set k := taken ctx buffer.bytes.length with hk
  have hbytes : (buffer.advance k).bytes = buffer.bytes.drop k := rfl
  have hall : m ++ buffer.bytes = m ++ buffer.bytes.take k ++ (buffer.advance k).bytes := by
    rw [hbytes, List.append_assoc, List.take_append_drop]
  rw [processBytes, compress_eq, hfill, hall]
  simp only [Option.bind_eq_bind, Option.bind_some]
  by_cases hlt : k < buffer.bytes.length
  · obtain ⟨ctx₁, j, hrun, hz, hconsumed, hleft⟩ :=
      completeBlocks_spec host (buffer.advance k) (hempty hlt) (hholds.empty (hempty hlt))
    have hshort : ((buffer.advance k).advance j).bytes.length ≤ 64 := by
      change ((buffer.advance k).bytes.drop j).length ≤ 64
      rw [List.length_drop]
      exact hleft
    obtain ⟨ctx', hmove, hfinal⟩ := moveRemaining_spec host _ hshort hz hconsumed
    refine ⟨ctx', ?_, ?_⟩
    · rw [hrun]
      exact hmove
    · change ctx'.Holds _ _ (_ ++ (buffer.advance k).bytes.take j ++ (buffer.advance k).bytes.drop j)
        at hfinal
      rwa [List.append_assoc, List.take_append_drop] at hfinal
  · have hnil : (buffer.advance k).bytes = [] := by
      rw [hbytes, List.drop_eq_nil_of_le (by omega)]
    refine ⟨filled, ?_, ?_⟩
    · rw [completeBlocks, hnil, if_neg (by decide)]
      simp only [Option.bind_some]
      rw [moveRemaining, hnil, if_neg (by decide)]
    · rwa [hnil, List.append_nil]

/-- **All calls.** Source: `sha1.c` `sha1_process_bytes`. Kind: L -/
theorem processChunks_spec (chunks : List Chunk) (h : ctx.Holds compressBlock initRegs m) :
    ∃ ctx', processChunks host chunks ctx = some ctx' ∧
      ctx'.Holds compressBlock initRegs (m ++ chunks.flatMap Chunk.bytes) := by
  induction chunks generalizing ctx m with
  | nil => exact ⟨ctx, rfl, by rwa [List.flatMap_nil, List.append_nil]⟩
  | cons buffer chunks ih =>
    obtain ⟨ctx₁, hone, hholds⟩ := processBytes_spec host h buffer
    obtain ⟨ctx', hrest, hfinal⟩ := ih hholds
    refine ⟨ctx', ?_, ?_⟩
    · rw [processChunks, List.foldlM_cons, hone]
      exact hrest
    · rwa [List.flatMap_cons, ← List.append_assoc]

theorem initCtx_holds (buffer : FixedBuffer Byte 128) :
    (initCtx buffer).Holds compressBlock initRegs [] :=
  .of_empty rfl ⟨.start, rfl⟩

/-- **The end.** The padding is written behind the carried bytes, and no copy leaves the buffer.
Source: `sha1.c` `sha1_finish_ctx`
Kind: L -/
theorem finishCtx_spec (h : ctx.Holds compressBlock initRegs m) :
    finishCtx host ctx = some (digest m) := by
  have hle := h.buflen_le
  set P := if ctx.buflen < 56 then 56 else 120 with hP
  have hP2 : P = 56 ∧ ctx.buflen < 56 ∨ P = 120 ∧ ¬ctx.buflen < 56 := by
    rw [hP]
    split_ifs with hlt
    · exact .inl ⟨rfl, hlt⟩
    · exact .inr ⟨rfl, hlt⟩
  set size := if ctx.buflen < 56 then 64 / 4 else 64 * 2 / 4 with hsize
  have hwords : size * 4 = P + 8 ∧ (size - 1) * 4 = P + 4 ∧ (size - 2) * 4 = P := by
    rw [hP, hsize]
    split_ifs <;> decide
  rw [finishCtx]
  simp only [← hsize, hwords, encode_swap, compress_eq]
  set total := ctx.total.add ctx.buflen with htotal
  set high := ByteOrder.big.encode ((total.t1 <<< 3) ||| (total.t0 >>> 29)) with hhigh
  set low := ByteOrder.big.encode (total.t0 <<< 3) with hlow
  have hlenh : high.bytes.length = 4 := rfl
  have hlenl : low.bytes.length = 4 := rfl
  have hlenf : (fillbuf.slice 0 (P - ctx.buflen)).length = P - ctx.buflen :=
    FixedBuffer.length_slice (by omega)
  obtain ⟨b1, h1⟩ := (FixedBuffer.write_eq_some ctx.buffer P high.bytes).mpr (by omega)
  obtain ⟨b2, h2⟩ := (FixedBuffer.write_eq_some b1 (P + 4) low.bytes).mpr (by omega)
  obtain ⟨b3, h3⟩ := (FixedBuffer.write_eq_some b2 ctx.buflen
    (fillbuf.slice 0 (P - ctx.buflen))).mpr (by omega)
  have hblocks : b3.slice 0 (P + 8) = ctx.buffer.slice 0 ctx.buflen ++ padding .big m.length := by
    have hcarried : b3.slice 0 ctx.buflen = ctx.buffer.slice 0 ctx.buflen := by
      rw [FixedBuffer.slice_write_before h3 (by omega), FixedBuffer.slice_write_before h2 (by omega),
        FixedBuffer.slice_write_before h1 (by omega)]
    have hzeros := FixedBuffer.slice_write h3
    rw [hlenf] at hzeros
    have hhighs : b3.slice P 4 = high.bytes := by
      rw [FixedBuffer.slice_write_after h3 (by omega), FixedBuffer.slice_write_before h2 (by omega)]
      exact FixedBuffer.slice_write h1
    have hlows : b3.slice (P + 4) 4 = low.bytes := by
      rw [FixedBuffer.slice_write_after h3 (by omega)]
      exact FixedBuffer.slice_write h2
    have hcount : high.bytes ++ low.bytes = count64 .big (8 * m.length) :=
      (count64_eq h.bits).2.symm
    have hsum : ctx.buflen + (P - ctx.buflen) = P := by omega
    have hsplit : P + 8 = ctx.buflen + (P - ctx.buflen) + 4 + 4 := by omega
    rw [hsplit, FixedBuffer.slice_add, FixedBuffer.slice_add, FixedBuffer.slice_add, hsum, Nat.zero_add,
      Nat.zero_add, Nat.zero_add, hcarried, hzeros, hhighs, hlows, List.append_assoc, List.append_assoc,
      hcount, ← h.padding_eq]
  simp only [Option.bind_eq_bind, h1, h2, Option.bind_some]
  rw [FixedBuffer.read_of_le (by omega), Option.bind_some, h3, Option.bind_some,
    FixedBuffer.read_of_le (by omega), Option.bind_some, readCtx_eq, hblocks, digest]
  change some (absorb compressBlock 64 ctx.regs _).bytes = _
  rw [h.consumed.1.finish (by decide)]

/-- **The digest is independent of the chunks**, of where they stand and of the host. All copies lie inside the
buffer, since there is a result.
Source: `sha1.c` `sha1_process_bytes`, `sha1_finish_ctx`
Kind: P -/
theorem sha1_independent_of_chunks (host : Host) (buffer : FixedBuffer Byte 128) (chunks : List Chunk) :
    ∃ ctx, processChunks host chunks (initCtx buffer) = some ctx ∧
      finishCtx host ctx = some (digest (chunks.flatMap Chunk.bytes)) := by
  obtain ⟨ctx, hrun, hholds⟩ := processChunks_spec host chunks (initCtx_holds buffer)
  exact ⟨ctx, hrun, finishCtx_spec host hholds⟩

end Calls

end GccCore.Iberty.Digest.Sha1
