import GccCore.Lib.BlockStream
import GccCore.Lib.FixedBuffer
import GccCore.Lib.Words

/-!
# `libiberty/md5.c`, `libiberty/sha1.c`: what the two digests share

A message comes in chunks. It is compressed in blocks of 64 bytes, in place or from a buffer of 128 bytes in
which the bytes that fill no block are carried to the next chunk.

* **The count** (`Total.count_add`, `count64_eq`): the two words count the bytes modulo `2 ^ 64`.
* **The invariant** (`Ctx.Holds`): at most 64 bytes are carried, they are the end of the message so far, and
  the registers are those after the blocks before them.
* **The steps** (`fillBuffer_spec`, `copyBlocks_spec`, `Consumed.process`): each keeps it, and no copy leaves
  the buffer.
-/

namespace GccCore.Iberty.Digest

open GccCore.Lib GccCore.Lib.BlockStream GccCore.Lib.Words

/-! ## The functions -/

abbrev Byte := BitVec 8

/-- What is known of the host when the file is compiled. Source: `md5.c`, `sha1.c` (`WORDS_BIGENDIAN`,
`_STRING_ARCH_unaligned`, `UNALIGNED_P`) -/
structure Host where
  order : ByteOrder
  stringArchUnaligned : Bool
  alignment : ℕ

/-- The bytes of a number reversed. Source: `md5.c`, `sha1.c` (`SWAP`). -/
def swapBytes (n : BitVec 32) : BitVec 32 :=
  (n <<< 24) ||| ((n &&& 0xff00#32) <<< 8) ||| ((n >>> 8) &&& 0xff00#32) ||| (n >>> 24)

/-- The words of a block. Source: `md5.c`, `sha1.c` (`*words`). -/
def words : List Byte → List Word
  | b0 :: b1 :: b2 :: b3 :: rest => ⟨b0, b1, b2, b3⟩ :: words rest
  | _ => []

/-- The bytes of a message before the current block, in two words. Source: `md5.h`, `sha1.h` (`total`). -/
structure Total where
  t0 : BitVec 32
  t1 : BitVec 32

/-- A double word increment. Source: `md5.c`, `sha1.c` (`total`). -/
def Total.add (total : Total) (len : ℕ) : Total :=
  let t0 := total.t0 + BitVec.ofNat 32 len
  ⟨t0, if t0.toNat < len then total.t1 + 1 else total.t1⟩

/-- The state of a computation, without the registers of the algorithm. Source: `md5.h` `struct md5_ctx`,
`sha1.h` `struct sha1_ctx` -/
structure Ctx (σ : Type) where
  regs : σ
  total : Total
  buflen : ℕ
  buffer : FixedBuffer Byte 128

/-- The argument of one call: some bytes and where they stand. Source: `md5.c`, `sha1.c` (`buffer`, `len`). -/
structure Chunk where
  addr : ℕ
  bytes : List Byte
  length_lt : bytes.length < 2 ^ 32

/-- `buffer += k` and `len -= k`. Source: `md5.c`, `sha1.c`. -/
def Chunk.advance (buffer : Chunk) (k : ℕ) : Chunk where
  addr := buffer.addr + k
  bytes := buffer.bytes.drop k
  length_lt := by
    rw [List.length_drop]
    exact lt_of_le_of_lt (Nat.sub_le _ _) buffer.length_lt

/-- `n & ~63`. Source: `md5.c`, `sha1.c`. -/
def wholeBlocks (n : ℕ) : ℕ := n / 64 * 64

/-- `fillbuf`. Source: `md5.c`, `sha1.c`. -/
def fillbuf : FixedBuffer Byte 64 := ⟨0x80#8 :: List.replicate 63 0#8, rfl⟩

section Functions

variable {σ : Type} (compress : σ → List Byte → σ)

/-- Bytes whose number is a multiple of 64 are counted and compressed. Source: `md5.c`
`md5_process_block`, `sha1.c` `sha1_process_block` -/
def processBlock (buffer : List Byte) (ctx : Ctx σ) : Ctx σ :=
  { ctx with
    regs := absorb compress 64 ctx.regs buffer
    total := ctx.total.add buffer.length }

/-- How many bytes are copied behind those that are carried. Source: `md5.c`, `sha1.c` (`add`). -/
def addable (leftOver len : ℕ) : ℕ := if 128 - leftOver > len then len else 128 - leftOver

/-- The bytes are concatenated to those that are carried. Source: `md5.c` `md5_process_bytes`, `sha1.c`
`sha1_process_bytes` (`ctx->buflen != 0`) -/
def fillBuffer (buffer : Chunk) (ctx : Ctx σ) : Option (Ctx σ × Chunk) :=
  if ctx.buflen ≠ 0 then do
    let leftOver := ctx.buflen
    let add := addable leftOver buffer.bytes.length
    let filled ← ctx.buffer.write leftOver (buffer.bytes.take add)
    let ctx := { ctx with buffer := filled, buflen := leftOver + add }
    if leftOver + add > 64 then do
      let blocks ← ctx.buffer.read 0 (wholeBlocks (leftOver + add))
      let ctx := processBlock compress blocks ctx
      let rest ← ctx.buffer.read (wholeBlocks (leftOver + add)) ((leftOver + add) % 64)
      let moved ← ctx.buffer.write 0 rest
      some ({ ctx with buffer := moved, buflen := (leftOver + add) % 64 }, buffer.advance add)
    else some (ctx, buffer.advance add)
  else some (ctx, buffer)

/-- Blocks are compressed from the buffer as long as there are more than 64 bytes. Source: `md5.c`
`md5_process_bytes`, `sha1.c` `sha1_process_bytes` (`while (len > 64)`) -/
def copyBlocks (buffer : Chunk) (ctx : Ctx σ) : Option (Ctx σ × Chunk) :=
  if _h : buffer.bytes.length > 64 then do
    let copied ← ctx.buffer.write 0 (buffer.bytes.take 64)
    let block ← copied.read 0 64
    copyBlocks (buffer.advance 64) (processBlock compress block { ctx with buffer := copied })
  else some (ctx, buffer)
termination_by buffer.bytes.length
decreasing_by
  change (buffer.bytes.drop 64).length < _
  rw [List.length_drop]
  omega

end Functions

/-- `UNALIGNED_P`. Source: `md5.c`, `sha1.c`. -/
def Host.unaligned (host : Host) (buffer : Chunk) : Bool :=
  !host.stringArchUnaligned && decide (buffer.addr % host.alignment ≠ 0)

/-! ## What a digest is -/

/-- A count in eight bytes. -/
def count64 : ByteOrder → ℕ → List Byte
  | .little, n => (List.range 8).map fun i => BitVec.ofNat 8 (n / 256 ^ i)
  | .big, n => ((List.range 8).map fun i => BitVec.ofNat 8 (n / 256 ^ i)).reverse

/-- What is put behind a message: one bit, zeros up to the last eight bytes of a block, and the number of bits. -/
def padding (order : ByteOrder) (len : ℕ) : List Byte :=
  0x80#8 :: List.replicate ((119 - len % 64) % 64) 0#8 ++ count64 order (8 * len)

/-! ## Words and counts -/

section Words

theorem swapBytes_eq (n : BitVec 32) : swapBytes n = swap n := by
  apply BitVec.eq_of_getLsbD_eq
  intro i hi
  rw [getLsbD_swap n hi, swapBytes]
  interval_cases i <;> simp

/-- The number of bytes that are counted. -/
def Total.count (total : Total) : ℕ := total.t0.toNat + 2 ^ 32 * total.t1.toNat

/-- **A double word increment** counts modulo `2 ^ 64`. Source: `md5.c`, `sha1.c` (`total`). Kind: L -/
theorem Total.count_add (total : Total) {len : ℕ} (h : len < 2 ^ 32) :
    (total.add len).count = (total.count + len) % 2 ^ 64 := by
  have h0 := total.t0.isLt
  have h1 := total.t1.isLt
  have hsum : (total.t0 + BitVec.ofNat 32 len).toNat = (total.t0.toNat + len) % 2 ^ 32 := by
    rw [BitVec.toNat_add, BitVec.toNat_ofNat, Nat.mod_eq_of_lt h]
  have hone : (total.t1 + 1).toNat = (total.t1.toNat + 1) % 2 ^ 32 := by
    rw [BitVec.toNat_add]
    rfl
  unfold Total.count Total.add
  dsimp only
  rw [hsum]
  split_ifs with hcarry
  · rw [hone]
    omega
  · omega

/-- The bytes of two words are those of one number. -/
theorem count64_eq {n : ℕ} {lo hi : BitVec 32} (h : lo.toNat + 2 ^ 32 * hi.toNat = n % 2 ^ 64) :
    count64 .little n = (ByteOrder.little.encode lo).bytes ++ (ByteOrder.little.encode hi).bytes ∧
    count64 .big n = (ByteOrder.big.encode hi).bytes ++ (ByteOrder.big.encode lo).bytes := by
  have hlo := lo.isLt
  have hhi := hi.isLt
  have hbyte : ∀ (v : BitVec 32) (s k : ℕ), (v.toNat / 2 ^ s) % 256 = k % 256 →
      v.extractLsb' s 8 = BitVec.ofNat 8 k := by
    intro v s k hv
    apply BitVec.eq_of_toNat_eq
    rw [BitVec.extractLsb'_toNat, Nat.shiftRight_eq_div_pow, BitVec.toNat_ofNat]
    exact hv
  have h0 := hbyte lo 0 (n / 256 ^ 0) (by omega)
  have h1 := hbyte lo 8 (n / 256 ^ 1) (by omega)
  have h2 := hbyte lo 16 (n / 256 ^ 2) (by omega)
  have h3 := hbyte lo 24 (n / 256 ^ 3) (by omega)
  have h4 := hbyte hi 0 (n / 256 ^ 4) (by omega)
  have h5 := hbyte hi 8 (n / 256 ^ 5) (by omega)
  have h6 := hbyte hi 16 (n / 256 ^ 6) (by omega)
  have h7 := hbyte hi 24 (n / 256 ^ 7) (by omega)
  constructor
  · simp only [ByteOrder.encode, Word.bytes, h0, h1, h2, h3, h4, h5, h6, h7]
    rfl
  · simp only [ByteOrder.encode, Word.bytes, h0, h1, h2, h3, h4, h5, h6, h7]
    rfl

/-- **The number of bits**, as both digests compute it. Source: `md5.c` `md5_finish_ctx`, `sha1.c`
`sha1_finish_ctx`
Kind: L -/
theorem Total.bits (total : Total) :
    (total.t0 <<< 3).toNat + 2 ^ 32 * ((total.t1 <<< 3) ||| (total.t0 >>> 29)).toNat =
      8 * total.count % 2 ^ 64 := by
  have h0 := total.t0.isLt
  have h1 := total.t1.isLt
  have hor : ((total.t1 <<< 3) ||| (total.t0 >>> 29)).toNat =
      8 * total.t1.toNat % 2 ^ 32 + total.t0.toNat / 2 ^ 29 := by
    rw [BitVec.toNat_or, BitVec.toNat_shiftLeft, BitVec.toNat_ushiftRight,
      Nat.shiftRight_eq_div_pow, Nat.shiftLeft_eq]
    have hdiv : total.t1.toNat * 2 ^ 3 % 2 ^ 32 = (total.t1.toNat % 2 ^ 29) <<< 3 := by
      rw [Nat.shiftLeft_eq]
      omega
    rw [hdiv, ← Nat.shiftLeft_add_eq_or_of_lt (by omega), Nat.shiftLeft_eq]
    omega
  rw [hor, BitVec.toNat_shiftLeft, Nat.shiftLeft_eq]
  unfold Total.count
  omega

end Words

/-! ## The invariant -/

section Invariant

variable {σ : Type} {compress : σ → List Byte → σ} {init : σ}

variable (compress init) in
/-- The registers and the count are those of a message without the bytes that are pending. -/
def Consumed (regs : σ) (total : Total) (m pending : List Byte) : Prop :=
  Streamed compress 64 init m regs pending ∧ total.count = (m.length - pending.length) % 2 ^ 64

variable (compress init) in
/-- **What holds between two calls**, when the bytes of the chunks so far are `m`. Source: `md5.h` `struct md5_ctx`,
`sha1.h` `struct sha1_ctx` -/
structure Ctx.Holds (ctx : Ctx σ) (m : List Byte) : Prop where
  buflen_le : ctx.buflen ≤ 64
  consumed : Consumed compress init ctx.regs ctx.total m (ctx.buffer.slice 0 ctx.buflen)

namespace Consumed

variable {regs : σ} {total : Total} {m pending block : List Byte}

theorem push (h : Consumed compress init regs total m pending) (l : List Byte) :
    Consumed compress init regs total (m ++ l) (pending ++ l) := by
  refine ⟨h.1.push l, ?_⟩
  rw [h.2, List.length_append, List.length_append, Nat.add_sub_add_right]

/-- **Blocks are compressed and counted.** Source: `md5.c` `md5_process_block`, `sha1.c`
`sha1_process_block`
Kind: L -/
theorem process {ctx : Ctx σ} (h : Consumed compress init ctx.regs ctx.total m (block ++ pending))
    (hdvd : 64 ∣ block.length) (hlt : block.length < 2 ^ 32) :
    Consumed compress init (processBlock compress block ctx).regs (processBlock compress block ctx).total m
      pending := by
  refine ⟨h.1.flush (by decide) hdvd, ?_⟩
  have hle := h.1.length_le
  have hcount := h.2
  rw [List.length_append] at hle hcount
  change (ctx.total.add block.length).count = _
  rw [Total.count_add _ hlt, hcount]
  omega

/-- The number of bytes of the message determines the count. -/
theorem count_eq (h : Consumed compress init regs total m pending) :
    (total.count + pending.length) % 2 ^ 64 = m.length % 2 ^ 64 := by
  have hle := h.1.length_le
  rw [h.2]
  omega

end Consumed

theorem length_carried {ctx : Ctx σ} (h : ctx.buflen ≤ 128) :
    (ctx.buffer.slice 0 ctx.buflen).length = ctx.buflen :=
  FixedBuffer.length_slice (by omega)

theorem Ctx.Holds.of_empty {ctx : Ctx σ} {m : List Byte} (hz : ctx.buflen = 0)
    (h : Consumed compress init ctx.regs ctx.total m []) : ctx.Holds compress init m := by
  refine ⟨by omega, ?_⟩
  rwa [hz, FixedBuffer.slice_zero]

theorem Ctx.Holds.empty {ctx : Ctx σ} {m : List Byte} (hz : ctx.buflen = 0)
    (h : ctx.Holds compress init m) : Consumed compress init ctx.regs ctx.total m [] := by
  have hconsumed := h.consumed
  rwa [hz, FixedBuffer.slice_zero] at hconsumed

theorem Chunk.advance_zero (buffer : Chunk) : buffer.advance 0 = buffer := by
  unfold Chunk.advance
  simp only [List.drop_zero, Nat.add_zero]

theorem Chunk.advance_advance (buffer : Chunk) (j k : ℕ) :
    (buffer.advance j).advance k = buffer.advance (j + k) := by
  unfold Chunk.advance
  simp only [List.drop_drop, Nat.add_assoc]

theorem addable_eq (leftOver len : ℕ) : addable leftOver len = min len (128 - leftOver) := by
  unfold addable
  split_ifs <;> omega

/-- How many bytes of a chunk are copied behind those that are carried. -/
def taken (ctx : Ctx σ) (len : ℕ) : ℕ := if ctx.buflen ≠ 0 then addable ctx.buflen len else 0

/-- **The first step** takes all of a chunk, or leaves nothing carried. Source: `md5.c` `md5_process_bytes`,
`sha1.c` `sha1_process_bytes` (`ctx->buflen != 0`)
Kind: L -/
theorem fillBuffer_spec {ctx : Ctx σ} {m : List Byte} (h : ctx.Holds compress init m) (buffer : Chunk) :
    ∃ ctx', fillBuffer compress buffer ctx =
        some (ctx', buffer.advance (taken ctx buffer.bytes.length)) ∧
      ctx'.Holds compress init (m ++ buffer.bytes.take (taken ctx buffer.bytes.length)) ∧
      (taken ctx buffer.bytes.length < buffer.bytes.length → ctx'.buflen = 0) := by
  have hle := h.buflen_le
  have hadd := addable_eq ctx.buflen buffer.bytes.length
  by_cases hz : ctx.buflen = 0
  · have htaken : taken ctx buffer.bytes.length = 0 := if_neg (not_not.mpr hz)
    refine ⟨ctx, ?_, ?_, fun _ => hz⟩
    · rw [fillBuffer, if_neg (not_not.mpr hz), htaken, buffer.advance_zero]
    · rwa [htaken, List.take_zero, List.append_nil]
  have htaken : taken ctx buffer.bytes.length = addable ctx.buflen buffer.bytes.length := if_pos hz
  rw [htaken]
  set add := addable ctx.buflen buffer.bytes.length with hadd'
  have hlen : (buffer.bytes.take add).length = add := by
    rw [List.length_take]
    omega
  obtain ⟨filled, hfilled⟩ :=
    (FixedBuffer.write_eq_some ctx.buffer ctx.buflen (buffer.bytes.take add)).mpr (by omega)
  -- The bytes that were carried are followed by those of the chunk.
  have hslice : filled.slice 0 (ctx.buflen + add) =
      ctx.buffer.slice 0 ctx.buflen ++ buffer.bytes.take add := by
    rw [FixedBuffer.slice_add, FixedBuffer.slice_write_before hfilled (by omega), Nat.zero_add]
    conv_lhs => rw [← hlen]
    rw [FixedBuffer.slice_write hfilled]
  have hpending := h.consumed.push (buffer.bytes.take add)
  rw [← hslice] at hpending
  rw [fillBuffer, if_pos hz]
  simp only [← hadd', hfilled, Option.bind_eq_bind, Option.bind_some]
  by_cases hbig : ctx.buflen + add > 64
  · rw [if_pos hbig]
    have hblocks : wholeBlocks (ctx.buflen + add) + (ctx.buflen + add) % 64 = ctx.buflen + add := by
      unfold wholeBlocks
      omega
    have hdvd : 64 ∣ wholeBlocks (ctx.buflen + add) := Nat.dvd_mul_left 64 _
    have hlenb : (filled.slice 0 (wholeBlocks (ctx.buflen + add))).length =
        wholeBlocks (ctx.buflen + add) := FixedBuffer.length_slice (by omega)
    have hlenr : (filled.slice (wholeBlocks (ctx.buflen + add)) ((ctx.buflen + add) % 64)).length =
        (ctx.buflen + add) % 64 := FixedBuffer.length_slice (by omega)
    obtain ⟨moved, hmoved⟩ := (FixedBuffer.write_eq_some filled 0
      (filled.slice (wholeBlocks (ctx.buflen + add)) ((ctx.buflen + add) % 64))).mpr (by omega)
    rw [FixedBuffer.read_of_le (by omega)]
    simp only [Option.bind_some]
    change ∃ ctx', ((filled.read (wholeBlocks (ctx.buflen + add)) ((ctx.buflen + add) % 64)).bind
      fun rest => (filled.write 0 rest).bind fun moved => some (_, _)) = _ ∧ _
    rw [FixedBuffer.read_of_le (by omega)]
    simp only [Option.bind_some, hmoved]
    refine ⟨_, rfl, ⟨?_, ?_⟩, fun hlt => ?_⟩
    · change (ctx.buflen + add) % 64 ≤ 64
      omega
    · have hmoved' := FixedBuffer.slice_write hmoved
      rw [hlenr] at hmoved'
      change Consumed compress init _ _ _ (moved.slice 0 ((ctx.buflen + add) % 64))
      rw [hmoved']
      let ctx₁ : Ctx σ := { ctx with buffer := filled, buflen := ctx.buflen + add }
      refine Consumed.process (show Consumed compress init ctx₁.regs ctx₁.total _ _ from ?_) ?_ ?_
      · have hsplit := FixedBuffer.slice_add filled 0 (wholeBlocks (ctx.buflen + add))
          ((ctx.buflen + add) % 64)
        rw [hblocks, Nat.zero_add] at hsplit
        rw [← hsplit]
        exact hpending
      · rw [hlenb]
        exact hdvd
      · omega
    · change (ctx.buflen + add) % 64 = 0
      omega
  · rw [if_neg hbig]
    refine ⟨_, rfl, ⟨?_, hpending⟩, fun hlt => ?_⟩
    · change ctx.buflen + add ≤ 64
      omega
    · omega

/-- **The copied blocks**: what is left are between one and 64 bytes. Source: `md5.c` `md5_process_bytes`,
`sha1.c` `sha1_process_bytes` (`while (len > 64)`)
Kind: L -/
theorem copyBlocks_spec {ctx : Ctx σ} {m : List Byte} (buffer : Chunk) (hz : ctx.buflen = 0)
    (h : Consumed compress init ctx.regs ctx.total m []) :
    ∃ ctx', copyBlocks compress buffer ctx =
        some (ctx', buffer.advance ((buffer.bytes.length - 1) / 64 * 64)) ∧ ctx'.buflen = 0 ∧
      Consumed compress init ctx'.regs ctx'.total
        (m ++ buffer.bytes.take ((buffer.bytes.length - 1) / 64 * 64)) [] := by
  induction hk : (buffer.bytes.length - 1) / 64 generalizing buffer ctx m with
  | zero =>
    refine ⟨ctx, ?_, hz, ?_⟩
    · rw [copyBlocks, dif_neg (by omega), Nat.zero_mul, buffer.advance_zero]
    · rwa [Nat.zero_mul, List.take_zero, List.append_nil]
  | succ k ih =>
    have hbig : buffer.bytes.length > 64 := by omega
    have hlen : (buffer.bytes.take 64).length = 64 := by
      rw [List.length_take]
      omega
    obtain ⟨copied, hcopied⟩ :=
      (FixedBuffer.write_eq_some ctx.buffer 0 (buffer.bytes.take 64)).mpr (by omega)
    have hslice := FixedBuffer.slice_write hcopied
    rw [hlen] at hslice
    have hnext : ((buffer.advance 64).bytes.length - 1) / 64 = k := by
      change ((buffer.bytes.drop 64).length - 1) / 64 = k
      rw [List.length_drop]
      omega
    set next := processBlock compress (buffer.bytes.take 64) { ctx with buffer := copied } with hdef
    have hconsumed : Consumed compress init next.regs next.total (m ++ buffer.bytes.take 64) [] := by
      refine Consumed.process ?_ ?_ ?_
      · rw [List.append_nil]
        exact h.push _
      · rw [hlen]
      · omega
    have hempty : next.buflen = 0 := hz
    obtain ⟨ctx', hrun, hz', hconsumed'⟩ := ih (buffer.advance 64) hempty hconsumed hnext
    refine ⟨ctx', ?_, hz', ?_⟩
    · rw [copyBlocks, dif_pos hbig, hcopied]
      simp only [Option.bind_eq_bind, Option.bind_some]
      rw [FixedBuffer.read_of_le (by omega), hslice]
      simp only [Option.bind_some]
      rw [← hdef, hrun, buffer.advance_advance]
      congr 3
      omega
    · have htake : buffer.bytes.take ((k + 1) * 64) =
          buffer.bytes.take 64 ++ (buffer.advance 64).bytes.take (k * 64) := by
        rw [show (k + 1) * 64 = 64 + k * 64 by omega, List.take_add]
        rfl
      rw [htake, ← List.append_assoc]
      exact hconsumed'

/-- **Blocks in place.** Source: `md5.c` `md5_process_bytes`, `sha1.c` `sha1_process_bytes`. Kind: L -/
theorem Consumed.inPlace {ctx : Ctx σ} {m : List Byte} (buffer : Chunk)
    (h : Consumed compress init ctx.regs ctx.total m []) :
    Consumed compress init
      (processBlock compress (buffer.bytes.take (wholeBlocks buffer.bytes.length)) ctx).regs
      (processBlock compress (buffer.bytes.take (wholeBlocks buffer.bytes.length)) ctx).total
      (m ++ buffer.bytes.take (wholeBlocks buffer.bytes.length)) [] := by
  have hlen : (buffer.bytes.take (wholeBlocks buffer.bytes.length)).length =
      wholeBlocks buffer.bytes.length := by
    rw [List.length_take]
    unfold wholeBlocks
    omega
  have hlt := buffer.length_lt
  refine Consumed.process ?_ ?_ ?_
  · rw [List.append_nil]
    exact h.push _
  · rw [hlen]
    exact Nat.dvd_mul_left 64 _
  · rw [hlen]
    unfold wholeBlocks
    omega

/-! ### The end of a message -/

theorem slice_fillbuf {k : ℕ} (hpos : 0 < k) (hle : k ≤ 64) :
    fillbuf.slice 0 k = 0x80#8 :: List.replicate (k - 1) 0#8 := by
  obtain ⟨j, rfl⟩ : ∃ j, k = j + 1 := ⟨k - 1, by omega⟩
  change (0x80#8 :: List.replicate 63 0#8).take (j + 1) = _
  rw [List.take_succ_cons, List.take_replicate, Nat.min_eq_left (by omega), Nat.add_sub_cancel]

/-- The bits of the whole message are known once the carried bytes are counted. Source: `md5.c`
`md5_finish_ctx`, `sha1.c` `sha1_finish_ctx`
Kind: L -/
theorem Ctx.Holds.bits {ctx : Ctx σ} {m : List Byte} (h : ctx.Holds compress init m) :
    ((ctx.total.add ctx.buflen).t0 <<< 3).toNat + 2 ^ 32 *
        (((ctx.total.add ctx.buflen).t1 <<< 3) ||| ((ctx.total.add ctx.buflen).t0 >>> 29)).toNat =
      8 * m.length % 2 ^ 64 := by
  have hle := h.buflen_le
  have hcount := h.consumed.count_eq
  rw [length_carried (by omega)] at hcount
  rw [Total.bits, Total.count_add _ (by omega)]
  omega

/-- **The padding** ends the block of the carried bytes, or the next one if there is no room for the count.
Source: `md5.c` `md5_finish_ctx`, `sha1.c` `sha1_finish_ctx`
Kind: L -/
theorem Ctx.Holds.padding_eq {ctx : Ctx σ} {m : List Byte} (h : ctx.Holds compress init m)
    (order : ByteOrder) :
    fillbuf.slice 0 ((if ctx.buflen < 56 then 56 else 120) - ctx.buflen) ++
      count64 order (8 * m.length) = padding order m.length := by
  have hle := h.buflen_le
  have hlen := h.consumed.1.length_le
  obtain ⟨k, hk⟩ := h.consumed.1.length_eq
  rw [length_carried (by omega)] at hlen hk
  have hzeros : (if ctx.buflen < 56 then 56 else 120) - ctx.buflen - 1 =
      (119 - m.length % 64) % 64 := by
    split_ifs <;> omega
  rw [slice_fillbuf (by split_ifs <;> omega) (by split_ifs <;> omega), hzeros, padding]

end Invariant

end GccCore.Iberty.Digest
