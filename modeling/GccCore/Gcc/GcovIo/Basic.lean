import GccCore.Lib.Words
import Mathlib.Logic.Function.Basic

/-!
# `gcc/gcov-io.c`: coverage files

Words are written and read through a buffer. In libgcov the buffer is a block of fixed size and one more word; in the
compiler it grows, and a record length is filled in when the record is complete.

* **State** (`Var`) and failures (`Fault`): assertions, and accesses outside the buffer.
* **Writing** (`gcovWriteWords` and the functions over it) and **reading** (`gcovReadWords` and the functions over it).

Files grow by what is written; disk errors are not modelled, but a write of no bytes counts as one, as `fwrite` does.
-/

namespace GccCore.Gcc.GcovIo

open GccCore.Lib.Words

/-! ## State -/

/-- A value of type `gcov_unsigned_t`. Source: `gcov-io.h` `gcov_unsigned_t`. -/
abbrev Unsigned := BitVec 32

/-- Arithmetic of the type `unsigned`. Source: `gcov-io.h` `struct gcov_var`. -/
def u32 (n : ℕ) : ℕ := n % 2 ^ 32

/-- The two builds of the file. Source: `gcov-io.h` `IN_LIBGCOV`. -/
inductive Build
  | libgcov
  | compiler
  deriving DecidableEq

/-- The machine: its byte order, and whether a counter is wider than a word.
Source: `gcov-io.c` `gcov_write_counter` (`sizeof (value) > sizeof (gcov_unsigned_t)`) -/
structure Host where
  order : ByteOrder
  wide : Bool

/-- Source: `gcov-io.h` `GCOV_BLOCK_SIZE`. -/
def blockSize : ℕ := 2 ^ 10

/-- Source: `gcov-io.h` `struct gcov_var` (`mode`). -/
inductive Mode
  | closed
  | reading
  | writing
  deriving DecidableEq

/-- The state of the file that is open: its contents and position, and the buffer.
Source: `gcov-io.h` `struct gcov_var` -/
structure Var where
  file : List Word
  pos : ℕ
  start : ℕ
  offset : ℕ
  length : ℕ
  overread : ℕ
  error : ℤ
  mode : Mode
  endian : Bool
  alloc : ℕ
  buffer : ℕ → Word

/-- Source: `system.h` `gcc_assert`. -/
inductive Fault
  | assertion
  | bounds
  deriving DecidableEq

/-- The words that fit in the buffer. Source: `gcov-io.h` `struct gcov_var` (`buffer`, `alloc`). -/
def Var.capacity (b : Build) (σ : Var) : ℕ :=
  match b with
  | .libgcov => blockSize + 1
  | .compiler => σ.alloc

/-- A word is stored in the buffer. -/
def Var.put (b : Build) (i : ℕ) (w : Word) (σ : Var) : Except Fault Var :=
  if i < σ.capacity b then .ok { σ with buffer := Function.update σ.buffer i w } else .error .bounds

/-- The state after opening; what the buffer holds is left over from before.
Source: `gcov-io.c` `gcov_open` -/
def gcovOpen (mode : Mode) (file : List Word) (buffer : ℕ → Word) : Var where
  file := file
  pos := 0
  start := 0
  offset := 0
  length := 0
  overread := 2 ^ 32 - 1
  error := 0
  mode := mode
  endian := false
  alloc := 0
  buffer := buffer

/-- Source: `gcov-io.c` `from_file`. -/
def fromFile (endian : Bool) (value : Unsigned) : Unsigned :=
  if endian then
    let value := value >>> 16 ||| value <<< 16
    ((value &&& 0xff00ff#32) <<< 8) ||| ((value >>> 8) &&& 0xff00ff#32)
  else value

/-- Source: `gcov-io.c` `gcov_magic`. -/
def gcovMagic (magic expected : Unsigned) (σ : Var) : ℤ × Var :=
  if magic = expected then (1, σ)
  else if fromFile true magic = expected then (-1, { σ with endian := true })
  else (0, σ)

/-- Source: `gcov-io.c` `gcov_allocate`. -/
def gcovAllocate (length : ℕ) (σ : Var) : Var :=
  { σ with alloc := ((if σ.alloc = 0 then blockSize else σ.alloc) + length) * 2 }

/-! ## Writing -/

/-- Source: `gcov-io.c` `gcov_write_block`. -/
def gcovWriteBlock (size : ℕ) (σ : Var) : Var :=
  let bytes := u32 (size * 4)
  { σ with
    file := σ.file ++ (List.range (bytes / 4)).map σ.buffer
    error := if bytes = 0 then 1 else σ.error
    start := u32 (σ.start + size)
    offset := u32 (σ.offset + 2 ^ 32 - size) }

/-- The buffer is made ready for more words. Source: `gcov-io.c` `gcov_write_words`. -/
def makeRoom (b : Build) (words : ℕ) (σ : Var) : Except Fault Var :=
  match b with
  | .libgcov =>
    if blockSize ≤ σ.offset then
      let σ := gcovWriteBlock blockSize σ
      if σ.offset = 0 then .ok σ
      else if σ.offset = 1 then
        .ok { σ with buffer := Function.update σ.buffer 0 (σ.buffer blockSize) }
      else .error .assertion
    else .ok σ
  | .compiler =>
    if σ.alloc < u32 (σ.offset + words) then .ok (gcovAllocate (u32 (σ.offset + words)) σ) else .ok σ

/-- The place of the words to be written. Source: `gcov-io.c` `gcov_write_words`. -/
def gcovWriteWords (b : Build) (words : ℕ) (σ : Var) : Except Fault (ℕ × Var) :=
  if σ.mode = .writing then do
    let σ ← makeRoom b words σ
    .ok (σ.offset, { σ with offset := u32 (σ.offset + words) })
  else .error .assertion

/-- Source: `gcov-io.c` `gcov_write_unsigned`. -/
def gcovWriteUnsigned (b : Build) (h : Host) (value : Unsigned) (σ : Var) : Except Fault Var := do
  let (buffer, σ) ← gcovWriteWords b 1 σ
  σ.put b buffer (h.order.encode value)

/-- Source: `gcov-io.c` `gcov_write_counter`. -/
def gcovWriteCounter (h : Host) (value : ℤ) (σ : Var) : Except Fault Var := do
  let (buffer, σ) ← gcovWriteWords .libgcov 2 σ
  let σ ← σ.put .libgcov buffer (h.order.encode (BitVec.ofInt 32 value))
  σ.put .libgcov (buffer + 1) (h.order.encode (if h.wide then BitVec.ofInt 32 (value / 2 ^ 32) else 0))

/-- A string of C: it has no zero byte. -/
abbrev CString := { bytes : List (BitVec 8) // 0 ∉ bytes }

/-- Bytes are copied into the buffer, from the word `base` on. Source: `gcov-io.c` `gcov_write_string` (`memcpy`). -/
def copyBytes (buffer : ℕ → Word) (base : ℕ) (bytes : List (BitVec 8)) (j : ℕ) : Word :=
  if base ≤ j then
    .ofBytes fun i => bytes.getD (4 * (j - base) + i) ((buffer j).bytes.getD i 0)
  else buffer j

/-- Source: `gcov-io.c` `gcov_write_string`. -/
def gcovWriteString (h : Host) (string : Option CString) (σ : Var) : Except Fault Var := do
  let bytes : List (BitVec 8) := (string.map Subtype.val).getD []
  let length := u32 bytes.length
  let alloc := if string.isSome then u32 (length + 4) / 4 else 0
  let (buffer, σ) ← gcovWriteWords .compiler (u32 (1 + alloc)) σ
  let σ ← σ.put .compiler buffer (h.order.encode (BitVec.ofNat 32 alloc))
  let σ ← σ.put .compiler (buffer + alloc) (h.order.encode 0)
  if 4 * (buffer + 1) + length ≤ 4 * σ.capacity .compiler then
    .ok { σ with buffer := copyBytes σ.buffer (buffer + 1) (bytes.take length) }
  else .error .bounds

/-- The position of the record comes with the state. Source: `gcov-io.c` `gcov_write_tag`. -/
def gcovWriteTag (h : Host) (tag : Unsigned) (σ : Var) : Except Fault (ℕ × Var) := do
  let result := u32 (σ.start + σ.offset)
  let (buffer, σ) ← gcovWriteWords .compiler 2 σ
  let σ ← σ.put .compiler buffer (h.order.encode tag)
  let σ ← σ.put .compiler (buffer + 1) (h.order.encode 0)
  .ok (result, σ)

/-- Source: `gcov-io.c` `gcov_write_length`. -/
def gcovWriteLength (h : Host) (position : ℕ) (σ : Var) : Except Fault Var :=
  if σ.mode = .writing ∧ u32 (position + 2) ≤ u32 (σ.start + σ.offset) ∧ σ.start ≤ position then do
    let offset := position - σ.start
    let length := u32 (σ.offset + 2 ^ 32 - offset - 2)
    let σ ← σ.put .compiler (offset + 1) (h.order.encode (BitVec.ofNat 32 length))
    .ok (if blockSize ≤ σ.offset then gcovWriteBlock σ.offset σ else σ)
  else .error .assertion

/-- Source: `gcov-io.c` `gcov_write_tag_length`. -/
def gcovWriteTagLength (h : Host) (tag length : Unsigned) (σ : Var) : Except Fault Var := do
  let (buffer, σ) ← gcovWriteWords .libgcov 2 σ
  let σ ← σ.put .libgcov buffer (h.order.encode tag)
  σ.put .libgcov (buffer + 1) (h.order.encode length)

/-- Source: `gcov-io.h` `struct gcov_ctr_summary`. -/
structure CtrSummary where
  num : Unsigned
  runs : Unsigned
  sumAll : ℤ
  runMax : ℤ
  sumMax : ℤ
  deriving DecidableEq

/-- Source: `gcov-io.h` `GCOV_COUNTERS_SUMMABLE`. -/
def gcovCountersSummable : ℕ := 1

/-- Source: `gcov-io.h` `struct gcov_summary`. -/
structure Summary where
  checksum : Unsigned
  ctrs : List CtrSummary
  length_ctrs : ctrs.length = gcovCountersSummable
  deriving DecidableEq

/-- Source: `gcov-io.h` `GCOV_TAG_SUMMARY_LENGTH`. -/
def gcovTagSummaryLength : ℕ := 1 + gcovCountersSummable * (2 + 3 * 2)

/-- Source: `gcov-io.c` `gcov_write_summary` (the body of the loop). -/
def writeCtrSummary (h : Host) (csum : CtrSummary) (σ : Var) : Except Fault Var := do
  let σ ← gcovWriteUnsigned .libgcov h csum.num σ
  let σ ← gcovWriteUnsigned .libgcov h csum.runs σ
  let σ ← gcovWriteCounter h csum.sumAll σ
  let σ ← gcovWriteCounter h csum.runMax σ
  gcovWriteCounter h csum.sumMax σ

/-- Source: `gcov-io.c` `gcov_write_summary`. -/
def gcovWriteSummary (h : Host) (tag : Unsigned) (summary : Summary) (σ : Var) : Except Fault Var := do
  let σ ← gcovWriteTagLength h tag (BitVec.ofNat 32 gcovTagSummaryLength) σ
  let σ ← gcovWriteUnsigned .libgcov h summary.checksum σ
  summary.ctrs.foldlM (fun σ csum => writeCtrSummary h csum σ) σ

/-- What is left in the buffer is written. Source: `gcov-io.c` `gcov_close`. -/
def gcovClose (σ : Var) : Var :=
  let σ := if σ.offset ≠ 0 ∧ σ.mode = .writing then gcovWriteBlock σ.offset σ else σ
  { σ with length := 0, alloc := 0, mode := .closed }

/-! ## Reading -/

/-- Words that were not read move to the front of the buffer. Source: `gcov-io.c` `gcov_read_words`. -/
def carryOver (b : Build) (excess : ℕ) (σ : Var) : Except Fault Var :=
  match b with
  | .libgcov =>
    if excess = 0 then .ok σ
    else if excess = 1 then .ok { σ with buffer := Function.update σ.buffer 0 (σ.buffer σ.offset) }
    else .error .assertion
  | .compiler =>
    .ok { σ with buffer := fun j => if j < excess then σ.buffer (σ.offset + j) else σ.buffer j }

/-- The room behind them, after the buffer has grown. Source: `gcov-io.c` `gcov_read_words`. -/
def room (b : Build) (words : ℕ) (σ : Var) : ℕ × Var :=
  match b with
  | .libgcov => (blockSize, σ)
  | .compiler =>
    let σ := if σ.alloc < u32 (σ.length + words) then gcovAllocate (u32 (σ.length + words)) σ else σ
    (u32 (σ.alloc - σ.length), σ)

/-- More of the file is read into the buffer. Source: `gcov-io.c` `gcov_read_words` (`fread`). -/
def refill (excess : ℕ) (σ : Var) : Var :=
  let got := min (u32 (excess * 4) / 4) (σ.file.length - σ.pos)
  { σ with
    buffer := fun j =>
      if σ.length ≤ j ∧ j < σ.length + got then σ.file.getD (σ.pos + (j - σ.length)) (σ.buffer j)
      else σ.buffer j
    pos := σ.pos + got
    length := u32 (σ.length + got) }

/-- The place of the words that were read, or nothing behind the end of the file.
Source: `gcov-io.c` `gcov_read_words` -/
def gcovReadWords (b : Build) (words : ℕ) (σ : Var) : Except Fault (Option ℕ × Var) :=
  let excess := u32 (σ.length + 2 ^ 32 - σ.offset)
  if σ.mode = .reading then
    if excess < words then do
      let σ ← carryOver b excess { σ with start := u32 (σ.start + σ.offset) }
      let σ := { σ with offset := 0, length := excess }
      if b = .libgcov ∧ ¬ (σ.length = 0 ∨ σ.length = 1) then .error .assertion
      else
        let (excess, σ) := room b words σ
        let σ := refill excess σ
        if σ.length < words then
          .ok (none, { σ with overread := u32 (σ.overread + (words - σ.length)), length := 0 })
        else .ok (some σ.offset, { σ with offset := u32 (σ.offset + words) })
    else .ok (some σ.offset, { σ with offset := u32 (σ.offset + words) })
  else .error .assertion

/-- A word of the buffer as a number; only outside libgcov can the file have the other byte order.
Source: `gcov-io.c` `from_file` -/
def Var.number (b : Build) (h : Host) (σ : Var) (i : ℕ) : Unsigned :=
  let value := h.order.decode (σ.buffer i)
  match b with
  | .libgcov => value
  | .compiler => fromFile σ.endian value

/-- Source: `gcov-io.c` `gcov_read_unsigned`. -/
def gcovReadUnsigned (b : Build) (h : Host) (σ : Var) : Except Fault (Unsigned × Var) := do
  let (buffer, σ) ← gcovReadWords b 1 σ
  match buffer with
  | none => .ok (0, σ)
  | some buffer => .ok (σ.number b h buffer, σ)

/-- Source: `gcov-io.c` `gcov_read_counter`. -/
def gcovReadCounter (b : Build) (h : Host) (σ : Var) : Except Fault (ℤ × Var) := do
  let (buffer, σ) ← gcovReadWords b 2 σ
  match buffer with
  | none => .ok (0, σ)
  | some buffer =>
    let low := σ.number b h buffer
    if h.wide then .ok ((σ.number b h (buffer + 1) ++ low).toInt, σ)
    else .ok (low.toInt, { σ with error := if h.order.decode (σ.buffer (buffer + 1)) ≠ 0 then -1 else σ.error })

/-- The text up to its first zero byte. Source: `gcov-io.c` `gcov_read_string`. -/
def gcovReadString (h : Host) (σ : Var) : Except Fault (Option (List (BitVec 8)) × Var) := do
  let (length, σ) ← gcovReadUnsigned .compiler h σ
  if length = 0 then .ok (none, σ)
  else do
    let (buffer, σ) ← gcovReadWords .compiler length.toNat σ
    match buffer with
    | none => .ok (none, σ)
    | some buffer =>
      let words := (List.range length.toNat).map fun i => σ.buffer (buffer + i)
      .ok (some ((words.flatMap Word.bytes).takeWhile (· ≠ 0)), σ)

/-- Source: `gcov-io.c` `gcov_read_summary` (the body of the loop). -/
def readCtrSummary (b : Build) (h : Host) (σ : Var) : Except Fault (CtrSummary × Var) := do
  let (num, σ) ← gcovReadUnsigned b h σ
  let (runs, σ) ← gcovReadUnsigned b h σ
  let (sumAll, σ) ← gcovReadCounter b h σ
  let (runMax, σ) ← gcovReadCounter b h σ
  let (sumMax, σ) ← gcovReadCounter b h σ
  .ok (⟨num, runs, sumAll, runMax, sumMax⟩, σ)

/-- The counters of a summary, one after the other. Source: `gcov-io.c` `gcov_read_summary`. -/
def readCtrSummaries (b : Build) (h : Host) : ℕ → Var → Except Fault (List CtrSummary × Var)
  | 0, σ => .ok ([], σ)
  | n + 1, σ => do
    let (csum, σ) ← readCtrSummary b h σ
    let (csums, σ) ← readCtrSummaries b h n σ
    .ok (csum :: csums, σ)

/-- Source: `gcov-io.c` `gcov_read_summary`. -/
def gcovReadSummary (b : Build) (h : Host) (σ : Var) :
    Except Fault ((Unsigned × List CtrSummary) × Var) := do
  let (checksum, σ) ← gcovReadUnsigned b h σ
  let (ctrs, σ) ← readCtrSummaries b h gcovCountersSummable σ
  .ok ((checksum, ctrs), σ)

end GccCore.Gcc.GcovIo
