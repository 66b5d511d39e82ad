import GccCore.Gcc.GcovIo.Basic
import Mathlib.Tactic.Linarith

/-!
# Coverage files: what is written

Between two calls the words written so far are those in the file and those in front of the offset in the buffer,
wherever the buffer was emptied.

* **Values** (`DataVal`, `NoteVal`) and **items** (`DataItem`, `NoteItem`): what libgcov and the compiler write, and
  the words they stand for.
* **The words so far** (`Wrote`), kept by each function (`gcovWriteWords_spec` and what follows it).
* **Files** (`writeData_spec`, `writeNotes_spec`): closing leaves exactly the words of the items in the file.
-/

namespace GccCore.Gcc.GcovIo

open GccCore.Lib.Words

/-! ## Values and items -/

/-- What libgcov writes. Source: `gcov-io.h` ("Available only in libgcov"). -/
inductive DataVal
  | unsigned (value : Unsigned)
  | counter (value : ℤ)

/-- What the compiler writes. Source: `gcov-io.h` ("Available only in compiler"). -/
inductive NoteVal
  | unsigned (value : Unsigned)
  | string (text : Option CString)

/-- The words of a string: their number, and the padded text. Source: `gcov-io.h` (the file format). -/
def stringWords (h : Host) : Option CString → List Word
  | none => [h.order.encode 0]
  | some s => h.order.encode (BitVec.ofNat 32 ((s.1.length + 4) / 4)) :: packed s.1 ((s.1.length + 4) / 4)

/-- The words of a counter, the low one first. Source: `gcov-io.h` (the file format). -/
def counterWords (h : Host) (value : ℤ) : List Word :=
  [h.order.encode (BitVec.ofInt 32 value),
    h.order.encode (if h.wide then BitVec.ofInt 32 (value / 2 ^ 32) else 0)]

/-- The words of a value. Source: `gcov-io.h` (the file format). -/
def DataVal.words (h : Host) : DataVal → List Word
  | .unsigned value => [h.order.encode value]
  | .counter value => counterWords h value

/-- The words of a value. Source: `gcov-io.h` (the file format). -/
def NoteVal.words (h : Host) : NoteVal → List Word
  | .unsigned value => [h.order.encode value]
  | .string text => stringWords h text

/-- A value, a record with its tag, or a summary. Source: `gcov-io.h` (the file format), `libgcov.c`. -/
inductive DataItem
  | value (v : DataVal)
  | record (tag : Unsigned) (body : List DataVal)
  | summary (tag : Unsigned) (summary : Summary)

/-- A value, or a record with its tag. Source: `gcov-io.h` (the file format), `coverage.c`, `profile.c`. -/
inductive NoteItem
  | value (v : NoteVal)
  | record (tag : Unsigned) (body : List NoteVal)

/-- The values of a counter summary. Source: `gcov-io.h` (`count-summary`). -/
def CtrSummary.vals (csum : CtrSummary) : List DataVal :=
  [.unsigned csum.num, .unsigned csum.runs, .counter csum.sumAll, .counter csum.runMax, .counter csum.sumMax]

/-- The values of a summary. Source: `gcov-io.h` (`summary`). -/
def Summary.vals (s : Summary) : List DataVal :=
  .unsigned s.checksum :: s.ctrs.flatMap CtrSummary.vals

/-- The words of a list of values. -/
def dataWords (h : Host) (vs : List DataVal) : List Word := vs.flatMap (DataVal.words h)

/-- The words of a list of values. -/
def noteWords (h : Host) (vs : List NoteVal) : List Word := vs.flatMap (NoteVal.words h)

/-- The words of an item: a record begins with its tag and the number of words that follow.
Source: `gcov-io.h` (the file format) -/
def DataItem.words (h : Host) : DataItem → List Word
  | .value v => v.words h
  | .record tag body =>
    h.order.encode tag :: h.order.encode (BitVec.ofNat 32 (dataWords h body).length) :: dataWords h body
  | .summary tag s =>
    h.order.encode tag :: h.order.encode (BitVec.ofNat 32 (dataWords h s.vals).length) :: dataWords h s.vals

/-- The words of an item. Source: `gcov-io.h` (the file format). -/
def NoteItem.words (h : Host) : NoteItem → List Word
  | .value v => v.words h
  | .record tag body =>
    h.order.encode tag :: h.order.encode (BitVec.ofNat 32 (noteWords h body).length) :: noteWords h body

/-- Source: `gcov-io.c` `gcov_write_unsigned`, `gcov_write_counter`. -/
def writeDataVal (h : Host) (v : DataVal) (σ : Var) : Except Fault Var :=
  match v with
  | .unsigned value => gcovWriteUnsigned .libgcov h value σ
  | .counter value => gcovWriteCounter h value σ

/-- Source: `gcov-io.c` `gcov_write_unsigned`, `gcov_write_string`. -/
def writeNoteVal (h : Host) (v : NoteVal) (σ : Var) : Except Fault Var :=
  match v with
  | .unsigned value => gcovWriteUnsigned .compiler h value σ
  | .string text => gcovWriteString h text σ

/-- A record is announced with its length. Source: `libgcov.c` `gcov_exit`. -/
def writeDataItem (h : Host) (item : DataItem) (σ : Var) : Except Fault Var :=
  match item with
  | .value v => writeDataVal h v σ
  | .record tag body => do
    let σ ← gcovWriteTagLength h tag (BitVec.ofNat 32 (dataWords h body).length) σ
    body.foldlM (fun σ v => writeDataVal h v σ) σ
  | .summary tag s => gcovWriteSummary h tag s σ

/-- The length of a record is filled in behind it. Source: `coverage.c` `coverage_begin_output`. -/
def writeNoteItem (h : Host) (item : NoteItem) (σ : Var) : Except Fault Var :=
  match item with
  | .value v => writeNoteVal h v σ
  | .record tag body => do
    let (position, σ) ← gcovWriteTag h tag σ
    let σ ← body.foldlM (fun σ v => writeNoteVal h v σ) σ
    gcovWriteLength h position σ

/-- A file from libgcov. Source: `libgcov.c` `gcov_exit`. -/
def writeData (h : Host) (buffer : ℕ → Word) (items : List DataItem) : Except Fault Var := do
  let σ ← items.foldlM (fun σ item => writeDataItem h item σ) (gcovOpen .writing [] buffer)
  .ok (gcovClose σ)

/-- A file from the compiler. Source: `coverage.c` `coverage_begin_output`, `coverage_finish`. -/
def writeNotes (h : Host) (buffer : ℕ → Word) (items : List NoteItem) : Except Fault Var := do
  let σ ← items.foldlM (fun σ item => writeNoteItem h item σ) (gcovOpen .writing [] buffer)
  .ok (gcovClose σ)

/-! ## The words so far -/

/-- The words written so far are in the file and at the front of the buffer. -/
structure Wrote (b : Build) (σ : Var) (ws : List Word) : Prop where
  mode_eq : σ.mode = .writing
  error_eq : σ.error = 0
  words_eq : σ.file ++ (List.range σ.offset).map σ.buffer = ws
  offset_le : σ.offset ≤ σ.capacity b
  start_eq : σ.start = u32 σ.file.length

/-- There is room for `n` words behind those written so far, at `r`. -/
structure Reserved (b : Build) (σ : Var) (ws : List Word) (r n : ℕ) : Prop where
  mode_eq : σ.mode = .writing
  error_eq : σ.error = 0
  words_eq : σ.file ++ (List.range r).map σ.buffer = ws
  offset_eq : σ.offset = r + n
  offset_le : r + n ≤ σ.capacity b
  start_eq : σ.start = u32 σ.file.length

section Words

variable {b : Build} {h : Host} {σ : Var} {ws : List Word}

/-- The words written so far, by place. -/
theorem Wrote.length_eq (hw : Wrote b σ ws) : ws.length = σ.file.length + σ.offset := by
  rw [← hw.words_eq, List.length_append, List.length_map, List.length_range]

theorem u32_of_lt {n : ℕ} (hn : n < 2 ^ 32) : u32 n = n := Nat.mod_eq_of_lt hn

theorem ok_bind {α β : Type} (a : α) (f : α → Except Fault β) : (Except.ok a >>= f) = f a := rfl

/-- Writing out all of a buffer that is not empty. Source: `gcov-io.c` `gcov_write_block`. Kind: L -/
theorem gcovWriteBlock_all (hw : Wrote b σ ws) (hpos : 0 < σ.offset) (hlt : σ.offset < 2 ^ 30) :
    Wrote b (gcovWriteBlock σ.offset σ) ws ∧ (gcovWriteBlock σ.offset σ).file = ws ∧
      (gcovWriteBlock σ.offset σ).offset = 0 := by
  have hbytes : u32 (σ.offset * 4) = σ.offset * 4 := u32_of_lt (by omega)
  have hfile : (gcovWriteBlock σ.offset σ).file = ws := by
    unfold gcovWriteBlock
    dsimp only
    rw [hbytes, Nat.mul_div_cancel _ (by omega)]
    exact hw.words_eq
  have hoffset : (gcovWriteBlock σ.offset σ).offset = 0 := by
    unfold gcovWriteBlock u32
    dsimp only
    omega
  refine ⟨⟨hw.mode_eq, ?_, ?_, ?_, ?_⟩, hfile, hoffset⟩
  · unfold gcovWriteBlock
    dsimp only
    rw [hbytes, if_neg (by omega)]
    exact hw.error_eq
  · rw [hoffset, hfile]
    simp
  · rw [hoffset]
    exact Nat.zero_le _
  · rw [hfile, hw.length_eq]
    have hstart := hw.start_eq
    unfold gcovWriteBlock u32 at *
    dsimp only
    omega

/-- In libgcov a full block is written out, and at most one word stays behind.
Source: `gcov-io.c` `gcov_write_words`
Kind: L -/
theorem makeRoom_libgcov (hw : Wrote .libgcov σ ws) {n : ℕ} (hn : n ≤ 2) :
    ∃ σ', makeRoom .libgcov n σ = .ok σ' ∧ Wrote .libgcov σ' ws ∧ σ'.offset + n ≤ blockSize + 1 := by
  have hoff : σ.offset ≤ blockSize + 1 := hw.offset_le
  unfold makeRoom
  by_cases hfull : blockSize ≤ σ.offset
  · rw [if_pos hfull]
    have hsize : blockSize = 1024 := rfl
    have hbytes : u32 (blockSize * 4) = blockSize * 4 := rfl
    have hoffset : (gcovWriteBlock blockSize σ).offset = σ.offset - blockSize := by
      unfold gcovWriteBlock u32
      dsimp only
      omega
    have hfile : (gcovWriteBlock blockSize σ).file = σ.file ++ (List.range blockSize).map σ.buffer := by
      unfold gcovWriteBlock
      dsimp only
      rw [hbytes, Nat.mul_div_cancel _ (by omega)]
    have herror : (gcovWriteBlock blockSize σ).error = 0 := by
      unfold gcovWriteBlock
      dsimp only
      rw [hbytes, if_neg (by omega)]
      exact hw.error_eq
    have hstart : (gcovWriteBlock blockSize σ).start = u32 (gcovWriteBlock blockSize σ).file.length := by
      have := hw.start_eq
      rw [hfile, List.length_append, List.length_map, List.length_range]
      unfold gcovWriteBlock u32 at *
      dsimp only
      omega
    dsimp only
    rcases Nat.lt_or_ge blockSize σ.offset with hmore | hexact
    · -- one word is behind the block: it moves to the front
      have hone : σ.offset = blockSize + 1 := by omega
      rw [if_neg (by omega), if_pos (by omega)]
      refine ⟨_, rfl, ⟨hw.mode_eq, herror, ?_, ?_, hstart⟩, ?_⟩
      · dsimp only
        rw [hoffset, hfile, ← hw.words_eq, hone, List.range_succ (n := blockSize), List.map_append,
          List.append_assoc, Nat.add_sub_cancel_left, List.range_one, List.map_singleton, List.map_singleton,
          Function.update_self]
        rfl
      · change (gcovWriteBlock blockSize σ).offset ≤ blockSize + 1
        omega
      · dsimp only
        omega
    · have hzero : σ.offset = blockSize := by omega
      rw [if_pos (by omega)]
      refine ⟨_, rfl, ⟨hw.mode_eq, herror, ?_, ?_, hstart⟩, ?_⟩
      · rw [hoffset, hfile, ← hw.words_eq, hzero]
        simp
      · change (gcovWriteBlock blockSize σ).offset ≤ blockSize + 1
        omega
      · omega
  · rw [if_neg hfull]
    exact ⟨σ, rfl, hw, by omega⟩

/-- In the compiler the buffer grows. Source: `gcov-io.c` `gcov_write_words`. Kind: L -/
theorem makeRoom_compiler (hw : Wrote .compiler σ ws) {n : ℕ} (hn : σ.offset + n < 2 ^ 31) :
    ∃ σ', makeRoom .compiler n σ = .ok σ' ∧ Wrote .compiler σ' ws ∧ σ'.offset + n ≤ σ'.alloc ∧
      σ'.file = σ.file ∧ σ'.offset = σ.offset := by
  have hu : u32 (σ.offset + n) = σ.offset + n := u32_of_lt (by omega)
  unfold makeRoom
  dsimp only
  rw [hu]
  by_cases hfits : σ.alloc < σ.offset + n
  · rw [if_pos hfits]
    have hgrown : σ.offset + n ≤ (gcovAllocate (σ.offset + n) σ).alloc := by
      unfold gcovAllocate
      dsimp only
      omega
    refine ⟨_, rfl, ⟨hw.mode_eq, hw.error_eq, hw.words_eq, ?_, hw.start_eq⟩, hgrown, rfl, rfl⟩
    exact le_trans (Nat.le_add_right _ n) hgrown
  · rw [if_neg hfits]
    exact ⟨σ, rfl, hw, not_lt.mp hfits, rfl, rfl⟩

/-- How many words a build can write after those in its buffer. -/
def Fits (b : Build) (σ : Var) (n : ℕ) : Prop :=
  match b with
  | .libgcov => n ≤ 2
  | .compiler => σ.offset + n < 2 ^ 31

/-- What can be written out fits in the buffer. -/
theorem Fits.of_lt {n : ℕ} (hn : σ.offset + n < 2 ^ 30) : Fits .compiler σ n :=
  lt_trans hn (by norm_num)

/-- **Room for words**: the words written so far stay, and there is room behind them.
Source: `gcov-io.c` `gcov_write_words`
Kind: L -/
theorem gcovWriteWords_spec (hw : Wrote b σ ws) {n : ℕ} (hn : Fits b σ n) :
    ∃ r σ', gcovWriteWords b n σ = .ok (r, σ') ∧ Reserved b σ' ws r n ∧
      (b = .compiler → σ'.file = σ.file) := by
  unfold gcovWriteWords
  rw [if_pos hw.mode_eq]
  cases b with
  | libgcov =>
    obtain ⟨σ', hroom, hw', hle⟩ := makeRoom_libgcov hw hn
    have hu : u32 (σ'.offset + n) = σ'.offset + n := u32_of_lt (by
      have : blockSize = 1024 := rfl
      omega)
    rw [hroom]
    refine ⟨σ'.offset, _, rfl, ⟨hw'.mode_eq, hw'.error_eq, hw'.words_eq, hu, hle, hw'.start_eq⟩, ?_⟩
    intro hb
    cases hb
  | compiler =>
    obtain ⟨σ', hroom, hw', hle, hfile, hoff⟩ := makeRoom_compiler hw hn
    have hu : u32 (σ'.offset + n) = σ'.offset + n := u32_of_lt (by
      have : σ.offset + n < 2 ^ 31 := hn
      omega)
    rw [hroom]
    exact ⟨σ'.offset, _, rfl, ⟨hw'.mode_eq, hw'.error_eq, hw'.words_eq, hu, hle, hw'.start_eq⟩,
      fun _ => hfile⟩

/-- A word is stored in the room that was reserved. -/
theorem Reserved.put {r n : ℕ} (hr : Reserved b σ ws r n) {i : ℕ} (hi : i < n) (w : Word) :
    σ.put b (r + i) w = .ok { σ with buffer := Function.update σ.buffer (r + i) w } ∧
      Reserved b { σ with buffer := Function.update σ.buffer (r + i) w } ws r n := by
  have hle := hr.offset_le
  refine ⟨?_, hr.mode_eq, hr.error_eq, ?_, hr.offset_eq, hr.offset_le, hr.start_eq⟩
  · unfold Var.put
    rw [if_pos (by omega)]
  · rw [← hr.words_eq]
    congr 1
    apply List.map_congr_left
    intro j hj
    rw [List.mem_range] at hj
    exact Function.update_of_ne (by omega) _ _

/-- Once the room is filled, the words are written. -/
theorem Reserved.wrote {r : ℕ} {l : List Word} (hr : Reserved b σ ws r l.length)
    (hnew : (List.range l.length).map (fun i => σ.buffer (r + i)) = l) : Wrote b σ (ws ++ l) := by
  refine ⟨hr.mode_eq, hr.error_eq, ?_, ?_, hr.start_eq⟩
  · rw [hr.offset_eq, List.range_add, List.map_append, ← List.append_assoc, hr.words_eq, List.map_map]
    congr 1
  · rw [hr.offset_eq]
    exact hr.offset_le

theorem gcovWriteUnsigned_spec (hw : Wrote b σ ws) (value : Unsigned) (hn : Fits b σ 1) :
    ∃ σ', gcovWriteUnsigned b h value σ = .ok σ' ∧ Wrote b σ' (ws ++ [h.order.encode value]) ∧
      (b = .compiler → σ'.file = σ.file) := by
  obtain ⟨r, σ₁, hcall, hr, hfile⟩ := gcovWriteWords_spec hw hn
  obtain ⟨hput, hr'⟩ := hr.put (Nat.lt_one_iff.mpr rfl) (h.order.encode value)
  unfold gcovWriteUnsigned
  rw [hcall]
  refine ⟨_, hput, ?_, hfile⟩
  apply Reserved.wrote hr'
  simp

/-- Two words are written. Source: `gcov-io.c` `gcov_write_counter`, `gcov_write_tag_length`. Kind: L -/
theorem write_two_spec (hw : Wrote b σ ws) (v w : Word) (hn : Fits b σ 2) :
    ∃ r σ₁ σ₂ σ₃, gcovWriteWords b 2 σ = .ok (r, σ₁) ∧ σ₁.put b r v = .ok σ₂ ∧ σ₂.put b (r + 1) w = .ok σ₃ ∧
      Wrote b σ₃ (ws ++ [v, w]) ∧ (b = .compiler → σ₃.file = σ.file) := by
  obtain ⟨r, σ₁, hcall, hr, hfile⟩ := gcovWriteWords_spec hw hn
  obtain ⟨hput, hr₂⟩ := hr.put (show 0 < 2 by omega) v
  obtain ⟨hput', hr₃⟩ := hr₂.put (show 1 < 2 by omega) w
  refine ⟨r, σ₁, _, _, hcall, hput, hput', ?_, hfile⟩
  apply Reserved.wrote hr₃
  simp [List.range_succ]

theorem gcovWriteCounter_spec (hw : Wrote .libgcov σ ws) (value : ℤ) :
    ∃ σ', gcovWriteCounter h value σ = .ok σ' ∧ Wrote .libgcov σ' (ws ++ counterWords h value) := by
  obtain ⟨r, σ₁, σ₂, σ₃, hcall, hput, hput', hw', _⟩ := write_two_spec hw
    (h.order.encode (BitVec.ofInt 32 value))
    (h.order.encode (if h.wide then BitVec.ofInt 32 (value / 2 ^ 32) else 0)) (le_refl 2)
  refine ⟨σ₃, ?_, hw'⟩
  unfold gcovWriteCounter
  rw [hcall]
  change (do let σ ← σ₁.put .libgcov r _; σ.put .libgcov (r + 1) _) = _
  rw [hput]
  exact hput'

theorem gcovWriteTagLength_spec (hw : Wrote .libgcov σ ws) (tag length : Unsigned) :
    ∃ σ', gcovWriteTagLength h tag length σ = .ok σ' ∧
      Wrote .libgcov σ' (ws ++ [h.order.encode tag, h.order.encode length]) := by
  obtain ⟨r, σ₁, σ₂, σ₃, hcall, hput, hput', hw', _⟩ := write_two_spec hw
    (h.order.encode tag) (h.order.encode length) (le_refl 2)
  refine ⟨σ₃, ?_, hw'⟩
  unfold gcovWriteTagLength
  rw [hcall]
  change (do let σ ← σ₁.put .libgcov r _; σ.put .libgcov (r + 1) _) = _
  rw [hput]
  exact hput'

/-! ## Strings -/

theorem encode_zero (o : ByteOrder) : o.encode 0 = ⟨0, 0, 0, 0⟩ := by
  cases o <;> rfl

/-- Text that is copied over words the last of which is zero is padded with zeros.
Source: `gcov-io.c` `gcov_write_string` (`memcpy`)
Kind: L -/
theorem copyBytes_packed {buffer : ℕ → Word} {base : ℕ} {bytes : List (BitVec 8)}
    (hlast : buffer (base + bytes.length / 4) = ⟨0, 0, 0, 0⟩) {j : ℕ} (hj : j ≤ bytes.length / 4) :
    copyBytes buffer base bytes (base + j) = .ofBytes fun i => bytes.getD (4 * j + i) 0 := by
  unfold copyBytes
  rw [if_pos (Nat.le_add_right _ _), Nat.add_sub_cancel_left]
  rcases Nat.lt_or_eq_of_le hj with hlt | rfl
  · -- all four bytes are bytes of the text
    have hin : ∀ i < 4, ∀ d, bytes.getD (4 * j + i) d = bytes.getD (4 * j + i) 0 := by
      intro i hi d
      have hlen : 4 * j + i < bytes.length := by omega
      rw [List.getD_eq_getElem?_getD, List.getD_eq_getElem?_getD, List.getElem?_eq_getElem hlen]
      rfl
    unfold Word.ofBytes
    dsimp only
    rw [hin 0 (by omega), hin 1 (by omega), hin 2 (by omega), hin 3 (by omega)]
  · rw [hlast]
    rfl

/-- The length word, and zero where the text will end, are stored in the room of a string.
Source: `gcov-io.c` `gcov_write_string`
Kind: L -/
theorem Reserved.put_ends {r alloc : ℕ} (hr : Reserved b σ ws r (1 + alloc)) (v w : Word) :
    ∃ σ₁ σ₂, σ.put b r v = .ok σ₁ ∧ σ₁.put b (r + alloc) w = .ok σ₂ ∧ Reserved b σ₂ ws r (1 + alloc) ∧
      σ₂.file = σ.file ∧ σ₂.buffer (r + alloc) = w ∧ (0 < alloc → σ₂.buffer r = v) := by
  obtain ⟨hput, hr₁⟩ := hr.put (show 0 < 1 + alloc by omega) v
  obtain ⟨hput', hr₂⟩ := hr₁.put (show alloc < 1 + alloc by omega) w
  refine ⟨_, _, hput, hput', hr₂, rfl, Function.update_self _ _ _, ?_⟩
  intro hpos
  dsimp only
  rw [Function.update_of_ne (by omega)]
  exact Function.update_self _ _ _

/-- Text is copied into the room that was reserved. Source: `gcov-io.c` `gcov_write_string`. Kind: L -/
theorem Reserved.copy {r n : ℕ} (hr : Reserved b σ ws r n) (bytes : List (BitVec 8)) :
    Reserved b { σ with buffer := copyBytes σ.buffer (r + 1) bytes } ws r n := by
  refine ⟨hr.mode_eq, hr.error_eq, ?_, hr.offset_eq, ?_, hr.start_eq⟩
  · rw [← hr.words_eq]
    congr 1
    apply List.map_congr_left
    intro j hj
    rw [List.mem_range] at hj
    exact if_neg (by omega)
  · cases b with
    | libgcov => exact hr.offset_le
    | compiler => exact hr.offset_le

/-- **A string**: its length word and its text, padded with zeros. Source: `gcov-io.c` `gcov_write_string`. Kind: L -/
theorem gcovWriteString_spec (hw : Wrote .compiler σ ws) (text : Option CString)
    (hn : σ.offset + (stringWords h text).length < 2 ^ 30) :
    ∃ σ', gcovWriteString h text σ = .ok σ' ∧ Wrote .compiler σ' (ws ++ stringWords h text) ∧
      σ'.file = σ.file := by
  cases text with
  | none =>
    obtain ⟨r, σ₁, hcall, hr, hfile⟩ := gcovWriteWords_spec hw (Fits.of_lt (n := 1 + 0) hn)
    obtain ⟨σ₂, σ₃, hput, hput', hr₃, hfile₃, hzero, _⟩ := hr.put_ends (h.order.encode 0#32) (h.order.encode 0)
    have hle : r + (1 + 0) ≤ σ₃.capacity .compiler := hr₃.offset_le
    refine ⟨_, ?_, (hr₃.copy []).wrote (l := [h.order.encode 0]) ?_, hfile₃.trans (hfile rfl)⟩
    · have hnone : u32 (1 + 0) = 1 + 0 := rfl
      have hfits : 4 * (r + 1) + u32 0 ≤ 4 * σ₃.capacity .compiler := by
        change 4 * (r + 1) + 0 ≤ _
        omega
      simp only [gcovWriteString, Option.map_none, Option.getD_none, List.length_nil, Option.isSome_none,
        Bool.false_eq_true, if_false, hnone, hcall, ok_bind]
      rw [hput, ok_bind, hput', ok_bind, if_pos hfits]
      rfl
    · have hkeep : copyBytes σ₃.buffer (r + 1) [] r = σ₃.buffer r := if_neg (by omega)
      change [copyBytes σ₃.buffer (r + 1) [] r] = _
      rw [hkeep]
      exact congrArg (fun w => [w]) hzero
  | some s =>
    have hwords : (stringWords h (some s)).length = 1 + (s.1.length + 4) / 4 := by
      unfold stringWords
      rw [List.length_cons, length_packed]
      omega
    have halloc : (s.1.length + 4) / 4 = s.1.length / 4 + 1 := by omega
    rw [hwords] at hn
    obtain ⟨r, σ₁, hcall, hr, hfile⟩ := gcovWriteWords_spec hw (Fits.of_lt hn)
    obtain ⟨σ₂, σ₃, hput, hput', hr₃, hfile₃, hzero, hlength⟩ :=
      hr.put_ends (h.order.encode (BitVec.ofNat 32 ((s.1.length + 4) / 4))) (h.order.encode 0)
    have hle : r + (1 + (s.1.length + 4) / 4) ≤ σ₃.capacity .compiler := hr₃.offset_le
    have hroom : Reserved .compiler { σ₃ with buffer := copyBytes σ₃.buffer (r + 1) s.1 } ws r
        (stringWords h (some s)).length := by
      rw [hwords]
      exact hr₃.copy s.1
    refine ⟨_, ?_, hroom.wrote ?_, hfile₃.trans (hfile rfl)⟩
    · have hlen : u32 s.1.length = s.1.length := u32_of_lt (by omega)
      have hlen4 : u32 (s.1.length + 4) = s.1.length + 4 := u32_of_lt (by omega)
      have hsize : u32 (1 + (s.1.length + 4) / 4) = 1 + (s.1.length + 4) / 4 := u32_of_lt (by omega)
      have hfits : 4 * (r + 1) + s.1.length ≤ 4 * σ₃.capacity .compiler := by omega
      simp only [gcovWriteString, Option.map_some, Option.getD_some, Option.isSome_some, if_true, hlen, hlen4,
        hsize, hcall, ok_bind]
      rw [hput, ok_bind, hput', ok_bind, if_pos hfits, List.take_length]
    · have hfirst : copyBytes σ₃.buffer (r + 1) s.1 r = h.order.encode (BitVec.ofNat 32 ((s.1.length + 4) / 4)) := by
        rw [← hlength (by omega)]
        exact if_neg (by omega)
      have hlast : σ₃.buffer (r + 1 + s.1.length / 4) = ⟨0, 0, 0, 0⟩ := by
        rw [halloc] at hzero
        rw [← encode_zero h.order, ← hzero]
        congr 1
        omega
      rw [hwords, Nat.add_comm 1, List.range_succ_eq_map, List.map_cons, List.map_map]
      unfold stringWords packed
      refine congrArg₂ List.cons hfirst ?_
      apply List.map_congr_left
      intro j hj
      rw [List.mem_range] at hj
      have hplace : r + (j + 1) = r + 1 + j := by omega
      change copyBytes σ₃.buffer (r + 1) s.1 (r + (j + 1)) = _
      rw [hplace]
      exact copyBytes_packed hlast (by omega)

/-! ## Records -/

theorem gcovWriteTag_spec (hw : Wrote .compiler σ ws) (tag : Unsigned) (hn : σ.offset + 2 < 2 ^ 30) (hws : ws.length < 2 ^ 32) :
    ∃ σ', gcovWriteTag h tag σ = .ok (ws.length, σ') ∧
      Wrote .compiler σ' (ws ++ [h.order.encode tag, h.order.encode 0]) ∧ σ'.file = σ.file := by
  have hposition : u32 (σ.start + σ.offset) = ws.length := by
    rw [hw.length_eq, hw.start_eq]
    have := hw.length_eq
    unfold u32
    omega
  obtain ⟨r, σ₁, σ₂, σ₃, hcall, hput, hput', hw', hfile⟩ :=
    write_two_spec hw (h.order.encode tag) (h.order.encode 0) (Fits.of_lt hn)
  refine ⟨σ₃, ?_, hw', hfile rfl⟩
  unfold gcovWriteTag
  rw [hposition, hcall]
  simp only [ok_bind]
  rw [hput, ok_bind, hput', ok_bind]

/-- A word that is still in the buffer is replaced. Source: `gcov-io.c` `gcov_write_length`. Kind: L -/
theorem Wrote.put {pre post : List Word} {v : Word} (hw : Wrote b σ (pre ++ v :: post))
    (hfile : σ.file.length ≤ pre.length) (w : Word) :
    ∃ σ', σ.put b (pre.length - σ.file.length) w = .ok σ' ∧ Wrote b σ' (pre ++ w :: post) ∧
      σ'.file = σ.file ∧ σ'.offset = σ.offset := by
  have hlen := hw.length_eq
  rw [List.length_append, List.length_cons] at hlen
  have hle := hw.offset_le
  refine ⟨{ σ with buffer := Function.update σ.buffer (pre.length - σ.file.length) w }, ?_, ?_, rfl, rfl⟩
  · unfold Var.put
    rw [if_pos (by omega)]
  · refine ⟨hw.mode_eq, hw.error_eq, ?_, ?_, hw.start_eq⟩
    · have hset : pre ++ w :: post = (pre ++ v :: post).set pre.length w := by simp
      rw [hset, ← hw.words_eq, List.set_append_right _ _ hfile]
      congr 1
      apply List.ext_getElem
      · simp
      · intro i h1 h2
        rw [List.getElem_map, List.getElem_range, List.getElem_set, List.getElem_map, List.getElem_range]
        dsimp only
        rw [Function.update_apply]
        simp only [eq_comm]
    · cases b with
      | libgcov => exact hw.offset_le
      | compiler => exact hw.offset_le

/-- **The length of a record** is the number of words behind its head. Source: `gcov-io.c` `gcov_write_length`. Kind: L -/
theorem gcovWriteLength_spec {pre body : List Word} {tag v : Word}
    (hw : Wrote .compiler σ (pre ++ tag :: v :: body)) (hfile : σ.file.length ≤ pre.length)
    (hn : pre.length + 2 + body.length < 2 ^ 32) (hoff : σ.offset < 2 ^ 30) :
    ∃ σ', gcovWriteLength h pre.length σ = .ok σ' ∧
      Wrote .compiler σ' (pre ++ tag :: h.order.encode (BitVec.ofNat 32 body.length) :: body) ∧
      σ'.offset = if blockSize ≤ σ.offset then 0 else σ.offset := by
  have hlen := hw.length_eq
  rw [List.length_append, List.length_cons, List.length_cons] at hlen
  have hstart : σ.start = σ.file.length := by
    rw [hw.start_eq]
    exact u32_of_lt (by omega)
  have hsplit : pre ++ tag :: v :: body = (pre ++ [tag]) ++ v :: body := by simp
  rw [hsplit] at hw
  have hpre : (pre ++ [tag]).length = pre.length + 1 := by simp
  obtain ⟨σ₁, hput, hw₁, hfile₁, hoff₁⟩ := hw.put (by omega)
    (h.order.encode (BitVec.ofNat 32 body.length))
  have hplace : pre.length - σ.start + 1 = (pre ++ [tag]).length - σ.file.length := by omega
  have hbehind : u32 (pre.length + 2) ≤ u32 (σ.start + σ.offset) := by
    rw [u32_of_lt (by omega), u32_of_lt (by omega)]
    omega
  have hcount : u32 (σ.offset + 2 ^ 32 - (pre.length - σ.start) - 2) = body.length := by
    unfold u32
    omega
  unfold gcovWriteLength
  rw [if_pos ⟨hw.mode_eq, hbehind, by omega⟩]
  dsimp only
  rw [hplace, hcount, hput, ok_bind]
  have hjoin : pre ++ tag :: h.order.encode (BitVec.ofNat 32 body.length) :: body =
      (pre ++ [tag]) ++ h.order.encode (BitVec.ofNat 32 body.length) :: body := by simp
  rw [hjoin]
  have hblock : blockSize = 1024 := rfl
  rw [← hoff₁]
  by_cases hfull : blockSize ≤ σ₁.offset
  · obtain ⟨hwrote, -, hempty⟩ := gcovWriteBlock_all hw₁ (by omega) (by omega)
    rw [if_pos hfull, if_pos hfull]
    exact ⟨_, rfl, hwrote, hempty⟩
  · rw [if_neg hfull, if_neg hfull]
    exact ⟨_, rfl, hw₁, rfl⟩

/-! ## Files -/

/-- Steps that write the words of their arguments, one after the other, as far as the limit allows. -/
theorem foldlM_wrote {α : Type} {f : Var → α → Except Fault Var} {g : α → List Word}
    {P : Var → List Word → Prop} {L : ℕ → Prop} (hlimit : ∀ m n, L (m + n) → L m)
    (hstep : ∀ σ ws a, P σ ws → L (ws.length + (g a).length) →
      ∃ σ', f σ a = .ok σ' ∧ P σ' (ws ++ g a)) (as : List α) :
    ∀ σ ws, P σ ws → L (ws.length + (as.flatMap g).length) →
      ∃ σ', as.foldlM f σ = .ok σ' ∧ P σ' (ws ++ as.flatMap g) := by
  induction as with
  | nil =>
    intro σ ws hw _
    refine ⟨σ, rfl, ?_⟩
    rw [List.flatMap_nil, List.append_nil]
    exact hw
  | cons a as ih =>
    intro σ ws hw hl
    rw [List.flatMap_cons, List.length_append, ← Nat.add_assoc] at hl
    obtain ⟨σ₁, hcall, hw₁⟩ := hstep σ ws a hw (hlimit _ _ hl)
    rw [← List.length_append] at hl
    obtain ⟨σ₂, hcalls, hw₂⟩ := ih σ₁ _ hw₁ hl
    refine ⟨σ₂, ?_, ?_⟩
    · rw [List.foldlM_cons, hcall]
      exact hcalls
    · rw [List.flatMap_cons, ← List.append_assoc]
      exact hw₂

/-- The same without a limit. -/
theorem foldlM_wrote_data {α : Type} {f : Var → α → Except Fault Var} {g : α → List Word}
    (hstep : ∀ σ ws a, Wrote b σ ws → ∃ σ', f σ a = .ok σ' ∧ Wrote b σ' (ws ++ g a)) (as : List α)
    (hw : Wrote b σ ws) : ∃ σ', as.foldlM f σ = .ok σ' ∧ Wrote b σ' (ws ++ as.flatMap g) :=
  foldlM_wrote (P := Wrote b) (L := fun _ => True) (fun _ _ _ => trivial)
    (fun σ ws a hw _ => hstep σ ws a hw) as σ ws hw trivial

theorem writeDataVal_spec (σ : Var) (ws : List Word) (v : DataVal) (hw : Wrote .libgcov σ ws) :
    ∃ σ', writeDataVal h v σ = .ok σ' ∧ Wrote .libgcov σ' (ws ++ v.words h) := by
  cases v with
  | unsigned value =>
    obtain ⟨σ', hcall, hw', _⟩ := gcovWriteUnsigned_spec hw value (show 1 ≤ 2 by omega)
    exact ⟨σ', hcall, hw'⟩
  | counter value => exact gcovWriteCounter_spec hw value

/-- The body of a loop of a summary writes the values of a counter summary.
Source: `gcov-io.c` `gcov_write_summary`
Kind: L -/
theorem writeCtrSummary_eq (csum : CtrSummary) (σ : Var) :
    writeCtrSummary h csum σ = csum.vals.foldlM (fun σ v => writeDataVal h v σ) σ := by
  unfold writeCtrSummary CtrSummary.vals
  simp only [List.foldlM_cons, List.foldlM_nil, writeDataVal, bind_pure]

theorem writeCtrSummary_spec (σ : Var) (ws : List Word) (csum : CtrSummary) (hw : Wrote .libgcov σ ws) :
    ∃ σ', writeCtrSummary h csum σ = .ok σ' ∧ Wrote .libgcov σ' (ws ++ dataWords h csum.vals) := by
  rw [writeCtrSummary_eq]
  exact foldlM_wrote_data writeDataVal_spec csum.vals hw

/-- The announced length of a summary is the number of its words. Source: `gcov-io.h` `GCOV_TAG_SUMMARY_LENGTH`. Kind: L -/
theorem length_summary (s : Summary) : (dataWords h s.vals).length = gcovTagSummaryLength := by
  have hone : s.ctrs.length = 1 := s.length_ctrs
  obtain ⟨c, hc⟩ := List.length_eq_one_iff.mp hone
  unfold Summary.vals
  rw [hc]
  rfl

theorem gcovWriteSummary_spec (hw : Wrote .libgcov σ ws) (tag : Unsigned) (s : Summary) :
    ∃ σ', gcovWriteSummary h tag s σ = .ok σ' ∧
      Wrote .libgcov σ' (ws ++ (DataItem.summary tag s).words h) := by
  obtain ⟨σ₁, hhead, hw₁⟩ := gcovWriteTagLength_spec (h := h) hw tag (BitVec.ofNat 32 gcovTagSummaryLength)
  obtain ⟨σ₂, hsum, hw₂, _⟩ := gcovWriteUnsigned_spec (h := h) hw₁ s.checksum (show 1 ≤ 2 by omega)
  obtain ⟨σ₃, hctrs, hw₃⟩ := foldlM_wrote_data writeCtrSummary_spec s.ctrs hw₂
  refine ⟨σ₃, ?_, ?_⟩
  · unfold gcovWriteSummary
    rw [hhead, ok_bind, hsum, ok_bind]
    exact hctrs
  · have hwords : (DataItem.summary tag s).words h =
        [h.order.encode tag, h.order.encode (BitVec.ofNat 32 gcovTagSummaryLength)] ++
          ([h.order.encode s.checksum] ++ s.ctrs.flatMap fun c => dataWords h c.vals) := by
      unfold DataItem.words
      dsimp only
      rw [length_summary]
      unfold dataWords Summary.vals
      rw [List.flatMap_cons, List.flatMap_assoc]
      rfl
    rw [hwords, ← List.append_assoc, ← List.append_assoc]
    exact hw₃

theorem writeDataItem_spec (σ : Var) (ws : List Word) (item : DataItem) (hw : Wrote .libgcov σ ws) :
    ∃ σ', writeDataItem h item σ = .ok σ' ∧ Wrote .libgcov σ' (ws ++ item.words h) := by
  cases item with
  | value v => exact writeDataVal_spec σ ws v hw
  | record tag body =>
    obtain ⟨σ₁, hhead, hw₁⟩ :=
      gcovWriteTagLength_spec (h := h) hw tag (BitVec.ofNat 32 (dataWords h body).length)
    obtain ⟨σ₂, hbody, hw₂⟩ := foldlM_wrote_data writeDataVal_spec body hw₁
    refine ⟨σ₂, ?_, ?_⟩
    · unfold writeDataItem
      dsimp only
      rw [hhead, ok_bind]
      exact hbody
    · rw [List.append_assoc] at hw₂
      exact hw₂
  | summary tag s => exact gcovWriteSummary_spec hw tag s

/-- A value stays in the buffer. Source: `gcov-io.c` `gcov_write_unsigned`, `gcov_write_string`. Kind: L -/
theorem writeNoteVal_spec (σ : Var) (ws : List Word) (v : NoteVal) (hw : Wrote .compiler σ ws)
    (hn : σ.offset + (v.words h).length < 2 ^ 30) :
    ∃ σ', writeNoteVal h v σ = .ok σ' ∧ Wrote .compiler σ' (ws ++ v.words h) ∧ σ'.file = σ.file := by
  cases v with
  | unsigned value =>
    obtain ⟨σ', hcall, hw', hfile⟩ := gcovWriteUnsigned_spec hw value (Fits.of_lt hn)
    exact ⟨σ', hcall, hw', hfile rfl⟩
  | string text => exact gcovWriteString_spec hw text hn

/-- The words in the buffer after an item: the end of a record writes out a full block.
Source: `gcov-io.c` `gcov_write_length` -/
def NoteItem.pending (h : Host) (p : ℕ) (item : NoteItem) : ℕ :=
  match item with
  | .value v => p + (v.words h).length
  | .record _ _ => if blockSize ≤ p + (item.words h).length then 0 else p + (item.words h).length

theorem writeNoteItem_spec (hw : Wrote .compiler σ ws) (item : NoteItem) (hn : σ.offset + (item.words h).length < 2 ^ 30)
    (hws : ws.length + (item.words h).length < 2 ^ 32) :
    ∃ σ', writeNoteItem h item σ = .ok σ' ∧ Wrote .compiler σ' (ws ++ item.words h) ∧ σ'.offset = item.pending h σ.offset := by
  have hlen₀ := hw.length_eq
  cases item with
  | value v =>
    obtain ⟨σ', hcall, hw', hfile⟩ := writeNoteVal_spec σ ws v hw hn
    refine ⟨σ', hcall, hw', ?_⟩
    have hlen := hw'.length_eq
    rw [List.length_append, hfile] at hlen
    change σ'.offset = σ.offset + (v.words h).length
    omega
  | record tag body =>
    have hlen : ((NoteItem.record tag body).words h).length = (noteWords h body).length + 2 := rfl
    rw [hlen] at hn hws
    obtain ⟨σ₁, htag, hw₁, hfile₁⟩ := gcovWriteTag_spec (h := h) hw tag (by omega) (by omega)
    -- the head stays in the buffer until the length is known
    obtain ⟨σ₂, hbody, ⟨hw₂, hfile₂⟩⟩ := foldlM_wrote (f := fun σ v => writeNoteVal h v σ)
      (g := NoteVal.words h) (P := fun σ ws => Wrote .compiler σ ws ∧ σ.file = σ₁.file)
      (L := fun n => n < σ₁.file.length + 2 ^ 30) (fun _ _ hl => by omega)
      (fun σ ws v hw hl => by
        have hplace := hw.1.length_eq
        rw [hw.2] at hplace
        obtain ⟨σ', hcall, hw', hfile'⟩ := writeNoteVal_spec (h := h) σ ws v hw.1 (by omega)
        exact ⟨σ', hcall, hw', hfile'.trans hw.2⟩)
      body σ₁ _ ⟨hw₁, rfl⟩ (by
        rw [List.length_append, hfile₁]
        change ws.length + 2 + (noteWords h body).length < _
        omega)
    rw [List.append_assoc] at hw₂
    have hlen₂ := hw₂.length_eq
    have hwords : (ws ++ ([h.order.encode tag, h.order.encode 0] ++ body.flatMap (NoteVal.words h))).length =
        ws.length + 2 + (noteWords h body).length := by
      rw [List.length_append, Nat.add_assoc, Nat.add_comm 2]
      rfl
    rw [hwords, hfile₂, hfile₁] at hlen₂
    obtain ⟨σ₃, hlength, hw₃, hoff₃⟩ := gcovWriteLength_spec (h := h) hw₂ (by
      rw [hfile₂, hfile₁]
      omega) (by
      change ws.length + 2 + (noteWords h body).length < 2 ^ 32
      omega) (by omega)
    refine ⟨σ₃, ?_, hw₃, ?_⟩
    · unfold writeNoteItem
      dsimp only
      rw [htag, ok_bind]
      dsimp only
      rw [hbody, ok_bind]
      exact hlength
    · rw [hoff₃, show σ₂.offset = σ.offset + ((NoteItem.record tag body).words h).length by omega]
      rfl

/-- There are fewer than `2 ^ 30` words in the buffer at any time, of which `p` are there before the items.
Source: `gcov-io.c` `gcov_write_block` (`size << 2`) -/
def Buffered (h : Host) : ℕ → List NoteItem → Prop
  | p, [] => p < 2 ^ 30
  | p, item :: items => p + (item.words h).length < 2 ^ 30 ∧ Buffered h (item.pending h p) items

instance decidableBuffered (h : Host) : ∀ (p : ℕ) (items : List NoteItem), Decidable (Buffered h p items)
  | p, [] => inferInstanceAs (Decidable (p < 2 ^ 30))
  | p, item :: items =>
    have := decidableBuffered h (item.pending h p) items
    inferInstanceAs (Decidable (_ ∧ _))

/-- **Items** are written one after the other. Source: `coverage.c` `coverage_begin_output`. Kind: L -/
theorem writeNoteItems_spec (items : List NoteItem) : ∀ σ ws, Wrote .compiler σ ws → Buffered h σ.offset items →
    ws.length + (items.flatMap (NoteItem.words h)).length < 2 ^ 32 →
      ∃ σ', items.foldlM (fun σ item => writeNoteItem h item σ) σ = .ok σ' ∧
        Wrote .compiler σ' (ws ++ items.flatMap (NoteItem.words h)) ∧ σ'.offset < 2 ^ 30 := by
  induction items with
  | nil =>
    intro σ ws hw hbuffered _
    refine ⟨σ, rfl, ?_, hbuffered⟩
    rw [List.flatMap_nil, List.append_nil]
    exact hw
  | cons item items ih =>
    intro σ ws hw ⟨hitem, hitems⟩ hws
    rw [List.flatMap_cons, List.length_append, ← Nat.add_assoc] at hws
    obtain ⟨σ₁, hcall, hw₁, hoff⟩ := writeNoteItem_spec hw item hitem (by omega)
    rw [← List.length_append] at hws
    obtain ⟨σ₂, hcalls, hw₂, hlast⟩ := ih σ₁ _ hw₁ (hoff ▸ hitems) hws
    refine ⟨σ₂, ?_, ?_, hlast⟩
    · rw [List.foldlM_cons, hcall]
      exact hcalls
    · rw [List.flatMap_cons, ← List.append_assoc]
      exact hw₂

/-- Nothing is written in a file that was just opened. Source: `gcov-io.c` `gcov_open`. Kind: L -/
theorem wrote_gcovOpen (b : Build) (buffer : ℕ → Word) : Wrote b (gcovOpen .writing [] buffer) [] :=
  ⟨rfl, rfl, rfl, Nat.zero_le _, rfl⟩

/-- Closing leaves the words written so far in the file. Source: `gcov-io.c` `gcov_close`. Kind: L -/
theorem gcovClose_spec (hw : Wrote b σ ws) (hn : σ.offset < 2 ^ 30) :
    (gcovClose σ).file = ws ∧ (gcovClose σ).error = 0 := by
  unfold gcovClose
  dsimp only
  by_cases hzero : σ.offset = 0
  · rw [if_neg (fun hc => hc.1 hzero)]
    refine ⟨?_, hw.error_eq⟩
    rw [← hw.words_eq, hzero]
    simp
  · rw [if_pos ⟨hzero, hw.mode_eq⟩]
    obtain ⟨hw', hfile, _⟩ := gcovWriteBlock_all hw (Nat.pos_of_ne_zero hzero) hn
    exact ⟨hfile, hw'.error_eq⟩

end Words

/-- **Files of libgcov**: whatever the length, the file holds the words of the items.
Source: `libgcov.c` `gcov_exit`, `gcov-io.c` `gcov_close`
Kind: P -/
theorem writeData_spec (h : Host) (buffer : ℕ → Word) (items : List DataItem) :
    ∃ σ, writeData h buffer items = .ok σ ∧ σ.file = items.flatMap (DataItem.words h) ∧ σ.error = 0 := by
  obtain ⟨σ, hcall, hw⟩ := foldlM_wrote_data (writeDataItem_spec (h := h)) items
    (wrote_gcovOpen .libgcov buffer)
  have hle : σ.offset ≤ blockSize + 1 := hw.offset_le
  have hblock : blockSize = 1024 := rfl
  refine ⟨gcovClose σ, ?_, gcovClose_spec hw (by omega)⟩
  unfold writeData
  rw [hcall, ok_bind]

/-- **Files of the compiler**: the file holds the words of the items, as long as positions in it and sizes of what is in the buffer are
numbers of type `unsigned`.
Source: `coverage.c` `coverage_finish`, `gcov-io.c` `gcov_close`
Kind: P -/
theorem writeNotes_spec (h : Host) (buffer : ℕ → Word) (items : List NoteItem) (hbuffered : Buffered h 0 items)
    (hn : (items.flatMap (NoteItem.words h)).length < 2 ^ 32) :
    ∃ σ, writeNotes h buffer items = .ok σ ∧ σ.file = items.flatMap (NoteItem.words h) ∧ σ.error = 0 := by
  obtain ⟨σ, hcall, hw, hoff⟩ := writeNoteItems_spec items _ [] (wrote_gcovOpen .compiler buffer) hbuffered (by
    rw [List.length_nil, Nat.zero_add]
    exact hn)
  refine ⟨gcovClose σ, ?_, gcovClose_spec hw hoff⟩
  unfold writeNotes
  rw [hcall, ok_bind]

end GccCore.Gcc.GcovIo
