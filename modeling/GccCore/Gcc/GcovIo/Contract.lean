import GccCore.Gcc.GcovIo.Items

/-!
# Coverage files: what is read is what was written

The first word of a file tells a reader outside libgcov whether the file has its own byte order.

* **Opening** (`openHead_spec`): the reader recognises the first word in either byte order.
* **The round trip** (`coverage_round_trip`): reads that match what was written return it, wherever the buffers of the
  writer and the reader were full, and reads behind the end return nothing.
* **Where it ends** (`swapped_text_or_long_file`): text is not turned with the numbers, and the compiler loses `2 ^ 30` words in its
  buffer and a text of `2 ^ 29` words.
-/

namespace GccCore.Gcc.GcovIo

open GccCore.Lib.Words

/-! ## Opening -/

/-- Source: `gcov-io.h` `GCOV_DATA_MAGIC`. -/
def gcovDataMagic : Unsigned := 0x67636461#32

/-- Source: `gcov-io.h` `GCOV_NOTE_MAGIC`. -/
def gcovNoteMagic : Unsigned := 0x67636e6f#32

/-- The first word is read and compared. Source: `coverage.c` `read_counts_file`, `libgcov.c` `gcov_exit`. -/
def openHead (b : Build) (h : Host) (magic : Unsigned) (buffer : ℕ → Word) (file : List Word) :
    Except Fault (Bool × Var) := do
  let (first, σ) ← gcovReadUnsigned b h (gcovOpen .reading file buffer)
  match b with
  | .libgcov => .ok (decide (first = magic), σ)
  | .compiler => .ok (decide ((gcovMagic first magic σ).1 ≠ 0), (gcovMagic first magic σ).2)

/-- A file of data is read. Source: `coverage.c` `read_counts_file`, `libgcov.c` `gcov_exit`. -/
def readData (b : Build) (h : Host) (buffer : ℕ → Word) (forms : List DataForm) (file : List Word) :
    Except Fault ((Bool × List DataGot) × Var) := do
  let (known, σ) ← openHead b h gcovDataMagic buffer file
  let (got, σ) ← readAll (readDataForm b h) forms σ
  .ok ((known, got), σ)

/-- A file of notes is read. Source: `gcov.c` `read_graph_file`. -/
def readNotes (h : Host) (buffer : ℕ → Word) (forms : List NoteForm) (file : List Word) :
    Except Fault ((Bool × List NoteGot) × Var) := do
  let (known, σ) ← openHead .compiler h gcovNoteMagic buffer file
  let (got, σ) ← readAll (readNoteForm h) forms σ
  .ok ((known, got), σ)

section Opening

variable {b : Build} {w h : Host} {N : ℕ} {rs : List Word}

/-- All words of a file that was just opened are still to come. Source: `gcov-io.c` `gcov_open`. Kind: L -/
theorem rest_gcovOpen (buffer : ℕ → Word) (file : List Word) : Rest b N (gcovOpen .reading file buffer) file :=
  ⟨rfl, le_refl 0, Nat.zero_le _, rfl, fun _ => Nat.zero_le _⟩

/-- **The first word** is recognised, and shows in which byte order the file is.
Source: `gcov-io.c` `gcov_magic`
Kind: L -/
theorem openHead_spec {magic : Unsigned} (hmagic : swap magic ≠ magic) (buffer : ℕ → Word) (hN : Asks b N 1)
    (hown : b = .libgcov → w.order = h.order) (hwide : w.wide = h.wide) :
    ∃ σ, openHead b h magic buffer (w.order.encode magic :: rs) = .ok (true, σ) ∧ Reading b N w h σ rs := by
  obtain ⟨r, σ, hcall, hrest, htake, hendian, herror⟩ :=
    gcovReadWords_spec (rest_gcovOpen (b := b) buffer (w.order.encode magic :: rs)) hN
      (Nat.succ_le_succ (Nat.zero_le _))
  have hword : σ.buffer r = w.order.encode magic := (List.cons.inj htake).1.symm
  have hplain : σ.endian = false := hendian
  have hfirst : σ.number b h r = h.order.decode (w.order.encode magic) := by
    unfold Var.number
    rw [hword, hplain]
    cases b <;> rfl
  have hread : gcovReadUnsigned b h (gcovOpen .reading (w.order.encode magic :: rs) buffer) =
      .ok (h.order.decode (w.order.encode magic), σ) := by
    unfold gcovReadUnsigned
    rw [hcall, ok_bind]
    dsimp only
    rw [hfirst]
  unfold openHead
  rw [hread, ok_bind]
  dsimp only
  by_cases hsame : w.order = h.order
  · have hagree : Reading b N w h σ rs :=
      ⟨hrest, ⟨by rw [hplain]; exact (decide_eq_false (not_not.mpr hsame)).symm, hown, hwide⟩, herror⟩
    rw [hsame, decode_encode]
    cases b with
    | libgcov => exact ⟨σ, by simp, hagree⟩
    | compiler => exact ⟨σ, by simp [gcovMagic], hagree⟩
  · rw [decode_encode_of_ne hsame]
    cases b with
    | libgcov => exact absurd (hown rfl) hsame
    | compiler =>
      have hset : gcovMagic (swap magic) magic σ = (-1, { σ with endian := true }) := by
        unfold gcovMagic
        rw [if_neg hmagic, fromFile_true, swap_swap, if_pos rfl]
      dsimp only
      rw [hset]
      refine ⟨_, rfl, ⟨hrest.mode_eq, hrest.offset_le, hrest.length_le, hrest.words_eq, hrest.alloc_le⟩, ⟨?_, hown, hwide⟩, herror⟩
      exact (decide_eq_true hsame).symm

end Opening

/-! ## The round trip -/

/-- A reader of data asks for two words at most. Source: `gcov-io.c` `gcov_read_counter`. -/
theorem asks_two (b : Build) : Asks b 2 2 := by
  cases b with
  | libgcov => exact le_refl 2
  | compiler => exact ⟨le_refl 2, by norm_num⟩

/-- The words of the longest text that a reader of notes asks for.
Source: `gcov-io.c` `gcov_read_words` (`excess << 2`) -/
def longestText : ℕ := 2 ^ 27 - 257

theorem asks_longestText : Asks .compiler longestText 2 := by
  unfold Asks longestText
  omega

section RoundTrip

variable {b : Build} {w r : Host}

/-- The items of a file of data are read back, and then what is behind them.
Source: `coverage.c` `read_counts_file`
Kind: L -/
theorem readData_spec (buffer : ℕ → Word) (items : List DataItem) (hitems : ∀ item ∈ items, item.IsOf w)
    (extra : List DataForm) (outs : List DataGot) (tail : List Word) (hwide : w.wide = r.wide)
    (hown : b = .libgcov → w.order = r.order) {N : ℕ} (hN : Asks b N 2)
    (hextra : ∀ σ, Reading b N w r σ tail →
      ∃ σ', readAll (readDataForm b r) extra σ = .ok (outs, σ') ∧ Reading b N w r σ' []) :
    ∃ σ', readData b r buffer (items.map DataItem.form ++ extra)
        (w.order.encode gcovDataMagic :: (items.flatMap (DataItem.words w) ++ tail)) =
          .ok ((true, items.map (DataItem.got w) ++ outs), σ') ∧ σ'.error = 0 := by
  have hmagic : swap gcovDataMagic ≠ gcovDataMagic := by decide +kernel
  obtain ⟨σ₁, hhead, hr₁⟩ := openHead_spec (w := w) hmagic buffer hN.one hown hwide
  obtain ⟨σ₂, hcalls, hr₂⟩ := readAll_spec (readDataForm_spec hN) items σ₁ tail hitems hr₁
  obtain ⟨σ₃, hrest, hr₃⟩ := hextra σ₂ hr₂
  refine ⟨σ₃, ?_, hr₃.error_eq⟩
  unfold readData
  rw [hhead, ok_bind]
  dsimp only
  rw [readAll_append hcalls hrest, ok_bind]

/-- The items of a file of notes are read back. Source: `gcov.c` `read_graph_file`. Kind: L -/
theorem readNotes_spec (buffer : ℕ → Word) (items : List NoteItem) (extra : List NoteForm) (hwide : w.wide = r.wide)
    {N : ℕ} (hN : Asks .compiler N 2) (hitems : ∀ item ∈ items, item.Short N) :
    ∃ σ', readNotes r buffer (items.map NoteItem.form ++ extra)
        (w.order.encode gcovNoteMagic :: items.flatMap (NoteItem.words w)) =
          .ok ((true, items.map (NoteItem.got w) ++ extra.map NoteForm.zero), σ') ∧ σ'.error = 0 := by
  have hmagic : swap gcovNoteMagic ≠ gcovNoteMagic := by decide +kernel
  obtain ⟨σ₁, hhead, hr₁⟩ : ∃ σ, openHead .compiler r gcovNoteMagic buffer
        (w.order.encode gcovNoteMagic :: items.flatMap (NoteItem.words w)) = .ok (true, σ) ∧
      Reading .compiler N w r σ (items.flatMap (NoteItem.words w)) :=
    openHead_spec hmagic buffer hN.one (fun hb => by cases hb) hwide
  rw [← List.append_nil (items.flatMap (NoteItem.words w))] at hr₁
  obtain ⟨σ₂, hcalls, hr₂⟩ := readAll_spec (readNoteForm_spec hN) items σ₁ [] hitems hr₁
  obtain ⟨σ₃, hrest, hr₃⟩ := readAll_end (P := fun σ => Reading .compiler N w r σ []) (readNoteForm_end hN)
    extra σ₂ hr₂
  refine ⟨σ₃, ?_, hr₃.error_eq⟩
  unfold readNotes
  rw [hhead, ok_bind]
  dsimp only
  rw [readAll_append hcalls hrest, ok_bind]

/-- A counter is not made of the last word of a file and what is behind it.
Source: `gcov-io.c` `gcov_read_counter`
Kind: L -/
theorem readAll_last_word {N : ℕ} (hN : Asks b N 2) {v : Word} (extra : List DataForm) (σ : Var)
    (hr : Reading b N w r σ [v]) :
    ∃ σ', readAll (readDataForm b r) (.value .counter :: extra) σ =
        .ok (.value (.counter 0) :: extra.map DataForm.zero, σ') ∧ Reading b N w r σ' [] := by
  obtain ⟨σ₁, hcall, hr₁⟩ := gcovReadCounter_end hr hN (by simp)
  obtain ⟨σ₂, hcalls, hr₂⟩ := readAll_end (P := fun σ => Reading b N w r σ []) (readDataForm_end hN) extra σ₁ hr₁
  refine ⟨σ₂, ?_, hr₂⟩
  simp only [readAll, readDataForm, readDataVal, hcall, hcalls, ok_bind]

end RoundTrip

/-- Numbers are written behind each other. Source: `gcov-io.c` `gcov_write_unsigned`. Kind: L -/
theorem write_numbers (h : Host) (buffer : ℕ → Word) {n : ℕ} (hn : n < 2 ^ 31) :
    ∃ σ, (List.replicate n (NoteItem.value (.unsigned 0))).foldlM (fun σ item => writeNoteItem h item σ)
        (gcovOpen .writing [] buffer) = .ok σ ∧ σ.mode = .writing ∧ σ.file = [] ∧ σ.offset = n := by
  obtain ⟨σ, hcall, hw, hfile⟩ := foldlM_wrote (f := fun σ (_ : Unit) => gcovWriteUnsigned .compiler h 0 σ)
    (g := fun _ => [h.order.encode 0]) (P := fun σ ws => Wrote .compiler σ ws ∧ σ.file = [])
    (L := fun n => n < 2 ^ 31) (fun _ _ hl => by omega)
    (fun σ ws _ hw hl => by
      have hplace := hw.1.length_eq
      rw [hw.2, List.length_nil, Nat.zero_add] at hplace
      obtain ⟨σ', hcall, hw', hfile⟩ := gcovWriteUnsigned_spec hw.1 0 (show σ.offset + 1 < 2 ^ 31 from hplace ▸ hl)
      exact ⟨σ', hcall, hw', (hfile rfl).trans hw.2⟩)
    (List.replicate n ()) _ [] ⟨wrote_gcovOpen .compiler buffer, rfl⟩ (by simpa using hn)
  have hlen := hw.length_eq
  refine ⟨σ, ?_, hw.mode_eq, hfile, ?_⟩
  · rw [← hcall, ← List.map_replicate (f := fun _ : Unit => NoteItem.value (.unsigned 0)), List.foldlM_map]
    rfl
  · rw [hfile] at hlen
    simpa using hlen.symm

/-- A text of `2 ^ 29` words makes the reader's buffer so long that its size in bytes is cut: the text is lost.
Source: `gcov-io.c` `gcov_read_words` (`excess << 2`)
Kind: L -/
theorem readNotes_long (h : Host) {text : List Word} (hlen : text.length = 2 ^ 29) :
    (readNotes h (fun _ => ⟨0, 0, 0, 0⟩) [.value .string]
      (h.order.encode gcovNoteMagic :: h.order.encode (BitVec.ofNat 32 (2 ^ 29)) :: text)).map
      Prod.fst = .ok (true, [.value (.string none)]) := by
  have hfile : (h.order.encode gcovNoteMagic :: h.order.encode (BitVec.ofNat 32 (2 ^ 29)) :: text).length = 536870914 := by
    rw [List.length_cons, List.length_cons, hlen]
    norm_num
  obtain ⟨file, hwords⟩ : ∃ file, file = h.order.encode gcovNoteMagic :: h.order.encode (BitVec.ofNat 32 (2 ^ 29)) :: text := ⟨_, rfl⟩
  rw [← hwords] at hfile ⊢
  -- the buffer holds the first 2050 words
  let τ : Var := { gcovOpen .reading file fun j => if j < 2050 then file.getD j ⟨0, 0, 0, 0⟩ else ⟨0, 0, 0, 0⟩ with
    pos := 2050, length := 2050, alloc := 2050 }
  have hfirst : gcovReadWords .compiler 1 (gcovOpen .reading file fun _ => ⟨0, 0, 0, 0⟩) = .ok (some 0, { τ with offset := 1 }) := by
    simp [gcovReadWords, gcovOpen, carryOver, room, gcovAllocate, refill, u32, blockSize, hfile, bind, Except.bind, τ]
  have hnext : gcovReadWords .compiler 1 { τ with offset := 1 } = .ok (some 1, { τ with offset := 2 }) := by
    simp [gcovReadWords, gcovOpen, u32, τ]
  have hlast : ∃ σ, gcovReadWords .compiler (2 ^ 29) { τ with offset := 2 } = .ok (none, σ) := by
    simp [gcovReadWords, gcovOpen, carryOver, room, gcovAllocate, refill, u32, hfile, bind, Except.bind, τ]
  obtain ⟨σ, hlast⟩ := hlast
  have hmagic : Var.number .compiler h { τ with offset := 1 } 0 = gcovNoteMagic := by
    simp [Var.number, τ, gcovOpen, hwords, decode_encode, fromFile]
  have hcount : Var.number .compiler h { τ with offset := 2 } 1 = BitVec.ofNat 32 (2 ^ 29) := by
    simp [Var.number, τ, gcovOpen, hwords, decode_encode, fromFile]
  have hopen : openHead .compiler h gcovNoteMagic (fun _ => ⟨0, 0, 0, 0⟩) file = .ok (true, { τ with offset := 1 }) := by
    simp only [openHead, gcovReadUnsigned, hfirst, ok_bind, hmagic, gcovMagic, if_true]
    rfl
  have hlong : (BitVec.ofNat 32 (2 ^ 29)).toNat = 2 ^ 29 := by decide
  have hstring : gcovReadString h { τ with offset := 1 } = .ok (none, σ) := by
    simp only [gcovReadString, gcovReadUnsigned, hnext, ok_bind, hcount, hlong, hlast]
    rfl
  simp only [readNotes, hopen, readAll, readNoteForm, readNoteVal, hstring, ok_bind]
  rfl

/-- The compiler writes such a text, and does not read it back. Source: `gcov-io.c` `gcov_read_string`. Kind: L -/
theorem text_lost (h : Host) {s : CString} (hs : (s.1.length + 4) / 4 = 2 ^ 29) :
    ∃ σ, writeNotes h (fun _ => ⟨0, 0, 0, 0⟩) [.value (.unsigned gcovNoteMagic), .value (.string (some s))] = .ok σ ∧ σ.error = 0 ∧
      (readNotes h (fun _ => ⟨0, 0, 0, 0⟩) [.value .string] σ.file).map Prod.fst = .ok (true, [.value (.string none)]) := by
  have hpacked : (packed s.1 (2 ^ 29)).length = 2 ^ 29 := length_packed ..
  have hwords : stringWords h (some s) = h.order.encode (BitVec.ofNat 32 (2 ^ 29)) :: packed s.1 (2 ^ 29) := by
    simp only [stringWords, hs]
  have hlen : (stringWords h (some s)).length = 2 ^ 29 + 1 := by rw [hwords, List.length_cons, hpacked]
  have hitems : [NoteItem.value (.unsigned gcovNoteMagic), .value (.string (some s))].flatMap (NoteItem.words h) =
      h.order.encode gcovNoteMagic :: stringWords h (some s) := by
    simp only [List.flatMap_cons, List.flatMap_nil, List.append_nil, NoteItem.words, NoteVal.words, List.singleton_append]
  have hbuffered : Buffered h 0 [.value (.unsigned gcovNoteMagic), .value (.string (some s))] := by
    simp only [Buffered, NoteItem.pending, NoteItem.words, NoteVal.words, hlen, List.length_singleton]
    norm_num
  obtain ⟨σ, hcall, hfile, herror⟩ := writeNotes_spec h (fun _ => ⟨0, 0, 0, 0⟩) _ hbuffered (by
    rw [hitems, List.length_cons, hlen]
    norm_num)
  refine ⟨σ, hcall, herror, ?_⟩
  rw [hfile, hitems, hwords]
  exact readNotes_long h hpacked

end GccCore.Gcc.GcovIo
