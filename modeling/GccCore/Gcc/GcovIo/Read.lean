import GccCore.Gcc.GcovIo.Write
import Mathlib.Data.BitVec

/-!
# Coverage files: what is read

Between two calls the words that are still to be read are those behind the offset in the buffer and those of the file
that were not loaded yet, wherever the buffer was loaded.

* **The words to come** (`Rest`): a call takes its words from their front, and finds nothing behind their end
  (`gcovReadWords_spec`, `gcovReadWords_none`).
* **Values** (`gcovReadUnsigned_spec`, `gcovReadCounter_spec`, `gcovReadString_spec`): the words of a value give the
  value, also where the file was written in the other byte order.
-/

namespace GccCore.Gcc.GcovIo

open GccCore.Lib.Words

/-! ## The words to come -/

/-- The words still to be read; the buffer of the compiler has grown for requests of at most `N` words. -/
structure Rest (b : Build) (N : ℕ) (σ : Var) (rs : List Word) : Prop where
  mode_eq : σ.mode = .reading
  offset_le : σ.offset ≤ σ.length
  length_le : σ.length ≤ σ.capacity b
  words_eq : (List.range (σ.length - σ.offset)).map (fun i => σ.buffer (σ.offset + i)) ++
    σ.file.drop σ.pos = rs
  alloc_le : b = .compiler → σ.alloc ≤ 2048 + 8 * N

/-- The requests a build makes. -/
def Asks (b : Build) (N n : ℕ) : Prop :=
  match b with
  | .libgcov => n ≤ 2
  | .compiler => n ≤ N ∧ 2048 + 8 * N < 2 ^ 30

section Words

variable {b : Build} {w h : Host} {N n : ℕ} {σ : Var} {l rs : List Word}

theorem Rest.length_eq (hr : Rest b N σ rs) :
    rs.length = σ.length - σ.offset + (σ.file.length - σ.pos) := by
  rw [← hr.words_eq, List.length_append, List.length_map, List.length_range, List.length_drop]

/-- What is in the buffer fits in the type `unsigned`. -/
theorem Rest.length_lt (hr : Rest b N σ rs) (hn : Asks b N n) : σ.length < 2 ^ 30 := by
  have hle := hr.length_le
  cases b with
  | libgcov =>
    have hcap : σ.capacity .libgcov = 1025 := rfl
    omega
  | compiler =>
    have hcap : σ.capacity .compiler = σ.alloc := rfl
    have halloc := hr.alloc_le rfl
    have := hn.2
    omega

/-- Words that are in the buffer are taken from the front. Source: `gcov-io.c` `gcov_read_words`. Kind: L -/
theorem Rest.advance (hr : Rest b N σ rs) (hlt : σ.length < 2 ^ 30) (hn : n ≤ σ.length - σ.offset) :
    Rest b N { σ with offset := u32 (σ.offset + n) } (rs.drop n) ∧
      rs.take n = (List.range n).map fun i => σ.buffer (σ.offset + i) := by
  have hoff := hr.offset_le
  have hu : u32 (σ.offset + n) = σ.offset + n := u32_of_lt (by omega)
  have hsplit : σ.length - σ.offset = n + (σ.length - (σ.offset + n)) := by omega
  have hwords : rs = (List.range n).map (fun i => σ.buffer (σ.offset + i)) ++
      ((List.range (σ.length - (σ.offset + n))).map (fun i => σ.buffer (σ.offset + n + i)) ++
        σ.file.drop σ.pos) := by
    rw [← hr.words_eq, hsplit, List.range_add, List.map_append, List.map_map, List.append_assoc]
    simp only [Function.comp_def, Nat.add_assoc]
  have hcount : ((List.range n).map fun i => σ.buffer (σ.offset + i)).length = n := by
    rw [List.length_map, List.length_range]
  rw [hu]
  refine ⟨⟨hr.mode_eq, ?_, ?_, ?_, hr.alloc_le⟩, ?_⟩
  · change σ.offset + n ≤ σ.length
    omega
  · cases b with
    | libgcov => exact hr.length_le
    | compiler => exact hr.length_le
  · rw [hwords, List.drop_left' hcount]
  · rw [hwords, List.take_left' hcount]

/-- The words that are left move to the front of the buffer. Source: `gcov-io.c` `gcov_read_words`. Kind: L -/
theorem carryOver_spec {excess : ℕ} (σ : Var) (hone : b = .libgcov → excess ≤ 1) :
    ∃ buffer, carryOver b excess σ = .ok { σ with buffer := buffer } ∧
      ∀ j < excess, buffer j = σ.buffer (σ.offset + j) := by
  unfold carryOver
  cases b with
  | libgcov =>
    dsimp only
    have hle := hone rfl
    rcases Nat.eq_zero_or_pos excess with rfl | hpos
    · rw [if_pos rfl]
      refine ⟨σ.buffer, rfl, ?_⟩
      intro j hj
      omega
    · obtain rfl : excess = 1 := by omega
      rw [if_neg (by omega), if_pos rfl]
      refine ⟨_, rfl, ?_⟩
      intro j hj
      obtain rfl : j = 0 := by omega
      exact Function.update_self _ _ _
  | compiler =>
    refine ⟨_, rfl, ?_⟩
    intro j hj
    exact if_pos hj

/-- There is room for the words that are asked for: fewer than that are left over. Source: `gcov-io.c` `gcov_read_words`. Kind: L -/
theorem room_spec (hn : Asks b N n) (hone : b = .libgcov → σ.length ≤ 1) (hleft : b = .compiler → σ.length < n)
    (halloc : b = .compiler → σ.alloc ≤ 2048 + 8 * N) :
    ∃ k a, room b n σ = (k, { σ with alloc := a }) ∧ n ≤ σ.length + k ∧
      σ.length + k ≤ Var.capacity b { σ with alloc := a } ∧ k < 2 ^ 30 ∧
      (b = .compiler → a ≤ 2048 + 8 * N) := by
  unfold room
  cases b with
  | libgcov =>
    have hblock : blockSize = 1024 := rfl
    have hle := hone rfl
    have hn' : n ≤ 2 := hn
    refine ⟨blockSize, σ.alloc, rfl, by omega, ?_, by omega, ?_⟩
    · change σ.length + blockSize ≤ blockSize + 1
      omega
    · intro hb
      cases hb
  | compiler =>
    obtain ⟨hn', hN⟩ := hn
    have hle := hleft rfl
    have ha := halloc rfl
    have hu : u32 (σ.length + n) = σ.length + n := u32_of_lt (by omega)
    have hblock : blockSize = 1024 := rfl
    dsimp only
    rw [hu]
    by_cases hgrow : σ.alloc < σ.length + n
    · have hnew : ((if σ.alloc = 0 then blockSize else σ.alloc) + (σ.length + n)) * 2 ≤ 2048 + 8 * N := by
        split <;> omega
      have hroom : σ.length + n ≤ ((if σ.alloc = 0 then blockSize else σ.alloc) + (σ.length + n)) * 2 := by
        omega
      rw [if_pos hgrow]
      unfold gcovAllocate
      dsimp only
      generalize ((if σ.alloc = 0 then blockSize else σ.alloc) + (σ.length + n)) * 2 = a at hnew hroom
      rw [u32_of_lt (by omega)]
      refine ⟨_, a, rfl, by omega, ?_, by omega, fun _ => hnew⟩
      change σ.length + (a - σ.length) ≤ a
      omega
    · rw [if_neg hgrow, u32_of_lt (by omega)]
      refine ⟨_, σ.alloc, rfl, by omega, ?_, by omega, fun _ => ha⟩
      change σ.length + (σ.alloc - σ.length) ≤ σ.alloc
      omega

/-- Loading moves words from the file into the buffer. Source: `gcov-io.c` `gcov_read_words` (`fread`). Kind: L -/
theorem refill_spec {k : ℕ} (hk : k < 2 ^ 30) (hlen : σ.length < 2 ^ 30) :
    (refill k σ).length = σ.length + min k (σ.file.length - σ.pos) ∧
      (List.range (refill k σ).length).map (refill k σ).buffer ++ (refill k σ).file.drop (refill k σ).pos =
        (List.range σ.length).map σ.buffer ++ σ.file.drop σ.pos := by
  have hbytes : u32 (k * 4) / 4 = k := by
    rw [u32_of_lt (by omega)]
    omega
  have hlength : (refill k σ).length = σ.length + min k (σ.file.length - σ.pos) := by
    unfold refill
    dsimp only
    rw [hbytes]
    exact u32_of_lt (by omega)
  refine ⟨hlength, ?_⟩
  rw [hlength, List.range_add, List.map_append, List.append_assoc]
  congr 1
  · apply List.map_congr_left
    intro j hj
    rw [List.mem_range] at hj
    exact if_neg (by omega)
  · -- the loaded words are the next ones of the file
    have hgot : (refill k σ).pos = σ.pos + min k (σ.file.length - σ.pos) := by
      unfold refill
      dsimp only
      rw [hbytes]
    have hfile : (refill k σ).file = σ.file := rfl
    rw [hgot, hfile, List.map_map, ← List.drop_drop]
    conv_rhs => rw [← List.take_append_drop (min k (σ.file.length - σ.pos)) (σ.file.drop σ.pos)]
    congr 1
    apply List.ext_getElem
    · simp
    · intro i h1 h2
      have hi : i < min k (σ.file.length - σ.pos) := by simpa using h1
      rw [List.getElem_map, List.getElem_range, List.getElem_take, List.getElem_drop]
      unfold refill
      dsimp only [Function.comp_apply]
      rw [hbytes, if_pos (by omega), Nat.add_sub_cancel_left, List.getD_eq_getElem?_getD,
        List.getElem?_eq_getElem (by omega)]
      rfl

/-- The words to come are the same after loading, and those asked for are in the buffer if there are as many.
Source: `gcov-io.c` `gcov_read_words`
Kind: L -/
theorem reload_spec (hr : Rest b N σ rs) (hn : Asks b N n) (hshort : σ.length - σ.offset < n) :
    ∃ σ' : Var, Rest b N σ' rs ∧ σ'.offset = 0 ∧ σ'.length < 2 ^ 30 ∧ (σ'.length < n → σ'.length = rs.length) ∧
      σ'.endian = σ.endian ∧ σ'.error = σ.error ∧
      gcovReadWords b n σ =
        if σ'.length < n then
          .ok (none, { σ' with overread := u32 (σ'.overread + (n - σ'.length)), length := 0 })
        else .ok (some σ'.offset, { σ' with offset := u32 (σ'.offset + n) }) := by
  have hlt := hr.length_lt hn
  have hoff := hr.offset_le
  have hexcess : u32 (σ.length + 2 ^ 32 - σ.offset) = σ.length - σ.offset := by
    unfold u32
    omega
  have hone : b = .libgcov → σ.length - σ.offset ≤ 1 := by
    rintro rfl
    have : n ≤ 2 := hn
    omega
  obtain ⟨buffer, hcarry, hbuffer⟩ := carryOver_spec { σ with start := u32 (σ.start + σ.offset) } hone
  -- the state with the words that are left at the front of the buffer
  let τ : Var := { σ with
    start := u32 (σ.start + σ.offset), buffer := buffer, offset := 0, length := σ.length - σ.offset }
  obtain ⟨k, a, hroom, hasked, hcap, hk, halloc⟩ := room_spec (σ := τ) hn hone (fun _ => hshort) hr.alloc_le
  have hτ : τ.length < 2 ^ 30 := lt_of_le_of_lt (Nat.sub_le _ _) hlt
  obtain ⟨hlength, hwords⟩ := refill_spec (σ := { τ with alloc := a }) hk hτ
  have hrs := hr.length_eq
  have hloaded : (refill k { τ with alloc := a }).length =
      σ.length - σ.offset + min k (σ.file.length - σ.pos) := hlength
  have hcap' : σ.length - σ.offset + k ≤ Var.capacity b { τ with alloc := a } := hcap
  have hsame : Var.capacity b (refill k { τ with alloc := a }) = Var.capacity b { τ with alloc := a } := by
    cases b <;> rfl
  have hbound : Var.capacity b { τ with alloc := a } < 2 ^ 30 := by
    cases b with
    | libgcov =>
      change blockSize + 1 < 2 ^ 30
      have hblock : blockSize = 1024 := rfl
      omega
    | compiler =>
      change a < 2 ^ 30
      exact lt_of_le_of_lt (halloc rfl) hn.2
  refine ⟨refill k { τ with alloc := a }, ⟨hr.mode_eq, Nat.zero_le _, ?_, ?_, halloc⟩, rfl, ?_, ?_,
    rfl, rfl, ?_⟩
  · rw [hsame]
    omega
  · have hfront : (List.range (σ.length - σ.offset)).map buffer =
        (List.range (σ.length - σ.offset)).map (fun i => σ.buffer (σ.offset + i)) := by
      apply List.map_congr_left
      intro j hj
      exact hbuffer j (List.mem_range.mp hj)
    have hzero : (refill k { τ with alloc := a }).offset = 0 := rfl
    rw [hzero, Nat.sub_zero]
    simp only [Nat.zero_add]
    rw [hwords, ← hr.words_eq]
    exact congrArg (· ++ σ.file.drop σ.pos) hfront
  · omega
  · have hasked' : n ≤ σ.length - σ.offset + k := hasked
    intro hout
    omega
  · have hassert : ¬ (b = .libgcov ∧ ¬ (σ.length - σ.offset = 0 ∨ σ.length - σ.offset = 1)) := by
      rintro ⟨hb, hc⟩
      have := hone hb
      omega
    unfold gcovReadWords
    dsimp only
    rw [hexcess, if_pos hr.mode_eq, if_pos hshort, hcarry, ok_bind]
    dsimp only
    rw [if_neg hassert]
    have hroom' : room b n { σ with
        start := u32 (σ.start + σ.offset), buffer := buffer, offset := 0,
        length := σ.length - σ.offset } = (k, { τ with alloc := a }) := hroom
    simp only [hroom']

/-- **Reading words**: they come from the front of the words to come. Source: `gcov-io.c` `gcov_read_words`. Kind: L -/
theorem gcovReadWords_spec (hr : Rest b N σ rs) (hn : Asks b N n) (hle : n ≤ rs.length) :
    ∃ r σ', gcovReadWords b n σ = .ok (some r, σ') ∧ Rest b N σ' (rs.drop n) ∧
      rs.take n = (List.range n).map (fun i => σ'.buffer (r + i)) ∧
      σ'.endian = σ.endian ∧ σ'.error = σ.error := by
  by_cases hshort : σ.length - σ.offset < n
  · obtain ⟨τ, hτ, hzero, hlt, hall, hendian, herror, hcall⟩ := reload_spec hr hn hshort
    have hin : n ≤ τ.length := by
      by_contra hout
      have := hall (not_le.mp hout)
      omega
    rw [if_neg (not_lt.mpr hin)] at hcall
    obtain ⟨hrest, htake⟩ := hτ.advance hlt (show n ≤ τ.length - τ.offset by omega)
    exact ⟨_, _, hcall, hrest, htake, hendian, herror⟩
  · have hlt := hr.length_lt hn
    have hoff := hr.offset_le
    have hexcess : u32 (σ.length + 2 ^ 32 - σ.offset) = σ.length - σ.offset := by
      unfold u32
      omega
    obtain ⟨hrest, htake⟩ := hr.advance hlt (not_lt.mp hshort)
    refine ⟨σ.offset, _, ?_, hrest, htake, rfl, rfl⟩
    unfold gcovReadWords
    dsimp only
    rw [hexcess, if_pos hr.mode_eq, if_neg hshort]

/-- **Behind the end** nothing is read, and nothing is left. Source: `gcov-io.c` `gcov_read_words`. Kind: L -/
theorem gcovReadWords_none (hr : Rest b N σ rs) (hn : Asks b N n) (hlt : rs.length < n) :
    ∃ σ', gcovReadWords b n σ = .ok (none, σ') ∧ Rest b N σ' [] ∧ σ'.endian = σ.endian ∧ σ'.error = σ.error := by
  have hrs := hr.length_eq
  obtain ⟨τ, hτ, hzero, _, hall, hendian, herror, hcall⟩ := reload_spec hr hn (show _ < n by omega)
  have hle : τ.length ≤ rs.length := by
    rw [hτ.length_eq, hzero]
    omega
  have hout : τ.length < n := lt_of_le_of_lt hle hlt
  rw [if_pos hout] at hcall
  refine ⟨_, hcall, ⟨hτ.mode_eq, ?_, Nat.zero_le _, ?_, hτ.alloc_le⟩, hendian, herror⟩
  · rw [hzero]
  · have hlen := hτ.length_eq
    rw [hzero, Nat.sub_zero, hall hout] at hlen
    rw [Nat.zero_sub]
    apply List.drop_eq_nil_of_le
    change τ.file.length ≤ τ.pos
    omega

/-! ## Values -/

/-- The reader knows whether the file has its byte order; libgcov reads only files of its own machine.
Source: `gcov-io.c` `gcov_magic`, `libgcov.c` `gcov_exit` -/
structure Agree (b : Build) (writer reader : Host) (σ : Var) : Prop where
  endian_eq : σ.endian = decide (writer.order ≠ reader.order)
  own : b = .libgcov → writer.order = reader.order
  wide_eq : writer.wide = reader.wide

/-- The words to come in a file from `writer`, without an error so far. -/
structure Reading (b : Build) (N : ℕ) (writer reader : Host) (σ : Var) (rs : List Word) : Prop extends
    Rest b N σ rs, Agree b writer reader σ where
  error_eq : σ.error = 0

theorem fromFile_true (value : Unsigned) : fromFile true value = swap value := shifts_eq_swap value

/-- **A number** is read back in either byte order. Source: `gcov-io.c` `from_file`. Kind: L -/
theorem Agree.number_encode (ha : Agree b w h σ) {i : ℕ} {value : Unsigned}
    (hword : σ.buffer i = w.order.encode value) : σ.number b h i = value := by
  unfold Var.number
  rw [hword]
  by_cases hsame : w.order = h.order
  · have hendian : σ.endian = false := by
      rw [ha.endian_eq]
      exact decide_eq_false (not_not.mpr hsame)
    rw [hsame, decode_encode, hendian]
    cases b <;> rfl
  · have hendian : σ.endian = true := by
      rw [ha.endian_eq]
      exact decide_eq_true hsame
    cases b with
    | libgcov => exact absurd (ha.own rfl) hsame
    | compiler =>
      dsimp only
      rw [decode_encode_of_ne hsame, hendian, fromFile_true, swap_swap]

/-- Words that are read in a file from `w`. Source: `gcov-io.c` `gcov_read_words`. Kind: L -/
theorem Reading.words (hr : Reading b N w h σ (l ++ rs)) (hn : Asks b N l.length) :
    ∃ r σ', gcovReadWords b l.length σ = .ok (some r, σ') ∧ Reading b N w h σ' rs ∧
      l = (List.range l.length).map (fun i => σ'.buffer (r + i)) := by
  obtain ⟨r, σ', hcall, hrest, htake, hendian, herror⟩ := gcovReadWords_spec hr.toRest hn (by simp)
  rw [List.drop_left] at hrest
  rw [List.take_left] at htake
  exact ⟨r, σ', hcall, ⟨hrest, ⟨hendian.trans hr.endian_eq, hr.own, hr.wide_eq⟩, herror.trans hr.error_eq⟩, htake⟩

/-- Behind the end of a file from `w`. Source: `gcov-io.c` `gcov_read_words`. Kind: L -/
theorem Reading.words_none (hr : Reading b N w h σ rs) (hn : Asks b N n) (hlt : rs.length < n) :
    ∃ σ', gcovReadWords b n σ = .ok (none, σ') ∧ Reading b N w h σ' [] := by
  obtain ⟨σ', hcall, hrest, hendian, herror⟩ := gcovReadWords_none hr.toRest hn hlt
  exact ⟨σ', hcall, hrest, ⟨hendian.trans hr.endian_eq, hr.own, hr.wide_eq⟩, herror.trans hr.error_eq⟩

theorem gcovReadUnsigned_spec {value : Unsigned} (hr : Reading b N w h σ (w.order.encode value :: rs))
    (hn : Asks b N 1) :
    ∃ σ', gcovReadUnsigned b h σ = .ok (value, σ') ∧ Reading b N w h σ' rs := by
  obtain ⟨r, σ', hcall, hr', hwords⟩ := Reading.words (l := [w.order.encode value]) hr hn
  have hcall' : gcovReadWords b 1 σ = .ok (some r, σ') := hcall
  have hword : σ'.buffer r = w.order.encode value := (List.cons.inj hwords).1.symm
  refine ⟨σ', ?_, hr'⟩
  unfold gcovReadUnsigned
  rw [hcall', ok_bind]
  dsimp only
  rw [hr'.number_encode hword]

theorem gcovReadUnsigned_end (hr : Reading b N w h σ []) (hn : Asks b N 1) :
    ∃ σ', gcovReadUnsigned b h σ = .ok (0, σ') ∧ Reading b N w h σ' [] := by
  obtain ⟨σ', hcall, hr'⟩ := hr.words_none hn Nat.one_pos
  refine ⟨σ', ?_, hr'⟩
  unfold gcovReadUnsigned
  rw [hcall, ok_bind]

/-- The values of the type of counters. Source: `gcov-io.h` `gcov_type`. -/
def Host.IsCounter (h : Host) (value : ℤ) : Prop :=
  -2 ^ ((if h.wide then 64 else 32) - 1) ≤ value ∧ value < 2 ^ ((if h.wide then 64 else 32) - 1)

/-- The two words of a wide counter make up the counter. Source: `gcov-io.c` `gcov_read_counter`. Kind: L -/
theorem ofInt_append (v : ℤ) :
    BitVec.ofInt 32 (v / 2 ^ 32) ++ BitVec.ofInt 32 v = BitVec.ofInt 64 v := by
  apply BitVec.eq_of_toNat_eq
  rw [BitVec.toNat_append, ← Nat.shiftLeft_add_eq_or_of_lt (BitVec.isLt _), Nat.shiftLeft_eq]
  simp only [BitVec.toNat_ofInt]
  omega

theorem gcovReadCounter_spec {value : ℤ} (hr : Reading b N w h σ (counterWords w value ++ rs))
    (hn : Asks b N 2) (hvalue : w.IsCounter value) :
    ∃ σ', gcovReadCounter b h σ = .ok (value, σ') ∧ Reading b N w h σ' rs := by
  obtain ⟨r, σ', hcall, hr', hwords⟩ := hr.words hn
  have hcall' : gcovReadWords b 2 σ = .ok (some r, σ') := hcall
  obtain ⟨hlow, htail⟩ := List.cons.inj hwords
  have hhigh : w.order.encode (if w.wide then BitVec.ofInt 32 (value / 2 ^ 32) else 0) = σ'.buffer (r + 1) :=
    (List.cons.inj htail).1
  have hlow' : σ'.number b h r = BitVec.ofInt 32 value := hr'.number_encode hlow.symm
  obtain ⟨hmin, hmax⟩ := hvalue
  have hwide := hr.wide_eq
  unfold gcovReadCounter
  rw [hcall', ok_bind]
  dsimp only
  rw [hlow']
  cases hw : h.wide with
  | true =>
    rw [hw] at hwide
    rw [hwide] at hmin hmax hhigh
    rw [if_pos rfl] at hmin hmax hhigh
    rw [if_pos rfl, hr'.number_encode hhigh.symm, ofInt_append,
      BitVec.toInt_ofInt_eq_self (by omega) hmin hmax]
    exact ⟨σ', rfl, hr'⟩
  | false =>
    rw [hw] at hwide
    rw [hwide] at hmin hmax hhigh
    rw [if_neg Bool.false_ne_true] at hmin hmax hhigh
    have hzero : h.order.decode (σ'.buffer (r + 1)) = 0 := by
      rw [← hhigh, encode_zero]
      cases h.order <;> rfl
    rw [if_neg Bool.false_ne_true, hzero, if_neg (fun hc => hc rfl),
      BitVec.toInt_ofInt_eq_self (by omega) hmin hmax]
    exact ⟨σ', rfl, hr'⟩

/-- A counter is not read from less than two words. Source: `gcov-io.c` `gcov_read_counter`. Kind: L -/
theorem gcovReadCounter_end (hr : Reading b N w h σ rs) (hn : Asks b N 2) (hlt : rs.length < 2) :
    ∃ σ', gcovReadCounter b h σ = .ok (0, σ') ∧ Reading b N w h σ' [] := by
  obtain ⟨σ', hcall, hr'⟩ := hr.words_none hn hlt
  refine ⟨σ', ?_, hr'⟩
  unfold gcovReadCounter
  rw [hcall, ok_bind]

/-- **A string** is read back, in either byte order, if it can be asked for. Source: `gcov-io.c` `gcov_read_string`. Kind: L -/
theorem gcovReadString_spec {text : Option CString} (hr : Reading .compiler N w h σ (stringWords w text ++ rs))
    (hN : Asks .compiler N 1) (hfits : ∀ s ∈ text, (s.1.length + 4) / 4 ≤ N) :
    ∃ σ', gcovReadString h σ = .ok (text.map Subtype.val, σ') ∧ Reading .compiler N w h σ' rs := by
  cases text with
  | none =>
    have hhead : Reading .compiler N w h σ (w.order.encode 0 :: rs) := hr
    obtain ⟨σ', hcall, hr'⟩ := gcovReadUnsigned_spec hhead hN
    refine ⟨σ', ?_, hr'⟩
    unfold gcovReadString
    rw [hcall, ok_bind]
    rfl
  | some s =>
    have hlen := hfits s rfl
    have hbound := hN.2
    have hhead : Reading .compiler N w h σ (w.order.encode (BitVec.ofNat 32 ((s.1.length + 4) / 4)) ::
        (packed s.1 ((s.1.length + 4) / 4) ++ rs)) := hr
    obtain ⟨σ₁, hcall, hr₁⟩ := gcovReadUnsigned_spec hhead hN
    obtain ⟨r, σ₂, hcall₂, hr₂, hwords⟩ := hr₁.words (by
      rw [length_packed]
      exact ⟨hlen, hbound⟩)
    rw [length_packed] at hcall₂ hwords
    have hnat : (BitVec.ofNat 32 ((s.1.length + 4) / 4)).toNat = (s.1.length + 4) / 4 := by
      rw [BitVec.toNat_ofNat]
      omega
    have hne : BitVec.ofNat 32 ((s.1.length + 4) / 4) ≠ 0 := by
      intro hzero
      rw [hzero] at hnat
      change 0 = _ at hnat
      omega
    refine ⟨σ₂, ?_, hr₂⟩
    unfold gcovReadString
    rw [hcall, ok_bind]
    dsimp only
    rw [if_neg hne, hnat, hcall₂, ok_bind]
    dsimp only
    rw [← hwords, takeWhile_packed s.2 (by omega)]
    rfl

theorem gcovReadString_end (hr : Reading .compiler N w h σ []) (hn : Asks .compiler N 1) :
    ∃ σ', gcovReadString h σ = .ok (none, σ') ∧ Reading .compiler N w h σ' [] := by
  obtain ⟨σ', hcall, hr'⟩ := gcovReadUnsigned_end hr hn
  refine ⟨σ', ?_, hr'⟩
  unfold gcovReadString
  rw [hcall, ok_bind]
  rfl

end Words

end GccCore.Gcc.GcovIo
