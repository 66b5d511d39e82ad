import GccCore.Gcc.GcovIo.Read

/-!
# Coverage files: reading items

A reader knows what comes next, and gets the values with the lengths of the records.

* **Forms** (`DataForm`, `NoteForm`) and what is read for them (`DataItem.got`, `NoteItem.got`; behind the end
  `DataForm.zero`, `NoteForm.zero`).
* **Items are read back** (`readDataForm_spec`, `readNoteForm_spec`), and behind the end every read gives nothing
  (`readDataForm_end`, `readNoteForm_end`).
-/

namespace GccCore.Gcc.GcovIo

open GccCore.Lib.Words

/-! ## Forms -/

/-- The kind of a value. -/
inductive DataKind
  | unsigned
  | counter

/-- The kind of a value. -/
inductive NoteKind
  | unsigned
  | string

/-- What a reader expects next. -/
inductive DataForm
  | value (k : DataKind)
  | record (body : List DataKind)
  | summary

/-- What a reader expects next. -/
inductive NoteForm
  | value (k : NoteKind)
  | record (body : List NoteKind)

/-- What a reader gets: a record comes with its length. -/
inductive DataGot
  | value (v : DataVal)
  | record (tag length : Unsigned) (body : List DataVal)
  | summary (tag length checksum : Unsigned) (ctrs : List CtrSummary)

/-- A value that was read. -/
inductive NoteRead
  | unsigned (value : Unsigned)
  | string (text : Option (List (BitVec 8)))
  deriving DecidableEq

/-- What a reader gets: a record comes with its length. -/
inductive NoteGot
  | value (v : NoteRead)
  | record (tag length : Unsigned) (body : List NoteRead)
  deriving DecidableEq

def DataVal.kind : DataVal → DataKind
  | .unsigned _ => .unsigned
  | .counter _ => .counter

def NoteVal.kind : NoteVal → NoteKind
  | .unsigned _ => .unsigned
  | .string _ => .string

def DataItem.form : DataItem → DataForm
  | .value v => .value v.kind
  | .record _ body => .record (body.map DataVal.kind)
  | .summary _ _ => .summary

def NoteItem.form : NoteItem → NoteForm
  | .value v => .value v.kind
  | .record _ body => .record (body.map NoteVal.kind)

/-- What should be read: the same values, and the number of words up to the end of a record.
Source: `gcov-io.h` (the file format) -/
def DataItem.got (h : Host) : DataItem → DataGot
  | .value v => .value v
  | .record tag body => .record tag (BitVec.ofNat 32 (dataWords h body).length) body
  | .summary tag s => .summary tag (BitVec.ofNat 32 (dataWords h s.vals).length) s.checksum s.ctrs

/-- What should be read of a value. Source: `gcov-io.h` (the file format). -/
def NoteVal.got : NoteVal → NoteRead
  | .unsigned value => .unsigned value
  | .string text => .string (text.map Subtype.val)

/-- What should be read: the same values, and the number of words up to the end of a record.
Source: `gcov-io.h` (the file format) -/
def NoteItem.got (h : Host) : NoteItem → NoteGot
  | .value v => .value v.got
  | .record tag body => .record tag (BitVec.ofNat 32 (noteWords h body).length) (body.map NoteVal.got)

/-- What is read behind the end. -/
def DataKind.zero : DataKind → DataVal
  | .unsigned => .unsigned 0
  | .counter => .counter 0

/-- What is read behind the end. -/
def NoteKind.zero : NoteKind → NoteRead
  | .unsigned => .unsigned 0
  | .string => .string none

/-- What is read behind the end. -/
def DataForm.zero : DataForm → DataGot
  | .value k => .value k.zero
  | .record body => .record 0 0 (body.map DataKind.zero)
  | .summary => .summary 0 0 0 (List.replicate gcovCountersSummable ⟨0, 0, 0, 0, 0⟩)

/-- What is read behind the end. -/
def NoteForm.zero : NoteForm → NoteGot
  | .value k => .value k.zero
  | .record body => .record 0 0 (body.map NoteKind.zero)

/-- One read after the other. -/
def readAll {α β : Type} (read : α → Var → Except Fault (β × Var)) : List α → Var → Except Fault (List β × Var)
  | [], σ => .ok ([], σ)
  | a :: as, σ => do
    let (x, σ) ← read a σ
    let (xs, σ) ← readAll read as σ
    .ok (x :: xs, σ)

/-- Source: `gcov-io.c` `gcov_read_unsigned`, `gcov_read_counter`. -/
def readDataVal (b : Build) (h : Host) : DataKind → Var → Except Fault (DataVal × Var)
  | .unsigned, σ => do
    let (value, σ) ← gcovReadUnsigned b h σ
    .ok (.unsigned value, σ)
  | .counter, σ => do
    let (value, σ) ← gcovReadCounter b h σ
    .ok (.counter value, σ)

/-- Source: `gcov-io.c` `gcov_read_unsigned`, `gcov_read_string`. -/
def readNoteVal (h : Host) : NoteKind → Var → Except Fault (NoteRead × Var)
  | .unsigned, σ => do
    let (value, σ) ← gcovReadUnsigned .compiler h σ
    .ok (.unsigned value, σ)
  | .string, σ => do
    let (text, σ) ← gcovReadString h σ
    .ok (.string text, σ)

/-- A record is read with its tag and its length. Source: `coverage.c` `read_counts_file`, `libgcov.c` `gcov_exit`. -/
def readDataForm (b : Build) (h : Host) : DataForm → Var → Except Fault (DataGot × Var)
  | .value k, σ => do
    let (v, σ) ← readDataVal b h k σ
    .ok (.value v, σ)
  | .record body, σ => do
    let (tag, σ) ← gcovReadUnsigned b h σ
    let (length, σ) ← gcovReadUnsigned b h σ
    let (vs, σ) ← readAll (readDataVal b h) body σ
    .ok (.record tag length vs, σ)
  | .summary, σ => do
    let (tag, σ) ← gcovReadUnsigned b h σ
    let (length, σ) ← gcovReadUnsigned b h σ
    let (summary, σ) ← gcovReadSummary b h σ
    .ok (.summary tag length summary.1 summary.2, σ)

/-- A record is read with its tag and its length. Source: `gcov.c` `read_graph_file`. -/
def readNoteForm (h : Host) : NoteForm → Var → Except Fault (NoteGot × Var)
  | .value k, σ => do
    let (v, σ) ← readNoteVal h k σ
    .ok (.value v, σ)
  | .record body, σ => do
    let (tag, σ) ← gcovReadUnsigned .compiler h σ
    let (length, σ) ← gcovReadUnsigned .compiler h σ
    let (vs, σ) ← readAll (readNoteVal h) body σ
    .ok (.record tag length vs, σ)

/-- The counters of a summary are of the type of counters. Source: `gcov-io.h` `gcov_type`. -/
def DataVal.IsOf (h : Host) : DataVal → Prop
  | .unsigned _ => True
  | .counter value => h.IsCounter value

/-- All counters of an item are of the type of counters. Source: `gcov-io.h` `gcov_type`. -/
def DataItem.IsOf (h : Host) : DataItem → Prop
  | .value v => v.IsOf h
  | .record _ body => ∀ v ∈ body, v.IsOf h
  | .summary _ s => ∀ v ∈ s.vals, v.IsOf h

/-- Texts have at most `N` words. Source: `gcov-io.c` `gcov_read_string` (`length`). -/
def NoteVal.Short (N : ℕ) : NoteVal → Prop
  | .unsigned _ => True
  | .string text => ∀ s ∈ text, (s.1.length + 4) / 4 ≤ N

/-- All texts of an item have at most `N` words. Source: `gcov-io.c` `gcov_read_string` (`length`). -/
def NoteItem.Short (N : ℕ) : NoteItem → Prop
  | .value v => v.Short N
  | .record _ body => ∀ v ∈ body, v.Short N

/-! ## Reading -/

section Items

variable {b : Build} {w h : Host} {N : ℕ} {σ : Var} {rs : List Word}

/-- Reads that find the words of what they should read, one after the other. -/
theorem readAll_spec {α β γ : Type} {f : α → Var → Except Fault (β × Var)} {k : γ → α} {g : γ → List Word}
    {o : γ → β} {P : Var → List Word → Prop} {V : γ → Prop}
    (hstep : ∀ σ rs c, V c → P σ (g c ++ rs) → ∃ σ', f (k c) σ = .ok (o c, σ') ∧ P σ' rs) (cs : List γ) :
    ∀ σ rs, (∀ c ∈ cs, V c) → P σ (cs.flatMap g ++ rs) →
      ∃ σ', readAll f (cs.map k) σ = .ok (cs.map o, σ') ∧ P σ' rs := by
  induction cs with
  | nil =>
    intro σ rs _ hP
    exact ⟨σ, rfl, hP⟩
  | cons c cs ih =>
    intro σ rs hV hP
    rw [List.flatMap_cons, List.append_assoc] at hP
    obtain ⟨σ₁, hcall, hP₁⟩ := hstep σ _ c (hV c List.mem_cons_self) hP
    obtain ⟨σ₂, hcalls, hP₂⟩ := ih σ₁ rs (fun d hd => hV d (List.mem_cons_of_mem c hd)) hP₁
    refine ⟨σ₂, ?_, hP₂⟩
    rw [List.map_cons, readAll, hcall, ok_bind]
    dsimp only
    rw [hcalls, ok_bind, List.map_cons]

/-- Reads behind the end. -/
theorem readAll_end {α β : Type} {f : α → Var → Except Fault (β × Var)} {o : α → β} {P : Var → Prop}
    (hstep : ∀ σ a, P σ → ∃ σ', f a σ = .ok (o a, σ') ∧ P σ') (as : List α) (σ : Var) (hP : P σ) :
    ∃ σ', readAll f as σ = .ok (as.map o, σ') ∧ P σ' := by
  obtain ⟨σ', hcall, hP'⟩ := readAll_spec (f := f) (k := id) (g := fun _ => []) (o := o) (P := fun σ _ => P σ)
    (V := fun _ => True) (fun σ _ a _ hP => hstep σ a hP) as σ [] (fun _ _ => trivial) hP
  rw [List.map_id] at hcall
  exact ⟨σ', hcall, hP'⟩

/-- Reads in two parts. -/
theorem readAll_append {α β : Type} {f : α → Var → Except Fault (β × Var)} {as as' : List α} :
    ∀ {xs : List β} {σ σ₁ : Var}, readAll f as σ = .ok (xs, σ₁) → ∀ {ys : List β} {σ₂ : Var},
      readAll f as' σ₁ = .ok (ys, σ₂) → readAll f (as ++ as') σ = .ok (xs ++ ys, σ₂) := by
  induction as with
  | nil =>
    intro xs σ σ₁ hfirst ys σ₂ hsecond
    cases hfirst
    exact hsecond
  | cons a as ih =>
    intro xs σ σ₁ hfirst ys σ₂ hsecond
    rw [readAll] at hfirst
    rcases hcall : f a σ with e | ⟨x, τ⟩
    · rw [hcall] at hfirst
      cases hfirst
    · rw [hcall, ok_bind] at hfirst
      dsimp only at hfirst
      rcases hcalls : readAll f as τ with e | ⟨zs, τ'⟩
      · rw [hcalls] at hfirst
        cases hfirst
      · rw [hcalls, ok_bind] at hfirst
        cases hfirst
        rw [List.cons_append, readAll, hcall, ok_bind]
        dsimp only
        rw [ih hcalls hsecond, ok_bind, List.cons_append]

/-- A build that can read counters can read words. -/
theorem Asks.one (hN : Asks b N 2) : Asks b N 1 := by
  cases b with
  | libgcov => exact show 1 ≤ 2 by omega
  | compiler => exact ⟨le_trans (by omega) hN.1, hN.2⟩

theorem readDataVal_spec (hN : Asks b N 2) (σ : Var) (rs : List Word) (v : DataVal) (hv : v.IsOf w)
    (hr : Reading b N w h σ (v.words w ++ rs)) :
    ∃ σ', readDataVal b h v.kind σ = .ok (v, σ') ∧ Reading b N w h σ' rs := by
  cases v with
  | unsigned value =>
    obtain ⟨σ', hcall, hr'⟩ := gcovReadUnsigned_spec hr hN.one
    refine ⟨σ', ?_, hr'⟩
    rw [DataVal.kind, readDataVal, hcall, ok_bind]
  | counter value =>
    obtain ⟨σ', hcall, hr'⟩ := gcovReadCounter_spec hr hN hv
    refine ⟨σ', ?_, hr'⟩
    rw [DataVal.kind, readDataVal, hcall, ok_bind]

theorem readDataVal_end (hN : Asks b N 2) (σ : Var) (k : DataKind) (hr : Reading b N w h σ []) :
    ∃ σ', readDataVal b h k σ = .ok (k.zero, σ') ∧ Reading b N w h σ' [] := by
  cases k with
  | unsigned =>
    obtain ⟨σ', hcall, hr'⟩ := gcovReadUnsigned_end hr hN.one
    refine ⟨σ', ?_, hr'⟩
    rw [readDataVal, hcall, ok_bind]
    rfl
  | counter =>
    obtain ⟨σ', hcall, hr'⟩ := gcovReadCounter_end hr hN (by simp)
    refine ⟨σ', ?_, hr'⟩
    rw [readDataVal, hcall, ok_bind]
    rfl

theorem readCtrSummary_spec (hN : Asks b N 2) {csum : CtrSummary} (hv : ∀ v ∈ csum.vals, v.IsOf w)
    (hr : Reading b N w h σ (dataWords w csum.vals ++ rs)) :
    ∃ σ', readCtrSummary b h σ = .ok (csum, σ') ∧ Reading b N w h σ' rs := by
  have hwords : dataWords w csum.vals ++ rs = w.order.encode csum.num :: w.order.encode csum.runs ::
      (counterWords w csum.sumAll ++ (counterWords w csum.runMax ++ (counterWords w csum.sumMax ++ rs))) := rfl
  rw [hwords] at hr
  have hall : w.IsCounter csum.sumAll := hv (.counter csum.sumAll) (by simp [CtrSummary.vals])
  have hrun : w.IsCounter csum.runMax := hv (.counter csum.runMax) (by simp [CtrSummary.vals])
  have hsum : w.IsCounter csum.sumMax := hv (.counter csum.sumMax) (by simp [CtrSummary.vals])
  obtain ⟨σ₁, hcall₁, hr₁⟩ := gcovReadUnsigned_spec hr hN.one
  obtain ⟨σ₂, hcall₂, hr₂⟩ := gcovReadUnsigned_spec hr₁ hN.one
  obtain ⟨σ₃, hcall₃, hr₃⟩ := gcovReadCounter_spec hr₂ hN hall
  obtain ⟨σ₄, hcall₄, hr₄⟩ := gcovReadCounter_spec hr₃ hN hrun
  obtain ⟨σ₅, hcall₅, hr₅⟩ := gcovReadCounter_spec hr₄ hN hsum
  refine ⟨σ₅, ?_, hr₅⟩
  simp only [readCtrSummary, hcall₁, hcall₂, hcall₃, hcall₄, hcall₅, ok_bind]

theorem readCtrSummary_end (hN : Asks b N 2) (hr : Reading b N w h σ []) :
    ∃ σ', readCtrSummary b h σ = .ok (⟨0, 0, 0, 0, 0⟩, σ') ∧ Reading b N w h σ' [] := by
  obtain ⟨σ₁, hcall₁, hr₁⟩ := gcovReadUnsigned_end hr hN.one
  obtain ⟨σ₂, hcall₂, hr₂⟩ := gcovReadUnsigned_end hr₁ hN.one
  obtain ⟨σ₃, hcall₃, hr₃⟩ := gcovReadCounter_end hr₂ hN (by simp)
  obtain ⟨σ₄, hcall₄, hr₄⟩ := gcovReadCounter_end hr₃ hN (by simp)
  obtain ⟨σ₅, hcall₅, hr₅⟩ := gcovReadCounter_end hr₄ hN (by simp)
  refine ⟨σ₅, ?_, hr₅⟩
  simp only [readCtrSummary, hcall₁, hcall₂, hcall₃, hcall₄, hcall₅, ok_bind]

/-- The loop over the counters of a summary reads one after the other. Source: `gcov-io.c` `gcov_read_summary`. Kind: L -/
theorem readCtrSummaries_eq (n : ℕ) (σ : Var) :
    readCtrSummaries b h n σ = readAll (fun _ => readCtrSummary b h) (List.replicate n ()) σ := by
  induction n generalizing σ with
  | zero => rfl
  | succ n ih =>
    rw [readCtrSummaries, List.replicate_succ, readAll]
    simp only [ih]

theorem gcovReadSummary_spec (hN : Asks b N 2) {s : Summary} (hv : ∀ v ∈ s.vals, v.IsOf w)
    (hr : Reading b N w h σ (dataWords w s.vals ++ rs)) :
    ∃ σ', gcovReadSummary b h σ = .ok ((s.checksum, s.ctrs), σ') ∧ Reading b N w h σ' rs := by
  have hwords : dataWords w s.vals ++ rs =
      w.order.encode s.checksum :: (s.ctrs.flatMap (fun c => dataWords w c.vals) ++ rs) := by
    unfold dataWords Summary.vals
    rw [List.flatMap_cons, List.flatMap_assoc]
    rfl
  rw [hwords] at hr
  have hctrs : ∀ c ∈ s.ctrs, ∀ v ∈ c.vals, v.IsOf w := by
    intro c hc v hvc
    apply hv
    exact List.mem_cons_of_mem _ (List.mem_flatMap.mpr ⟨c, hc, hvc⟩)
  obtain ⟨σ₁, hcall₁, hr₁⟩ := gcovReadUnsigned_spec hr hN.one
  obtain ⟨σ₂, hcall₂, hr₂⟩ := readAll_spec (f := fun _ : Unit => readCtrSummary b h) (k := fun _ => ()) (o := id)
    (P := Reading b N w h) (V := fun c => ∀ v ∈ c.vals, v.IsOf w)
    (fun σ rs c hc hr => readCtrSummary_spec hN hc hr) s.ctrs σ₁ rs hctrs hr₁
  refine ⟨σ₂, ?_, hr₂⟩
  rw [List.map_id, List.map_const', s.length_ctrs, ← readCtrSummaries_eq] at hcall₂
  simp only [gcovReadSummary, hcall₁, hcall₂, ok_bind]

theorem gcovReadSummary_end (hN : Asks b N 2) (hr : Reading b N w h σ []) :
    ∃ σ', gcovReadSummary b h σ =
        .ok ((0, List.replicate gcovCountersSummable ⟨0, 0, 0, 0, 0⟩), σ') ∧ Reading b N w h σ' [] := by
  obtain ⟨σ₁, hcall₁, hr₁⟩ := gcovReadUnsigned_end hr hN.one
  obtain ⟨σ₂, hcall₂, hr₂⟩ := readAll_end (f := fun _ : Unit => readCtrSummary b h)
    (P := fun σ => Reading b N w h σ []) (fun σ _ hr => readCtrSummary_end hN hr)
    (List.replicate gcovCountersSummable ()) σ₁ hr₁
  refine ⟨σ₂, ?_, hr₂⟩
  rw [List.map_const', List.length_replicate, ← readCtrSummaries_eq] at hcall₂
  simp only [gcovReadSummary, hcall₁, hcall₂, ok_bind]

/-- **An item** is read back. Source: `coverage.c` `read_counts_file`, `libgcov.c` `gcov_exit`. Kind: L -/
theorem readDataForm_spec (hN : Asks b N 2) (σ : Var) (rs : List Word) (item : DataItem) (hv : item.IsOf w)
    (hr : Reading b N w h σ (item.words w ++ rs)) :
    ∃ σ', readDataForm b h item.form σ = .ok (item.got w, σ') ∧ Reading b N w h σ' rs := by
  cases item with
  | value v =>
    obtain ⟨σ', hcall, hr'⟩ := readDataVal_spec hN σ rs v hv hr
    refine ⟨σ', ?_, hr'⟩
    simp only [DataItem.form, readDataForm, hcall, ok_bind, DataItem.got]
  | record tag body =>
    obtain ⟨σ₁, hcall₁, hr₁⟩ := gcovReadUnsigned_spec hr hN.one
    obtain ⟨σ₂, hcall₂, hr₂⟩ := gcovReadUnsigned_spec hr₁ hN.one
    obtain ⟨σ₃, hcall₃, hr₃⟩ := readAll_spec (o := id) (readDataVal_spec hN) body σ₂ rs hv hr₂
    refine ⟨σ₃, ?_, hr₃⟩
    rw [List.map_id] at hcall₃
    simp only [DataItem.form, readDataForm, hcall₁, hcall₂, hcall₃, ok_bind, DataItem.got]
  | summary tag s =>
    obtain ⟨σ₁, hcall₁, hr₁⟩ := gcovReadUnsigned_spec hr hN.one
    obtain ⟨σ₂, hcall₂, hr₂⟩ := gcovReadUnsigned_spec hr₁ hN.one
    obtain ⟨σ₃, hcall₃, hr₃⟩ := gcovReadSummary_spec hN hv hr₂
    refine ⟨σ₃, ?_, hr₃⟩
    simp only [DataItem.form, readDataForm, hcall₁, hcall₂, hcall₃, ok_bind, DataItem.got]

theorem readDataForm_end (hN : Asks b N 2) (σ : Var) (form : DataForm) (hr : Reading b N w h σ []) :
    ∃ σ', readDataForm b h form σ = .ok (form.zero, σ') ∧ Reading b N w h σ' [] := by
  cases form with
  | value k =>
    obtain ⟨σ', hcall, hr'⟩ := readDataVal_end hN σ k hr
    refine ⟨σ', ?_, hr'⟩
    simp only [readDataForm, hcall, ok_bind, DataForm.zero]
  | record body =>
    obtain ⟨σ₁, hcall₁, hr₁⟩ := gcovReadUnsigned_end hr hN.one
    obtain ⟨σ₂, hcall₂, hr₂⟩ := gcovReadUnsigned_end hr₁ hN.one
    obtain ⟨σ₃, hcall₃, hr₃⟩ := readAll_end (P := fun σ => Reading b N w h σ []) (readDataVal_end hN) body σ₂ hr₂
    refine ⟨σ₃, ?_, hr₃⟩
    simp only [readDataForm, hcall₁, hcall₂, hcall₃, ok_bind, DataForm.zero]
  | summary =>
    obtain ⟨σ₁, hcall₁, hr₁⟩ := gcovReadUnsigned_end hr hN.one
    obtain ⟨σ₂, hcall₂, hr₂⟩ := gcovReadUnsigned_end hr₁ hN.one
    obtain ⟨σ₃, hcall₃, hr₃⟩ := gcovReadSummary_end hN hr₂
    refine ⟨σ₃, ?_, hr₃⟩
    simp only [readDataForm, hcall₁, hcall₂, hcall₃, ok_bind, DataForm.zero]

theorem readNoteVal_spec (hN : Asks .compiler N 2) (σ : Var) (rs : List Word) (v : NoteVal) (hv : v.Short N)
    (hr : Reading .compiler N w h σ (v.words w ++ rs)) :
    ∃ σ', readNoteVal h v.kind σ = .ok (v.got, σ') ∧ Reading .compiler N w h σ' rs := by
  cases v with
  | unsigned value =>
    obtain ⟨σ', hcall, hr'⟩ := gcovReadUnsigned_spec hr hN.one
    refine ⟨σ', ?_, hr'⟩
    simp only [NoteVal.kind, readNoteVal, hcall, ok_bind, NoteVal.got]
  | string text =>
    obtain ⟨σ', hcall, hr'⟩ := gcovReadString_spec hr hN.one hv
    refine ⟨σ', ?_, hr'⟩
    simp only [NoteVal.kind, readNoteVal, hcall, ok_bind, NoteVal.got]

theorem readNoteVal_end (hN : Asks .compiler N 2) (σ : Var) (k : NoteKind) (hr : Reading .compiler N w h σ []) :
    ∃ σ', readNoteVal h k σ = .ok (k.zero, σ') ∧ Reading .compiler N w h σ' [] := by
  cases k with
  | unsigned =>
    obtain ⟨σ', hcall, hr'⟩ := gcovReadUnsigned_end hr hN.one
    refine ⟨σ', ?_, hr'⟩
    simp only [readNoteVal, hcall, ok_bind, NoteKind.zero]
  | string =>
    obtain ⟨σ', hcall, hr'⟩ := gcovReadString_end hr hN.one
    refine ⟨σ', ?_, hr'⟩
    simp only [readNoteVal, hcall, ok_bind, NoteKind.zero]

/-- **An item** is read back. Source: `gcov.c` `read_graph_file`. Kind: L -/
theorem readNoteForm_spec (hN : Asks .compiler N 2) (σ : Var) (rs : List Word) (item : NoteItem) (hv : item.Short N)
    (hr : Reading .compiler N w h σ (item.words w ++ rs)) :
    ∃ σ', readNoteForm h item.form σ = .ok (item.got w, σ') ∧ Reading .compiler N w h σ' rs := by
  cases item with
  | value v =>
    obtain ⟨σ', hcall, hr'⟩ := readNoteVal_spec hN σ rs v hv hr
    refine ⟨σ', ?_, hr'⟩
    simp only [NoteItem.form, readNoteForm, hcall, ok_bind, NoteItem.got]
  | record tag body =>
    obtain ⟨σ₁, hcall₁, hr₁⟩ := gcovReadUnsigned_spec hr hN.one
    obtain ⟨σ₂, hcall₂, hr₂⟩ := gcovReadUnsigned_spec hr₁ hN.one
    obtain ⟨σ₃, hcall₃, hr₃⟩ := readAll_spec (readNoteVal_spec hN) body σ₂ rs hv hr₂
    refine ⟨σ₃, ?_, hr₃⟩
    simp only [NoteItem.form, readNoteForm, hcall₁, hcall₂, hcall₃, ok_bind, NoteItem.got]

theorem readNoteForm_end (hN : Asks .compiler N 2) (σ : Var) (form : NoteForm)
    (hr : Reading .compiler N w h σ []) :
    ∃ σ', readNoteForm h form σ = .ok (form.zero, σ') ∧ Reading .compiler N w h σ' [] := by
  cases form with
  | value k =>
    obtain ⟨σ', hcall, hr'⟩ := readNoteVal_end hN σ k hr
    refine ⟨σ', ?_, hr'⟩
    simp only [readNoteForm, hcall, ok_bind, NoteForm.zero]
  | record body =>
    obtain ⟨σ₁, hcall₁, hr₁⟩ := gcovReadUnsigned_end hr hN.one
    obtain ⟨σ₂, hcall₂, hr₂⟩ := gcovReadUnsigned_end hr₁ hN.one
    obtain ⟨σ₃, hcall₃, hr₃⟩ := readAll_end (P := fun σ => Reading .compiler N w h σ []) (readNoteVal_end hN)
      body σ₂ hr₂
    refine ⟨σ₃, ?_, hr₃⟩
    simp only [readNoteForm, hcall₁, hcall₂, hcall₃, ok_bind, NoteForm.zero]

end Items

end GccCore.Gcc.GcovIo
