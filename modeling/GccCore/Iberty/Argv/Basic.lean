import Mathlib.Data.List.TakeWhile
import Mathlib.Tactic.Common

/-!
# `libiberty/argv.c`: argument vectors as text

An argument vector is written one argument a line, with backslashes in front of white space, quotes and backslashes.
It is read back by a scan that knows quotes and backslashes, and that takes any white space for the end of an argument.

* **The scan** (`buildargv`) and **the writer** (`writeargv`).
* **What comes back** (`buildargv_writeargv`): the first argument and those of the others that are not empty.
* **The round trip** (`buildargv_writeargv_iff`) holds exactly for vectors that are not empty and whose arguments behind
  the first are not empty.

Memory is not modelled; allocation succeeds.
-/

namespace GccCore.Iberty.Argv

/-! ## Text -/

/-- A character. Source: `argv.c` (`char`). -/
abbrev Chr := BitVec 8

/-- A string of C: it has no zero character. -/
abbrev CString := { s : List Chr // 0 ∉ s }

/-- Source: `safe-ctype.h` `ISBLANK` (space, tab). -/
def isBlank (c : Chr) : Bool := c = 0x20 || c = 0x09

/-- Source: `safe-ctype.h` `ISSPACE` (space, tab, newline, vertical tab, form feed, carriage return). -/
def isSpace (c : Chr) : Bool := c = 0x20 || c = 0x09 || c = 0x0a || c = 0x0b || c = 0x0c || c = 0x0d

/-- The text in a buffer: it ends at the first zero. Source: `argv.c` `EOS`. -/
def cString (buffer : List Chr) : List Chr := buffer.takeWhile (· ≠ 0)

/-! ## The scan -/

/-- The three flags of the scan. Source: `argv.c` `buildargv` (`squote`, `dquote`, `bsquote`). -/
structure Quotes where
  squote : Bool
  dquote : Bool
  bsquote : Bool
  deriving DecidableEq

/-- Source: `argv.c` `buildargv`. -/
def Quotes.start : Quotes := ⟨false, false, false⟩

/-- One character of an argument: the flags behind it, and what it adds to the argument.
Source: `argv.c` `buildargv` (the inner loop) -/
def Quotes.step (q : Quotes) (c : Chr) : Quotes × List Chr :=
  if q.bsquote then ({ q with bsquote := false }, [c])
  else if c = 0x5c then ({ q with bsquote := true }, [])
  else if q.squote then
    if c = 0x27 then ({ q with squote := false }, []) else (q, [c])
  else if q.dquote then
    if c = 0x22 then ({ q with dquote := false }, []) else (q, [c])
  else if c = 0x27 then ({ q with squote := true }, [])
  else if c = 0x22 then ({ q with dquote := true }, [])
  else (q, [c])

/-- An argument, the flags behind it, and the rest of the text.
Source: `argv.c` `buildargv` ("Begin scanning arg") -/
def scanArg (q : Quotes) : List Chr → List Chr × Quotes × List Chr
  | [] => ([], q, [])
  | c :: input =>
    if isSpace c && !q.squote && !q.dquote && !q.bsquote then ([], q, c :: input)
    else
      let (q, out) := q.step c
      let (arg, q, rest) := scanArg q input
      (out ++ arg, q, rest)

theorem length_scanArg (q : Quotes) (input : List Chr) : (scanArg q input).2.2.length ≤ input.length := by
  induction input generalizing q with
  | nil => exact le_refl _
  | cons c input ih =>
    rw [scanArg]
    split
    · exact le_refl _
    · exact le_trans (ih _) (Nat.le_succ _)

/-- The text behind an argument and the white space after it is shorter. -/
theorem length_rest_lt (q : Quotes) (input : List Chr)
    (h : (scanArg q (input.dropWhile isBlank)).2.2.dropWhile isSpace ≠ []) :
    ((scanArg q (input.dropWhile isBlank)).2.2.dropWhile isSpace).length < input.length := by
  have hdrop : (input.dropWhile isBlank).length ≤ input.length := (List.dropWhile_sublist _).length_le
  have hskip := (List.dropWhile_sublist (p := isSpace)
    (l := (scanArg q (input.dropWhile isBlank)).2.2)).length_le
  rcases htext : input.dropWhile isBlank with _ | ⟨c, text⟩
  · rw [htext] at h
    exact absurd rfl h
  · rw [htext] at h hdrop hskip
    rw [List.length_cons] at hdrop
    rw [scanArg] at h hskip ⊢
    split at h
    · next hspace =>
      -- the argument is empty, but the white space behind it is not
      rw [if_pos hspace] at hskip ⊢
      have hc : isSpace c = true := by
        simp only [Bool.and_eq_true] at hspace
        exact hspace.1.1.1
      rw [List.dropWhile_cons_of_pos hc]
      have := (List.dropWhile_sublist (p := isSpace) (l := text)).length_le
      omega
    · next hspace =>
      rw [if_neg hspace] at hskip ⊢
      have hscan := length_scanArg (q.step c).1 text
      exact lt_of_le_of_lt (le_trans hskip hscan) (by omega)

/-- Arguments one after the other, until the text ends; there is at least one.
Source: `argv.c` `buildargv` (the outer loop) -/
def buildLoop (q : Quotes) (input : List Chr) : List (List Chr) :=
  let scanned := scanArg q (input.dropWhile isBlank)
  let rest := scanned.2.2.dropWhile isSpace
  if _ : rest = [] then [scanned.1]
  else scanned.1 :: buildLoop scanned.2.1 rest
termination_by input.length
decreasing_by
  rename_i h
  exact length_rest_lt q input h

/-- Source: `argv.c` `buildargv`. -/
def buildargv (input : List Chr) : List (List Chr) := buildLoop .start (cString input)

/-! ## The writer -/

/-- Source: `argv.c` `writeargv`. -/
def isSpecial (c : Chr) : Bool := isSpace c || c = 0x5c || c = 0x27 || c = 0x22

/-- An argument with backslashes. Source: `argv.c` `writeargv` (the inner loop). -/
def escape (arg : List Chr) : List Chr := arg.flatMap fun c => if isSpecial c then [0x5c, c] else [c]

/-- The text that is written for a vector. Source: `argv.c` `writeargv`. -/
def writeargv (argv : List CString) : List Chr := argv.flatMap fun arg => escape arg.1 ++ [0x0a]

/-! ## What comes back -/

/-- An escaped argument is scanned back, up to the newline behind it. Source: `argv.c` `buildargv`. Kind: L -/
theorem scanArg_escape (arg rest : List Chr) :
    scanArg .start (escape arg ++ 0x0a :: rest) = (arg, .start, 0x0a :: rest) := by
  induction arg with
  | nil => rfl
  | cons c arg ih =>
    unfold escape at ih ⊢
    rw [List.flatMap_cons, List.append_assoc]
    by_cases hc : isSpecial c = true
    · -- the backslash raises a flag, and the flag takes the character whatever it is
      rw [if_pos hc, List.cons_append, List.cons_append, List.nil_append]
      have hstep : Quotes.start.step 0x5c = (⟨false, false, true⟩, []) := rfl
      have hnext : (⟨false, false, true⟩ : Quotes).step c = (.start, [c]) := rfl
      rw [scanArg, if_neg (by decide), hstep]
      dsimp only
      rw [scanArg, if_neg (by simp), hnext]
      dsimp only
      rw [ih]
      rfl
    · rw [if_neg hc]
      simp only [isSpecial, Bool.or_eq_true, decide_eq_true_eq, not_or] at hc
      obtain ⟨⟨⟨hspace, hback⟩, hsingle⟩, hdouble⟩ := hc
      have hstep : Quotes.start.step c = (.start, [c]) := by
        unfold Quotes.step
        rw [if_neg (by decide), if_neg hback, if_neg (by decide), if_neg (by decide), if_neg hsingle,
          if_neg hdouble]
      rw [List.cons_append, List.nil_append, scanArg, if_neg (by simp [hspace]), hstep]
      dsimp only
      rw [ih]
      rfl

/-- The first character of an escaped argument is no white space. Source: `argv.c` `writeargv`. Kind: L -/
theorem exists_escape_cons {arg : List Chr} (h : arg ≠ []) :
    ∃ c text, escape arg = c :: text ∧ isSpace c = false := by
  cases arg with
  | nil => exact absurd rfl h
  | cons c arg =>
    unfold escape
    rw [List.flatMap_cons]
    by_cases hc : isSpecial c = true
    · rw [if_pos hc]
      exact ⟨0x5c, _, rfl, by decide⟩
    · rw [if_neg hc]
      refine ⟨c, _, rfl, ?_⟩
      simp only [isSpecial, Bool.or_eq_true, not_or] at hc
      exact Bool.eq_false_iff.mpr hc.1.1.1

/-- What is blank is white space. Source: `safe-ctype.h` `ISBLANK`, `ISSPACE`. Kind: L -/
theorem isBlank_eq_false {c : Chr} (h : isSpace c = false) : isBlank c = false := by
  simp only [isSpace, isBlank, Bool.or_eq_false_iff] at h ⊢
  exact h.1.1.1.1

/-- No blank is skipped in front of a written argument. Source: `argv.c` `buildargv`. Kind: L -/
theorem dropWhile_isBlank_escape (arg rest : List Chr) :
    (escape arg ++ 0x0a :: rest).dropWhile isBlank = escape arg ++ 0x0a :: rest := by
  by_cases harg : arg = []
  · subst harg
    rfl
  · obtain ⟨c, text, htext, hc⟩ := exists_escape_cons harg
    rw [htext, List.cons_append, List.dropWhile_cons_of_neg (by rw [isBlank_eq_false hc]; exact Bool.false_ne_true)]

/-- White space in front of written arguments is skipped together with the empty ones.
Source: `argv.c` `buildargv`
Kind: L -/
theorem dropWhile_isSpace_writeargv (argv : List CString) :
    (writeargv argv).dropWhile isSpace = writeargv (argv.dropWhile fun arg => arg.1 = []) := by
  induction argv with
  | nil => rfl
  | cons arg argv ih =>
    by_cases harg : arg.1 = []
    · have htext : writeargv (arg :: argv) = 0x0a :: writeargv argv := by
        unfold writeargv
        rw [List.flatMap_cons, harg]
        rfl
      rw [htext, List.dropWhile_cons_of_pos (by decide), ih, List.dropWhile_cons_of_pos (by simpa using harg)]
    · obtain ⟨c, text, htext, hc⟩ := exists_escape_cons harg
      rw [List.dropWhile_cons_of_neg (by simpa using harg)]
      unfold writeargv
      rw [List.flatMap_cons, htext]
      exact List.dropWhile_cons_of_neg (by rw [hc]; exact Bool.false_ne_true)

/-- One round of the scan over written arguments. Source: `argv.c` `buildargv`. Kind: L -/
theorem buildLoop_writeargv_cons (arg : CString) (argv : List CString) :
    buildLoop .start (writeargv (arg :: argv)) =
      if writeargv (argv.dropWhile fun a => a.1 = []) = [] then [arg.1]
      else arg.1 :: buildLoop .start (writeargv (argv.dropWhile fun a => a.1 = [])) := by
  have htext : writeargv (arg :: argv) = escape arg.1 ++ 0x0a :: writeargv argv := by
    unfold writeargv
    rw [List.flatMap_cons, List.append_assoc]
    rfl
  rw [buildLoop, htext, dropWhile_isBlank_escape, scanArg_escape]
  dsimp only
  rw [List.dropWhile_cons_of_pos (by decide), dropWhile_isSpace_writeargv]
  rfl

/-- The written arguments behind the first come back without the empty ones. Source: `argv.c` `buildargv`. Kind: L -/
theorem buildLoop_writeargv (arg : CString) (argv : List CString) :
    buildLoop .start (writeargv (arg :: argv)) =
      arg.1 :: (argv.filter fun a => a.1 ≠ []).map Subtype.val := by
  induction argv generalizing arg with
  | nil =>
    rw [buildLoop_writeargv_cons]
    rfl
  | cons a argv ih =>
    by_cases ha : a.1 = []
    · -- an empty argument is only a newline more between two arguments
      have hsame : buildLoop .start (writeargv (arg :: a :: argv)) = buildLoop .start (writeargv (arg :: argv)) := by
        rw [buildLoop_writeargv_cons, buildLoop_writeargv_cons, List.dropWhile_cons_of_pos (by simpa using ha)]
      rw [hsame, ih, List.filter_cons_of_neg (by simpa using ha)]
    · have htext : writeargv (a :: argv) ≠ [] := by
        unfold writeargv
        rw [List.flatMap_cons]
        simp
      rw [buildLoop_writeargv_cons, List.dropWhile_cons_of_neg (by simpa using ha), if_neg htext, ih,
        List.filter_cons_of_pos (by simpa using ha), List.map_cons]

/-- Written text has no zero character. Source: `argv.c` `writeargv`. Kind: L -/
theorem cString_writeargv (argv : List CString) : cString (writeargv argv) = writeargv argv := by
  unfold cString
  rw [List.takeWhile_eq_self_iff]
  intro c hc
  unfold writeargv escape at hc
  simp only [List.mem_flatMap, List.mem_append, List.mem_singleton] at hc
  obtain ⟨arg, _, ⟨d, hd, hcd⟩ | rfl⟩ := hc
  · have hne : d ≠ 0 := by
      rintro rfl
      exact arg.2 hd
    split at hcd
    · rcases List.mem_cons.mp hcd with rfl | hcd
      · decide
      · rw [List.mem_singleton] at hcd
        simpa [hcd] using hne
    · rw [List.mem_singleton] at hcd
      simpa [hcd] using hne
  · decide

/-- **What comes back**: the first argument, and those of the others that are not empty. Source: `argv.c`. Kind: P -/
theorem buildargv_writeargv (arg : CString) (argv : List CString) :
    buildargv (writeargv (arg :: argv)) = arg.1 :: (argv.filter fun a => a.1 ≠ []).map Subtype.val := by
  unfold buildargv
  rw [cString_writeargv, buildLoop_writeargv]

/-- No text is read as no arguments. Source: `argv.c` `buildargv` ("Always return an argv, even for null strings").
Kind: L -/
theorem buildargv_writeargv_nil : buildargv (writeargv []) = [[]] := by
  unfold buildargv
  rw [cString_writeargv, buildLoop]
  rfl

/-- **The round trip** gives the vector back if and only if it is not empty and no argument behind the first is.
Source: `argv.c` `writeargv`, `buildargv`
Kind: P -/
theorem buildargv_writeargv_iff (argv : List CString) :
    buildargv (writeargv argv) = argv.map Subtype.val ↔ argv ≠ [] ∧ ∀ arg ∈ argv.tail, arg.1 ≠ [] := by
  cases argv with
  | nil =>
    rw [buildargv_writeargv_nil]
    simp
  | cons arg argv =>
    rw [buildargv_writeargv, List.map_cons, List.tail_cons]
    constructor
    · intro h
      refine ⟨List.cons_ne_nil _ _, ?_⟩
      have hmap : (argv.filter fun a => a.1 ≠ []).map Subtype.val = argv.map Subtype.val := (List.cons.inj h).2
      have hlen := congrArg List.length hmap
      rw [List.length_map, List.length_map] at hlen
      intro a ha
      simpa using List.length_filter_eq_length_iff.mp hlen a ha
    · rintro ⟨_, h⟩
      rw [List.filter_eq_self.mpr (by simpa using h)]

/-- An empty argument at the end is lost. Source: none: counterexample. Kind: C -/
theorem empty_argument_lost :
    buildargv (writeargv [⟨[0x61], by decide⟩, ⟨[], by decide⟩]) = [[0x61]] ∧
      buildargv (writeargv [⟨[0x61], by decide⟩, ⟨[], by decide⟩]) ≠ [[0x61], []] := by
  rw [buildargv_writeargv]
  exact ⟨rfl, by decide⟩

end GccCore.Iberty.Argv
