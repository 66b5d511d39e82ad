import GccCore.Iberty.Argv.Basic
import GccCore.Lib.Expansion

/-!
# `libiberty/argv.c`: response files

An argument `@file` is replaced by the arguments in the file, and the scan goes on at the first of them. The number of
arguments in the file is found by looking for the first empty one.

* **The loop** (`expandargv`) is a scan that splices in the arguments in front of the first empty one
  (`expandargv_iff`).
* **What it should do** (`KeepsOptions`): end, and splice in all arguments of every file where no file leads back to
  itself.
* **When it does** (`keepsOptions_iff`): no file that is reached leads back to itself, and no file that is reached has an
  empty argument.

The files are a finite list; a name that is not in it cannot be opened.
-/

namespace GccCore.Iberty.Argv

open GccCore.Lib.Expansion

/-! ## The loop -/

/-- The files that can be read, with their contents. -/
abbrev Files := List (List Chr × List Chr)

/-- The contents of the file that an argument names. Source: `argv.c` `expandargv` (`fopen`, `fread`). -/
def response (files : Files) : List Chr → Option (List Chr)
  | [] => none
  | c :: filename => if c = 0x40 then files.lookup filename else none

/-- The arguments in front of the first empty one.
Source: `argv.c` `expandargv` ("Count the number of arguments") -/
def counted (fileArgv : List (List Chr)) : List (List Chr) := fileArgv.takeWhile (· ≠ [])

/-- The loop over the arguments, with the number of rounds that are allowed.
Source: `argv.c` `expandargv` -/
def expandLoop (files : Files) : ℕ → ℕ → List (List Chr) → Option (List (List Chr))
  | 0, _, _ => none
  | fuel + 1, i, argv =>
    let i := i + 1
    if h : i < argv.length then
      match response files (argv.get ⟨i, h⟩) with
      | none => expandLoop files fuel i argv
      | some buffer =>
        expandLoop files fuel (i - 1) (argv.take i ++ counted (buildargv buffer) ++ argv.drop (i + 1))
    else some argv

/-- Source: `argv.c` `expandargv`. -/
def expandargv (files : Files) (fuel : ℕ) (argv : List (List Chr)) : Option (List (List Chr)) :=
  expandLoop files fuel 0 argv

/-! ## What it should do -/

/-- The arguments that an argument should be replaced by. Source: `argv.c` `expandargv` (its comment). -/
def contents (files : Files) (arg : List Chr) : Option (List (List Chr)) := (response files arg).map buildargv

/-- The arguments that it is replaced by. Source: `argv.c` `expandargv`. -/
def inserted (files : Files) (arg : List Chr) : Option (List (List Chr)) := (contents files arg).map counted

/-- The loop ends; and if no file leads back to itself, every argument that names a file is replaced by all
arguments of the file.
Source: `argv.c` `expandargv` (its comment) -/
def KeepsOptions (files : Files) (argv : List (List Chr)) : Prop :=
  (∃ fuel out, expandargv files fuel argv = some out) ∧
    ((∀ arg, ¬ Cyclic (contents files) arg) →
      ∃ fuel out, expandargv files fuel argv = some (argv.take 1 ++ out) ∧
        Expands (contents files) (argv.drop 1) out)

/-! ## When it does -/

section Loop

variable {files : Files}

/-- **The loop** is a scan that splices in front of what is left. Source: `argv.c` `expandargv`. Kind: L -/
theorem expandLoop_eq (files : Files) : ∀ (n i : ℕ) (done todo : List (List Chr)), done.length = i + 1 →
    expandLoop files (n + 1) i (done ++ todo) = (rescan (inserted files) n todo).map (done ++ ·)
  | n, i, done, [], hlen => by
    rw [rescan_nil, expandLoop]
    rw [dif_neg (by simp [hlen])]
    rfl
  | n, i, done, arg :: todo, hlen => by
    have hi : i + 1 < (done ++ arg :: todo).length := by
      rw [List.length_append, List.length_cons]
      omega
    have hget : (done ++ arg :: todo).get ⟨i + 1, hi⟩ = arg := by
      rw [List.get_eq_getElem, List.getElem_append_right (le_of_eq hlen)]
      simp [hlen]
    rw [expandLoop]
    rw [dif_pos hi, hget]
    rcases hres : response files arg with _ | buffer
    · have hnext : inserted files arg = none := by
        unfold inserted contents
        rw [hres]
        rfl
      cases n with
      | zero => rfl
      | succ n =>
        rw [rescan, hnext]
        dsimp only
        have hsplit : done ++ arg :: todo = (done ++ [arg]) ++ todo := by simp
        rw [hsplit, expandLoop_eq files n (i + 1) (done ++ [arg]) todo (by simp [hlen]), Option.map_map]
        congr 1
        funext rest
        simp
    · have hnext : inserted files arg = some (counted (buildargv buffer)) := by
        unfold inserted contents
        rw [hres]
        rfl
      cases n with
      | zero => rfl
      | succ n =>
        rw [rescan, hnext]
        dsimp only
        have htake : (done ++ arg :: todo).take (i + 1) = done := List.take_left' hlen
        have hdrop : (done ++ arg :: todo).drop (i + 1 + 1) = todo := by
          rw [← List.drop_drop, List.drop_left' hlen]
          rfl
        rw [htake, hdrop, Nat.add_sub_cancel, List.append_assoc,
          expandLoop_eq files n i done (counted (buildargv buffer) ++ todo) hlen]

/-- What the loop returns begins with the program name. Source: `argv.c` `expandargv`. Kind: L -/
theorem expands_of_expandargv {fuel : ℕ} {argv out : List (List Chr)} (hfuel : expandargv files fuel argv = some out) :
    ∃ rest, argv.take 1 ++ rest = out ∧ Expands (inserted files) (argv.drop 1) rest := by
  cases fuel with
  | zero => cases hfuel
  | succ fuel =>
    cases argv with
    | nil =>
      have hout : out = [] := by simpa [expandargv, expandLoop] using hfuel.symm
      exact ⟨[], hout.symm, .nil⟩
    | cons prog args =>
      unfold expandargv at hfuel
      rw [← List.singleton_append, expandLoop_eq files fuel 0 [prog] args rfl] at hfuel
      obtain ⟨rest, hrest, heq⟩ := Option.map_eq_some_iff.mp hfuel
      exact ⟨rest, heq, rescan_iff.mp ⟨fuel, hrest⟩⟩

/-- **What the loop computes**, if it ends. Source: `argv.c` `expandargv`. Kind: L -/
theorem expandargv_iff {argv out : List (List Chr)} :
    (∃ fuel, expandargv files fuel argv = some (argv.take 1 ++ out)) ↔
      Expands (inserted files) (argv.drop 1) out := by
  constructor
  · rintro ⟨fuel, hfuel⟩
    obtain ⟨rest, heq, hrest⟩ := expands_of_expandargv hfuel
    exact List.append_cancel_left heq ▸ hrest
  · intro h
    cases argv with
    | nil =>
      cases h
      exact ⟨1, rfl⟩
    | cons prog args =>
      obtain ⟨n, hn⟩ := rescan_iff.mpr h
      refine ⟨n + 1, ?_⟩
      unfold expandargv
      rw [← List.singleton_append, expandLoop_eq files n 0 [prog] args rfl]
      exact congrArg (Option.map _) hn

/-- The loop ends if the arguments can be expanded. Source: `argv.c` `expandargv`. Kind: L -/
theorem exists_expandargv_iff {argv : List (List Chr)} :
    (∃ fuel out, expandargv files fuel argv = some out) ↔ ∃ out, Expands (inserted files) (argv.drop 1) out := by
  constructor
  · rintro ⟨fuel, out, hfuel⟩
    obtain ⟨rest, -, hrest⟩ := expands_of_expandargv hfuel
    exact ⟨rest, hrest⟩
  · rintro ⟨out, hout⟩
    obtain ⟨fuel, hfuel⟩ := expandargv_iff.mpr hout
    exact ⟨fuel, _, hfuel⟩

/-- Only finitely many arguments name a file. -/
theorem finite_contents (files : Files) : {arg | contents files arg ≠ none}.Finite := by
  apply ((files.map fun file => (0x40 :: file.1 : List Chr)).toFinset.finite_toSet).subset
  intro arg harg
  rw [Finset.mem_coe, List.mem_toFinset, List.mem_map]
  cases arg with
  | nil => exact absurd rfl harg
  | cons c filename =>
    by_cases hc : c = 0x40
    · have hread : files.lookup filename ≠ none := by
        intro hnone
        apply harg
        rw [contents, response, if_pos hc, hnone]
        rfl
      obtain ⟨buffer, hbuffer⟩ := Option.ne_none_iff_exists'.mp hread
      obtain ⟨file, hfile, hname⟩ : ∃ file ∈ files, file.1 = filename := by
        obtain ⟨l₁, l₂, hfiles, _⟩ := List.lookup_eq_some_iff.mp hbuffer
        exact ⟨(filename, buffer), by simp [hfiles], rfl⟩
      exact ⟨file, hfile, by rw [hname, hc]⟩
    · apply absurd _ harg
      rw [contents, response, if_neg hc]
      rfl

/-- Only finitely many arguments are replaced. -/
theorem finite_inserted (files : Files) : {arg | inserted files arg ≠ none}.Finite := by
  apply (finite_contents files).subset
  intro arg harg hnone
  apply harg
  unfold inserted
  rw [hnone]
  rfl

/-- What is not counted begins with an empty argument, which names no file. Source: `argv.c` `expandargv`. Kind: L -/
theorem counted_cases (files : Files) (fileArgv : List (List Chr)) :
    counted fileArgv = fileArgv ∨
      ∃ y ys, fileArgv = counted fileArgv ++ y :: ys ∧ contents files y = none := by
  have hsplit := List.takeWhile_append_dropWhile (p := fun arg : List Chr => decide (arg ≠ [])) (l := fileArgv)
  rcases hdrop : fileArgv.dropWhile (fun arg => decide (arg ≠ [])) with _ | ⟨y, ys⟩
  · left
    rw [hdrop, List.append_nil] at hsplit
    exact hsplit
  · right
    have hy : y = [] := by
      have hhead := List.head?_dropWhile_not (fun arg : List Chr => decide (arg ≠ [])) fileArgv
      rw [hdrop] at hhead
      simpa using hhead
    rw [hdrop] at hsplit
    exact ⟨y, ys, hsplit.symm, by rw [hy]; rfl⟩

/-- All arguments are counted if none is empty. Source: `argv.c` `expandargv`. Kind: L -/
theorem counted_eq_self_iff {fileArgv : List (List Chr)} : counted fileArgv = fileArgv ↔ [] ∉ fileArgv := by
  unfold counted
  rw [List.takeWhile_eq_self_iff]
  constructor
  · intro h hmem
    simpa using h [] hmem
  · intro h arg harg
    have hne : arg ≠ [] := by
      rintro rfl
      exact h harg
    simpa using hne

/-- **The loop ends** if and only if no argument that is reached leads back to itself.
Source: `argv.c` `expandargv`
Kind: L -/
theorem exists_expandargv_iff_no_cycle {argv : List (List Chr)} :
    (∃ fuel out, expandargv files fuel argv = some out) ↔
      ∀ arg ∈ argv.drop 1, ∀ b, Reaches (inserted files) arg b → ¬ Cyclic (inserted files) b := by
  rw [exists_expandargv_iff, exists_expands_iff]
  constructor
  · intro h arg harg
    exact (acc_iff_no_cycle (finite_inserted files)).mp (h arg harg)
  · intro h arg harg
    exact (acc_iff_no_cycle (finite_inserted files)).mpr (h arg harg)

/-- **Nothing is dropped** if and only if no file that is reached has an empty argument.
Source: `argv.c` `expandargv`
Kind: L -/
theorem expandargv_whole_iff {argv : List (List Chr)} (hacyclic : ∀ arg, ¬ Cyclic (contents files) arg) :
    (∃ fuel out, expandargv files fuel argv = some (argv.take 1 ++ out) ∧
        Expands (contents files) (argv.drop 1) out) ↔
      ∀ arg ∈ argv.drop 1, ∀ b, Reaches (contents files) arg b →
        ∀ fileArgv, contents files b = some fileArgv → [] ∉ fileArgv := by
  have hwhole : (∀ arg ∈ argv.drop 1, ∀ b, Reaches (contents files) arg b →
      ∀ fileArgv, contents files b = some fileArgv → [] ∉ fileArgv) ↔
        Whole (contents files) counted (argv.drop 1) := by
    unfold Whole
    simp only [counted_eq_self_iff]
  obtain ⟨out, hout⟩ : ∃ out, Expands (contents files) (argv.drop 1) out := by
    rw [exists_expands_iff]
    intro arg _
    exact (acc_iff_no_cycle (finite_contents files)).mpr fun b _ => hacyclic b
  obtain ⟨out', hout', _, heq, hsame⟩ := hout.exists_cut (counted_cases files)
  rw [hwhole]
  constructor
  · rintro ⟨fuel, o, hfuel, ho⟩
    have hcode : Expands (inserted files) (argv.drop 1) o := expandargv_iff.mp ⟨fuel, hfuel⟩
    apply heq
    rw [hout'.unique hcode |>.symm, hout.unique ho]
  · intro hw
    rw [hsame hw] at hout'
    obtain ⟨fuel, hfuel⟩ := expandargv_iff.mpr hout'
    exact ⟨fuel, out, hfuel, hout⟩

end Loop

/-- **When all options are kept**: no argument that is reached leads back to itself, where a file leads to its arguments
in front of the first empty one; and if no file leads back to itself at all, no file that is reached has an empty
argument.
Source: `argv.c` `expandargv`
Kind: P -/
theorem keepsOptions_iff (files : Files) (argv : List (List Chr)) :
    KeepsOptions files argv ↔
      (∀ arg ∈ argv.drop 1, ∀ b, Reaches (inserted files) arg b → ¬ Cyclic (inserted files) b) ∧
      ((∀ arg, ¬ Cyclic (contents files) arg) →
        ∀ arg ∈ argv.drop 1, ∀ b, Reaches (contents files) arg b →
          ∀ fileArgv, contents files b = some fileArgv → [] ∉ fileArgv) := by
  unfold KeepsOptions
  rw [exists_expandargv_iff_no_cycle]
  constructor
  · rintro ⟨hends, hkeeps⟩
    exact ⟨hends, fun hacyclic => (expandargv_whole_iff hacyclic).mp (hkeeps hacyclic)⟩
  · rintro ⟨hends, hkeeps⟩
    exact ⟨hends, fun hacyclic => (expandargv_whole_iff hacyclic).mpr (hkeeps hacyclic)⟩

/-! ## When it does not -/

/-- The one argument that names the only file. -/
theorem contents_singleton {name buffer arg : List Chr} {fileArgv : List (List Chr)}
    (h : contents [(name, buffer)] arg = some fileArgv) : arg = 0x40 :: name ∧ fileArgv = buildargv buffer := by
  cases arg with
  | nil => cases h
  | cons c filename =>
    rw [contents, response] at h
    by_cases hc : c = 0x40
    · rw [if_pos hc, List.lookup_cons] at h
      by_cases hname : filename = name
      · simp only [hname, BEq.rfl, Option.map_some, Option.some.injEq] at h
        exact ⟨by rw [hc, hname], h.symm⟩
      · have hne : (filename == name) = false := beq_eq_false_iff_ne.mpr hname
        rw [hne] at h
        cases h
    · rw [if_neg hc] at h
      cases h

/-- A file that does not name itself does not lead back to itself. -/
theorem not_cyclic_singleton (name buffer : List Chr) (h : 0x40 :: name ∉ buildargv buffer) (arg : List Chr) :
    ¬ Cyclic (contents [(name, buffer)]) arg := by
  intro hcycle
  obtain ⟨b, ⟨fileArgv, hsome, hb⟩, hrest⟩ := Relation.TransGen.head'_iff.mp hcycle
  obtain ⟨rfl, rfl⟩ := contents_singleton hsome
  rcases Relation.ReflTransGen.cases_head hrest with rfl | ⟨c, ⟨fileArgv', hsome', _⟩, _⟩
  · exact h hb
  · obtain ⟨rfl, _⟩ := contents_singleton hsome'
    exact h hb

/-- The file `f` that begins with a newline loses its option, and the loop does not end for a file `f` that names
itself.
Source: none: counterexample
Kind: C -/
theorem option_dropped_or_endless :
    (expandargv [([0x66], [0x0a, 0x2d, 0x4f, 0x32])] 4 [[0x67], [0x40, 0x66]] = some [[0x67]] ∧
      ¬ KeepsOptions [([0x66], [0x0a, 0x2d, 0x4f, 0x32])] [[0x67], [0x40, 0x66]]) ∧
    ¬ KeepsOptions [([0x66], [0x40, 0x66])] [[0x67], [0x40, 0x66]] := by
  refine ⟨⟨by decide +kernel, ?_⟩, ?_⟩
  · rintro ⟨_, hkeeps⟩
    have hacyclic := not_cyclic_singleton [0x66] [0x0a, 0x2d, 0x4f, 0x32] (by decide +kernel)
    exact (expandargv_whole_iff hacyclic).mp (hkeeps hacyclic) [0x40, 0x66] (by decide) [0x40, 0x66]
      Relation.ReflTransGen.refl [[], [0x2d, 0x4f, 0x32]] (by decide +kernel) (by decide)
  · rintro ⟨hends, _⟩
    apply exists_expandargv_iff_no_cycle.mp hends [0x40, 0x66] (by decide) [0x40, 0x66]
      Relation.ReflTransGen.refl
    exact Relation.TransGen.single ⟨[[0x40, 0x66]], by decide +kernel, by decide⟩

end GccCore.Iberty.Argv
