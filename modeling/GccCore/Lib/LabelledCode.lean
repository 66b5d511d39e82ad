import Mathlib.Data.List.Basic

/-!
# Code with labels and branches

Straight-line code with jumps and conditional branches to labels. A jump to a label of the program goes on behind it; a
jump to any other label leaves the program.

* **Code** (`Insn`), the place behind a label (`after`) and **runs** (`run`), with a bound on the number of steps.
* **Where code leads** (`Ends`): one rule for each kind of instruction.
* **Labels** (`after_append`, `after_eq_none`): the first place of a label counts.
-/

namespace GccCore.Lib.LabelledCode

variable {C L : Type*}

/-! ## Runs -/

/-- Instructions with conditions `C` and labels `L`. -/
inductive Insn (C L : Type*)
  | label (l : L)
  | jump (l : L)
  | branch (c : C) (l : L)

/-- The labels that code contains. -/
def labels : List (Insn C L) → List L
  | [] => []
  | .label l :: code => l :: labels code
  | _ :: code => labels code

@[simp]
theorem labels_append {code code' : List (Insn C L)} : labels (code ++ code') = labels code ++ labels code' := by
  induction code with
  | nil => rfl
  | cons i code ih => cases i <;> simp [labels, ih]

variable [DecidableEq L]

/-- The code behind a label. -/
def after (l : L) : List (Insn C L) → Option (List (Insn C L))
  | [] => none
  | .label l' :: code => if l' = l then some code else after l code
  | _ :: code => after l code

/-- The label by which the program is left, from a place in it. -/
def run (holds : C → Bool) (prog : List (Insn C L)) : ℕ → List (Insn C L) → Option L
  | 0, _ => none
  | _ + 1, [] => none
  | fuel + 1, .label _ :: code => run holds prog fuel code
  | fuel + 1, .jump l :: _ =>
    match after l prog with
    | some code => run holds prog fuel code
    | none => some l
  | fuel + 1, .branch c l :: code =>
    if holds c then
      match after l prog with
      | some code => run holds prog fuel code
      | none => some l
    else run holds prog fuel code

/-- A run from a place in the program leaves it by a label. -/
def Ends (holds : C → Bool) (prog code : List (Insn C L)) (l : L) : Prop := ∃ fuel, run holds prog fuel code = some l

/-! ## Where code leads -/

section Rules

variable {holds : C → Bool} {prog code code' : List (Insn C L)} {l l' : L} {c : C}

theorem Ends.jump_out (h : after l prog = none) : Ends holds prog (.jump l :: code) l := by
  refine ⟨1, ?_⟩
  simp only [run, h]

theorem Ends.branch_out (hc : holds c = true) (h : after l prog = none) : Ends holds prog (.branch c l :: code) l := by
  refine ⟨1, ?_⟩
  simp only [run, hc, h, if_pos]

theorem Ends.branch_in (hc : holds c = true) (hafter : after l' prog = some code') (h : Ends holds prog code' l) :
    Ends holds prog (.branch c l' :: code) l := by
  obtain ⟨fuel, hrun⟩ := h
  refine ⟨fuel + 1, ?_⟩
  simp only [run, hc, hafter, hrun, if_pos]

theorem Ends.branch_not (hc : holds c = false) (h : Ends holds prog code l) :
    Ends holds prog (.branch c l' :: code) l := by
  obtain ⟨fuel, hrun⟩ := h
  refine ⟨fuel + 1, ?_⟩
  simp only [run, hc, Bool.false_eq_true, if_false, hrun]

end Rules

/-! ## Labels -/

section Labels

variable {code code' : List (Insn C L)} {l : L}

/-- A label that code does not contain is looked for behind it. -/
theorem after_append (h : l ∉ labels code) : after l (code ++ code') = after l code' := by
  induction code with
  | nil => rfl
  | cons i code ih =>
    cases i with
    | label l' =>
      rw [labels, List.mem_cons, not_or] at h
      rw [List.cons_append, after, if_neg (Ne.symm h.1)]
      exact ih h.2
    | jump l' => exact ih h
    | branch c l' => exact ih h

theorem after_label : after l (.label l :: code) = some code := by
  rw [after, if_pos rfl]

/-- A label that the program does not contain leaves it. -/
theorem after_eq_none (h : l ∉ labels code) : after l code = none := by
  rw [← List.append_nil code, after_append h]
  rfl

end Labels

end GccCore.Lib.LabelledCode
