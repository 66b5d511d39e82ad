import Mathlib.Data.List.DropRight
import Mathlib.Data.List.Lex
import Mathlib.Data.Nat.Find

/-!
# `libiberty/strverscmp.c`: comparing version strings

The strings are compared up to the first difference. What is returned there depends on the state, that
is on the digits before the difference, and on the classes of the two characters.

* **Signs** (`compareFrom_swap`, `compareFrom_eq_zero`): exchanging the strings negates the result, and
  it is zero for equal strings only.
* **The order** (`compareFrom_neg_iff`): a string is turned into a list of numbers (`key`) whose
  lexicographic order is the order of the strings, as long as no difference is `Flipped`.
* **The defect** (`strverscmp_totalOrderOn_iff`): in two fractional runs with a common prefix that is not all zeros,
  two digits other than `0` are compared by the lengths of the rests of the runs first. The result has
  the documented sign, and three strings are ordered, if and only if this changes no sign.
-/

namespace GccCore.Iberty.Strverscmp

/-! ## The functions -/

/-- `ISDIGIT`. Source: `safe-ctype.h`. -/
def isDigit (c : UInt8) : Bool := decide (48 ≤ c.toNat ∧ c.toNat ≤ 57)

/-- The symbols that index the tables. Source: `strverscmp.c` (`Symbol(s)`). -/
inductive Symbol
  | x
  | d
  | zero
  deriving DecidableEq

/-- `(c == '0') + (ISDIGIT (c) != 0)`. Source: `strverscmp.c` `strverscmp`. -/
def symbol (c : UInt8) : Symbol :=
  match (decide (c.toNat = 48)).toNat + (isDigit c).toNat with
  | 0 => .x
  | 1 => .d
  | _ => .zero

/-- `S_N`, `S_I`, `S_F` and `S_Z`. Source: `strverscmp.c`. -/
inductive State
  | n
  | i
  | f
  | z
  deriving DecidableEq

/-- The table without its padding. Source: `strverscmp.c` (`next_state`). -/
def nextState : State → Symbol → State
  | .n, .x => .n | .n, .d => .i | .n, .zero => .z
  | .i, .x => .n | .i, .d => .i | .i, .zero => .i
  | .f, .x => .n | .f, .d => .f | .f, .zero => .f
  | .z, .x => .n | .z, .d => .f | .z, .zero => .z

/-- `CMP`, `LEN` or a value. Source: `strverscmp.c`. -/
inductive ResultType
  | cmp
  | len
  | value (v : ℤ)
  deriving DecidableEq

/-- The table without its padding. Source: `strverscmp.c` (`result_type`). -/
def resultType : State → Symbol → Symbol → ResultType
  | .n, .x, .x => .cmp | .n, .x, .d => .cmp | .n, .x, .zero => .cmp
  | .n, .d, .x => .cmp | .n, .d, .d => .len | .n, .d, .zero => .cmp
  | .n, .zero, .x => .cmp | .n, .zero, .d => .cmp | .n, .zero, .zero => .cmp
  | .i, .x, .x => .cmp | .i, .x, .d => .value (-1) | .i, .x, .zero => .value (-1)
  | .i, .d, .x => .value 1 | .i, .d, .d => .len | .i, .d, .zero => .len
  | .i, .zero, .x => .value 1 | .i, .zero, .d => .len | .i, .zero, .zero => .len
  | .f, .x, .x => .cmp | .f, .x, .d => .cmp | .f, .x, .zero => .cmp
  | .f, .d, .x => .cmp | .f, .d, .d => .len | .f, .d, .zero => .cmp
  | .f, .zero, .x => .cmp | .f, .zero, .d => .cmp | .f, .zero, .zero => .cmp
  | .z, .x, .x => .cmp | .z, .x, .d => .value 1 | .z, .x, .zero => .value 1
  | .z, .d, .x => .value (-1) | .z, .d, .d => .cmp | .z, .d, .zero => .cmp
  | .z, .zero, .x => .value (-1) | .z, .zero, .d => .cmp | .z, .zero, .zero => .cmp

/-- The character that a pointer into a string points to: the rest of the string ends with a NUL.
Source: `strverscmp.c` (`*p1`) -/
def head (p : List UInt8) : UInt8 := p.headD 0

/-- Which of two runs of digits is longer. Source: `strverscmp.c` `strverscmp` (`case LEN`). -/
def compareLen (diff : ℤ) : List UInt8 → List UInt8 → ℤ
  | [], p2 => if isDigit (head p2) then -1 else diff
  | c1 :: p1, p2 =>
    if isDigit c1 then
      if isDigit (head p2) then compareLen diff p1 p2.tail else 1
    else if isDigit (head p2) then -1 else diff

/-- What is returned for the strings from the first difference on, or at their ends.
Source: `strverscmp.c` `strverscmp` (`switch (state)`) -/
def outcome (state : State) (p1 p2 : List UInt8) : ℤ :=
  let diff : ℤ := (head p1).toNat - (head p2).toNat
  match resultType state (symbol (head p1)) (symbol (head p2)) with
  | .cmp => diff
  | .len => compareLen diff p1.tail p2.tail
  | .value v => v

/-- The loop over the common prefix. Source: `strverscmp.c` `strverscmp` (`while`). -/
def compareFrom : State → List UInt8 → List UInt8 → ℤ
  | state, [], p2 => outcome state [] p2
  | state, c1 :: p1, p2 =>
    if c1 = head p2 ∧ c1 ≠ 0 then compareFrom (nextState state (symbol c1)) p1 p2.tail
    else outcome state (c1 :: p1) p2

/-- A pointer to a NUL-terminated string. Source: `strverscmp.c` (`s1`, `s2`). -/
abbrev CString (mem : ℕ → UInt8) := {p : ℕ // ∃ n, mem (p + n) = 0}

/-- The characters before the first NUL. Source: `strverscmp.c` (`s1`, `s2`). -/
def CString.bytes {mem : ℕ → UInt8} (s : CString mem) : List UInt8 :=
  (List.range (Nat.find s.2)).map fun k => mem (s.1 + k)

/-- Source: `strverscmp.c` `strverscmp`. -/
def strverscmp {mem : ℕ → UInt8} (s1 s2 : CString mem) : ℤ :=
  if s1 = s2 then 0 else compareFrom .n s1.bytes s2.bytes

/-- No character of a string is NUL. -/
theorem CString.zero_notMem {mem : ℕ → UInt8} (s : CString mem) : 0 ∉ s.bytes := by
  intro hmem
  obtain ⟨k, hk, hzero⟩ := List.mem_map.mp hmem
  exact Nat.find_min s.2 (List.mem_range.mp hk) hzero

/-! ## Symbols and runs -/

section Symbols

variable {c : UInt8}

theorem isDigit_iff : isDigit c = true ↔ 48 ≤ c.toNat ∧ c.toNat ≤ 57 := decide_eq_true_iff

theorem symbol_cases (c : UInt8) :
    (symbol c = .x ∧ (c.toNat < 48 ∨ 57 < c.toNat)) ∨ (symbol c = .d ∧ 49 ≤ c.toNat ∧ c.toNat ≤ 57) ∨
      (symbol c = .zero ∧ c.toNat = 48) := by
  by_cases hz : c.toNat = 48
  · refine .inr (.inr ⟨?_, hz⟩)
    simp [symbol, isDigit, hz]
  · by_cases hd : 48 ≤ c.toNat ∧ c.toNat ≤ 57
    · refine .inr (.inl ⟨?_, by omega, hd.2⟩)
      simp [symbol, isDigit, hz, hd]
    · refine .inl ⟨?_, by omega⟩
      simp [symbol, isDigit, hz, hd]

theorem symbol_eq_x : symbol c = .x ↔ isDigit c = false := by
  rw [← Bool.not_eq_true, isDigit_iff]
  rcases symbol_cases c with ⟨h, hc⟩ | ⟨h, hc⟩ | ⟨h, hc⟩
  · simp only [h, true_iff]
    omega
  · simp only [h, reduceCtorEq, false_iff, not_not]
    omega
  · simp only [h, reduceCtorEq, false_iff, not_not]
    omega

/-- The length of the run of digits that a string begins with. -/
def run (p : List UInt8) : ℕ := (p.takeWhile isDigit).length

theorem run_cons (c : UInt8) (p : List UInt8) : run (c :: p) = if isDigit c then run p + 1 else 0 := by
  rw [run, List.takeWhile_cons]
  split_ifs <;> rfl

theorem isDigit_head_iff (p : List UInt8) : isDigit (head p) = true ↔ 0 < run p := by
  cases p with
  | nil => simp [head, run, isDigit]
  | cons c p =>
    rw [run_cons]
    change isDigit c = true ↔ _
    split_ifs with h <;> simp [h]

/-- **The race over the digits**: the longer run is greater, and runs of one length leave the
difference of the characters.
Source: `strverscmp.c` `strverscmp` (`case LEN`)
Kind: L -/
theorem compareLen_eq (diff : ℤ) (p1 p2 : List UInt8) :
    compareLen diff p1 p2 =
      if run p1 < run p2 then -1 else if run p2 < run p1 then 1 else diff := by
  induction p1 generalizing p2 with
  | nil =>
    rw [compareLen]
    simp only [isDigit_head_iff, show run [] = 0 from rfl, Nat.not_lt_zero, if_false]
  | cons c1 p1 ih =>
    have htail : run p2 = if 0 < run p2 then run p2.tail + 1 else 0 := by
      cases p2 with
      | nil => rfl
      | cons c2 p2 =>
        rw [run_cons]
        split_ifs with h1 h2 h2
        · rfl
        · exact absurd (Nat.succ_pos _) h2
        · exact absurd h2 (lt_irrefl 0)
        · rfl
    rw [compareLen, run_cons]
    simp only [isDigit_head_iff]
    by_cases h1 : isDigit c1 = true
    · rw [if_pos h1, if_pos h1]
      by_cases h2 : 0 < run p2
      · rw [if_pos h2] at htail ⊢
        rw [ih, htail]
        simp only [Nat.add_lt_add_iff_right]
      · rw [if_neg h2, if_neg (by omega), if_pos (by omega)]
    · rw [if_neg h1, if_neg h1]
      simp only [Nat.not_lt_zero, if_false]

theorem compareLen_neg_iff (diff : ℤ) (p1 p2 : List UInt8) :
    compareLen diff p1 p2 < 0 ↔ run p1 < run p2 ∨ (run p1 = run p2 ∧ diff < 0) := by
  rw [compareLen_eq]
  split_ifs <;> omega

end Symbols

/-! ## Signs -/

section Signs

variable {state : State} {p1 p2 : List UInt8}

/-- The loop, by the first characters of both strings. -/
theorem compareFrom_eq (state : State) (p1 p2 : List UInt8) :
    compareFrom state p1 p2 =
      if head p1 = head p2 ∧ head p1 ≠ 0 then
        compareFrom (nextState state (symbol (head p1))) p1.tail p2.tail
      else outcome state p1 p2 := by
  cases p1 with
  | nil => rw [compareFrom, if_neg fun h => h.2 rfl]
  | cons c1 p1 => rw [compareFrom]; rfl

/-- Where the first characters differ, nothing else is read before the result is known.
Source: `strverscmp.c` `strverscmp`
Kind: L -/
theorem compareFrom_of_ne (h : head p1 ≠ head p2) :
    compareFrom state p1 p2 = outcome state p1 p2 := by
  rw [compareFrom_eq, if_neg fun h' => h h'.1]

theorem resultType_swap (state : State) (a b : Symbol) :
    resultType state b a =
      match resultType state a b with
      | .cmp => .cmp
      | .len => .len
      | .value v => .value (-v) := by
  cases state <;> cases a <;> cases b <;> rfl

/-- Exchanging the strings negates the result. Source: `strverscmp.c` (`result_type`). Kind: L -/
theorem outcome_swap (state : State) (p1 p2 : List UInt8) :
    outcome state p2 p1 = -outcome state p1 p2 := by
  unfold outcome
  rw [resultType_swap state (symbol (head p1)) (symbol (head p2))]
  cases resultType state (symbol (head p1)) (symbol (head p2)) with
  | cmp =>
    dsimp only
    omega
  | len =>
    simp only [compareLen_eq]
    split_ifs <;> omega
  | value v => rfl

/-- **Exchanging the strings** negates the result. Source: `strverscmp.c` `strverscmp`. Kind: L -/
theorem compareFrom_swap (state : State) (p1 p2 : List UInt8) :
    compareFrom state p2 p1 = -compareFrom state p1 p2 := by
  induction p1 generalizing state p2 with
  | nil =>
    rw [compareFrom_eq state p2, compareFrom_eq state [],
      if_neg fun h => h.2 (h.1.trans (show head [] = 0 from rfl)), if_neg fun h => h.2 rfl,
      outcome_swap]
  | cons c1 p1 ih =>
    rw [compareFrom_eq state p2, compareFrom_eq state (c1 :: p1)]
    by_cases h : head (c1 :: p1) = head p2 ∧ head (c1 :: p1) ≠ 0
    · rw [if_pos h, if_pos ⟨h.1.symm, h.1 ▸ h.2⟩, ← h.1]
      exact ih _ _
    · have h' : ¬(head p2 = head (c1 :: p1) ∧ head p2 ≠ 0) := by
        rintro ⟨heq, hzero⟩
        exact h ⟨heq.symm, heq ▸ hzero⟩
      rw [if_neg h, if_neg h', outcome_swap]

theorem resultType_ne_zero (state : State) (a b : Symbol) :
    resultType state a b ≠ .value 0 := by
  cases state <;> cases a <;> cases b <;> decide

/-- A difference is never reported as zero. Source: `strverscmp.c` (`result_type`). Kind: L -/
theorem outcome_ne_zero (h : head p1 ≠ head p2) : outcome state p1 p2 ≠ 0 := by
  have hdiff : ((head p1).toNat : ℤ) - (head p2).toNat ≠ 0 := by
    have hne : (head p1).toNat ≠ (head p2).toNat := fun heq => h (UInt8.toNat_inj.mp heq)
    omega
  unfold outcome
  cases hrt : resultType state (symbol (head p1)) (symbol (head p2)) with
  | cmp => exact hdiff
  | len =>
    simp only [compareLen_eq]
    split_ifs
    · decide
    · decide
    · exact hdiff
  | value v =>
    rintro rfl
    exact resultType_ne_zero _ _ _ hrt

theorem head_eq_zero (h : 0 ∉ p1) : head p1 = 0 ↔ p1 = [] := by
  cases p1 with
  | nil => exact ⟨fun _ => rfl, fun _ => rfl⟩
  | cons c p1 =>
    refine ⟨fun hc => ?_, fun hc => absurd hc (List.cons_ne_nil c p1)⟩
    exact absurd (List.mem_cons.mpr (.inl (Eq.symm hc))) h

/-- **Zero** is returned for equal strings only. Source: `strverscmp.c` `strverscmp`. Kind: L -/
theorem compareFrom_eq_zero (h1 : 0 ∉ p1) (h2 : 0 ∉ p2) :
    compareFrom state p1 p2 = 0 ↔ p1 = p2 := by
  induction p1 generalizing state p2 with
  | nil =>
    rw [compareFrom]
    by_cases hp : p2 = []
    · subst hp
      refine ⟨fun _ => rfl, fun _ => ?_⟩
      cases state <;> rfl
    · have hne : head [] ≠ head p2 := fun heq => hp ((head_eq_zero h2).mp heq.symm)
      exact ⟨fun hzero => absurd hzero (outcome_ne_zero hne), fun heq => absurd heq.symm hp⟩
  | cons c1 p1 ih =>
    have hc1 : c1 ≠ 0 := fun hc => h1 (hc ▸ List.mem_cons_self ..)
    rw [compareFrom]
    by_cases hc : c1 = head p2
    · cases p2 with
      | nil => exact absurd hc hc1
      | cons c2 p2 =>
        obtain rfl : c1 = c2 := hc
        rw [if_pos ⟨rfl, hc1⟩, List.tail_cons,
          ih (fun h => h1 (List.mem_cons_of_mem _ h)) fun h => h2 (List.mem_cons_of_mem _ h),
          List.cons_inj_right]
    · have hne : head (c1 :: p1) ≠ head p2 := hc
      rw [if_neg fun h => hc h.1]
      refine ⟨fun hzero => absurd hzero (outcome_ne_zero hne), ?_⟩
      rintro rfl
      exact absurd rfl hc

end Signs

/-! ## The order -/

section Order

variable {state : State} {p1 p2 u : List UInt8} {c : UInt8}

/-- The state after a common prefix. Source: `strverscmp.c` `strverscmp` (`while`). -/
def after (state : State) (u : List UInt8) : State :=
  u.foldl (fun state c => nextState state (symbol c)) state

/-- The number that stands for a character: in a run of zeros the end of the run comes after all
digits.
Source: `strverscmp.c` (`S_Z`) -/
def token (state : State) (c : UInt8) : ℕ :=
  if state = .z ∧ symbol c = .x then 256 + c.toNat else c.toNat

/-- **The numbers that stand for a string.** An integral run begins with a number between that of `0`
and those of the other characters, and with its length. -/
def key : State → List UInt8 → List ℕ
  | state, [] => [token state 0]
  | state, c :: p =>
    (if state = .n ∧ symbol c = .d then [49, run (c :: p)] else []) ++
      token state c :: key (nextState state (symbol c)) p

/-- The key of the rest of a string: inside an integral run its length is still to be compared. -/
def rank (state : State) (p : List UInt8) : List ℕ :=
  if state = .i then run p :: key .i p else key state p

/-- The first difference is in two fractional runs after a prefix that is not all zeros, of two digits
other than `0`, and the run with the greater digit is the shorter one.
Source: `strverscmp.c` (`S_F`, `d/d`) -/
def FlippedFrom (state : State) (p1 p2 : List UInt8) : Prop :=
  ∃ u x y r s, p1 = u ++ x :: r ∧ p2 = u ++ y :: s ∧ after state u = .f ∧ symbol x = .d ∧
    symbol y = .d ∧
    ((x.toNat < y.toNat ∧ run s < run r) ∨ (y.toNat < x.toNat ∧ run r < run s))

theorem key_eq (state : State) (p : List UInt8) : ∃ rest, key state p =
    (if state = .n ∧ symbol (head p) = .d then [49, run p] else []) ++
      token state (head p) :: rest := by
  cases p with
  | nil =>
    refine ⟨[], ?_⟩
    rw [if_neg fun h => absurd h.2 (by decide)]
    rfl
  | cons c p => exact ⟨_, rfl⟩

theorem run_eq (p : List UInt8) : run p = if symbol (head p) = .x then 0 else run p.tail + 1 := by
  cases p with
  | nil => rfl
  | cons c p =>
    rw [run_cons]
    change _ = if symbol c = .x then 0 else run p + 1
    simp only [symbol_eq_x]
    cases isDigit c <;> rfl

/-- **One common character.** -/
theorem rank_cons_lt (state : State) (c : UInt8) (p1 p2 : List UInt8) :
    rank state (c :: p1) < rank state (c :: p2) ↔
      rank (nextState state (symbol c)) p1 < rank (nextState state (symbol c)) p2 := by
  have h1 := run_cons c p1
  have h2 := run_cons c p2
  rcases symbol_cases c with ⟨hs, hc⟩ | ⟨hs, hc⟩ | ⟨hs, hc⟩
  · have hd : isDigit c = false := symbol_eq_x.mp hs
    cases state <;> simp [rank, key, hs, nextState, h1, h2, hd]
  · have hd : isDigit c = true := isDigit_iff.mpr (by omega)
    cases state <;> simp [rank, key, hs, nextState, List.cons_lt_cons_iff, h1, h2, hd]
  · have hd : isDigit c = true := isDigit_iff.mpr (by omega)
    cases state <;> simp [rank, key, hs, nextState, List.cons_lt_cons_iff, h1, h2, hd]

/-- **The first difference.** Source: `strverscmp.c` `strverscmp` (`switch (state)`). Kind: L -/
theorem outcome_neg_iff (hne : head p1 ≠ head p2)
    (hf : state = .f → symbol (head p1) = .d → symbol (head p2) = .d →
      ¬(((head p1).toNat < (head p2).toNat ∧ run p2.tail < run p1.tail) ∨
        ((head p2).toNat < (head p1).toNat ∧ run p1.tail < run p2.tail))) :
    outcome state p1 p2 < 0 ↔ rank state p1 < rank state p2 := by
  have hdiff : (head p1).toNat ≠ (head p2).toNat := fun heq => hne (UInt8.toNat_inj.mp heq)
  obtain ⟨rest1, hkey1⟩ := key_eq state p1
  obtain ⟨rest2, hkey2⟩ := key_eq state p2
  have hrun1 := run_eq p1
  have hrun2 := run_eq p2
  -- The lists of numbers are compared up to the token of the first difference, which decides.
  rcases symbol_cases (head p1) with ⟨hs1, hc1⟩ | ⟨hs1, hc1⟩ | ⟨hs1, hc1⟩ <;>
  rcases symbol_cases (head p2) with ⟨hs2, hc2⟩ | ⟨hs2, hc2⟩ | ⟨hs2, hc2⟩ <;>
  cases state <;>
  simp only [outcome, rank, hkey1, hkey2, hs1, hs2, resultType, compareLen_neg_iff, token,
    reduceCtorEq, and_self, and_true, and_false, true_and, if_true, if_false, List.nil_append,
    List.cons_append, List.cons_lt_cons_iff, forall_const] at hrun1 hrun2 hf ⊢ <;>
  omega

/-- **The order.** Where no difference is flipped, the strings are ordered as their ranks.
Source: `strverscmp.c` `strverscmp`
Kind: L -/
theorem compareFrom_neg_iff (h1 : 0 ∉ p1) (h2 : 0 ∉ p2) (hf : ¬FlippedFrom state p1 p2) :
    compareFrom state p1 p2 < 0 ↔ rank state p1 < rank state p2 := by
  induction p1 generalizing state p2 with
  | nil =>
    rw [compareFrom]
    by_cases hp : p2 = []
    · subst hp
      refine iff_of_false ?_ (lt_irrefl _)
      cases state <;> decide
    · have hne : head [] ≠ head p2 := fun heq => hp ((head_eq_zero h2).mp heq.symm)
      exact outcome_neg_iff hne fun _ hd => absurd hd (by decide)
  | cons c1 p1 ih =>
    rw [compareFrom]
    have hc1 : c1 ≠ 0 := fun hc => h1 (hc ▸ List.mem_cons_self ..)
    by_cases hc : c1 = head p2
    · cases p2 with
      | nil => exact absurd hc hc1
      | cons c2 p2 =>
        obtain rfl : c1 = c2 := hc
        rw [if_pos ⟨rfl, hc1⟩, List.tail_cons, rank_cons_lt]
        refine ih (fun h => h1 (List.mem_cons_of_mem _ h)) (fun h => h2 (List.mem_cons_of_mem _ h)) ?_
        rintro ⟨u, x, y, r, s, rfl, rfl, hu⟩
        exact hf ⟨c1 :: u, x, y, r, s, rfl, rfl, hu⟩
    · rw [if_neg fun h => hc h.1]
      refine outcome_neg_iff hc ?_
      rintro rfl hd1 hd2 hflip
      cases p2 with
      | nil => exact absurd hd2 (by decide)
      | cons c2 p2 => exact hf ⟨[], c1, c2, p1, p2, rfl, rfl, rfl, hd1, hd2, hflip⟩

end Order

/-! ## The states as properties of the prefix -/

section Prefix

/-- The digits that a prefix ends with. -/
def digits (u : List UInt8) : List UInt8 := u.rtakeWhile isDigit

/-- The digits at the end are a fractional part, that is they begin with `0`, and one of them is not `0`.
Source: `strverscmp.c` (`S_F`) -/
def Fractional (u : List UInt8) : Prop := head (digits u) = 48 ∧ ∃ c ∈ digits u, c ≠ 48

/-- The state that a run of digits leads to. Source: `strverscmp.c` (`states`). -/
def stateOf (w : List UInt8) : State :=
  if w = [] then .n
  else if head w ≠ 48 then .i
  else if w.all (· == 48) then .z
  else .f

theorem symbol_of_isDigit {c : UInt8} (hc : isDigit c = true) :
    symbol c = if c = 48 then .zero else .d := by
  by_cases h : c = 48
  · subst h
    rfl
  · have hne : c.toNat ≠ 48 := fun heq => h (UInt8.toNat_inj.mp heq)
    rw [if_neg h]
    simp [symbol, hne, hc]

/-- One more digit. Source: `strverscmp.c` (`next_state`). Kind: L -/
theorem stateOf_concat (w : List UInt8) {c : UInt8} (hc : isDigit c = true) :
    stateOf (w ++ [c]) = nextState (stateOf w) (symbol c) := by
  rw [symbol_of_isDigit hc]
  cases w with
  | nil => by_cases h : c = 48 <;> simp [stateOf, head, h, nextState]
  | cons b w =>
    by_cases hb : b = 48
    · -- A fractional run: whether all digits are `0` is what the new digit can change.
      by_cases h : c = 48 <;> cases hall : w.all (· == 48) <;>
        simp [stateOf, head, hb, h, hall, nextState, -List.all_eq_true, -List.all_eq_false]
    · by_cases h : c = 48 <;> simp [stateOf, head, hb, h, nextState]

/-- **The state** depends on the digits at the end of the prefix only. Source: `strverscmp.c` (`states`).
Kind: L -/
theorem after_eq (u : List UInt8) : after .n u = stateOf (digits u) := by
  induction u using List.reverseRecOn with
  | nil => rfl
  | append_singleton u c ih =>
    have hstep : after .n (u ++ [c]) = nextState (after .n u) (symbol c) := List.foldl_concat ..
    rw [hstep, ih]
    by_cases hc : isDigit c = true
    · have hdigits : digits (u ++ [c]) = digits u ++ [c] := List.rtakeWhile_concat_pos _ _ _ hc
      rw [hdigits, stateOf_concat _ hc]
    · have hdigits : digits (u ++ [c]) = [] := List.rtakeWhile_concat_neg _ _ _ hc
      rw [hdigits, symbol_eq_x.mpr (Bool.not_eq_true _ ▸ hc)]
      cases stateOf (digits u) <;> rfl

theorem after_eq_f_iff (u : List UInt8) : after .n u = .f ↔ Fractional u := by
  rw [after_eq, stateOf, Fractional]
  by_cases hnil : digits u = []
  · rw [if_pos hnil, hnil]
    exact ⟨nofun, fun h => absurd h.1 (by decide)⟩
  rw [if_neg hnil]
  by_cases hhead : head (digits u) = 48
  · rw [if_neg (not_not.mpr hhead)]
    by_cases hall : (digits u).all (· == 48) = true
    · rw [if_pos hall]
      refine ⟨nofun, ?_⟩
      rintro ⟨-, c, hc, hne⟩
      exact absurd (beq_iff_eq.mp (List.all_eq_true.mp hall c hc)) hne
    · rw [if_neg hall]
      obtain ⟨c, hc, hne⟩ := List.all_eq_false.mp (Bool.not_eq_true _ ▸ hall)
      exact ⟨fun _ => ⟨hhead, c, hc, fun heq => hne (beq_iff_eq.mpr heq)⟩, fun _ => rfl⟩
  · rw [if_pos hhead]
    exact ⟨nofun, fun h => absurd h.1 hhead⟩

end Prefix

/-! ## The comparison of strings -/

section Strings

variable {mem : ℕ → UInt8}

/-- The first difference of two strings is in fractional runs with a common prefix that is not all zeros,
of two digits other than `0`, and the run with the greater digit is the shorter one.
Source: `strverscmp.c` (`S_F`, `d/d`) -/
def Flipped (a b : List UInt8) : Prop :=
  ∃ u x y r s, a = u ++ x :: r ∧ b = u ++ y :: s ∧ Fractional u ∧ (isDigit x = true ∧ x ≠ 48) ∧
    (isDigit y = true ∧ y ≠ 48) ∧
    ((x.toNat < y.toNat ∧ run s < run r) ∨ (y.toNat < x.toNat ∧ run r < run s))

/-- Two digits in fractional runs with a common prefix that is not all zeros are compared as characters.
Source: `strverscmp.c` (lines 51–53) -/
def Documented (a b : CString mem) : Prop :=
  ∀ u x y r s, a.bytes = u ++ x :: r → b.bytes = u ++ y :: s → Fractional u → isDigit x = true →
    isDigit y = true → x ≠ y → (strverscmp a b).sign = ((x.toNat : ℤ) - y.toNat).sign

/-- **What is promised** for the strings of a set. Source: `strverscmp.c` (lines 32–65). -/
structure TotalOrderOn (S : Set (CString mem)) : Prop where
  zero_iff : ∀ a ∈ S, ∀ b ∈ S, (strverscmp a b = 0 ↔ a.bytes = b.bytes)
  neg_iff : ∀ a ∈ S, ∀ b ∈ S, (strverscmp a b < 0 ↔ 0 < strverscmp b a)
  trans : ∀ a ∈ S, ∀ b ∈ S, ∀ c ∈ S, strverscmp a b < 0 → strverscmp b c < 0 → strverscmp a c < 0
  documented : ∀ a ∈ S, ∀ b ∈ S, Documented a b

theorem symbol_eq_d {c : UInt8} : symbol c = .d ↔ isDigit c = true ∧ c ≠ 48 := by
  constructor
  · intro h
    have hd : isDigit c = true := by
      cases hd : isDigit c with
      | false => exact absurd (h.symm.trans (symbol_eq_x.mpr hd)) nofun
      | true => rfl
    refine ⟨hd, ?_⟩
    rintro rfl
    exact absurd h (by decide)
  · rintro ⟨hd, hne⟩
    rw [symbol_of_isDigit hd, if_neg hne]

theorem flippedFrom_iff (a b : List UInt8) : FlippedFrom .n a b ↔ Flipped a b := by
  simp only [FlippedFrom, Flipped, after_eq_f_iff, symbol_eq_d]

/-- The test for one pointer changes no result. Source: `strverscmp.c` `strverscmp`. Kind: L -/
theorem strverscmp_eq (a b : CString mem) : strverscmp a b = compareFrom .n a.bytes b.bytes := by
  rw [strverscmp]
  split_ifs with h
  · rw [h]
    exact ((compareFrom_eq_zero b.zero_notMem b.zero_notMem).mpr rfl).symm
  · rfl

theorem compareFrom_append (state : State) {u : List UInt8} (hu : 0 ∉ u) (p1 p2 : List UInt8) :
    compareFrom state (u ++ p1) (u ++ p2) = compareFrom (after state u) p1 p2 := by
  induction u generalizing state with
  | nil => rfl
  | cons c u ih =>
    have hc : c ≠ 0 := fun h => hu (h ▸ List.mem_cons_self ..)
    rw [List.cons_append, compareFrom, List.cons_append, if_pos ⟨rfl, hc⟩, List.tail_cons,
      ih _ fun h => hu (List.mem_cons_of_mem _ h)]
    rfl

/-- **Two digits in fractional runs**, as they are compared. Source: `strverscmp.c` (`S_F`). Kind: L -/
theorem sign_compareFrom {u r s : List UInt8} {x y : UInt8} (hu : 0 ∉ u) (hf : Fractional u)
    (hx : isDigit x = true) (hy : isDigit y = true) (hne : x ≠ y) :
    (compareFrom .n (u ++ x :: r) (u ++ y :: s)).sign = ((x.toNat : ℤ) - y.toNat).sign ↔
      (x ≠ 48 → y ≠ 48 →
        ¬((x.toNat < y.toNat ∧ run s < run r) ∨ (y.toNat < x.toNat ∧ run r < run s))) := by
  have hdiff : x.toNat ≠ y.toNat := fun heq => hne (UInt8.toNat_inj.mp heq)
  rw [compareFrom_append _ hu, (after_eq_f_iff u).mpr hf,
    compareFrom_of_ne (show head (x :: r) ≠ head (y :: s) from hne)]
  change (match resultType .f (symbol x) (symbol y) with
    | .cmp => (x.toNat : ℤ) - y.toNat
    | .len => compareLen ((x.toNat : ℤ) - y.toNat) r s
    | .value v => v).sign = _ ↔ _
  rw [symbol_of_isDigit hx, symbol_of_isDigit hy]
  by_cases hx0 : x = 48
  · rw [if_pos hx0]
    refine iff_of_true ?_ fun h => absurd hx0 h
    split_ifs <;> rfl
  by_cases hy0 : y = 48
  · rw [if_neg hx0, if_pos hy0]
    exact iff_of_true rfl fun _ h => absurd hy0 h
  rw [if_neg hx0, if_neg hy0]
  change (compareLen ((x.toNat : ℤ) - y.toNat) r s).sign = _ ↔ _
  rw [compareLen_eq]
  simp only [ne_eq, hx0, hy0, not_false_eq_true, forall_const]
  rcases lt_or_gt_of_ne hdiff with hlt | hlt
  · rw [Int.sign_eq_neg_one_of_neg (show (x.toNat : ℤ) - y.toNat < 0 by omega)]
    rw [Int.sign_eq_neg_one_iff_neg]
    split_ifs <;> omega
  · rw [Int.sign_eq_one_of_pos (show 0 < (x.toNat : ℤ) - y.toNat by omega)]
    rw [Int.sign_eq_one_iff_pos]
    split_ifs <;> omega

theorem documented_iff (a b : CString mem) : Documented a b ↔ ¬Flipped a.bytes b.bytes := by
  have hstem : ∀ u x r, a.bytes = u ++ x :: r → 0 ∉ u :=
    fun u x r ha h => a.zero_notMem (ha ▸ List.mem_append_left _ h)
  unfold Documented
  rw [strverscmp_eq]
  constructor
  · rintro hdoc ⟨u, x, y, r, s, ha, hb, hu, hx, hy, hflip⟩
    have hne : x ≠ y := by
      rintro rfl
      omega
    have hsign := hdoc u x y r s ha hb hu hx.1 hy.1 hne
    rw [ha, hb, sign_compareFrom (hstem u x r ha) hu hx.1 hy.1 hne] at hsign
    exact hsign hx.2 hy.2 hflip
  · intro hflip u x y r s ha hb hu hx hy hne
    rw [ha, hb, sign_compareFrom (hstem u x r ha) hu hx hy hne]
    exact fun hx0 hy0 h => hflip ⟨u, x, y, r, s, ha, hb, hu, ⟨hx, hx0⟩, ⟨hy, hy0⟩, h⟩

/-- **The order that is promised**: on the strings of a set the comparison is the documented total order
if and only if no two of them are flipped.
Source: `strverscmp.c` `strverscmp`
Kind: P -/
theorem strverscmp_totalOrderOn_iff (S : Set (CString mem)) :
    TotalOrderOn S ↔ ∀ a ∈ S, ∀ b ∈ S, ¬Flipped a.bytes b.bytes := by
  constructor
  · exact fun h a ha b hb => (documented_iff a b).mp (h.documented a ha b hb)
  · intro hflip
    have hneg : ∀ a ∈ S, ∀ b ∈ S,
        (strverscmp a b < 0 ↔ rank .n a.bytes < rank .n b.bytes) := by
      intro a ha b hb
      rw [strverscmp_eq]
      refine compareFrom_neg_iff a.zero_notMem b.zero_notMem ?_
      rw [flippedFrom_iff]
      exact hflip a ha b hb
    refine ⟨fun a _ b _ => ?_, fun a _ b _ => ?_, fun a ha b hb c hc hab hbc => ?_,
      fun a ha b hb => (documented_iff a b).mpr (hflip a ha b hb)⟩
    · rw [strverscmp_eq]
      exact compareFrom_eq_zero a.zero_notMem b.zero_notMem
    · rw [strverscmp_eq, strverscmp_eq, compareFrom_swap .n a.bytes b.bytes]
      omega
    · exact (hneg a ha c hc).mpr (lt_trans ((hneg a ha b hb).mp hab) ((hneg b hb c hc).mp hbc))

end Strings

/-! ## Strings that are not ordered -/

section NotOrdered

/-- The characters from a pointer to the first NUL. -/
theorem CString.bytes_eq {mem : ℕ → UInt8} (s : CString mem) {l : List UInt8} (hl : 0 ∉ l)
    (hmem : ∀ (k : ℕ) (hk : k < l.length), mem (s.1 + k) = l[k]) (hend : mem (s.1 + l.length) = 0) :
    s.bytes = l := by
  have hfind : Nat.find s.2 = l.length := by
    rw [Nat.find_eq_iff]
    refine ⟨hend, fun k hk hzero => ?_⟩
    rw [hmem k hk] at hzero
    exact hl (hzero ▸ List.getElem_mem hk)
  rw [CString.bytes, hfind]
  refine List.ext_getElem (by simp) fun k h1 h2 => ?_
  rw [List.getElem_map, List.getElem_range, hmem k h2]

/-- `012`, `0110` and `011a`, each with its NUL. Source: none: example. -/
def versionBytes : List UInt8 :=
  [48, 49, 50, 0, 48, 49, 49, 48, 0, 48, 49, 49, 97, 0]

/-- The memory that holds them. Source: none: example. -/
def versionMem (p : ℕ) : UInt8 := versionBytes.getD p 0

def version012 : CString versionMem := ⟨0, 3, rfl⟩

def version0110 : CString versionMem := ⟨4, 4, rfl⟩

def version011a : CString versionMem := ⟨9, 4, rfl⟩

theorem version012_bytes : version012.bytes = [48, 49, 50] :=
  CString.bytes_eq version012 (by decide) (by decide) rfl

theorem version0110_bytes : version0110.bytes = [48, 49, 49, 48] :=
  CString.bytes_eq version0110 (by decide) (by decide) rfl

theorem version011a_bytes : version011a.bytes = [48, 49, 49, 97] :=
  CString.bytes_eq version011a (by decide) (by decide) rfl

/-- **The defect**: `012` precedes `0110`, against the order of the digits `2` and `1`, and `0110` precedes
`011a`, but `012` follows `011a`.
Source: `strverscmp.c` (`S_F`, `d/d`)
Kind: C -/
theorem strverscmp_not_trans :
    (strverscmp version012 version0110 < 0 ∧ strverscmp version0110 version011a < 0 ∧
      0 < strverscmp version012 version011a) ∧ ¬Documented version012 version0110 := by
  refine ⟨⟨?_, ?_, ?_⟩, ?_⟩
  · rw [strverscmp_eq, version012_bytes, version0110_bytes]
    decide
  · rw [strverscmp_eq, version0110_bytes, version011a_bytes]
    decide
  · rw [strverscmp_eq, version012_bytes, version011a_bytes]
    decide
  · rw [documented_iff, not_not, version012_bytes, version0110_bytes]
    exact ⟨[48, 49], 50, 49, [], [48], rfl, rfl, ⟨rfl, 49, by decide, by decide⟩, by decide, by decide,
      by decide⟩

end NotOrdered

end GccCore.Iberty.Strverscmp
