import Mathlib.Data.List.Basic
import Mathlib.Data.List.Nodup

/-!
# Waiting items in an allocated array

An array of cells that were allocated once holds items that wait. It is used as a circle, with an index where items go in
and one where they come out, or as a stack. An access outside the array has no result.

* **Stores** (`Store`): putting in and taking out, and the list of what waits. Items go to the end of the list; any one of
  them may come out.
* **Circles** (`Circle`, `Circle.store`) and **stacks** (`Stack`, `Stack.store`), both filled by `writeAll`.
-/

namespace GccCore.Lib.BoundedQueue

variable {B : Type*}

/-! ## Stores -/

/-- A store for at most `capacity` items. -/
structure Store (Q B : Type*) where
  push : Q → B → Option Q
  pop : Q → Option (B × Q)
  count : Q → ℕ
  capacity : ℕ
  Holds : Q → List B → Prop
  count_eq : ∀ {q l}, Holds q l → count q = l.length
  exists_push : ∀ {q l}, Holds q l → l.length < capacity → ∀ b, ∃ q', push q b = some q' ∧ Holds q' (l ++ [b])
  exists_pop : ∀ {q l}, Holds q l → l ≠ [] → ∃ b q' l', pop q = some (b, q') ∧ Holds q' l' ∧ (b :: l').Perm l

/-- Items are written to consecutive cells. -/
def writeAll (cells : List (Option B)) (i : ℕ) : List B → Option (List (Option B))
  | [] => some cells
  | b :: bs => if i < cells.length then writeAll (cells.set i (some b)) (i + 1) bs else none

theorem writeAll_eq (bs : List B) : ∀ (before : List B) (rest : List (Option B)), bs.length ≤ rest.length →
    writeAll (before.map some ++ rest) before.length bs = some ((before ++ bs).map some ++ rest.drop bs.length) := by
  induction bs with
  | nil =>
    intro before rest _
    simp [writeAll]
  | cons b bs ih =>
    intro before rest hlen
    obtain ⟨c, rest, rfl⟩ : ∃ c rest', rest = c :: rest' :=
      List.exists_cons_of_ne_nil (fun hnil => by simp [hnil] at hlen)
    have hlt : before.length < (before.map some ++ c :: rest).length := by simp
    have hset : (before.map some ++ c :: rest).set before.length (some b) = (before ++ [b]).map some ++ rest := by
      rw [List.set_append_right _ _ (by simp)]
      simp
    have hnext := ih (before ++ [b]) rest (by simpa using hlen)
    rw [List.length_append, List.length_singleton] at hnext
    rw [writeAll, if_pos hlt, hset, hnext]
    simp

/-- An item behind a list is one of the list, or the one that was put there. -/
theorem getElem?_concat_cases {l : List B} {i : ℕ} {b c : B} (h : (l ++ [b])[i]? = some c) :
    (i < l.length ∧ l[i]? = some c) ∨ (i = l.length ∧ c = b) := by
  rcases Nat.lt_trichotomy i l.length with hi | rfl | hi
  · rw [List.getElem?_append_left hi] at h
    exact .inl ⟨hi, h⟩
  · rw [List.getElem?_concat_length] at h
    exact .inr ⟨rfl, (Option.some.inj h).symm⟩
  · rw [List.getElem?_eq_none (by simp; omega)] at h
    cases h

/-! ## Circles -/

/-- Cells used as a circle up to `qend`. -/
structure Circle (B : Type*) where
  worklist : List (Option B)
  qin : ℕ
  qout : ℕ
  qend : ℕ
  qlen : ℕ

namespace Circle

/-- The next index. -/
def next (qend i : ℕ) : ℕ := if i + 1 ≥ qend then 0 else i + 1

def push (r : Circle B) (b : B) : Option (Circle B) :=
  if r.qin < r.worklist.length then
    some { r with worklist := r.worklist.set r.qin (some b), qin := next r.qend r.qin, qlen := r.qlen + 1 }
  else none

def pop (r : Circle B) : Option (B × Circle B) :=
  match r.worklist[r.qout]? with
  | some (some b) => some (b, { r with qout := next r.qend r.qout, qlen := r.qlen - 1 })
  | _ => none

/-- The cells are filled, and the whole circle waits. -/
def start (allocated qend : ℕ) (bs : List B) : Option (Circle B) :=
  (writeAll (List.replicate allocated none) 0 bs).map fun worklist => ⟨worklist, 0, 0, qend, qend⟩

/-- The cell that is `i` places behind the first. -/
def place (qend qout i : ℕ) : ℕ := if qout + i < qend then qout + i else qout + i - qend

/-- The items of a list wait in a circle of `capacity` cells. -/
structure Holds (capacity : ℕ) (r : Circle B) (l : List B) : Prop where
  qend_eq : r.qend = capacity
  qend_le : r.qend ≤ r.worklist.length
  qlen_eq : r.qlen = l.length
  length_le : l.length ≤ r.qend
  qout_lt : 0 < r.qend → r.qout < r.qend
  qin_eq : 0 < r.qend → r.qin = place r.qend r.qout l.length
  cell : ∀ (i : ℕ) (b : B), l[i]? = some b → r.worklist[place r.qend r.qout i]? = some (some b)

theorem next_place {qend qout i : ℕ} (hout : qout < qend) (hi : i < qend) :
    next qend (place qend qout i) = place qend qout (i + 1) := by
  unfold next place
  split <;> split <;> split <;> omega

theorem place_next {qend qout i : ℕ} (hout : qout < qend) (hi : i < qend) :
    place qend (next qend qout) i = place qend qout (i + 1) := by
  unfold next place
  split <;> split <;> split <;> omega

theorem place_lt {qend qout i : ℕ} (hout : qout < qend) (hi : i < qend) : place qend qout i < qend := by
  unfold place
  split <;> omega

theorem place_inj {qend qout i j : ℕ} (hi : i < qend) (hj : j < qend)
    (h : place qend qout i = place qend qout j) : i = j := by
  unfold place at h
  split at h <;> split at h <;> omega

/-- **An item goes in** as the last one. -/
theorem Holds.exists_push {capacity : ℕ} {r : Circle B} {l : List B} (h : Holds capacity r l)
    (hlt : l.length < capacity) (b : B) : ∃ r', r.push b = some r' ∧ Holds capacity r' (l ++ [b]) := by
  have hlt' : l.length < r.qend := h.qend_eq ▸ hlt
  have hpos : 0 < r.qend := by omega
  have hout := h.qout_lt hpos
  have hin := h.qin_eq hpos
  have hinlt : r.qin < r.worklist.length := by
    rw [hin]
    exact Nat.lt_of_lt_of_le (place_lt hout hlt') h.qend_le
  refine ⟨{ r with worklist := r.worklist.set r.qin (some b), qin := next r.qend r.qin, qlen := r.qlen + 1 },
    if_pos hinlt, ?_⟩
  refine ⟨h.qend_eq, ?_, ?_, ?_, fun _ => hout, ?_, ?_⟩
  · rw [List.length_set]
    exact h.qend_le
  · rw [List.length_append, List.length_singleton]
    exact congrArg (· + 1) h.qlen_eq
  · rw [List.length_append, List.length_singleton]
    exact hlt'
  · intro _
    rw [List.length_append, List.length_singleton, ← next_place hout hlt', ← hin]
  · intro i c hc
    dsimp only
    rcases getElem?_concat_cases hc with ⟨hi, hc⟩ | ⟨hi, hcb⟩
    · have hne : r.qin ≠ place r.qend r.qout i := by
        intro heq
        rw [hin] at heq
        have := place_inj hlt' (by omega) heq
        omega
      rw [List.getElem?_set_ne hne]
      exact h.cell i c hc
    · rw [hi, ← hin, List.getElem?_set_self hinlt, hcb]

/-- **The first item comes out.** -/
theorem Holds.exists_pop {capacity : ℕ} {r : Circle B} {b : B} {l : List B} (h : Holds capacity r (b :: l)) :
    ∃ r', r.pop = some (b, r') ∧ Holds capacity r' l := by
  have hlen := h.length_le
  rw [List.length_cons] at hlen
  have hpos : 0 < r.qend := by omega
  have hout := h.qout_lt hpos
  have hfirst : r.worklist[r.qout]? = some (some b) := by
    have hcell := h.cell 0 b rfl
    unfold place at hcell
    rwa [Nat.add_zero, if_pos hout] at hcell
  refine ⟨{ r with qout := next r.qend r.qout, qlen := r.qlen - 1 }, ?_, ?_⟩
  · unfold pop
    rw [hfirst]
  · refine ⟨h.qend_eq, h.qend_le, ?_, ?_, ?_, ?_, ?_⟩
    · change r.qlen - 1 = l.length
      rw [h.qlen_eq, List.length_cons, Nat.add_sub_cancel]
    · change l.length ≤ r.qend
      omega
    · intro _
      change next r.qend r.qout < r.qend
      unfold next
      split <;> omega
    · intro _
      change r.qin = place r.qend (next r.qend r.qout) l.length
      rw [place_next hout (by omega)]
      exact h.qin_eq hpos
    · intro i c hc
      have hi : i < l.length := (List.getElem?_eq_some_iff.mp hc).1
      change r.worklist[place r.qend (next r.qend r.qout) i]? = some (some c)
      rw [place_next hout (by omega)]
      exact h.cell (i + 1) c hc

/-- A circle that was filled completely. -/
theorem exists_start {allocated : ℕ} {bs : List B} (h : bs.length ≤ allocated) :
    ∃ r, start allocated bs.length bs = some r ∧ Holds bs.length r bs := by
  have hwrite := writeAll_eq bs [] (List.replicate allocated none) (by simpa using h)
  unfold start
  rw [List.map_nil, List.nil_append, List.length_nil] at hwrite
  rw [hwrite]
  refine ⟨_, rfl, ⟨rfl, ?_, rfl, Nat.le_refl _, fun hpos => hpos, ?_, ?_⟩⟩
  · change bs.length ≤ _
    simp
  · intro _
    change 0 = place bs.length 0 bs.length
    unfold place
    simp
  · intro i b hb
    have hi : i < bs.length := (List.getElem?_eq_some_iff.mp hb).1
    have hplace : place bs.length 0 i = i := by
      unfold place
      rw [if_pos (by omega), Nat.zero_add]
    dsimp only
    rw [hplace, List.nil_append, List.getElem?_append_left (by simpa using hi), List.getElem?_map, hb]
    rfl

def store (B : Type*) (capacity : ℕ) : Store (Circle B) B where
  push := push
  pop := pop
  count := qlen
  capacity := capacity
  Holds := Holds capacity
  count_eq h := h.qlen_eq
  exists_push h := h.exists_push
  exists_pop := by
    intro r l h hne
    obtain ⟨b, l, rfl⟩ := List.exists_cons_of_ne_nil hne
    obtain ⟨r', hpop, hholds⟩ := h.exists_pop
    exact ⟨b, r', l, hpop, hholds, List.Perm.refl _⟩

end Circle

/-! ## Stacks -/

/-- Cells used as a stack. -/
structure Stack (B : Type*) where
  worklist : List (Option B)
  tos : ℕ

namespace Stack

def push (s : Stack B) (b : B) : Option (Stack B) :=
  if s.tos < s.worklist.length then some ⟨s.worklist.set s.tos (some b), s.tos + 1⟩ else none

def pop (s : Stack B) : Option (B × Stack B) :=
  match s.tos with
  | 0 => none
  | tos + 1 =>
    match s.worklist[tos]? with
    | some (some b) => some (b, ⟨s.worklist, tos⟩)
    | _ => none

/-- The items are pushed. -/
def start (allocated : ℕ) (bs : List B) : Option (Stack B) :=
  (writeAll (List.replicate allocated none) 0 bs).map fun worklist => ⟨worklist, bs.length⟩

/-- The items of a list wait in a stack of `capacity` cells, the last on top. -/
structure Holds (capacity : ℕ) (s : Stack B) (l : List B) : Prop where
  length_eq : s.worklist.length = capacity
  tos_eq : s.tos = l.length
  cell : ∀ (i : ℕ) (b : B), l[i]? = some b → s.worklist[i]? = some (some b)

/-- **An item goes on top.** -/
theorem Holds.exists_push {capacity : ℕ} {s : Stack B} {l : List B} (h : Holds capacity s l)
    (hlt : l.length < capacity) (b : B) : ∃ s', s.push b = some s' ∧ Holds capacity s' (l ++ [b]) := by
  have htop : s.tos < s.worklist.length := by
    rw [h.tos_eq, h.length_eq]
    exact hlt
  refine ⟨⟨s.worklist.set s.tos (some b), s.tos + 1⟩, if_pos htop, ⟨?_, ?_, ?_⟩⟩
  · rw [List.length_set]
    exact h.length_eq
  · rw [List.length_append, List.length_singleton]
    exact congrArg (· + 1) h.tos_eq
  · intro i c hc
    dsimp only
    rcases getElem?_concat_cases hc with ⟨hi, hc⟩ | ⟨hi, hcb⟩
    · rw [List.getElem?_set_ne (by rw [h.tos_eq]; omega)]
      exact h.cell i c hc
    · rw [hi, ← h.tos_eq, List.getElem?_set_self htop, hcb]

/-- **The item on top comes out.** -/
theorem Holds.exists_pop {capacity : ℕ} {s : Stack B} {b : B} {l : List B} (h : Holds capacity s (l ++ [b])) :
    ∃ s', s.pop = some (b, s') ∧ Holds capacity s' l := by
  have htop := h.tos_eq
  rw [List.length_append, List.length_singleton] at htop
  have hcell := h.cell l.length b List.getElem?_concat_length
  refine ⟨⟨s.worklist, l.length⟩, ?_, ⟨h.length_eq, rfl, ?_⟩⟩
  · unfold pop
    rw [htop]
    dsimp only
    rw [hcell]
  · intro i c hc
    have hi : i < l.length := (List.getElem?_eq_some_iff.mp hc).1
    apply h.cell
    rw [List.getElem?_append_left hi]
    exact hc

/-- A stack that was filled. -/
theorem exists_start {allocated : ℕ} {bs : List B} (h : bs.length ≤ allocated) :
    ∃ s, start allocated bs = some s ∧ Holds allocated s bs := by
  have hwrite := writeAll_eq bs [] (List.replicate allocated none) (by simpa using h)
  unfold start
  rw [List.map_nil, List.nil_append, List.length_nil] at hwrite
  rw [hwrite]
  refine ⟨_, rfl, ⟨?_, rfl, ?_⟩⟩
  · simp [h]
  · intro i b hb
    have hi : i < bs.length := (List.getElem?_eq_some_iff.mp hb).1
    dsimp only
    rw [List.nil_append, List.getElem?_append_left (by simpa using hi), List.getElem?_map, hb]
    rfl

def store (B : Type*) (capacity : ℕ) : Store (Stack B) B where
  push := push
  pop := pop
  count := tos
  capacity := capacity
  Holds := Holds capacity
  count_eq h := h.tos_eq
  exists_push h := h.exists_push
  exists_pop := by
    intro s l h hne
    obtain ⟨l, b, rfl⟩ : ∃ l' b, l = l' ++ [b] := ⟨l.dropLast, l.getLast hne, (List.dropLast_append_getLast hne).symm⟩
    obtain ⟨s', hpop, hholds⟩ := h.exists_pop
    exact ⟨b, s', l, hpop, hholds, (List.perm_append_singleton b l).symm⟩

end Stack

end GccCore.Lib.BoundedQueue
