import Mathlib.Data.List.Basic
import Mathlib.Data.Nat.Find
import Mathlib.Data.Nat.Init
import Mathlib.Tactic.Push

/-!
# Loops over the set bits of a bitmap

A loop that asks an iterator for the next set bit and runs its body on it. The iterator sits at a position, and finds the set
bits from there on.

* **The bits from a position** (`ones`): in increasing order (`ones_pairwise`), each once, and no others (`mem_ones`).
* **The loop** (`scan`): it stops, and is a fold of the body over these bits, if the body leaves alone the bits that are
  still to come (`scan_eq`).
* **One word** (`skipZeros_spec`): the loop that shifts the zeros out of a nonzero word.
-/

namespace GccCore.Lib.BitScan

/-! ## The bits from a position -/

section Ones

variable {test test' : ℕ → Bool} {n p q b : ℕ}

/-- The numbers from `p` on and below `n` that pass the test. -/
def ones (test : ℕ → Bool) (p n : ℕ) : List ℕ := (List.range' p (n - p)).filter test

theorem mem_ones : b ∈ ones test p n ↔ (p ≤ b ∧ b < n) ∧ test b = true := by
  unfold ones
  rw [List.mem_filter, List.mem_range'_1]
  refine and_congr_left fun _ => ?_
  constructor <;> intro h <;> omega

/-- **In increasing order**, and each once. -/
theorem ones_pairwise : (ones test p n).Pairwise (· < ·) :=
  List.Pairwise.filter test (List.pairwise_lt_range')

theorem ones_of_ge (h : n ≤ p) : ones test p n = [] := by
  unfold ones
  rw [Nat.sub_eq_zero_of_le h]
  rfl

theorem ones_cons (h : p < n) (hp : test p = true) : ones test p n = p :: ones test (p + 1) n := by
  unfold ones
  rw [show n - p = n - (p + 1) + 1 by omega, List.range'_succ, List.filter_cons_of_pos hp]

theorem ones_succ (hp : test p = false) : ones test p n = ones test (p + 1) n := by
  unfold ones
  by_cases h : p < n
  · rw [show n - p = n - (p + 1) + 1 by omega, List.range'_succ,
      List.filter_cons_of_neg (by rw [hp]; exact Bool.false_ne_true)]
  · rw [Nat.sub_eq_zero_of_le (by omega), Nat.sub_eq_zero_of_le (by omega)]
    rfl

/-- **Positions that fail the test are passed over.** -/
theorem ones_skip (hpq : p ≤ q) (hzero : ∀ i, p ≤ i → i < q → test i = false) : ones test p n = ones test q n := by
  induction q, hpq using Nat.le_induction with
  | base => rfl
  | succ q hle ih =>
    rw [ih fun i hi hlt => hzero i hi (by omega)]
    exact ones_succ (hzero q hle (Nat.lt_succ_self q))

/-- The bits depend on the tests from the position on. -/
theorem ones_congr (h : ∀ i, p ≤ i → i < n → test i = test' i) : ones test p n = ones test' p n := by
  unfold ones
  refine List.filter_congr fun i hi => ?_
  rw [List.mem_range'_1] at hi
  exact h i (by omega) (by omega)

/-- **The last position**, if the bits are gone through from the bottom. -/
theorem ones_snoc (h : p ≤ n) : ones test p (n + 1) = ones test p n ++ if test n = true then [n] else [] := by
  unfold ones
  rw [show n + 1 - p = n - p + 1 by omega, List.range'_concat, List.filter_append]
  congr 1
  rw [show p + 1 * (n - p) = n by omega, List.filter_singleton]
  cases test n <;> rfl

theorem ones_trim {m : ℕ} (hmn : m ≤ n) (hzero : ∀ i, m ≤ i → i < n → test i = false) : ones test p n = ones test p m := by
  induction n, hmn using Nat.le_induction with
  | base => rfl
  | succ n hle ih =>
    rw [← ih fun i hi hlt => hzero i hi (by omega)]
    by_cases hp : p ≤ n
    · rw [ones_snoc hp, if_neg (by rw [hzero n hle (Nat.lt_succ_self n)]; exact Bool.false_ne_true), List.append_nil]
    · rw [ones_of_ge (by omega), ones_of_ge (by omega)]

/-- **No bits**. -/
theorem ones_eq_nil (h : ones test p n = []) (hp : p ≤ b) (hb : b < n) : test b = false := by
  by_contra hset
  have hmem : b ∈ ones test p n := mem_ones.mpr ⟨⟨hp, hb⟩, Bool.of_not_eq_false hset⟩
  rw [h] at hmem
  cases hmem

/-- **The first bit** and the others. -/
theorem ones_eq_cons {rest : List ℕ} (h : ones test p n = q :: rest) :
    (p ≤ q ∧ q < n) ∧ test q = true ∧ (∀ i, p ≤ i → i < q → test i = false) ∧ rest = ones test (q + 1) n := by
  have hq : (p ≤ q ∧ q < n) ∧ test q = true := mem_ones.mp (h ▸ List.mem_cons_self)
  have hbefore : ∀ i, p ≤ i → i < q → test i = false := by
    intro i hi hlt
    by_contra hset
    have hmem : i ∈ ones test p n := mem_ones.mpr ⟨⟨hi, by omega⟩, Bool.of_not_eq_false hset⟩
    have hsorted : (ones test p n).Pairwise (· < ·) := ones_pairwise
    rw [h] at hmem hsorted
    rcases List.mem_cons.mp hmem with rfl | hin
    · exact Nat.lt_irrefl _ hlt
    · have := List.rel_of_pairwise_cons hsorted hin
      omega
  have hcut : ones test p n = q :: ones test (q + 1) n := by
    rw [ones_skip hq.1.1 hbefore, ones_cons hq.1.2 hq.2]
  exact ⟨hq.1, hq.2, hbefore, (List.cons.inj (h.symm.trans hcut)).2⟩

end Ones

/-! ## The loop -/

section Scan

variable {σ β ε : Type} (cond : σ → β → Option (Option (ℕ × σ))) (next : σ → σ) (body : ℕ → β → Except ε β)

/-- `for (init; cond; next) body`, with a bound on the number of rounds. `cond` answers with the bit that is found, with no bit
at the end, or not at all if it runs on for ever; it sees the data that the body works on. -/
def scan : ℕ → σ → β → Option (Except ε β)
  | 0, _, _ => none
  | k + 1, s, b =>
    match cond s b with
    | none => none
    | some none => some (.ok b)
    | some (some (i, s')) =>
      match body i b with
      | .error e => some (.error e)
      | .ok b' => scan k (next s') b'

variable {cond next body}

/-- **More rounds change nothing.** -/
theorem scan_mono {k : ℕ} {s : σ} {b : β} {r : Except ε β} (h : scan cond next body k s b = some r) :
    ∀ j ≥ k, scan cond next body j s b = some r := by
  induction k generalizing s b with
  | zero => cases h
  | succ k ih =>
    intro j hj
    obtain ⟨j, rfl⟩ := Nat.exists_eq_add_of_le' (by omega : 1 ≤ j)
    unfold scan at h ⊢
    cases hc : cond s b with
    | none => rw [hc] at h; cases h
    | some o =>
      rw [hc] at h
      cases o with
      | none => exact h
      | some found =>
        obtain ⟨i, s'⟩ := found
        dsimp only at h ⊢
        cases hb : body i b with
        | error e => rw [hb] at h; exact h
        | ok b' =>
          rw [hb] at h
          exact ih h j (by omega)

/-- The loop has one result. -/
theorem scan_unique {k k' : ℕ} {s : σ} {b : β} {r r' : Except ε β} (h : scan cond next body k s b = some r)
    (h' : scan cond next body k' s b = some r') : r = r' := by
  have hk := scan_mono h (max k k') (Nat.le_max_left k k')
  have hk' := scan_mono h' (max k k') (Nat.le_max_right k k')
  exact Option.some.inj (hk.symm.trans hk')

/-- **The loop is a fold** over the bits from the position of the iterator, if the iterator finds the next one and the body
leaves the iterator at its place. -/
theorem scan_eq (test : β → ℕ → Bool) (n : ℕ) (At : σ → β → ℕ → Prop)
    (hstop : ∀ s b p, At s b p → ones (test b) p n = [] → cond s b = some none)
    (hfind : ∀ s b p i rest, At s b p → ones (test b) p n = i :: rest → ∃ s', cond s b = some (some (i, s')) ∧
      ∀ b', body i b = .ok b' → At (next s') b' (i + 1) ∧ ∀ j > i, test b' j = test b j)
    {k : ℕ} {s : σ} {b : β} {p : ℕ} (hat : At s b p) (hk : (ones (test b) p n).length < k) :
    scan cond next body k s b = some ((ones (test b) p n).foldlM (fun b i => body i b) b) := by
  induction k generalizing s b p with
  | zero => omega
  | succ k ih =>
    unfold scan
    cases hones : ones (test b) p n with
    | nil =>
      rw [hstop s b p hat hones]
      rfl
    | cons i rest =>
      obtain ⟨s', hcond, hnext⟩ := hfind s b p i rest hat hones
      rw [hcond, List.foldlM_cons]
      dsimp only
      cases hb : body i b with
      | error e => rfl
      | ok b' =>
        obtain ⟨hat', hsame⟩ := hnext b' hb
        have hrest : ones (test b') (i + 1) n = rest := by
          rw [(ones_eq_cons hones).2.2.2]
          exact ones_congr fun j hj _ => hsame j hj
        rw [hones] at hk
        have hloop := ih hat' (by rw [hrest]; exact Nat.lt_of_succ_lt_succ hk)
        rw [hrest] at hloop
        exact hloop

/-- **A fold over the bits**, with an invariant of the position: one round for a bit that passes the test, none for the others. -/
theorem foldlM_ones {test : ℕ → Bool} {n : ℕ} {b : β} (Inv : ℕ → β → Prop) (hstart : Inv 0 b)
    (hset : ∀ p b, p < n → test p = true → Inv p b → ∃ b', body p b = .ok b' ∧ Inv (p + 1) b')
    (hclear : ∀ p b, p < n → test p = false → Inv p b → Inv (p + 1) b) :
    ∃ b', (ones test 0 n).foldlM (fun b i => body i b) b = .ok b' ∧ Inv n b' := by
  induction n with
  | zero => exact ⟨b, rfl, hstart⟩
  | succ n ih =>
    obtain ⟨b', hfold, hinv⟩ := ih (fun p b hp => hset p b (by omega)) (fun p b hp => hclear p b (by omega))
    rw [ones_snoc (Nat.zero_le n), List.foldlM_append, hfold]
    by_cases htest : test n = true
    · obtain ⟨b'', hbody, hinv'⟩ := hset n b' (Nat.lt_succ_self n) htest hinv
      refine ⟨b'', ?_, hinv'⟩
      rw [if_pos htest]
      change (body n b').bind _ = _
      rw [hbody]
      rfl
    · rw [if_neg htest]
      exact ⟨b', rfl, hclear n b' (Nat.lt_succ_self n) (Bool.eq_false_iff.mpr htest) hinv⟩

end Scan

/-! ## One word -/

section Word

variable {W : ℕ}

/-- `for (; (word & 1) == 0; word >>= 1) bit_num++;`, with a bound on the number of rounds; a word of zeros is never done. -/
def skipZerosLoop : ℕ → BitVec W → ℕ → Option (BitVec W × ℕ)
  | 0, _, _ => none
  | k + 1, word, bitNum => if word.getLsbD 0 then some (word, bitNum) else skipZerosLoop k (word >>> 1) (bitNum + 1)

/-- The zeros at the bottom of a word are shifted out. -/
def skipZeros (word : BitVec W) (bitNum : ℕ) : Option (BitVec W × ℕ) := skipZerosLoop W word bitNum

theorem skipZerosLoop_eq {j : ℕ} {word : BitVec W} (hset : word.getLsbD j = true)
    (hclear : ∀ i < j, word.getLsbD i = false) {k : ℕ} (hk : j < k) (bitNum : ℕ) :
    skipZerosLoop k word bitNum = some (word >>> j, bitNum + j) := by
  induction j generalizing word k bitNum with
  | zero =>
    obtain ⟨k, rfl⟩ := Nat.exists_eq_add_of_le' hk
    rw [skipZerosLoop, if_pos hset, BitVec.ushiftRight_zero]
    rfl
  | succ j ih =>
    obtain ⟨k, rfl⟩ := Nat.exists_eq_add_of_le' (by omega : 1 ≤ k)
    have hzero : word.getLsbD 0 = false := hclear 0 (Nat.succ_pos j)
    rw [skipZerosLoop, if_neg (by rw [hzero]; exact Bool.false_ne_true),
      ih (by rw [BitVec.getLsbD_ushiftRight, Nat.add_comm]; exact hset)
        (fun i hi => by rw [BitVec.getLsbD_ushiftRight, Nat.add_comm]; exact hclear (i + 1) (by omega)) (by omega),
      ← BitVec.shiftRight_add, Nat.add_comm 1 j, Nat.add_assoc, Nat.add_comm 1 j]

/-- **A nonzero word** is shifted down to its lowest bit. -/
theorem skipZeros_spec {word : BitVec W} {j : ℕ} (hset : word.getLsbD j = true)
    (hclear : ∀ i < j, word.getLsbD i = false) (bitNum : ℕ) :
    skipZeros word bitNum = some (word >>> j, bitNum + j) :=
  skipZerosLoop_eq hset hclear (BitVec.lt_of_getLsbD hset) bitNum

/-- A nonzero word has a lowest bit. -/
theorem exists_lowest {word : BitVec W} (hne : word ≠ 0#W) :
    ∃ j, word.getLsbD j = true ∧ ∀ i < j, word.getLsbD i = false := by
  have hex : ∃ j, word.getLsbD j = true := by
    by_contra hnone
    push Not at hnone
    apply hne
    refine BitVec.eq_of_getLsbD_eq fun i _ => ?_
    rw [BitVec.getLsbD_zero]
    exact Bool.eq_false_iff.mpr (hnone i)
  exact ⟨Nat.find hex, Nat.find_spec hex, fun i hi => Bool.eq_false_iff.mpr (Nat.find_min hex hi)⟩

end Word

end GccCore.Lib.BitScan
