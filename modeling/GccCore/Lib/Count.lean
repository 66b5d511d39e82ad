import Mathlib.Data.Nat.Count
import Mathlib.Data.List.Basic

/-!
# Counting marked positions

`Nat.count p n` is the number of marked positions below `n`, and so the place of `n` among the marked
ones. What happens to the places when a mark is added, and the list of the marked positions.
-/

namespace GccCore.Lib.Count

variable {p q : ℕ → Prop} [DecidablePred p] [DecidablePred q] {k n : ℕ}

theorem count_congr (h : ∀ i < n, p i ↔ q i) : Nat.count p n = Nat.count q n :=
  le_antisymm (Nat.count_mono_left fun i hi => (h i hi).mp)
    (Nat.count_mono_left fun i hi => (h i hi).mpr)

/-- One more mark, at `k`, does not move the places below it. -/
theorem count_insert_le (hq : ∀ i, q i ↔ p i ∨ i = k) (hn : n ≤ k) :
    Nat.count q n = Nat.count p n := by
  refine count_congr fun i hi => ?_
  rw [hq]
  exact ⟨fun h => h.resolve_right (by omega), .inl⟩

/-- One more mark, at `k`, moves the places behind it by one. -/
theorem count_insert_lt (hp : ¬ p k) (hq : ∀ i, q i ↔ p i ∨ i = k) (hn : k < n) :
    Nat.count q n = Nat.count p n + 1 := by
  induction n with
  | zero => omega
  | succ n ih =>
    rw [Nat.count_succ, Nat.count_succ]
    by_cases hkn : k = n
    · subst hkn
      rw [count_insert_le hq le_rfl, if_neg hp, if_pos ((hq k).mpr (.inr rfl))]
    · rw [ih (by omega)]
      have hiff : q n ↔ p n := by
        rw [hq]
        exact ⟨fun h => h.resolve_right (Ne.symm hkn), .inl⟩
      simp only [hiff]
      omega

/-- Marks up to a bound only. -/
theorem count_and_lt (hkn : k ≤ n) : Nat.count (fun i => p i ∧ i < k) n = Nat.count p k := by
  obtain ⟨d, rfl⟩ := Nat.exists_eq_add_of_le hkn
  rw [Nat.count_add]
  have hfirst : Nat.count (fun i => p i ∧ i < k) k = Nat.count p k :=
    count_congr fun i hi => and_iff_left hi
  have hrest : Nat.count (fun i => p (k + i) ∧ k + i < k) d = 0 := by
    rw [Nat.count_iff_forall_not]
    rintro i - ⟨-, h⟩
    omega
  rw [hfirst, hrest, Nat.add_zero]

/-- **The list of the marked positions**, read through their places. -/
theorem map_range_count {α : Type*} (f : ℕ → α) (n : ℕ) :
    (List.range (Nat.count p n)).map f =
      ((List.range n).filter fun i => p i).map fun i => f (Nat.count p i) := by
  induction n with
  | zero => simp
  | succ n ih =>
    rw [Nat.count_succ, List.range_succ, List.filter_append, List.map_append, ← ih]
    by_cases h : p n
    · simp [h, List.range_succ]
    · simp [h]

end GccCore.Lib.Count
