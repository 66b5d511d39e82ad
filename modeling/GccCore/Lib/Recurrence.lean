import Mathlib.Algebra.BigOperators.Ring.Finset
import Mathlib.Data.Nat.Choose.Basic
import Mathlib.Tactic.LinearCombination
import Mathlib.Tactic.Ring

/-!
# Chains of recurrences

A recurrence in a counter has an initial value and a step, which may depend on this counter and on others.

* **Values** (`chain`): the initial value and the sum of the steps.
* **Sums and multiples** of recurrences go by parts (`chain_add`, `chain_sub`, `chain_mul`).
* **Products** of two recurrences in one counter (`chain_mul_chain`): every step is one of each factor with the value of the other.
* **Newton's formula** (`iterate_head`): iterating a list of differences gives binomial coefficients.
-/

namespace GccCore.Lib.Recurrence

open Finset

section Chain

variable {R : Type*} [CommRing R] {v : ℕ} {f g f' g' x : (ℕ → ℕ) → R} {n : ℕ → ℕ}

/-- The steps before the counter `v`, summed up. -/
def steps (v : ℕ) (g : (ℕ → ℕ) → R) (n : ℕ → ℕ) : R := ∑ j ∈ range (n v), g (Function.update n v j)

/-- The recurrence in the counter `v` with the initial value `f` and the step `g`. -/
def chain (v : ℕ) (f g : (ℕ → ℕ) → R) (n : ℕ → ℕ) : R := f n + steps v g n

theorem steps_update (m : ℕ) : steps v g (Function.update n v m) = ∑ j ∈ range m, g (Function.update n v j) := by
  simp only [steps, Function.update_self, Function.update_idem]

theorem steps_add : steps v (fun n => g n + g' n) n = steps v g n + steps v g' n := sum_add_distrib

theorem steps_sub : steps v (fun n => g n - g' n) n = steps v g n - steps v g' n := sum_sub_distrib ..

/-- What does not depend on the counter `v`. -/
def Fixed (v : ℕ) (f : (ℕ → ℕ) → R) : Prop := ∀ n m, f (Function.update n v m) = f n

theorem Fixed.add (hf : Fixed v f) (hg : Fixed v g) : Fixed v fun n => f n + g n := fun n m => congrArg₂ (· + ·) (hf n m) (hg n m)

theorem Fixed.mul (hf : Fixed v f) (hg : Fixed v g) : Fixed v fun n => f n * g n := fun n m => congrArg₂ (· * ·) (hf n m) (hg n m)

theorem steps_mul (hx : Fixed v x) : steps v (fun n => g n * x n) n = steps v g n * x n := by
  rw [steps, steps, sum_mul]
  exact sum_congr rfl fun _ _ => by rw [hx]

theorem fixed_steps {w : ℕ} (hne : w ≠ v) (hg : Fixed v g) : Fixed v (steps w g) := by
  intro n m
  rw [steps, steps, Function.update_of_ne hne]
  refine sum_congr rfl fun j _ => ?_
  rw [Function.update_comm hne.symm, hg]

theorem fixed_chain {w : ℕ} (hne : w ≠ v) (hf : Fixed v f) (hg : Fixed v g) : Fixed v (chain w f g) := fun n m => by
  rw [chain, chain, hf, fixed_steps hne hg]

/-- Steps that are summed up to zero everywhere are zero. -/
theorem steps_eq_zero_iff : (∀ n, steps v g n = 0) ↔ ∀ n, g n = 0 := by
  constructor
  · intro h n
    -- the difference of two sums that follow each other
    have hnext := h (Function.update n v (n v + 1))
    rw [steps_update, sum_range_succ, Function.update_eq_self] at hnext
    exact (zero_add _).symm.trans ((congrArg (· + g n) (h n)).symm.trans hnext)
  · intro h n
    exact sum_eq_zero fun _ _ => h _

/-- Without steps only the initial value is left. -/
theorem chain_eq_initial (h : ∀ m, g m = 0) : chain v f g n = f n := by
  rw [chain, steps, sum_eq_zero fun _ _ => h _, add_zero]

/-- Two parts, of which one does not depend on the counter and the other vanishes where it starts. -/
theorem add_eq_zero_iff_of_fixed (hf : Fixed v f) (hg : ∀ n, g (Function.update n v 0) = 0) :
    (∀ n, f n + g n = 0) ↔ (∀ n, f n = 0) ∧ ∀ n, g n = 0 := by
  constructor
  · intro h
    have hzero (n : ℕ → ℕ) : f n = 0 := by
      have hfirst := h (Function.update n v 0)
      rwa [hg, add_zero, hf] at hfirst
    refine ⟨hzero, fun n => ?_⟩
    rw [← h n, hzero, zero_add]
  · rintro ⟨hf, hg⟩ n
    rw [hf, hg, add_zero]

/-- A recurrence vanishes if both its parts do. -/
theorem chain_eq_zero_iff (hf : Fixed v f) : (∀ n, chain v f g n = 0) ↔ (∀ n, f n = 0) ∧ ∀ n, g n = 0 := by
  rw [← steps_eq_zero_iff (v := v) (g := g)]
  refine add_eq_zero_iff_of_fixed hf fun n => ?_
  rw [steps_update, sum_range_zero]

theorem chain_add : chain v f g n + chain v f' g' n = chain v (fun n => f n + f' n) (fun n => g n + g' n) n := by
  rw [chain, chain, chain, steps_add]
  ring

theorem chain_sub : chain v f g n - chain v f' g' n = chain v (fun n => f n - f' n) (fun n => g n - g' n) n := by
  rw [chain, chain, chain, steps_sub]
  ring

theorem chain_mul (hx : Fixed v x) : chain v f g n * x n = chain v (fun n => f n * x n) (fun n => g n * x n) n := by
  rw [chain, chain, steps_mul hx, add_mul]

/-- Products by parts. -/
theorem mul_sum_eq (b d : ℕ → R) (m : ℕ) : (∑ j ∈ range m, b j) * ∑ j ∈ range m, d j =
    ∑ j ∈ range m, (b j * d j + ((∑ i ∈ range j, b i) * d j + b j * ∑ i ∈ range j, d i)) := by
  induction m with
  | zero => simp only [range_zero, sum_empty, mul_zero]
  | succ m ih =>
    rw [sum_range_succ, sum_range_succ, sum_range_succ, ← ih]
    ring

theorem steps_mul_steps : steps v g n * steps v g' n = steps v (fun n => g n * g' n + (steps v g n * g' n + g n * steps v g' n)) n := by
  simp only [steps, Function.update_self, Function.update_idem]
  exact mul_sum_eq _ _ _

/-- **Products** of two recurrences in one counter. -/
theorem chain_mul_chain (hf : Fixed v f) (hf' : Fixed v f') : chain v f g n * chain v f' g' n =
    chain v (fun n => f n * f' n)
      (fun n => f n * g' n + g n * f' n + (g n * g' n + (steps v g n * g' n + g n * steps v g' n))) n := by
  have hleft : steps v (fun n => f n * g' n) n = f n * steps v g' n := by
    simp only [mul_comm (f _), steps_mul hf]
  rw [chain, chain, chain, steps_add, steps_add, hleft, steps_mul hf', ← steps_mul_steps]
  ring

end Chain

section Newton

variable {R : Type*} [CommRing R]

/-- One step of a list of differences: each takes up the one after it. -/
def advance : List R → List R
  | [] => []
  | [c] => [c]
  | c :: d :: l => (c + d) :: advance (d :: l)

/-- Newton's formula. -/
def newton (l : List R) (x : ℕ) (k : ℕ) : R :=
  match l with
  | [] => 0
  | c :: l => c * (Nat.choose x k : ℕ) + newton l x (k + 1)

/-- One step moves the argument: Pascal's rule. -/
theorem newton_advance_cons (c : R) (l : List R) (x k : ℕ) :
    newton (advance (c :: l)) x k = c * (Nat.choose x k : ℕ) + newton l (x + 1) (k + 1) := by
  induction l generalizing c k with
  | nil => simp only [advance, newton]
  | cons d l ih =>
    rw [advance, newton, ih, newton, Nat.choose_succ_succ]
    push_cast
    ring

theorem newton_advance (l : List R) (x : ℕ) : newton (advance l) x 0 = newton l (x + 1) 0 := by
  rcases l with _ | ⟨c, l⟩
  · rfl
  · rw [newton_advance_cons, newton, Nat.choose_zero_right, Nat.choose_zero_right]

theorem newton_zero_succ (l : List R) (k : ℕ) : newton l 0 (k + 1) = 0 := by
  induction l generalizing k with
  | nil => rfl
  | cons c l ih => rw [newton, ih, Nat.choose_zero_succ, Nat.cast_zero, mul_zero, add_zero]

/-- **Newton's formula**: what a list of differences starts with after `x` steps. -/
theorem iterate_head (l : List R) (x : ℕ) : (advance^[x] l).headD 0 = newton l x 0 := by
  induction x generalizing l with
  | zero =>
    rcases l with _ | ⟨c, l⟩
    · rfl
    · rw [Function.iterate_zero_apply, List.headD_cons, newton, newton_zero_succ, Nat.choose_zero_right, Nat.cast_one, mul_one,
        add_zero]
  | succ x ih => rw [Function.iterate_succ_apply, ih, newton_advance]

end Newton

end GccCore.Lib.Recurrence
