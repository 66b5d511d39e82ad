import Mathlib.Data.Nat.Basic
import Mathlib.Tactic.Common

/-!
# Bisection

The loop `while (mx - mn > 1)` that halves an interval by a test, over any choice of the midpoint.

* **The result** (`bisect_eq`): where the test is false up to `k` and true behind it, the loop ends at `k`.
-/

namespace GccCore.Lib.Bisect

/-- Halve `[mn, mx)` until one index is left; `mid` chooses the midpoint and `above` tests it. -/
def bisect (mid : ℕ → ℕ → ℕ) (above : ℕ → Bool) : ℕ → ℕ → ℕ → ℕ
  | 0, mn, _ => mn
  | fuel + 1, mn, mx =>
    if 1 < mx - mn then
      let md := mid mn mx
      if above md then bisect mid above fuel mn md else bisect mid above fuel md mx
    else mn

/-- A midpoint lies strictly inside every interval of more than one index, up to a bound on the upper end. -/
def IsMidpoint (mid : ℕ → ℕ → ℕ) (bound : ℕ) : Prop :=
  ∀ mn mx, 1 < mx - mn → mx ≤ bound → mn < mid mn mx ∧ mid mn mx < mx

/-- The loop ends at the last index where the test is false. -/
theorem bisect_eq {mid : ℕ → ℕ → ℕ} {above : ℕ → Bool} {bound k : ℕ} (hmid : IsMidpoint mid bound)
    (hlow : ∀ i, i ≤ k → above i = false) (hhigh : ∀ i, k < i → i < bound → above i = true) :
    ∀ fuel mn mx, mx - mn ≤ fuel → mn ≤ k → k < mx → mx ≤ bound →
      bisect mid above fuel mn mx = k := by
  intro fuel
  induction fuel with
  | zero =>
    intro mn mx hfuel hmn hmx _
    omega
  | succ fuel ih =>
    intro mn mx hfuel hmn hmx hbound
    unfold bisect
    by_cases hwide : 1 < mx - mn
    · rw [if_pos hwide]
      obtain ⟨hlt, hgt⟩ := hmid mn mx hwide hbound
      by_cases hk : mid mn mx ≤ k
      · simp only [hlow _ hk, Bool.false_eq_true, if_false]
        exact ih _ _ (by omega) hk hmx hbound
      · have habove : above (mid mn mx) = true := hhigh _ (by omega) (by omega)
        simp only [habove, if_true]
        exact ih mn (mid mn mx) (by omega) hmn (by omega) (by omega)
    · rw [if_neg hwide]
      omega

/-- The loop never leaves the interval, whatever the test. -/
theorem bisect_lt {mid : ℕ → ℕ → ℕ} {above : ℕ → Bool} {bound : ℕ} (hmid : IsMidpoint mid bound) :
    ∀ fuel mn mx, mn < bound → mx ≤ bound → bisect mid above fuel mn mx < bound := by
  intro fuel
  induction fuel with
  | zero =>
    intro mn mx hmn _
    exact hmn
  | succ fuel ih =>
    intro mn mx hmn hmx
    unfold bisect
    by_cases hwide : 1 < mx - mn
    · rw [if_pos hwide]
      obtain ⟨_, hlt⟩ := hmid mn mx hwide hmx
      dsimp only
      split
      · exact ih _ _ hmn (by omega)
      · exact ih _ _ (by omega) hmx
    · rw [if_neg hwide]
      exact hmn

end GccCore.Lib.Bisect
