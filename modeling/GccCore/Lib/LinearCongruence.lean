import Mathlib.Data.Nat.Totient
import Mathlib.FieldTheory.Finite.Basic
import Mathlib.Order.Bounds.Basic

/-!
# Linear congruences

The solutions of `k * s ≡ c` modulo `N`, where `s` and `N` have the common factor `d`.

* **Solutions** (`mul_modEq_iff`): they are one class modulo `N / d`, and there are some only if `d` divides `c`
  (`dvd_of_mul_modEq`).
* **The least one** (`isLeast_mul_modEq`) comes from an inverse of `s / d`.
* **Inverses modulo a power of two** (`pow_modEq_one`): an odd number to the power `2 ^ (t - 1)` is one modulo `2 ^ t`;
  repeated squaring finds the inverse (`squareLoop_modEq`).
-/

namespace GccCore.Lib.LinearCongruence

/-! ## Solutions -/

section Solutions

variable {d u v N c k : ℕ}

theorem dvd_of_mul_modEq (h : k * (d * u) ≡ c [MOD d * N]) : d ∣ c := by
  have hd : k * (d * u) ≡ c [MOD d] := h.of_mul_right N
  have hzero : k * (d * u) ≡ 0 [MOD d] := (Nat.modEq_zero_iff_dvd).mpr ⟨k * u, by ring⟩
  exact (Nat.modEq_zero_iff_dvd).mp (hd.symm.trans hzero)

/-- **Solutions** are one class modulo the modulus without the common factor. -/
theorem mul_modEq_iff (hd : 0 < d) (hinv : u * v ≡ 1 [MOD N]) :
    k * (d * u) ≡ d * c [MOD d * N] ↔ k ≡ c * v [MOD N] := by
  have hcancel : k * (d * u) ≡ d * c [MOD d * N] ↔ k * u ≡ c [MOD N] := by
    have hswap : k * (d * u) = d * (k * u) := by ring
    rw [hswap]
    exact Nat.ModEq.mul_left_cancel_iff' (Nat.pos_iff_ne_zero.mp hd)
  rw [hcancel]
  constructor
  · intro h
    calc k ≡ k * (u * v) [MOD N] := by simpa using (hinv.mul_left k).symm
      _ = k * u * v := by ring
      _ ≡ c * v [MOD N] := h.mul_right v
  · intro h
    calc k * u ≡ c * v * u [MOD N] := h.mul_right u
      _ = c * (u * v) := by ring
      _ ≡ c [MOD N] := by simpa using hinv.mul_left c

/-- **The least solution**. -/
theorem isLeast_mul_modEq (hd : 0 < d) (hinv : u * v ≡ 1 [MOD N]) :
    IsLeast {k | k * (d * u) ≡ d * c [MOD d * N]} (c * v % N) := by
  constructor
  · exact (mul_modEq_iff hd hinv).mpr (Nat.mod_modEq _ _)
  · intro k hk
    have hmod : k % N = c * v % N := (mul_modEq_iff hd hinv).mp hk
    rw [← hmod]
    exact Nat.mod_le k N

end Solutions

/-! ## Inverses modulo a power of two -/

theorem pow_modEq_one {x : ℕ} (hx : x % 2 = 1) {t : ℕ} (ht : 0 < t) : x ^ 2 ^ (t - 1) ≡ 1 [MOD 2 ^ t] := by
  have hcop : Nat.Coprime x (2 ^ t) := by
    apply Nat.Coprime.pow_right
    exact Nat.coprime_two_right.mpr (Nat.odd_iff.mpr hx)
  have htotient : Nat.totient (2 ^ t) = 2 ^ (t - 1) := by
    rw [Nat.totient_prime_pow Nat.prime_two ht]
    simp
  rw [← htotient]
  exact Nat.ModEq.pow_totient hcop

/-- A product is collected while the factor is squared. -/
def squareLoop {α : Type*} (mul : α → α → α) : ℕ → α → α → α
  | 0, rslt, _ => rslt
  | ctr + 1, rslt, x => squareLoop mul ctr (mul rslt x) (mul x x)

/-- **Repeated squaring** collects a power. -/
theorem squareLoop_modEq {α : Type*} {mul : α → α → α} {f : α → ℕ} {N : ℕ}
    (hmul : ∀ a b, f (mul a b) ≡ f a * f b [MOD N]) (ctr : ℕ) :
    ∀ rslt x, f (squareLoop mul ctr rslt x) ≡ f rslt * f x ^ (2 ^ ctr - 1) [MOD N] := by
  induction ctr with
  | zero =>
    intro rslt x
    simp [squareLoop, Nat.ModEq.refl]
  | succ ctr ih =>
    intro rslt x
    have hexp : 2 ^ (ctr + 1) - 1 = 1 + 2 * (2 ^ ctr - 1) := by
      have hpos : 0 < 2 ^ ctr := by positivity
      rw [pow_succ]
      omega
    calc f (squareLoop mul (ctr + 1) rslt x)
        ≡ f (mul rslt x) * f (mul x x) ^ (2 ^ ctr - 1) [MOD N] := ih (mul rslt x) (mul x x)
      _ ≡ f rslt * f x * (f x * f x) ^ (2 ^ ctr - 1) [MOD N] := (hmul rslt x).mul ((hmul x x).pow _)
      _ = f rslt * f x ^ (2 ^ (ctr + 1) - 1) := by
          rw [hexp, pow_add, pow_mul]
          ring

/-- Squaring one time less than the modulus has bits gives the inverse of an odd number. -/
theorem mul_squareLoop_modEq_one {α : Type*} {mul : α → α → α} {f : α → ℕ} {t : ℕ} (ht : 0 < t)
    (hmul : ∀ a b, f (mul a b) ≡ f a * f b [MOD 2 ^ t]) {one x : α} (hone : f one = 1) (hx : f x % 2 = 1) :
    f x * f (squareLoop mul (t - 1) one x) ≡ 1 [MOD 2 ^ t] := by
  have hloop := squareLoop_modEq hmul (t - 1) one x
  rw [hone, one_mul] at hloop
  have hpos : 0 < 2 ^ (t - 1) := by positivity
  calc f x * f (squareLoop mul (t - 1) one x)
      ≡ f x * f x ^ (2 ^ (t - 1) - 1) [MOD 2 ^ t] := hloop.mul_left _
    _ = f x ^ 2 ^ (t - 1) := by
        rw [← pow_succ', Nat.sub_add_cancel hpos]
    _ ≡ 1 [MOD 2 ^ t] := pow_modEq_one hx ht

end GccCore.Lib.LinearCongruence
