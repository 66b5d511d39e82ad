import Mathlib.Tactic

/-!
# Numbers in base `B` as digit sequences

A digit sequence is a function `ℕ → ℕ`, least significant digit first; `val B a n` is the number
its first `n` digits write. Loops that run along the digits with a carry are handled by
one rule, and the estimate of a quotient digit by its leading digits is bounded once.

* **The carry rule** (`val_carry`): if every digit step balances, the whole loop does.
* **The quotient digit** (`quotient_estimate`): for a divisor whose leading digit is at least half
  the base, the estimate from two leading dividend digits, refined once by a third, is the true
  quotient digit or one more.
* **Scaling** (`scale_lead`): multiplying by `B / (v + 1)` brings the leading digit `v` to at least
  half the base.
-/

namespace GccCore.Lib.Digits

/-! ## Values -/

/-- The number that the first `n` digits of `a` write in base `B`. -/
def val (B : ℕ) (a : ℕ → ℕ) : ℕ → ℕ
  | 0 => 0
  | n + 1 => val B a n + a n * B ^ n

variable {B : ℕ} {a b : ℕ → ℕ} {n m : ℕ}

/-- No digits write zero. -/
@[simp]
theorem val_zero : val B a 0 = 0 := rfl

/-- One more digit. -/
theorem val_succ : val B a (n + 1) = val B a n + a n * B ^ n := rfl

/-- The value depends on the digits it reads. -/
theorem val_congr (h : ∀ t < n, a t = b t) : val B a n = val B b n := by
  induction n with
  | zero => rfl
  | succ n ih =>
    rw [val_succ, val_succ, ih fun t ht => h t (by omega), h n (by omega)]

/-- Digits below the base write a number below its power. -/
theorem val_lt (h : ∀ t < n, a t < B) : val B a n < B ^ n := by
  induction n with
  | zero => simp
  | succ n ih =>
    have hlow := ih fun t ht => h t (by omega)
    have htop : (a n + 1) * B ^ n ≤ B * B ^ n := Nat.mul_le_mul_right _ (h n (by omega))
    rw [val_succ, pow_succ']
    linarith [add_one_mul (a n) (B ^ n)]

/-- Cutting a number into its low and its high digits. -/
theorem val_add : val B a (m + n) = val B a m + val B (fun t => a (m + t)) n * B ^ m := by
  induction n with
  | zero => simp
  | succ n ih =>
    rw [← add_assoc, val_succ, ih, val_succ, pow_add]
    ring

/-- Values add digit by digit. -/
theorem val_linear (c : ℕ) :
    val B (fun t => a t + c * b t) n = val B a n + c * val B b n := by
  induction n with
  | zero => simp
  | succ n ih =>
    rw [val_succ, val_succ, val_succ, ih]
    ring

/-- Zero digits write zero. -/
theorem val_eq_zero (h : ∀ t < n, a t = 0) : val B a n = 0 := by
  induction n with
  | zero => rfl
  | succ n ih =>
    rw [val_succ, ih fun t ht => h t (by omega), h n (by omega)]
    simp

/-- Zero digits on top add nothing. -/
theorem val_of_top_zero (hmn : m ≤ n) (h : ∀ t, m ≤ t → t < n → a t = 0) :
    val B a n = val B a m := by
  obtain ⟨k, rfl⟩ := Nat.exists_eq_add_of_le hmn
  rw [val_add, val_eq_zero fun t ht => h (m + t) (by omega) (by omega)]
  simp

/-- A nonzero digit gives the number its power. -/
theorem le_val (h : 0 < a n) : B ^ n ≤ val B a (n + 1) := by
  rw [val_succ]
  exact le_add_of_le_right (Nat.le_mul_of_pos_left _ h)

/-- Every digit counts with its power. -/
theorem digit_mul_le_val {t : ℕ} (ht : t < n) : a t * B ^ t ≤ val B a n := by
  induction n with
  | zero => omega
  | succ n ih =>
    rw [val_succ]
    rcases Nat.lt_succ_iff_lt_or_eq.mp ht with ht | rfl
    · exact le_add_right (ih ht)
    · exact Nat.le_add_left _ _

/-- A number below a power has no digits from there on. -/
theorem digit_eq_zero_of_val_lt {t : ℕ} (hB : 0 < B) (h : val B a n < B ^ m) (hmt : m ≤ t)
    (ht : t < n) : a t = 0 := by
  by_contra hne
  have h1 : B ^ t ≤ a t * B ^ t := Nat.le_mul_of_pos_left _ (Nat.pos_of_ne_zero hne)
  have h2 : B ^ m ≤ B ^ t := Nat.pow_le_pow_right hB hmt
  have h3 := digit_mul_le_val (B := B) (a := a) ht
  omega

/-- **The carry rule**: if with the carry `c t` coming in, the digit `x t` becomes `y t` with the
carry `c (t + 1)` going out, then the sequence `x` becomes `y` with the last carry on top. -/
theorem val_carry {x y c : ℕ → ℕ} (h : ∀ t < n, x t + c t = y t + c (t + 1) * B) :
    val B x n + c 0 = val B y n + c n * B ^ n := by
  induction n with
  | zero => simp
  | succ n ih =>
    have hlow := ih fun t ht => h t (by omega)
    have htop := h n (by omega)
    rw [val_succ, val_succ, pow_succ']
    calc val B x n + x n * B ^ n + c 0
        = (val B x n + c 0) + x n * B ^ n := by ring
      _ = val B y n + (x n + c n) * B ^ n := by rw [hlow]; ring
      _ = val B y n + y n * B ^ n + c (n + 1) * (B * B ^ n) := by rw [htop]; ring

/-! ## One digit -/

/-- A digit product with carry in fits two digits, and splits into them. -/
theorem mul_add_lt {q v c u : ℕ} (hq : q < B) (hv : v < B) (hc : c < B) (hu : u < B) :
    q * v + c + u < B * B := by
  have : q * v ≤ (B - 1) * (B - 1) := Nat.mul_le_mul (by omega) (by omega)
  obtain ⟨k, rfl⟩ := Nat.exists_eq_add_of_lt hq
  nlinarith [Nat.sub_add_cancel (show 1 ≤ q + k + 1 by omega)]

/-- One step of a multiply-and-subtract loop, with the subtraction done modulo `B * B`. -/
theorem sub_step {u w : ℕ} (hB : 2 ≤ B) (hu : u < B) :
    (u + B * B - w % B) % (B * B) % B + w =
      u + (w / B + if (u + B * B - w % B) % (B * B) / B ≠ 0 then 1 else 0) * B := by
  have hlow : w % B < B := Nat.mod_lt _ (by omega)
  have hw := Nat.div_add_mod w B
  by_cases hle : w % B ≤ u
  · have hdiff : (u + B * B - w % B) % (B * B) = u - w % B := by
      rw [show u + B * B - w % B = u - w % B + B * B by omega, Nat.add_mod_right]
      exact Nat.mod_eq_of_lt (lt_of_lt_of_le (by omega : u - w % B < B) (Nat.le_mul_self B))
    have hzero : (u - w % B) / B = 0 := Nat.div_eq_of_lt (by omega)
    rw [hdiff, hzero, Nat.mod_eq_of_lt (show u - w % B < B by omega)]
    simp only [ne_eq, not_true_eq_false, if_false, add_zero]
    rw [mul_comm (w / B) B]
    omega
  · rw [not_le] at hle
    have hBB : B ≤ B * B := Nat.le_mul_self B
    have hdiff : (u + B * B - w % B) % (B * B) = B * (B - 1) + (B + u - w % B) := by
      have : B * (B - 1) + B = B * B := by rw [← Nat.mul_succ]; congr 1; omega
      rw [Nat.mod_eq_of_lt (by omega)]
      omega
    have hsmall : B + u - w % B < B := by omega
    have hdiv : (B * (B - 1) + (B + u - w % B)) / B = B - 1 := by
      rw [Nat.mul_add_div (by omega), Nat.div_eq_of_lt hsmall, add_zero]
    rw [hdiff, hdiv, Nat.mul_add_mod, Nat.mod_eq_of_lt hsmall, if_pos (by omega), add_mul, one_mul,
      mul_comm (w / B) B]
    omega

/-! ## The quotient digit -/

/-- Scaling by `B / (v + 1)` keeps a leading digit `v` below the base and brings it to at least half
of it. -/
theorem scale_lead {v : ℕ} (hv : 0 < v) : B ≤ 2 * (v * (B / (v + 1))) + 1 ∨ B / (v + 1) = 0 := by
  set s := B / (v + 1) with hs
  rcases Nat.eq_zero_or_pos s with h0 | hpos
  · exact .inr h0
  · left
    have hdm := Nat.div_add_mod B (v + 1)
    have hr : B % (v + 1) < v + 1 := Nat.mod_lt _ (by omega)
    rw [← hs] at hdm
    obtain ⟨s', hs'⟩ := Nat.exists_eq_add_of_le' hpos
    obtain ⟨v', rfl⟩ := Nat.exists_eq_add_of_le' hv
    nlinarith

/-- The first guess of a quotient digit: the two leading dividend digits `u0`, `u1` by the leading
divisor digit `v1`, or the greatest digit when `u0 = v1`. -/
def guess (B v1 u0 u1 : ℕ) : ℕ := if u0 ≠ v1 then (u0 * B + u1) / v1 else B - 1

/-- The guess refined once by the second divisor digit `v2` and the third dividend digit `u2`. -/
def refined (B v1 v2 u0 u1 u2 : ℕ) : ℕ :=
  let q := guess B v1 u0 u1
  let r := u0 * B + u1 - q * v1
  if r < B ∧ v2 * q > r * B + u2 then q - 1 else q

section Estimate

variable {v1 v2 u0 u1 u2 P r s V X : ℕ}

/-- The guess is a digit, and its product with the leading divisor digit can be subtracted. -/
theorem guess_spec (hB : 0 < B) (hv1 : 0 < v1) (hu0 : u0 ≤ v1) (hv1B : v1 < B) (hu1 : u1 < B) :
    guess B v1 u0 u1 < B ∧ guess B v1 u0 u1 * v1 ≤ u0 * B + u1 := by
  unfold guess
  split_ifs with hne
  · refine ⟨(Nat.div_lt_iff_lt_mul hv1).mpr ?_, Nat.div_mul_le_self _ _⟩
    have : (u0 + 1) * B ≤ v1 * B := Nat.mul_le_mul_right _ (by omega)
    linarith [add_one_mul u0 B, mul_comm v1 B]
  · rw [not_not] at hne
    subst hne
    refine ⟨by omega, ?_⟩
    calc (B - 1) * u0 ≤ B * u0 := Nat.mul_le_mul_right _ (by omega)
      _ ≤ u0 * B + u1 := by rw [mul_comm]; omega

/-- The guess is never low. -/
theorem le_guess (hv1 : 0 < v1) {q : ℕ} (hq : q < B) (hmul : q * v1 ≤ u0 * B + u1) :
    q ≤ guess B v1 u0 u1 := by
  unfold guess
  split_ifs with hne
  · exact (Nat.le_div_iff_mul_le hv1).mpr hmul
  · omega

/-- The refinement test compares the guess with three dividend digits by two divisor digits. -/
theorem refine_test {g : ℕ} (hg : g < B) (hv2 : v2 < B) (hmul : g * v1 ≤ u0 * B + u1) :
    (u0 * B + u1 - g * v1 < B ∧ v2 * g > (u0 * B + u1 - g * v1) * B + u2) ∨
      g * (v1 * B + v2) ≤ u0 * B * B + u1 * B + u2 := by
  obtain ⟨t, ht⟩ := Nat.exists_eq_add_of_le hmul
  have hsub : u0 * B + u1 - g * v1 = t := by omega
  have hexp : u0 * B * B + u1 * B = g * v1 * B + t * B := by rw [← add_mul, ht, add_mul]
  have hmulv : g * (v1 * B + v2) = g * v1 * B + v2 * g := by ring
  rw [hsub, hexp, hmulv]
  by_cases htB : t < B
  · rcases le_or_gt (v2 * g) (t * B + u2) with h | h
    · right
      omega
    · exact .inl ⟨htB, h⟩
  · right
    have h1 : v2 * g ≤ B * B := Nat.mul_le_mul hv2.le hg.le
    have h2 : B * B ≤ t * B := Nat.mul_le_mul_right _ (not_lt.mp htB)
    omega

/-- **The quotient digit**: with the leading divisor digit at least half the base, the refined guess
is the quotient or one more. -/
theorem quotient_estimate (hV : V = (v1 * B + v2) * P + r) (hr : r < P)
    (hX : X = (u0 * B * B + u1 * B + u2) * P + s) (hs : s < P) (hv1 : B ≤ 2 * v1)
    (hv1B : v1 < B) (hv2 : v2 < B) (hu1 : u1 < B) (hu2 : u2 < B) (hu0 : u0 ≤ v1)
    (hlt : X < V * B) :
    X / V ≤ refined B v1 v2 u0 u1 u2 ∧ refined B v1 v2 u0 u1 u2 ≤ X / V + 1 ∧
      refined B v1 v2 u0 u1 u2 < B := by
  have hB : 0 < B := by omega
  have hv1pos : 0 < v1 := by omega
  have hVpos : 0 < V := Nat.pos_of_ne_zero fun h => by simp [h] at hlt
  obtain ⟨hgB, hgmul⟩ := guess_spec hB hv1pos hu0 hv1B hu1
  have hqB : X / V < B := (Nat.div_lt_iff_lt_mul hVpos).mpr (by rwa [mul_comm] at hlt)
  have hqV : X / V * V ≤ X := Nat.div_mul_le_self X V
  have hXq : X < (X / V + 1) * V := by
    rw [mul_comm]
    exact Nat.lt_mul_div_succ X hVpos
  have hrefined : refined B v1 v2 u0 u1 u2 =
      if u0 * B + u1 - guess B v1 u0 u1 * v1 < B ∧
        v2 * guess B v1 u0 u1 > (u0 * B + u1 - guess B v1 u0 u1 * v1) * B + u2 then
        guess B v1 u0 u1 - 1 else guess B v1 u0 u1 := rfl
  rw [hrefined]
  -- the lower digits of the divisor and of the dividend, bounded
  have hVlo : v1 * B * P ≤ V := by rw [hV, add_mul]; omega
  have hVhi : V < (v1 + 1) * (B * P) := by
    have : (v2 + 1) * P ≤ B * P := Nat.mul_le_mul_right _ hv2
    linarith [add_mul (v1 * B) v2 P, add_one_mul v2 P, add_one_mul v1 (B * P), mul_assoc v1 B P]
  have hXlo : (u0 * B + u1) * (B * P) ≤ X := by
    rw [hX]
    linarith [add_mul (u0 * B * B + u1 * B) u2 P, Nat.zero_le (u2 * P),
      (by ring : (u0 * B + u1) * (B * P) = (u0 * B * B + u1 * B) * P)]
  have hXhi : X < (u0 * B + u1 + 1) * (B * P) := by
    have : (u2 + 1) * P ≤ B * P := Nat.mul_le_mul_right _ hu2
    linarith [add_mul (u0 * B * B + u1 * B) u2 P, add_one_mul u2 P,
      (by ring : (u0 * B + u1 + 1) * (B * P) = (u0 * B * B + u1 * B) * P + B * P)]
  have hBP : 0 < B * P := Nat.mul_pos hB (by omega)
  generalize hgdef : guess B v1 u0 u1 = g at hgB hgmul ⊢
  generalize hqdef : X / V = q at hqB hqV hXq ⊢
  have hle : q ≤ g := by
    rw [← hgdef]
    refine le_guess hv1pos hqB (Nat.lt_succ_iff.mp (lt_of_mul_lt_mul_right (a := B * P) ?_ hBP.le))
    calc q * v1 * (B * P) = q * (v1 * B * P) := by ring
      _ ≤ q * V := Nat.mul_le_mul_left _ hVlo
      _ ≤ X := hqV
      _ < (u0 * B + u1 + 1) * (B * P) := hXhi
  split_ifs with htest
  · -- the test fired: the guess was high, by at most two
    have hfire : u0 * B * B + u1 * B + u2 < g * (v1 * B + v2) := by
      obtain ⟨t, ht⟩ := Nat.exists_eq_add_of_le hgmul
      have hsub : u0 * B + u1 - g * v1 = t := by omega
      rw [hsub] at htest
      have hexp : u0 * B * B + u1 * B = g * v1 * B + t * B := by rw [← add_mul, ht, add_mul]
      linarith [htest.2, (by ring : g * (v1 * B + v2) = g * v1 * B + v2 * g)]
    have hlt' : q < g := by
      by_contra hge
      obtain rfl : q = g := le_antisymm hle (not_lt.mp hge)
      have h1 : (u0 * B * B + u1 * B + u2 + 1) * P ≤ q * (v1 * B + v2) * P :=
        Nat.mul_le_mul_right _ hfire
      have h2 : q * (v1 * B + v2) * P ≤ q * V := by
        rw [mul_assoc]
        exact Nat.mul_le_mul_left _ (by rw [hV]; omega)
      linarith [add_one_mul (u0 * B * B + u1 * B + u2) P]
    have htwo : g ≤ q + 2 := by
      by_contra hgt
      obtain ⟨k, rfl⟩ := Nat.exists_eq_add_of_lt (not_le.mp hgt)
      have h1 : (q + 2 + k + 1) * v1 * (B * P) < (q + 1) * ((v1 + 1) * (B * P)) :=
        calc (q + 2 + k + 1) * v1 * (B * P) ≤ (u0 * B + u1) * (B * P) :=
              Nat.mul_le_mul_right _ hgmul
          _ ≤ X := hXlo
          _ < (q + 1) * V := hXq
          _ ≤ (q + 1) * ((v1 + 1) * (B * P)) := Nat.mul_le_mul_left _ hVhi.le
      have h2 : (q + 2 + k + 1) * v1 < (q + 1) * (v1 + 1) :=
        lt_of_mul_lt_mul_right (a := B * P) (by linarith [mul_assoc (q + 1) (v1 + 1) (B * P)])
          hBP.le
      have h3 : (q + 2 + k + 1) * v1 = (q + 1) * v1 + 2 * v1 + k * v1 := by ring
      have h4 : (q + 1) * (v1 + 1) = (q + 1) * v1 + (q + 1) := by ring
      omega
    omega
  · -- the test failed: the guess is at most one high
    have hfail := (refine_test hgB hv2 hgmul).resolve_left htest
    have hone : g ≤ q + 1 := by
      by_contra hgt
      have h1 : (q + 2) * V ≤ g * V := Nat.mul_le_mul_right _ (by omega)
      have h2 : g * V ≤ X + g * r := by
        rw [hV, mul_add, hX, ← mul_assoc]
        have := Nat.mul_le_mul_right P hfail
        omega
      have h3 : g * r ≤ B * P := Nat.mul_le_mul hgB.le hr.le
      have h4 : B * P ≤ V := by
        refine le_trans ?_ hVlo
        rw [mul_assoc]
        exact Nat.le_mul_of_pos_left _ hv1pos
      linarith [add_mul q 2 V, add_mul q 1 V]
    omega

end Estimate

end GccCore.Lib.Digits
