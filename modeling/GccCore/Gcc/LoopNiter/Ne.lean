import GccCore.Gcc.LoopNiter.Inverse
import GccCore.Lib.MachineInt

/-!
# `gcc/tree-ssa-loop-niter.c`: loops that end with `!=`

The values of expressions of a type of `p` bits are `BitVec p`; the step of the induction variable is a constant. The count is
computed in an unsigned type of `q` bits, which the hook `type_for_size` picks: it is wider than a signed type whose precision
is not that of a standard type.

* **The code** (`neStep`, `neDifference`, `neCount`): the step is made positive, and the count comes from an inverse of its
  odd part.
* **The count in the unsigned type** (`neCount_spec`): it is the least number of steps after which the final value is reached
  modulo `2 ^ q`, and the recorded assumption says that there is such a number.
* **When the count is exact** (`number_of_iterations_ne_exact_iff`): if the variable wraps around as if it had `q` bits.
-/

namespace GccCore.Gcc.LoopNiter

open GccCore.Gcc.FoldConst GccCore.Lib.LinearCongruence GccCore.Lib.MachineInt

/-! ## The code -/

/-- An expression in the unsigned type of `q` bits. Source: `tree-ssa-loop-niter.c` `number_of_iterations_ne` (`fold_convert`). -/
def foldConvert (unsigned : Bool) {p : ℕ} (q : ℕ) (x : BitVec p) : BitVec q :=
  if unsigned then x.setWidth q else x.signExtend q

/-- The step made positive, in the unsigned type.
Source: `tree-ssa-loop-niter.c` `number_of_iterations_ne` (`s`) -/
def neStep (unsigned : Bool) {p : ℕ} (q : ℕ) (step : BitVec p) : BitVec q :=
  foldConvert unsigned q (if step.msb then -step else step)

/-- The difference that is covered in steps of `s`.
Source: `tree-ssa-loop-niter.c` `number_of_iterations_ne` (`c`) -/
def neDifference (unsigned : Bool) {p : ℕ} (q : ℕ) (step base final : BitVec p) : BitVec q :=
  if step.msb then foldConvert unsigned q base - foldConvert unsigned q final
  else foldConvert unsigned q final - foldConvert unsigned q base

/-- The recorded assumption and the number of iterations, as they evaluate.
Source: `tree-ssa-loop-niter.c` `number_of_iterations_ne` -/
def neCount (e : ℕ) {p : ℕ} (neverInfinite : Bool) (s c : BitVec p) : Bool × BitVec p :=
  if s = 1#p then (true, c)
  else
    let bits := numEndingZeros p (buildIntCst s.toNat : IntCst e)
    let bound : IntCst e := buildLowBitsMask (p - bits)
    let d := 1#p <<< bits
    let s := s >>> bits
    let inv := inverse p (buildIntCst s.toNat : IntCst e) bound
    let assumption := neverInfinite || decide (c % d = 0)
    let c := c / d
    let tmp := c * BitVec.ofNat p inv.toNat
    (assumption, tmp &&& BitVec.ofNat p bound.toNat)

/-- The assumption and the count for an induction variable with a constant step.
Source: `tree-ssa-loop-niter.c` `number_of_iterations_ne` -/
def numberOfIterationsNe (e : ℕ) (unsigned : Bool) {p : ℕ} (q : ℕ) (step base final : BitVec p) (neverInfinite : Bool) :
    Bool × BitVec q :=
  neCount e neverInfinite (neStep unsigned q step) (neDifference unsigned q step base final)

/-! ## The count in the unsigned type -/

section Count

variable {e p : ℕ} {s c : BitVec p}

/-- A product of an odd factor, for a step that is not zero. Source: `tree.c` `num_ending_zeros`. Kind: L -/
theorem exists_odd_part (hp : p ≤ 4 * 2 ^ e) (hs : s ≠ 0) :
    numEndingZeros p (buildIntCst s.toNat : IntCst e) < p ∧
      s.toNat = 2 ^ numEndingZeros p (buildIntCst s.toNat : IntCst e) *
        (s >>> numEndingZeros p (buildIntCst s.toNat : IntCst e)).toNat ∧
      (s >>> numEndingZeros p (buildIntCst s.toNat : IntCst e)).toNat % 2 = 1 := by
  have hlt : s.toNat < 2 ^ (4 * 2 ^ e) := lt_of_lt_of_le s.isLt (Nat.pow_le_pow_right (by omega) hp)
  have hpos : 0 < s.toNat := by
    apply Nat.pos_of_ne_zero
    intro hzero
    exact hs (BitVec.eq_of_toNat_eq hzero)
  have hcst : (buildIntCst s.toNat : IntCst e).toNat = s.toNat := buildIntCst_toNat hlt
  obtain ⟨hbits, u, hu, hodd⟩ := numEndingZeros_spec (p := p) (x := (buildIntCst s.toNat : IntCst e))
    (by rw [hcst]; exact hpos) (by rw [hcst]; exact s.isLt)
  rw [hcst] at hu
  have hshift : (s >>> numEndingZeros p (buildIntCst s.toNat : IntCst e)).toNat = u := by
    rw [BitVec.toNat_ushiftRight, Nat.shiftRight_eq_div_pow]
    nth_rewrite 1 [hu]
    exact Nat.mul_div_cancel_left u (by positivity)
  rw [hshift]
  exact ⟨hbits, hu, hodd⟩

/-- **The count** for a positive step: the assumption says that the difference can be covered, and then the count is the
least number of steps that covers it.
Source: `tree-ssa-loop-niter.c` `number_of_iterations_ne`
Kind: L -/
theorem neCount_spec (hp0 : 0 < p) (hp : p ≤ 4 * 2 ^ e) (hs : s ≠ 0) (neverInfinite : Bool) :
    (∀ k, IsLeast {k | k * s.toNat ≡ c.toNat [MOD 2 ^ p]} k → (neCount e neverInfinite s c).1 = true ∧
      (neCount e neverInfinite s c).2.toNat = k) ∧
    ((¬ ∃ k, k * s.toNat ≡ c.toNat [MOD 2 ^ p]) → (neCount e false s c).1 = false) := by
  unfold neCount
  by_cases hone : s = 1#p
  · have hsone : s.toNat = 1 := by
      rw [hone]
      exact BitVec.toNat_one hp0
    rw [if_pos hone, if_pos hone, hsone]
    refine ⟨?_, ?_⟩
    · intro k hk
      refine ⟨rfl, ?_⟩
      have hle : k ≤ c.toNat := hk.2 (by simp [Nat.ModEq.refl])
      have hmod : k * 1 ≡ c.toNat [MOD 2 ^ p] := hk.1
      rw [Nat.mul_one, Nat.ModEq, Nat.mod_eq_of_lt c.isLt, Nat.mod_eq_of_lt (lt_of_le_of_lt hle c.isLt)] at hmod
      exact hmod.symm
    · intro hnone
      exact absurd ⟨c.toNat, by simp [Nat.ModEq.refl]⟩ hnone
  · rw [if_neg hone, if_neg hone]
    dsimp only
    obtain ⟨hbits, hsplit, hodd⟩ := exists_odd_part hp hs
    generalize hb : numEndingZeros p (buildIntCst s.toNat : IntCst e) = bits at hbits hsplit hodd ⊢
    generalize hu : s >>> bits = u at hsplit hodd ⊢
    have hmask : (buildLowBitsMask (p - bits) : IntCst e).toNat = 2 ^ (p - bits) - 1 :=
      buildLowBitsMask_toNat (by omega)
    have hcst : (buildIntCst u.toNat : IntCst e).toNat = u.toNat :=
      buildIntCst_toNat (lt_of_lt_of_le u.isLt (Nat.pow_le_pow_right (by omega) hp))
    obtain ⟨hinv, hinvlt⟩ := inverse_spec (p := p) (t := p - bits) (x := (buildIntCst u.toNat : IntCst e)) hp
      (by omega) (by omega) (by rw [hcst]; exact u.isLt) (by rw [hcst]; exact hodd) hmask
    rw [hcst] at hinv
    generalize (inverse p (buildIntCst u.toNat : IntCst e) (buildLowBitsMask (p - bits))).toNat = v
      at hinv hinvlt ⊢
    have hd : (1#p <<< bits).toNat = 2 ^ bits := by
      rw [BitVec.toNat_shiftLeft, BitVec.toNat_one hp0, Nat.shiftLeft_eq, Nat.one_mul]
      exact Nat.mod_eq_of_lt (Nat.pow_lt_pow_right (by omega) hbits)
    have hmodulus : 2 ^ p = 2 ^ bits * 2 ^ (p - bits) := by
      rw [← pow_add]
      congr 1
      omega
    have hdpos : 0 < 2 ^ bits := by positivity
    have hassume : (c % 1#p <<< bits = 0) ↔ 2 ^ bits ∣ c.toNat := by
      rw [← BitVec.toNat_inj, BitVec.toNat_umod, hd]
      exact (Nat.dvd_iff_mod_eq_zero).symm
    have hcount : (c / 1#p <<< bits * BitVec.ofNat p v &&&
        BitVec.ofNat p (buildLowBitsMask (p - bits) : IntCst e).toNat).toNat =
          c.toNat / 2 ^ bits * v % 2 ^ (p - bits) := by
      have hle : 2 ^ (p - bits) ≤ 2 ^ p := Nat.pow_le_pow_right (by omega) (by omega)
      have htpos : 0 < 2 ^ (p - bits) := by positivity
      rw [hmask, BitVec.toNat_and, BitVec.toNat_ofNat, Nat.mod_eq_of_lt (by omega), Nat.and_two_pow_sub_one_eq_mod,
        BitVec.toNat_mul, BitVec.toNat_udiv, hd, BitVec.toNat_ofNat,
        Nat.mod_mod_of_dvd _ (Nat.pow_dvd_pow 2 (Nat.sub_le p bits))]
      exact (Nat.mod_modEq _ _).of_dvd (Nat.pow_dvd_pow 2 (Nat.sub_le p bits)) |>.mul_left _
    rw [hsplit, hmodulus]
    refine ⟨?_, ?_⟩
    · intro k hk
      have hdvd : 2 ^ bits ∣ c.toNat := dvd_of_mul_modEq hk.1
      refine ⟨?_, ?_⟩
      · rw [Bool.or_eq_true, decide_eq_true_eq, hassume]
        exact Or.inr hdvd
      · rw [hcount]
        have hleast := isLeast_mul_modEq (c := c.toNat / 2 ^ bits) hdpos hinv
        rw [Nat.mul_div_cancel' hdvd] at hleast
        exact hleast.unique hk
    · intro hnone
      rw [Bool.false_or, decide_eq_false_iff_not, hassume]
      intro hdvd
      apply hnone
      have hleast := isLeast_mul_modEq (c := c.toNat / 2 ^ bits) hdpos hinv
      rw [Nat.mul_div_cancel' hdvd] at hleast
      exact ⟨_, hleast.1⟩

end Count

/-! ## Both directions -/

/-- The step that is taken, as a number: the least value of a signed type is its own negation.
Source: `tree-ssa-loop-niter.c` `number_of_iterations_ne` (`NEGATE_EXPR`) -/
def stepTaken (unsigned : Bool) {p : ℕ} (step : BitVec p) : ℤ :=
  if step.msb then -valueIn unsigned (-step) else valueIn unsigned step

section Directions

variable {p q : ℕ} (unsigned : Bool)

/-- What is reached with `q` bits is reached with `p`. -/
theorem modEq_of_le (hpq : p ≤ q) {x y : ℤ} (h : x ≡ y [ZMOD 2 ^ q]) : x ≡ y [ZMOD 2 ^ p] := h.of_dvd (pow_dvd_pow 2 hpq)

/-- A conversion keeps the value modulo the width. Source: `tree-ssa-loop-niter.c` `number_of_iterations_ne`. Kind: L -/
theorem foldConvert_modEq (hpq : p ≤ q) (x : BitVec p) :
    ((foldConvert unsigned q x).toNat : ℤ) ≡ valueIn unsigned x [ZMOD 2 ^ q] := by
  unfold foldConvert valueIn
  cases unsigned with
  | true =>
    rw [if_pos rfl, if_pos rfl, BitVec.toNat_setWidth]
    push_cast
    exact Int.mod_modEq _ _
  | false =>
    rw [if_neg Bool.false_ne_true, if_neg Bool.false_ne_true, ← BitVec.toInt_signExtend_of_le hpq]
    exact (valueIn_modEq false _).symm

theorem toNat_sub_add (x y : BitVec p) : (x - y).toNat + y.toNat ≡ x.toNat [MOD 2 ^ p] := by
  have hy := y.isLt
  rw [BitVec.toNat_sub]
  calc (2 ^ p - y.toNat + x.toNat) % 2 ^ p + y.toNat
      ≡ 2 ^ p - y.toNat + x.toNat + y.toNat [MOD 2 ^ p] := (Nat.mod_modEq _ _).add_right _
    _ = x.toNat + 2 ^ p := by omega
    _ ≡ x.toNat [MOD 2 ^ p] := by simp [Nat.ModEq]

theorem toNat_sub_modEq (x y : BitVec p) : ((x - y).toNat : ℤ) ≡ x.toNat - y.toNat [ZMOD 2 ^ p] := by
  have h : (((x - y).toNat + y.toNat : ℕ) : ℤ) ≡ (x.toNat : ℕ) [ZMOD ((2 ^ p : ℕ) : ℤ)] :=
    (Int.natCast_modEq_iff).mpr (toNat_sub_add x y)
  push_cast at h
  calc ((x - y).toNat : ℤ) = (x - y).toNat + y.toNat - y.toNat := by ring
    _ ≡ x.toNat - y.toNat [ZMOD 2 ^ p] := h.sub_right _

/-- The difference of two values in the direction of the step. Source: `tree-ssa-loop-niter.c` `number_of_iterations_ne`. -/
def exactDifference (step base final : BitVec p) : ℤ :=
  if step.msb then valueIn unsigned base - valueIn unsigned final
  else valueIn unsigned final - valueIn unsigned base

theorem neDifference_modEq (hpq : p ≤ q) (step base final : BitVec p) :
    ((neDifference unsigned q step base final).toNat : ℤ) ≡ exactDifference unsigned step base final [ZMOD 2 ^ q] := by
  unfold neDifference exactDifference
  split
  · exact (toNat_sub_modEq _ _).trans ((foldConvert_modEq unsigned hpq base).sub (foldConvert_modEq unsigned hpq final))
  · exact (toNat_sub_modEq _ _).trans ((foldConvert_modEq unsigned hpq final).sub (foldConvert_modEq unsigned hpq base))

/-- **The difference is covered** in steps of the made positive step as often as the variable, with up to `q` bits, reaches the
final value.
Source: `tree-ssa-loop-niter.c` `number_of_iterations_ne` ("Rearrange the terms")
Kind: L -/
theorem mul_neStep_modEq_iff (hpq : p ≤ q) {m : ℕ} (hm : m ≤ q) (step base final : BitVec p) (k : ℕ) :
    k * (neStep unsigned q step).toNat ≡ (neDifference unsigned q step base final).toNat [MOD 2 ^ m] ↔
      valueIn unsigned base + k * stepTaken unsigned step ≡ valueIn unsigned final [ZMOD 2 ^ m] := by
  have hdiff := modEq_of_le hm (neDifference_modEq unsigned hpq step base final)
  have hstep := modEq_of_le hm (foldConvert_modEq unsigned hpq (if step.msb then -step else step))
  have hcast : k * (neStep unsigned q step).toNat ≡ (neDifference unsigned q step base final).toNat [MOD 2 ^ m] ↔
      (k * (neStep unsigned q step).toNat : ℤ) ≡ (neDifference unsigned q step base final).toNat [ZMOD 2 ^ m] := by
    rw [← Int.natCast_modEq_iff]
    push_cast
    rfl
  have hexact : (k * (neStep unsigned q step).toNat : ℤ) ≡ (neDifference unsigned q step base final).toNat [ZMOD 2 ^ m] ↔
      k * valueIn unsigned (if step.msb then -step else step) ≡ exactDifference unsigned step base final [ZMOD 2 ^ m] :=
    ⟨fun h => (hstep.symm.mul_left _).trans (h.trans hdiff), fun h => (hstep.mul_left _).trans (h.trans hdiff.symm)⟩
  rw [hcast, hexact, Int.modEq_iff_dvd, Int.modEq_iff_dvd]
  unfold exactDifference stepTaken
  split
  · rw [← dvd_neg]
    congr! 1
    ring
  · congr! 1
    ring

/-- The variable reaches the final value modulo the width of its type. Source: `tree-ssa-loop-niter.c` `number_of_iterations_ne`. Kind: L -/
theorem reaches_iff (step base final : BitVec p) (k : ℕ) :
    base.toNat + k * step.toNat ≡ final.toNat [MOD 2 ^ p] ↔
      valueIn unsigned base + k * stepTaken unsigned step ≡ valueIn unsigned final [ZMOD 2 ^ p] := by
  have hstep : stepTaken unsigned step ≡ step.toNat [ZMOD 2 ^ p] := by
    unfold stepTaken
    split
    · have hneg := toNat_sub_modEq 0#p step
      rw [BitVec.zero_sub, BitVec.toNat_zero, Nat.cast_zero, zero_sub] at hneg
      simpa using ((valueIn_modEq unsigned (-step)).trans hneg).neg
    · exact valueIn_modEq unsigned step
  have hleft : valueIn unsigned base + k * stepTaken unsigned step ≡ base.toNat + k * step.toNat [ZMOD 2 ^ p] :=
    (valueIn_modEq unsigned base).add (hstep.mul_left _)
  have hright := valueIn_modEq unsigned final
  rw [← Int.natCast_modEq_iff]
  push_cast
  exact ⟨fun h => hleft.trans (h.trans hright.symm), fun h => hleft.symm.trans (h.trans hright)⟩

theorem neStep_ne_zero (hpq : p ≤ q) {step : BitVec p} (h : step ≠ 0) : neStep unsigned q step ≠ 0 := by
  intro hzero
  have hcovered := (mul_neStep_modEq_iff unsigned hpq le_rfl step 0 0 1).mp (by
    rw [hzero, neDifference]
    simp [Nat.ModEq])
  have hreached := (reaches_iff unsigned step 0 0 1).mpr (modEq_of_le hpq hcovered)
  apply h
  rw [← BitVec.toNat_inj]
  simpa [Nat.ModEq, Nat.mod_eq_of_lt step.isLt] using hreached

end Directions

/-! ## When the count is exact -/

section Exact

variable (e : ℕ) (unsigned : Bool) {p : ℕ} (q : ℕ) (step base final : BitVec p)

/-- **The count is exact**: if the final value is reached at all, the assumption holds and the count is the least number of steps
that reaches it; otherwise the assumption is false.
Source: `tree-ssa-loop-niter.c` `number_of_iterations_ne` -/
def CountExact : Prop :=
  (∀ k, IsLeast {k | base.toNat + k * step.toNat ≡ final.toNat [MOD 2 ^ p]} k →
    (numberOfIterationsNe e unsigned q step base final false).1 = true ∧
      (numberOfIterationsNe e unsigned q step base final false).2.toNat = k) ∧
  ((¬ ∃ k, base.toNat + k * step.toNat ≡ final.toNat [MOD 2 ^ p]) →
    (numberOfIterationsNe e unsigned q step base final false).1 = false)

variable {q}

/-- **Counts of `!=` loops** are exact if and only if the final value, if it is reached at all, is first reached modulo `2 ^ q`;
that is always so if the unsigned type has the precision of the type. The inverse is one in both branches.
Source: `tree-ssa-loop-niter.c` `number_of_iterations_ne`, `inverse`; `c-common.c` `c_common_type_for_size`
Kind: P -/
theorem number_of_iterations_ne_exact_iff (hp0 : 0 < p) (hpq : p ≤ q) (hq : q ≤ 2 * hostBitsPerWideInt e) (hstep : step ≠ 0) :
    (CountExact e unsigned q step base final ↔
      ∀ k, IsLeast {k | base.toNat + k * step.toNat ≡ final.toNat [MOD 2 ^ p]} k →
        valueIn unsigned base + k * stepTaken unsigned step ≡ valueIn unsigned final [ZMOD 2 ^ q]) ∧
    (q = p → CountExact e unsigned q step base final) ∧
    ∀ t x, 0 < t → t ≤ q → x < 2 ^ q → x % 2 = 1 →
      x * (inverse q (buildIntCst x : IntCst e) (buildLowBitsMask t)).toNat ≡ 1 [MOD 2 ^ t] := by
  have hq' : q ≤ 4 * 2 ^ e := by
    unfold hostBitsPerWideInt at hq
    omega
  obtain ⟨hcount, hnone⟩ := neCount_spec (c := neDifference unsigned q step base final) (by omega : 0 < q) hq'
    (neStep_ne_zero unsigned hpq hstep) false
  simp only [mul_neStep_modEq_iff unsigned hpq le_rfl] at hcount hnone
  -- what is reached modulo `2 ^ q` is reached modulo `2 ^ p`
  have hreach {k : ℕ} (h : valueIn unsigned base + k * stepTaken unsigned step ≡ valueIn unsigned final [ZMOD 2 ^ q]) :
      base.toNat + k * step.toNat ≡ final.toNat [MOD 2 ^ p] := (reaches_iff unsigned step base final k).mpr (modEq_of_le hpq h)
  have hiff : CountExact e unsigned q step base final ↔
      ∀ k, IsLeast {k | base.toNat + k * step.toNat ≡ final.toNat [MOD 2 ^ p]} k →
        valueIn unsigned base + k * stepTaken unsigned step ≡ valueIn unsigned final [ZMOD 2 ^ q] := by
    constructor
    · intro hexact k hk
      obtain ⟨hassumed, hvalue⟩ := hexact.1 k hk
      have hsome : ∃ k : ℕ, valueIn unsigned base + k * stepTaken unsigned step ≡ valueIn unsigned final [ZMOD 2 ^ q] := by
        by_contra hnot
        exact Bool.false_ne_true ((hnone hnot).symm.trans hassumed)
      classical
      have hleast : IsLeast {k : ℕ | valueIn unsigned base + k * stepTaken unsigned step ≡ valueIn unsigned final [ZMOD 2 ^ q]}
          (Nat.find hsome) := ⟨Nat.find_spec hsome, fun _ h => Nat.find_min' hsome h⟩
      have hsame : Nat.find hsome = k := (hcount _ hleast).2.symm.trans hvalue
      exact hsame ▸ Nat.find_spec hsome
    · intro hwide
      refine ⟨fun k hk => hcount k ⟨hwide k hk, fun j hj => hk.2 (hreach hj)⟩, fun hnot => hnone ?_⟩
      rintro ⟨k, hk⟩
      exact hnot ⟨k, hreach hk⟩
  refine ⟨hiff, ?_, ?_⟩
  · rintro rfl
    exact hiff.mpr fun k hk => (reaches_iff unsigned step base final k).mp hk.1
  · intro t x ht htq hx hodd
    have hcst : (buildIntCst x : IntCst e).toNat = x :=
      buildIntCst_toNat (lt_of_lt_of_le hx (Nat.pow_le_pow_right (by omega) hq'))
    obtain ⟨hinv, _⟩ := inverse_spec (x := (buildIntCst x : IntCst e)) hq' ht htq (by rw [hcst]; exact hx)
      (by rw [hcst]; exact hodd) (buildLowBitsMask_toNat (by omega))
    rw [hcst] at hinv
    exact hinv

end Exact

/-- From `0` in steps of `-7` a variable of five bits is `-14` after two steps, counted in eight bits. Source: none: witness. Kind: C -/
theorem number_of_iterations_ne_exact_two :
    (numberOfIterationsNe 5 false 8 (-7#5) 0#5 (-14#5) false).1 = true ∧
      (numberOfIterationsNe 5 false 8 (-7#5) 0#5 (-14#5) false).2.toNat = 2 := by
  have hleast : IsLeast {k | (0#5).toNat + k * (-7#5).toNat ≡ (-14#5).toNat [MOD 2 ^ 5]} 2 := by
    refine ⟨by decide, fun k hk => ?_⟩
    change (0 + k * 25) % 32 = 18 % 32 at hk
    omega
  refine ((number_of_iterations_ne_exact_iff 5 false (-7#5) 0#5 (-14#5) (by decide) (by decide : 5 ≤ 8) (by decide)
    (by decide)).1.mpr fun k hk => ?_).1 2 hleast
  rw [hk.unique hleast]
  decide

/-- **A signed type of five bits**, counted in eight: from `0` in steps of `7` the variable wraps around once and is `3` after five
steps, and the count is 37.
Source: `tree-ssa-loop-niter.c` `number_of_iterations_ne` (`unsigned_type_for`), `c-common.c` `c_common_type_for_size`
Kind: C -/
theorem number_of_iterations_ne_thirty_seven :
    ¬ CountExact 5 false 8 7#5 0#5 3#5 ∧ (numberOfIterationsNe 5 false 8 7#5 0#5 3#5 false).2 = 37#8 := by
  have hvalue : (numberOfIterationsNe 5 false 8 7#5 0#5 3#5 false).2 = 37#8 := by decide +kernel
  refine ⟨fun hexact => ?_, hvalue⟩
  have hleast : IsLeast {k | (0#5).toNat + k * (7#5).toNat ≡ (3#5).toNat [MOD 2 ^ 5]} 5 := by
    refine ⟨by decide, fun k hk => ?_⟩
    change (0 + k * 7) % 32 = 3 % 32 at hk
    omega
  have hcount := (hexact.1 5 hleast).2
  rw [hvalue] at hcount
  exact absurd hcount (by decide)

end GccCore.Gcc.LoopNiter
