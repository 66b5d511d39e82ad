import GccCore.Gcc.Real.Significand
import GccCore.Lib.Scaled

/-!
# `gcc/real.c`: the internal representation of floating-point numbers

The significand is a fraction: a normalized number has its most significant bit set, and its value is the significand divided by
`2 ^ SIGNIFICAND_BITS`, times two to the exponent. The exponent is a bit-field of 26 bits.

* **Hosts** (`HostLong`): a `long` has 64 or 32 bits; the significand is an array of them.
* **Values** (`RealValue.value`) of finite numbers.
* **Normalization** keeps the value (`normalize_spec`), or underflows (`normalize_underflow`).
-/

namespace GccCore.Gcc.Real

open GccCore.Lib.Digits GccCore.Lib.WordArray GccCore.Lib.Scaled

/-! ## Representation -/

/-- Source: `real.c` (`#if HOST_BITS_PER_LONG != 64 && HOST_BITS_PER_LONG != 32`). -/
def HostLong (l : ℕ) : Prop := l = 64 ∨ l = 32

/-- Source: `real.h` `SIGNIFICAND_BITS`. -/
def significandBits (l : ℕ) : ℕ := 128 + l

/-- Source: `real.h` `SIGSZ`. -/
def sigsz (l : ℕ) : ℕ := significandBits l / l

/-- Source: `real.h` `MAX_EXP`. -/
def maxExp : ℤ := 2 ^ 25 - 1

/-- Source: `real.h` `real_value_class`. -/
inductive RealValueClass
  | rvc_zero
  | rvc_normal
  | rvc_inf
  | rvc_nan
  deriving DecidableEq

/-- Source: `real.h` `struct real_value`. -/
structure RealValue (l : ℕ) where
  cl : RealValueClass
  decimal : Bool
  sign : Bool
  signalling : Bool
  canonical : Bool
  uexp : BitVec 26
  sig : Words l (sigsz l)
  deriving DecidableEq

variable {l : ℕ}

/-- Source: `real.h` `REAL_EXP`. -/
def RealValue.realExp (r : RealValue l) : ℤ := ((r.uexp ^^^ (1 : BitVec 26) <<< 25).toNat : ℤ) - 2 ^ 25

/-- Source: `real.h` `SET_REAL_EXP`. -/
def setRealExp (exp : ℤ) : BitVec 26 := BitVec.ofInt 26 exp

/-- Source: `real.c` `get_zero` (`memset (r, 0, sizeof (*r))`). -/
def getZero (l : ℕ) (sign : Bool) : RealValue l := ⟨.rvc_zero, false, sign, false, false, 0, .ofFn fun _ => 0⟩

/-- Source: `real.c` `get_inf`. -/
def getInf (l : ℕ) (sign : Bool) : RealValue l := ⟨.rvc_inf, false, sign, false, false, 0, .ofFn fun _ => 0⟩

/-- Source: `real.c` `get_canonical_qnan`. -/
def getCanonicalQnan (l : ℕ) (sign : Bool) : RealValue l := ⟨.rvc_nan, false, sign, false, true, 0, .ofFn fun _ => 0⟩

/-- Source: `real.c` `get_canonical_snan`. -/
def getCanonicalSnan (l : ℕ) (sign : Bool) : RealValue l := ⟨.rvc_nan, false, sign, true, true, 0, .ofFn fun _ => 0⟩

/-- "We underflow to zero and overflow to infinity here, without denormals." Source: `real.c` `normalize`. -/
def normalize (r : RealValue l) : RealValue l :=
  if r.decimal then r
  else
    match normalizeShift r.sig with
    | none => { r with cl := .rvc_zero, uexp := setRealExp 0 }
    | some shift =>
      if 0 < shift then
        let exp := r.realExp - shift
        if maxExp < exp then getInf l r.sign
        else if exp < -maxExp then getZero l r.sign
        else { r with uexp := setRealExp exp, sig := lshiftSignificand r.sig shift }
      else r

/-- Whether two numbers are the same. Source: `real.c` `real_identical`. -/
def realIdentical (a b : RealValue l) : Bool :=
  if a.cl ≠ b.cl then false
  else if a.sign ≠ b.sign then false
  else
    match a.cl with
    | .rvc_zero | .rvc_inf => true
    | .rvc_normal => if a.decimal ≠ b.decimal then false else if a.realExp ≠ b.realExp then false else decide (a.sig = b.sig)
    | .rvc_nan =>
      if a.signalling ≠ b.signalling then false
      else if a.canonical || b.canonical then a.canonical == b.canonical
      else decide (a.sig = b.sig)

/-! ## Values -/

/-- The absolute value of a number with a significand and an exponent. Source: `real.c` ("the significand"). -/
def RealValue.magnitude (r : RealValue l) : ℚ := scaled r.sig.toNat (r.realExp - significandBits l)

/-- The value of a finite number. Source: `real.c` ("REAL_VALUE_TYPE"). -/
def RealValue.value (r : RealValue l) : ℚ :=
  if r.cl = .rvc_normal then signed r.sign r.magnitude else 0

/-- A normalized number: the most significant bit of the significand is set.
Source: `real.c` `normalize` ("such that the most significant bit is set") -/
structure RealValue.Normalized (r : RealValue l) : Prop where
  cl : r.cl = .rvc_normal
  decimal : r.decimal = false
  sig : 2 ^ (significandBits l - 1) ≤ r.sig.toNat
  exp : -maxExp ≤ r.realExp ∧ r.realExp ≤ maxExp

/-- Zero or a normalized number. -/
def RealValue.Finite (r : RealValue l) : Prop := r.cl = .rvc_zero ∨ r.Normalized

/-- A zero that is not decimal: its significand is clear.
Source: `real.c` `get_zero` (`memset`), `normalize` ("Zero significand flushes to zero") -/
structure RealValue.Zero (r : RealValue l) : Prop where
  cl : r.cl = .rvc_zero
  decimal : r.decimal = false
  sig : r.sig.toNat = 0

/-- A number with a sign, an exponent and a significand. -/
structure RealValue.Represents (r : RealValue l) (sign : Bool) (exp : ℤ) (m : ℕ) : Prop where
  cl : r.cl = .rvc_normal
  decimal : r.decimal = false
  sign : r.sign = sign
  exp : r.realExp = exp
  sig : r.sig.toNat = m

section Hosts

variable (hl : HostLong l)

include hl

theorem HostLong.pos : 0 < l := by
  rcases hl with rfl | rfl <;> decide

/-- The words make up the significand. Source: `real.h` `SIGSZ`. Kind: L -/
theorem HostLong.mul_sigsz : l * sigsz l = significandBits l := by
  rcases hl with rfl | rfl <;> rfl

theorem RealValue.sig_lt (r : RealValue l) : r.sig.toNat < 2 ^ significandBits l := by
  rw [← hl.mul_sigsz]
  exact r.sig.toNat_lt

end Hosts

/-! ## Numbers -/

section Numbers

variable {r r' : RealValue l} {sign : Bool} {exp : ℤ} {m : ℕ}

theorem RealValue.Normalized.represents (hr : r.Normalized) : r.Represents r.sign r.realExp r.sig.toNat :=
  ⟨hr.cl, hr.decimal, rfl, rfl, rfl⟩

theorem RealValue.Represents.normalized (hr : r.Represents sign exp m) (hm : 2 ^ (significandBits l - 1) ≤ m)
    (hexp : -maxExp ≤ exp ∧ exp ≤ maxExp) : r.Normalized := by
  obtain ⟨hcl, hdec, rfl, rfl, rfl⟩ := hr
  exact ⟨hcl, hdec, hm, hexp⟩

theorem RealValue.Represents.value (hr : r.Represents sign exp m) :
    r.value = signed sign (scaled m (exp - significandBits l)) := by
  obtain ⟨hcl, -, rfl, rfl, rfl⟩ := hr
  exact if_pos hcl

/-- Numbers of one sign and one exponent are the same if their significands are. Source: `real.c` `real_identical`. Kind: L -/
theorem realIdentical_iff (hl : HostLong l) {m' : ℕ} (hr : r.Represents sign exp m) (hr' : r'.Represents sign exp m') :
    realIdentical r r' = true ↔ m = m' := by
  obtain ⟨hcl, hdec, rfl, rfl, rfl⟩ := hr
  obtain ⟨hcl', hdec', hsign, hexp, rfl⟩ := hr'
  unfold realIdentical
  rw [hcl, hcl', hsign, hdec, hdec', hexp]
  simp only [ne_eq, not_true_eq_false, if_false, decide_eq_true_eq]
  exact ⟨fun h => congrArg _ h, fun h => Words.toNat_inj hl.pos h⟩

theorem value_of_zero (hr : r.cl = .rvc_zero) : r.value = 0 := by
  unfold RealValue.value
  rw [hr]
  exact if_neg (by decide)

end Numbers

/-! ## Exponents -/

/-- Flipping the highest bit. -/
theorem xor_two_pow {u n : ℕ} (hu : u < 2 ^ (n + 1)) : u ^^^ 2 ^ n = (2 ^ n + u) % 2 ^ (n + 1) := by
  apply Nat.eq_of_testBit_eq
  intro j
  rw [Nat.testBit_xor, Nat.testBit_two_pow, Nat.testBit_mod_two_pow]
  rcases lt_trichotomy j n with hlt | rfl | hgt
  · rw [decide_eq_false hlt.ne', Bool.xor_false, decide_eq_true (by omega), Bool.true_and, Nat.testBit_two_pow_add_gt hlt]
  · rw [decide_eq_true rfl, Bool.xor_true, decide_eq_true (Nat.lt_succ_self j), Bool.true_and, Nat.testBit_two_pow_add_eq]
  · have hzero : u.testBit j = false := Nat.testBit_lt_two_pow (lt_of_lt_of_le hu (Nat.pow_le_pow_right two_pos hgt))
    rw [hzero, decide_eq_false hgt.ne, decide_eq_false (by omega), Bool.false_and, Bool.xor_false]

/-- **Exponents** of 26 bits are kept. Source: `real.h` `REAL_EXP`, `SET_REAL_EXP`. Kind: L -/
theorem realExp_eq {r : RealValue l} {exp : ℤ} (hr : r.uexp = setRealExp exp) (hexp : -2 ^ 25 ≤ exp ∧ exp < 2 ^ 25) :
    r.realExp = exp := by
  have hflip : (r.uexp ^^^ (1 : BitVec 26) <<< 25).toNat = (2 ^ 25 + r.uexp.toNat) % 2 ^ 26 := xor_two_pow r.uexp.isLt
  have hbits : (r.uexp.toNat : ℤ) = exp % 2 ^ 26 := by
    rw [hr, setRealExp, BitVec.toNat_ofInt, Int.toNat_of_nonneg (Int.emod_nonneg _ (by positivity))]
    rfl
  unfold RealValue.realExp
  rw [hflip]
  omega

/-! ## Normalization -/

section Normalize

variable (hl : HostLong l) {r : RealValue l} {s : ℕ}

include hl

/-- The shift is the one that brings the first bit to the top. Source: `real.c` `normalize` (`shift`). Kind: L -/
theorem normalizeShift_eq {a : Words l (sigsz l)} (hge : 2 ^ (significandBits l - 1) ≤ a.toNat * 2 ^ s)
    (hlt : a.toNat * 2 ^ s < 2 ^ significandBits l) : normalizeShift a = some s := by
  obtain ⟨hnone, hsome⟩ := normalizeShift_spec a
  rw [hl.mul_sigsz] at hsome
  cases hshift : normalizeShift a with
  | none =>
    rw [hnone hshift, zero_mul] at hge
    exact absurd hge (not_le.mpr (by positivity))
  | some t =>
    obtain ⟨ht, hge', hlt'⟩ := hsome t hshift
    -- two different shifts would put the first bit at two places
    have hbelow : ∀ {u v : ℕ}, u < v → 2 ^ (significandBits l - 1) ≤ a.toNat * 2 ^ u →
        ¬ a.toNat * 2 ^ v < 2 ^ significandBits l := by
      intro u v huv hu
      have hS : significandBits l = significandBits l - 1 + 1 := by omega
      rw [not_lt, hS, pow_succ]
      calc 2 ^ (significandBits l - 1) * 2 ≤ a.toNat * 2 ^ u * 2 := Nat.mul_le_mul_right 2 hu
        _ = a.toNat * 2 ^ (u + 1) := by rw [pow_succ, mul_assoc]
        _ ≤ a.toNat * 2 ^ v := Nat.mul_le_mul_left _ (Nat.pow_le_pow_right two_pos huv)
    have hgeT : 2 ^ (significandBits l - 1) ≤ a.toNat * 2 ^ t := by
      calc 2 ^ (significandBits l - 1) = 2 ^ (significandBits l - 1 - t) * 2 ^ t := by rw [← pow_add]; congr 1; omega
        _ ≤ a.toNat * 2 ^ t := Nat.mul_le_mul_right _ hge'
    have hltT : a.toNat * 2 ^ t < 2 ^ significandBits l := by
      calc a.toNat * 2 ^ t < 2 ^ (significandBits l - t) * 2 ^ t := Nat.mul_lt_mul_of_pos_right hlt' (by positivity)
        _ = 2 ^ significandBits l := by rw [← pow_add]; congr 1; omega
    rcases lt_trichotomy s t with hst | rfl | hts
    · exact absurd hltT (hbelow hst hge)
    · rfl
    · exact absurd hlt (hbelow hts hgeT)

/-- A number that has its first bit at the top is normalized. Source: `real.c` `normalize`. Kind: L -/
theorem normalize_of_msb (hmsb : 2 ^ (significandBits l - 1) ≤ r.sig.toNat) : normalize r = r := by
  have hshift : normalizeShift r.sig = some 0 := by
    refine normalizeShift_eq hl ?_ ?_
    · rwa [pow_zero, mul_one]
    · rw [pow_zero, mul_one]
      exact r.sig_lt hl
  unfold normalize
  rw [hshift]
  simp

variable {sign : Bool} {exp : ℤ} {m : ℕ} (hr : r.Represents sign exp m) (hmax : exp ≤ maxExp)
  (hge : 2 ^ (significandBits l - 1) ≤ m * 2 ^ s) (hlt : m * 2 ^ s < 2 ^ significandBits l)

include hr hge hlt

/-- **A number that is too small** becomes zero. Source: `real.c` `normalize` (`exp < -MAX_EXP`). Kind: L -/
theorem normalize_underflow (hpos : 0 < s) (hlow : exp - s < -maxExp) : normalize r = getZero l sign := by
  obtain ⟨-, hdec, rfl, rfl, rfl⟩ := hr
  have hmaxExp : 0 < maxExp := by decide
  unfold normalize
  rw [hdec, if_neg Bool.false_ne_true, normalizeShift_eq hl hge hlt]
  dsimp only
  rw [if_pos hpos, if_neg (by omega), if_pos hlow]

include hmax

/-- **Normalization** brings the first bit to the top and adjusts the exponent. Source: `real.c` `normalize`. Kind: L -/
theorem normalize_spec (hlow : -maxExp ≤ exp - s) : (normalize r).Represents sign (exp - s) (m * 2 ^ s) := by
  obtain ⟨hcl, hdec, rfl, rfl, rfl⟩ := hr
  rcases Nat.eq_zero_or_pos s with rfl | hpos
  · rw [pow_zero, mul_one] at hge ⊢
    rw [normalize_of_msb hl hge, Nat.cast_zero, sub_zero]
    exact ⟨hcl, hdec, rfl, rfl, rfl⟩
  · have hcases : normalize r = { r with uexp := setRealExp (r.realExp - s), sig := lshiftSignificand r.sig s } := by
      unfold normalize
      rw [hdec, if_neg Bool.false_ne_true, normalizeShift_eq hl hge hlt]
      dsimp only
      rw [if_pos hpos, if_neg (by omega), if_neg (by omega)]
    rw [hcases]
    refine ⟨hcl, hdec, rfl, realExp_eq rfl ?_, ?_⟩
    · unfold maxExp at *
      omega
    · dsimp only
      rw [lshiftSignificand_toNat hl.pos, hl.mul_sigsz, Nat.mod_eq_of_lt hlt]

end Normalize

end GccCore.Gcc.Real
