import GccCore.Gcc.FixedValue.Narrow

/-!
# `gcc/fixed-value.c`: modes of two words

The exact result of a product, a scaled dividend or a shift needs four words. It is kept in two halves of two words each,
the upper half with a sign.

* **Halves** (`Halves`): the integer that two halves stand for, if the upper one does not wrap.
* **Products** (`halves_wideProduct`, `halves_signedHigh`) and their shift to the right (`halves_shiftHalves`).
* **Quotients**: the bitwise division (`divideBits_spec`) and the change of sign (`halves_negHalves`).
* **Shifts to the left** (`halves_shift_left`).
-/

set_option linter.unusedSectionVars false

namespace GccCore.Gcc.FixedValue

open GccCore.Gcc.FoldConst GccCore.Lib.MachineInt

variable {h : ℕ} (hh : 0 < h) (truncated : Bool) {m : FixedMode h}

/-! ## Halves -/

/-- The two halves are those of the integer, the upper one modulo its width. -/
def Halves (r s : DoubleWord h) (z : ℤ) : Prop := ∃ high : ℤ, Rep r high ∧ high * 2 ^ (4 * h) + s.toNat = z

section Halves

variable {r s : DoubleWord h} {z : ℤ}

include hh

/-- An integer that fits in the halves is their value. -/
theorem Halves.value_eq {uns : Bool} (hz : Halves r s z) (hin : inType (2 * (4 * h)) uns z) :
    valueIn uns r.bits * 2 ^ (4 * h) + s.toNat = z := by
  obtain ⟨high, hr, hsum⟩ := hz
  have hslt : (s.toNat : ℤ) < 2 ^ (4 * h) := by exact_mod_cast s.toNat_lt
  have hs0 : (0 : ℤ) ≤ s.toNat := Int.natCast_nonneg _
  have hpos : (0 : ℤ) < 2 ^ (4 * h) := by positivity
  rw [hr.valueIn_eq hh _, hsum]
  unfold inType at hin ⊢
  cases uns with
  | true =>
    rw [if_pos rfl] at hin ⊢
    rw [two_mul, pow_add] at hin
    constructor
    · nlinarith
    · nlinarith
  | false =>
    rw [if_neg Bool.false_ne_true] at hin ⊢
    rw [show 2 * (4 * h) - 1 = (4 * h - 1) + 4 * h by omega, pow_add] at hin
    constructor
    · nlinarith
    · nlinarith

/-- The lower half is the integer modulo its width. -/
theorem Halves.rep_low (hz : Halves r s z) : Rep s z := by
  obtain ⟨high, -, hsum⟩ := hz
  apply Rep.of_modEq hh
  exact Int.modEq_iff_dvd.mpr ⟨high, by rw [← hsum]; ring⟩

/-- **A result in two halves**, saturated and extended. Source: `fixed-value.c` `fixed_saturate2`. Kind: L -/
theorem computes_saturate2 (hz : Halves r s z) (hin : inType (2 * (4 * h)) m.unsigned z) (sat : Bool) :
    Computes m sat z (doubleIntExt (fixedSaturate2 truncated m r s s sat).1 m.width m.unsigned,
      (fixedSaturate2 truncated m r s s sat).2) := by
  apply Saturates.computes hh
  exact fixedSaturate2_spec hh truncated (hz.value_eq hh hin) ((hz.rep_low hh).setWidth m.width_le_four) sat

end Halves

/-! ## The product -/

section Product

variable {a b : DoubleWord h} {x y : ℤ}

theorem toNat_low (w : Word h) : (⟨w, 0⟩ : DoubleWord h).toNat = w.toNat := by
  unfold DoubleWord.toNat
  simp

theorem toNat_high (w : Word h) : (⟨0, w⟩ : DoubleWord h).toNat = w.toNat * 2 ^ (2 * h) := by
  unfold DoubleWord.toNat
  simp

theorem two_pow_four : (2 : ℕ) ^ (4 * h) = 2 ^ (2 * h) * 2 ^ (2 * h) := by
  rw [← pow_add]
  congr 1
  omega

include hh

/-- The product of two words is exact. Source: `fixed-value.c` `do_fixed_multiply` (`low_low`). Kind: L -/
theorem toNat_mul_words (u v : Word h) : (doubleIntMul ⟨u, 0⟩ ⟨v, 0⟩ : DoubleWord h).toNat = u.toNat * v.toNat := by
  have hu := u.isLt
  have hv := v.isLt
  have hlt : u.toNat * v.toNat < 2 ^ (4 * h) := by
    rw [two_pow_four]
    exact Nat.mul_lt_mul'' hu hv
  rw [← DoubleWord.toNat_bits, bits_mul hh, BitVec.toNat_mul, DoubleWord.toNat_bits, DoubleWord.toNat_bits, toNat_low,
    toNat_low, Nat.mod_eq_of_lt hlt]

/-- A sum with its carry. Source: `fixed-value.c` `do_fixed_multiply` (`carry++`). Kind: L -/
theorem addCarry_spec (u v : DoubleWord h) :
    (addCarry u v).1.toNat + (if (addCarry u v).2 then 2 ^ (4 * h) else 0) = u.toNat + v.toNat := by
  have hsum : (doubleIntAdd u v).toNat = (u.toNat + v.toNat) % 2 ^ (4 * h) := by
    rw [← DoubleWord.toNat_bits, bits_add hh, BitVec.toNat_add, DoubleWord.toNat_bits, DoubleWord.toNat_bits]
  have hvalue : ∀ w : DoubleWord h, valueIn true w.bits = w.toNat := by
    intro w
    unfold valueIn
    rw [if_pos rfl, w.toNat_bits]
  have hu := u.toNat_lt
  have hv := v.toNat_lt
  unfold addCarry
  simp only [doubleIntCmp_eq_neg_one_iff hh, hvalue, hsum, decide_eq_true_eq, Nat.cast_lt]
  by_cases hover : u.toNat + v.toNat < 2 ^ (4 * h)
  · rw [Nat.mod_eq_of_lt hover, if_neg (by omega), add_zero]
  · have hmod : (u.toNat + v.toNat) % 2 ^ (4 * h) = u.toNat + v.toNat - 2 ^ (4 * h) := by
      rw [Nat.mod_eq_sub_mod (by omega), Nat.mod_eq_of_lt (by omega)]
    rw [hmod, if_pos (by omega)]
    omega

/-- **The unsigned product** in two halves. Source: `fixed-value.c` `do_fixed_multiply` ("Accumulate four results"). Kind: L -/
theorem halves_wideProduct (a b : DoubleWord h) :
    Halves (wideProduct a b).1 (wideProduct a b).2 ((a.toNat : ℤ) * b.toNat) := by
  have hlowLow := toNat_mul_words hh a.low b.low
  have hlowHigh := toNat_mul_words hh a.low b.high
  have hhighLow := toNat_mul_words hh a.high b.low
  have hhighHigh := toNat_mul_words hh a.high b.high
  unfold wideProduct
  dsimp only
  generalize doubleIntMul ⟨a.low, 0⟩ ⟨b.low, 0⟩ = lowLow at hlowLow ⊢
  generalize doubleIntMul ⟨a.low, 0⟩ ⟨b.high, 0⟩ = lowHigh at hlowHigh ⊢
  generalize doubleIntMul ⟨a.high, 0⟩ ⟨b.low, 0⟩ = highLow at hhighLow ⊢
  generalize doubleIntMul ⟨a.high, 0⟩ ⟨b.high, 0⟩ = highHigh at hhighHigh ⊢
  have hfirst := addCarry_spec hh lowLow ⟨0, highLow.low⟩
  have hsecond := addCarry_spec hh (addCarry lowLow ⟨0, highLow.low⟩).1 ⟨0, lowHigh.low⟩
  rw [toNat_high] at hfirst hsecond
  generalize hs₁ : addCarry lowLow ⟨0, highLow.low⟩ = sum₁ at hfirst hsecond ⊢
  generalize hs₂ : addCarry sum₁.1 ⟨0, lowHigh.low⟩ = sum₂ at hsecond ⊢
  have hcarry : (⟨(if sum₁.2 then 1 else 0) + (if sum₂.2 then 1 else 0), 0⟩ : DoubleWord h).toNat =
      (if sum₁.2 then 1 else 0) + (if sum₂.2 then 1 else 0) := by
    have hone := one_toNat hh
    have htwo : 2 < 2 ^ (2 * h) := by
      have := Nat.pow_le_pow_right (by decide : 0 < 2) (by omega : 2 ≤ 2 * h)
      omega
    have hzero : (0 : Word h).toNat = 0 := BitVec.toNat_zero
    rw [toNat_low, BitVec.toNat_add, Nat.mod_eq_of_lt]
    · split_ifs <;> simp only [hone, hzero]
    · split_ifs <;> simp only [hone, hzero] <;> omega
  have hrep := (((rep_toNat highHigh).add hh (rep_toNat ⟨highLow.high, 0⟩)).add hh (rep_toNat ⟨lowHigh.high, 0⟩)).add hh
    (rep_toNat ⟨(if sum₁.2 then 1 else 0) + (if sum₂.2 then 1 else 0), 0⟩)
  rw [hcarry, toNat_low, toNat_low, hhighHigh] at hrep
  refine ⟨_, hrep, ?_⟩
  have hcond : ∀ c : Bool, (if c then 2 ^ (4 * h) else 0) = (if c then 1 else 0) * (2 ^ (2 * h) * 2 ^ (2 * h)) := by
    intro c
    rw [two_pow_four]
    cases c <;> simp
  have hnat : (a.high.toNat * b.high.toNat + highLow.high.toNat + lowHigh.high.toNat +
      ((if sum₁.2 then 1 else 0) + (if sum₂.2 then 1 else 0))) * 2 ^ (4 * h) + sum₂.1.toNat = a.toNat * b.toNat := by
    have haNat : a.toNat = a.low.toNat + a.high.toNat * 2 ^ (2 * h) := rfl
    have hbNat : b.toNat = b.low.toNat + b.high.toNat * 2 ^ (2 * h) := rfl
    have hhl : highLow.low.toNat + highLow.high.toNat * 2 ^ (2 * h) = a.high.toNat * b.low.toNat := hhighLow
    have hlh : lowHigh.low.toNat + lowHigh.high.toNat * 2 ^ (2 * h) = a.low.toNat * b.high.toNat := hlowHigh
    rw [hcond, hlowLow] at hfirst
    rw [hcond] at hsecond
    rw [two_pow_four, haNat, hbNat]
    linear_combination 2 ^ (2 * h) * hhl + 2 ^ (2 * h) * hlh + hfirst + hsecond
  exact_mod_cast hnat

/-- **The signs** of the factors. Source: `fixed-value.c` `do_fixed_multiply` ("We need to add neg(b) to r"). Kind: L -/
theorem halves_signedHigh (uns : Bool) {r s : DoubleWord h} (hr : Halves r s ((a.toNat : ℤ) * b.toNat)) :
    Halves (signedHigh uns a b r) s (valueIn uns a.bits * valueIn uns b.bits) := by
  obtain ⟨high, hrep, hsum⟩ := hr
  have hvalue : ∀ d : DoubleWord h, valueIn uns d.bits = d.toNat - (if !uns && d.high.msb then 2 ^ (4 * h) else 0) := by
    intro d
    rw [← value_eq_valueIn hh]
    unfold DoubleWord.value DoubleWord.toInt
    cases uns with
    | true => simp
    | false => cases d.high.msb <;> simp
  have hneg : ∀ d e : DoubleWord h, ∀ w : ℤ, Rep d w → ∀ c : Bool,
      Rep (if c then doubleIntAdd d (doubleIntNeg e) else d) (w - (if c then (e.toNat : ℤ) else 0)) := by
    intro d e w hd c
    cases c with
    | true => exact hd.add hh ((rep_toNat e).neg hh)
    | false =>
      rw [if_neg Bool.false_ne_true, if_neg Bool.false_ne_true, sub_zero]
      exact hd
  have hall := hneg _ a _ (hneg r b high hrep (!uns && a.high.msb)) (!uns && b.high.msb)
  have hA := hvalue a
  have hB := hvalue b
  unfold signedHigh
  dsimp only
  rw [hA, hB]
  clear hA hB hvalue
  generalize (!uns && a.high.msb) = signA at hall ⊢
  generalize (!uns && b.high.msb) = signB at hall ⊢
  generalize (if signB then doubleIntAdd _ (doubleIntNeg a) else _) = result at hall ⊢
  -- two negative factors leave one more multiple of the width, which the upper half drops
  refine ⟨high - (if signA then (b.toNat : ℤ) else 0) - (if signB then (a.toNat : ℤ) else 0) +
    (if signA && signB then 2 ^ (4 * h) else 0), ?_, ?_⟩
  · apply Rep.of_modEq hh
    apply hall.modEq.trans
    cases (signA && signB) with
    | true => exact Int.modEq_iff_dvd.mpr ⟨1, by rw [if_pos rfl]; ring⟩
    | false => rw [if_neg Bool.false_ne_true, add_zero]
  · cases signA <;> cases signB <;> simp only [Bool.and_self, Bool.and_true, Bool.and_false, if_true, Bool.false_eq_true,
      if_false, sub_zero, add_zero] <;> linear_combination hsum

end Product

/-! ## Shifted halves -/

section Shifted

variable {r s : DoubleWord h} {z : ℤ}

theorem mul_two_pow_mod {n k : ℕ} (hk : k ≤ n) (x : ℕ) : x * 2 ^ k % 2 ^ n = x % 2 ^ (n - k) * 2 ^ k := by
  rw [← Nat.mul_mod_mul_right, ← pow_add, Nat.sub_add_cancel hk]

theorem toNat_or_of_disjoint {n k : ℕ} {u v : BitVec n} (hk : k ≤ n) (hu : u.toNat < 2 ^ k) :
    (v <<< k ||| u).toNat = v.toNat % 2 ^ (n - k) * 2 ^ k + u.toNat := by
  rw [BitVec.toNat_or, BitVec.toNat_shiftLeft, Nat.shiftLeft_eq, mul_two_pow_mod hk, ← Nat.shiftLeft_eq,
    Nat.shiftLeft_add_eq_or_of_lt hu]

include hh

theorem bits_shift_left (d : DoubleWord h) {c : ℕ} (hc : c < 4 * h) (arith : Bool) :
    (shift truncated d c arith).bits = d.bits <<< c := by
  unfold shift
  rw [show 2 * (2 * h) = 4 * h by omega, bits_lshiftDouble hh truncated d (by omega) (by omega) arith, if_neg (by omega),
    Int.toNat_natCast]

theorem bits_shift_right (d : DoubleWord h) {c : ℕ} (hpos : 0 < c) (hc : c < 4 * h) :
    (shift truncated d (-c) false).bits = d.bits >>> c := by
  unfold shift
  rw [show 2 * (2 * h) = 4 * h by omega, bits_lshiftDouble hh truncated d (by omega) (by omega) false, if_pos (by omega),
    if_neg Bool.false_ne_true, neg_neg, Int.toNat_natCast]

/-- **The halves, shifted to the right.** Source: `fixed-value.c` `do_fixed_multiply` ("Shift right the result by FBIT"). Kind: L -/
theorem halves_shiftHalves (hr : Halves r s z) (hin : inType (2 * (4 * h)) m.unsigned z) :
    Halves (shiftHalves truncated m r s).1 (shiftHalves truncated m r s).2 (z / 2 ^ m.fbit) := by
  have hvalue := hr.value_eq hh hin
  have hsign := m.fbit_add_sign_le
  have hprec := m.precision_le
  have hfbit := m.fbit_pos
  have hslt := s.toNat_lt
  unfold shiftHalves
  by_cases hfull : m.fbit = 2 * (2 * h)
  · have hm : m.unsigned = true := by
      by_contra hne
      rw [if_neg hne] at hsign
      omega
    rw [if_pos hfull, hm, if_pos rfl]
    refine ⟨0, rep_zero, ?_⟩
    rw [hm] at hvalue
    unfold valueIn at hvalue
    rw [if_pos rfl, r.toNat_bits] at hvalue
    rw [hfull, show 2 * (2 * h) = 4 * h by omega, ← hvalue, zero_mul, zero_add, add_comm,
      Int.add_mul_ediv_right _ _ (by positivity), Int.ediv_eq_zero_of_lt (Int.natCast_nonneg _) (by exact_mod_cast hslt),
      zero_add]
  · have hlt : m.fbit < 4 * h := by
      split at hsign <;> omega
    rw [if_neg hfull]
    dsimp only
    have hcount : (2 * (2 * h) - m.fbit : ℤ) = ((4 * h - m.fbit : ℕ) : ℤ) := by omega
    have hlow : (⟨(shift truncated r (2 * (2 * h) - m.fbit) false).low ||| (shift truncated s (-m.fbit) false).low,
        (shift truncated r (2 * (2 * h) - m.fbit) false).high ||| (shift truncated s (-m.fbit) false).high⟩ :
        DoubleWord h).toNat = r.toNat % 2 ^ m.fbit * 2 ^ (4 * h - m.fbit) + s.toNat / 2 ^ m.fbit := by
      have hslt' : s.toNat / 2 ^ m.fbit < 2 ^ (4 * h - m.fbit) := by
        apply Nat.div_lt_of_lt_mul
        rw [← pow_add, show m.fbit + (4 * h - m.fbit) = 4 * h by omega]
        exact hslt
      rw [← DoubleWord.toNat_bits, bits_or hh, hcount, bits_shift_left hh truncated r (by omega),
        bits_shift_right hh truncated s hfbit hlt, toNat_or_of_disjoint (by omega)]
      · rw [BitVec.toNat_ushiftRight, Nat.shiftRight_eq_div_pow, s.toNat_bits, r.toNat_bits,
          show 4 * h - (4 * h - m.fbit) = m.fbit by omega]
      · rw [BitVec.toNat_ushiftRight, Nat.shiftRight_eq_div_pow, s.toNat_bits]
        exact hslt'
    have hrep := rep_valueIn hh m.unsigned (shift truncated r (-m.fbit) (!m.unsigned))
    rw [valueIn_shift_right hh truncated r hfbit hlt m.unsigned] at hrep
    refine ⟨_, hrep, ?_⟩
    have hmod : ((r.toNat % 2 ^ m.fbit : ℕ) : ℤ) = valueIn m.unsigned r.bits % 2 ^ m.fbit := by
      push_cast
      exact ((rep_valueIn hh m.unsigned r).modEq.of_dvd (pow_dvd_pow 2 hlt.le))
    have hpow : (2 : ℤ) ^ (4 * h) = 2 ^ m.fbit * 2 ^ (4 * h - m.fbit) := by
      rw [← pow_add, show m.fbit + (4 * h - m.fbit) = 4 * h by omega]
    have hquot : z / 2 ^ m.fbit = valueIn m.unsigned r.bits * 2 ^ (4 * h - m.fbit) + s.toNat / 2 ^ m.fbit := by
      rw [← hvalue, hpow, add_comm, show valueIn m.unsigned r.bits * (2 ^ m.fbit * 2 ^ (4 * h - m.fbit)) =
        2 ^ m.fbit * (valueIn m.unsigned r.bits * 2 ^ (4 * h - m.fbit)) by ring, Int.add_mul_ediv_left _ _ (by positivity),
        add_comm]
    have hsplit := Int.mul_ediv_add_emod (valueIn m.unsigned r.bits) (2 ^ m.fbit)
    rw [hlow, hquot, hpow, Nat.cast_add, Nat.cast_mul, hmod]
    push_cast
    linear_combination 2 ^ (4 * h - m.fbit) * hsplit

/-- **The halves of a value, shifted to the left.** Source: `fixed-value.c` `do_fixed_shift` ("Signed-extend temp_high"). Kind: L -/
theorem halves_shift_left (uns : Bool) (a : DoubleWord h) {c : ℕ} (hpos : 0 < c) (hc : c < 4 * h) (arith : Bool) :
    Halves (if !uns && a.high.msb then doubleIntExt (shift truncated a (c - 4 * h) false) c uns
        else shift truncated a (c - 4 * h) false)
      (shift truncated a c arith) (valueIn uns a.bits * 2 ^ c) := by
  have hvalue := value_eq_valueIn hh uns a
  have hcount : ((c : ℤ) - 4 * h) = -((4 * h - c : ℕ) : ℤ) := by omega
  have hright := bits_shift_right hh truncated a (by omega : 0 < 4 * h - c) (by omega)
  rw [hcount]
  generalize shift truncated a (-((4 * h - c : ℕ) : ℤ)) false = upper at hright ⊢
  have hnat : upper.toNat = a.toNat / 2 ^ (4 * h - c) := by
    rw [← DoubleWord.toNat_bits, hright, BitVec.toNat_ushiftRight, Nat.shiftRight_eq_div_pow, a.toNat_bits]
  have hpow : (2 : ℤ) ^ (4 * h) = 2 ^ (4 * h - c) * 2 ^ c := by
    rw [← pow_add, show 4 * h - c + c = 4 * h by omega]
  have hin := inType_valueIn uns a.bits
  refine ⟨valueIn uns a.bits / 2 ^ (4 * h - c), ?_, ?_⟩
  · have hupper := rep_toNat upper
    rw [hnat] at hupper
    push_cast at hupper
    split_ifs with hsign
    · have huns : uns = false := by
        cases uns with
        | true => simp at hsign
        | false => rfl
      subst huns
      have hmsb : a.high.msb = true := by simpa using hsign
      unfold DoubleWord.value DoubleWord.toInt at hvalue
      rw [if_neg Bool.false_ne_true, if_pos hmsb] at hvalue
      have hshifted : (a.toNat : ℤ) / 2 ^ (4 * h - c) = valueIn false a.bits / 2 ^ (4 * h - c) + 2 ^ c := by
        rw [← hvalue, hpow, show (a.toNat : ℤ) = ((a.toNat : ℤ) - 2 ^ (4 * h - c) * 2 ^ c) + 2 ^ (4 * h - c) * 2 ^ c by ring,
          Int.add_mul_ediv_left _ _ (by positivity)]
        ring_nf
      rw [hshifted] at hupper
      have hext := valueIn_ext hh upper hpos hc.le false
      have hbits : upper.bits.setWidth c = BitVec.ofInt c (valueIn false a.bits / 2 ^ (4 * h - c)) := by
        rw [hupper.setWidth hc.le]
        exact ofInt_eq_of_modEq (Int.modEq_iff_dvd.mpr ⟨-1, by ring⟩)
      have hquot : inType c false (valueIn false a.bits / 2 ^ (4 * h - c)) := by
        have hhalf : (2 : ℤ) ^ (4 * h - 1) = 2 ^ (c - 1) * 2 ^ (4 * h - c) := by
          rw [← pow_add, show c - 1 + (4 * h - c) = 4 * h - 1 by omega]
        unfold inType at hin ⊢
        rw [if_neg Bool.false_ne_true, hhalf] at hin
        rw [if_neg Bool.false_ne_true]
        constructor
        · apply (Int.le_ediv_iff_mul_le (by positivity)).mpr
          rw [neg_mul]
          exact hin.1
        · exact (Int.ediv_lt_iff_lt_mul (by positivity)).mpr hin.2
      rw [hbits, valueIn_ofInt hpos hquot] at hext
      have hrep := rep_valueIn hh false (doubleIntExt upper c false)
      rw [hext] at hrep
      exact hrep
    · have hself : (a.toNat : ℤ) = valueIn uns a.bits := by
        rw [← hvalue]
        unfold DoubleWord.value DoubleWord.toInt
        cases uns with
        | true => rfl
        | false =>
          have hmsb : ¬ a.high.msb = true := by simpa using hsign
          rw [if_neg Bool.false_ne_true, if_neg hmsb]
      rw [← hself]
      exact hupper
  · have hlow : (shift truncated a c arith).toNat = a.toNat % 2 ^ (4 * h - c) * 2 ^ c := by
      rw [← DoubleWord.toNat_bits, bits_shift_left hh truncated a hc, BitVec.toNat_shiftLeft, Nat.shiftLeft_eq,
        mul_two_pow_mod hc.le, a.toNat_bits]
    have hmod : ((a.toNat % 2 ^ (4 * h - c) : ℕ) : ℤ) = valueIn uns a.bits % 2 ^ (4 * h - c) := by
      push_cast
      exact ((rep_valueIn hh uns a).modEq.of_dvd (pow_dvd_pow 2 (by omega)))
    have hsplit := Int.mul_ediv_add_emod (valueIn uns a.bits) (2 ^ (4 * h - c))
    rw [hlow, Nat.cast_mul, hmod, hpow]
    push_cast
    linear_combination 2 ^ c * hsplit

end Shifted

/-! ## The long division -/

section Division

/-- **One bit of a long division**, in numbers. Source: `fixed-value.c` `do_fixed_divide`. Kind: L -/
theorem divide_bit_step {D top quo rem bit : ℕ} (hrem : rem < D) (hinv : top = quo * D + rem) (hbit : bit < 2) :
    2 * top + bit = (2 * quo + if D ≤ 2 * rem + bit then 1 else 0) * D +
        (2 * rem + bit - if D ≤ 2 * rem + bit then D else 0) ∧
      2 * rem + bit - (if D ≤ 2 * rem + bit then D else 0) < D := by
  split_ifs with hle
  · refine ⟨?_, by omega⟩
    have hsub : 2 * rem + bit = D + (2 * rem + bit - D) := by omega
    rw [hinv, add_mul, one_mul]
    calc 2 * (quo * D + rem) + bit = 2 * quo * D + (2 * rem + bit) := by ring
      _ = 2 * quo * D + (D + (2 * rem + bit - D)) := by rw [← hsub]
      _ = 2 * quo * D + D + (2 * rem + bit - D) := by ring
  · refine ⟨?_, by omega⟩
    rw [hinv]
    ring_nf
    omega

/-- The bit that a shift to the left by `n` brings to the top. -/
theorem div_two_pow_step {n i : ℕ} (hi : i < n) (x : ℕ) :
    x / 2 ^ (n - (i + 1)) = 2 * (x / 2 ^ (n - i)) + x * 2 ^ i % 2 ^ n / 2 ^ (n - 1) := by
  have hbit : x * 2 ^ i % 2 ^ n / 2 ^ (n - 1) = x / 2 ^ (n - (i + 1)) % 2 := by
    rw [mul_two_pow_mod hi.le, show n - 1 = n - (i + 1) + i by omega, pow_add,
      Nat.mul_div_mul_right _ _ (by positivity), show n - i = n - (i + 1) + 1 by omega, pow_succ, Nat.mod_mul_right_div_self]
  have htop : x / 2 ^ (n - i) = x / 2 ^ (n - (i + 1)) / 2 := by
    rw [Nat.div_div_eq_div_mul, ← pow_succ, show n - (i + 1) + 1 = n - i by omega]
  rw [hbit, htop]
  omega

include hh

theorem toNat_shift_one (x : DoubleWord h) (arith : Bool) : (shift truncated x 1 arith).toNat = x.toNat * 2 % 2 ^ (4 * h) := by
  have hbits := bits_shift_left hh truncated x (by omega : 1 < 4 * h) arith
  rw [Nat.cast_one] at hbits
  rw [← DoubleWord.toNat_bits, hbits, BitVec.toNat_shiftLeft, Nat.shiftLeft_eq, x.toNat_bits, pow_one]

/-- An even pattern has room for one more. Source: `fixed-value.c` `do_fixed_divide` (`mod.low += 1`). Kind: L -/
theorem toNat_low_add_one {x : DoubleWord h} (heven : x.toNat % 2 = 0) :
    (⟨x.low + 1, x.high⟩ : DoubleWord h).toNat = x.toNat + 1 := by
  have hpow : (2 : ℕ) ^ (2 * h) = 2 * 2 ^ (2 * h - 1) := by
    rw [← pow_succ', show 2 * h - 1 + 1 = 2 * h by omega]
  have hlow := x.low.isLt
  have hx : x.toNat = x.low.toNat + x.high.toNat * 2 ^ (2 * h) := rfl
  have hparity : x.high.toNat * 2 ^ (2 * h) = 2 * (x.high.toNat * 2 ^ (2 * h - 1)) := by
    rw [hpow]
    ring
  change (x.low + 1).toNat + x.high.toNat * 2 ^ (2 * h) = x.toNat + 1
  rw [BitVec.toNat_add, one_toNat hh, Nat.mod_eq_of_lt (by omega)]
  omega

/-- **One bit of the quotient.** Source: `fixed-value.c` `do_fixed_divide` (the body of `for`). Kind: L -/
theorem divideBit_spec {posB s quo mod : DoubleWord h} (hmod : mod.toNat < posB.toNat) (hquo : 2 * quo.toNat + 1 < 2 ^ (4 * h)) :
    let bit := s.toNat / 2 ^ (4 * h - 1)
    let result := divideBit truncated posB (s, quo, mod)
    result.1.toNat = s.toNat * 2 % 2 ^ (4 * h) ∧
      result.2.1.toNat = 2 * quo.toNat + (if posB.toNat ≤ 2 * mod.toNat + bit then 1 else 0) ∧
      result.2.2.toNat = 2 * mod.toNat + bit - (if posB.toNat ≤ 2 * mod.toNat + bit then posB.toNat else 0) := by
  have hwidth := two_pow_width (h := h) hh
  have hslt := s.toNat_lt
  have hDlt := posB.toNat_lt
  have hmsb : ∀ x : DoubleWord h, x.high.msb = decide (2 ^ (4 * h - 1) ≤ x.toNat) := by
    intro x
    by_cases hx : 2 ^ (4 * h - 1) ≤ x.toNat
    · rw [decide_eq_true hx, (x.msb_iff hh).mpr hx]
    · rw [decide_eq_false hx, Bool.eq_false_iff]
      exact fun hc => hx ((x.msb_iff hh).mp hc)
  have hbit : s.toNat / 2 ^ (4 * h - 1) = if s.high.msb then 1 else 0 := by
    rw [hmsb]
    by_cases hs : 2 ^ (4 * h - 1) ≤ s.toNat
    · rw [decide_eq_true hs, if_pos rfl]
      exact Nat.div_eq_of_lt_le (by omega) (by omega)
    · rw [decide_eq_false hs, if_neg Bool.false_ne_true]
      exact Nat.div_eq_of_lt (by omega)
  have hdouble := toNat_shift_one hh truncated mod false
  have hdoubleQuo := toNat_shift_one hh truncated quo false
  rw [Nat.mod_eq_of_lt (by omega)] at hdoubleQuo
  have heven : mod.toNat * 2 % 2 ^ (4 * h) % 2 = 0 := by
    rw [hwidth, Nat.mul_comm 2, Nat.mul_mod_mul_right, Nat.mul_mod_left]
  have hnext : (if s.high.msb then (⟨(shift truncated mod 1 false).low + 1, (shift truncated mod 1 false).high⟩ :
      DoubleWord h) else shift truncated mod 1 false).toNat =
      mod.toNat * 2 % 2 ^ (4 * h) + s.toNat / 2 ^ (4 * h - 1) := by
    rw [hbit]
    split_ifs
    · rw [toNat_low_add_one hh (by rw [hdouble]; exact heven), hdouble]
    · rw [hdouble, add_zero]
  have hbitlt : s.toNat / 2 ^ (4 * h - 1) < 2 := by
    rw [hbit]
    split_ifs <;> omega
  unfold divideBit
  dsimp only
  generalize (if s.high.msb then (⟨(shift truncated mod 1 false).low + 1, (shift truncated mod 1 false).high⟩ :
      DoubleWord h) else shift truncated mod 1 false) = next at hnext ⊢
  generalize s.toNat / 2 ^ (4 * h - 1) = bit at hnext hbitlt ⊢
  have hvalue : ∀ x : DoubleWord h, valueIn true x.bits = x.toNat := by
    intro x
    unfold valueIn
    rw [if_pos rfl, x.toNat_bits]
  -- the bit that the shift drops is as good as a remainder that is large enough
  have hcond : (mod.high.msb = true ∨ doubleIntCmp next posB true ≠ -1) ↔ posB.toNat ≤ 2 * mod.toNat + bit := by
    rw [hmsb, decide_eq_true_iff, Ne, doubleIntCmp_eq_neg_one_iff hh, hvalue, hvalue, Nat.cast_lt, hnext]
    by_cases hleft : 2 ^ (4 * h - 1) ≤ mod.toNat
    · exact iff_of_true (.inl hleft) (by omega)
    · rw [Nat.mod_eq_of_lt (by omega)]
      omega
  have htemp : posB.toNat ≤ 2 * mod.toNat + bit →
      (doubleIntAdd next (doubleIntNeg posB)).toNat = 2 * mod.toNat + bit - posB.toNat := by
    intro hle
    have hrepNext : Rep next ((mod.toNat * 2 : ℕ) + bit : ℤ) := by
      apply Rep.of_modEq hh
      rw [hnext]
      push_cast
      exact Int.ModEq.add_right _ (Int.mod_modEq _ _)
    have hdlt : (2 * mod.toNat + bit : ℤ) - posB.toNat < 2 ^ (4 * h) := by
      have hwidthInt : ((2 ^ (4 * h) : ℕ) : ℤ) = 2 ^ (4 * h) := by push_cast; rfl
      rw [← hwidthInt]
      omega
    have hexact := (hrepNext.add hh ((rep_toNat posB).neg hh)).toNat_eq hh (by omega) (by push_cast; linarith)
    omega
  refine ⟨toNat_shift_one hh truncated s false, ?_, ?_⟩
  · by_cases hle : posB.toNat ≤ 2 * mod.toNat + bit
    · rw [if_pos (hcond.mpr hle), if_pos hle, toNat_low_add_one hh (by rw [hdoubleQuo]; omega), hdoubleQuo, mul_comm]
    · rw [if_neg (fun hc => hle (hcond.mp hc)), if_neg hle, hdoubleQuo, mul_comm, add_zero]
  · by_cases hle : posB.toNat ≤ 2 * mod.toNat + bit
    · rw [if_pos (hcond.mpr hle), if_pos hle]
      exact htemp hle
    · rw [if_neg (fun hc => hle (hcond.mp hc)), if_neg hle, hnext, Nat.mod_eq_of_lt (by omega)]
      omega

/-- **All bits of the quotient**: what has been read of the dividend is the quotient so far times the divisor and the
remainder.
Source: `fixed-value.c` `do_fixed_divide`
Kind: L -/
theorem divideBits_spec {posB s mod : DoubleWord h} (hmod : mod.toNat < posB.toNat) {i : ℕ} (hi : i ≤ 4 * h) :
    let result := divideBits truncated posB i (s, zero, mod)
    result.1.toNat = s.toNat * 2 ^ i % 2 ^ (4 * h) ∧ result.2.1.toNat < 2 ^ i ∧ result.2.2.toNat < posB.toNat ∧
      mod.toNat * 2 ^ i + s.toNat / 2 ^ (4 * h - i) = result.2.1.toNat * posB.toNat + result.2.2.toNat := by
  induction i with
  | zero =>
    have hzero : (zero : DoubleWord h).toNat = 0 := by
      unfold zero DoubleWord.toNat
      simp
    refine ⟨?_, ?_, hmod, ?_⟩
    · rw [pow_zero, mul_one, Nat.mod_eq_of_lt s.toNat_lt]
      rfl
    · rw [pow_zero]
      change (zero : DoubleWord h).toNat < 1
      omega
    · change _ = (zero : DoubleWord h).toNat * _ + mod.toNat
      rw [hzero, Nat.sub_zero, Nat.div_eq_of_lt s.toNat_lt]
      omega
  | succ i ih =>
    obtain ⟨hs, hquo, hrem, hinv⟩ := ih (by omega)
    have hpow : 2 ^ i * 2 ≤ 2 ^ (4 * h) := by
      rw [← pow_succ]
      exact Nat.pow_le_pow_right (by decide) hi
    generalize hstate : divideBits truncated posB i (s, zero, mod) = state at hs hquo hrem hinv
    obtain ⟨s', quo, rem⟩ := state
    dsimp only at hs hquo hrem hinv
    have hstep := divideBit_spec hh truncated (s := s') hrem (by omega : 2 * quo.toNat + 1 < 2 ^ (4 * h))
    have htop := div_two_pow_step (by omega : i < 4 * h) s.toNat
    rw [← hs] at htop
    have hbit : s'.toNat / 2 ^ (4 * h - 1) < 2 := by
      apply Nat.div_lt_of_lt_mul
      rw [mul_comm, ← two_pow_width hh]
      exact s'.toNat_lt
    unfold divideBits
    rw [hstate]
    generalize s'.toNat / 2 ^ (4 * h - 1) = bit at hstep htop hbit
    obtain ⟨hs', hquo', hrem'⟩ := hstep
    obtain ⟨hdiv, hlt⟩ := divide_bit_step hrem hinv hbit
    dsimp only
    rw [hs', hquo', hrem']
    refine ⟨?_, ?_, hlt, ?_⟩
    · rw [hs, Nat.mod_mul_mod, pow_succ, mul_assoc]
    · rw [pow_succ]
      split_ifs <;> omega
    · rw [htop, ← hdiv, pow_succ]
      ring

/-- The operand without its sign. Source: `fixed-value.c` `do_fixed_divide` (`pos_a`). Kind: L -/
theorem positive_spec (uns : Bool) (a : DoubleWord h) :
    (positive uns a).1.toNat = (valueIn uns a.bits).natAbs ∧ (positive uns a).2 = decide (valueIn uns a.bits < 0) := by
  have habs := absDouble_toNat hh a uns
  have hneg := isNeg_eq uns a
  rw [value_eq_valueIn hh] at habs hneg
  rw [← habs, ← hneg]
  unfold positive
  constructor
  · split_ifs <;> rfl
  · split_ifs with hsign
    · exact hsign.symm
    · exact (Bool.eq_false_iff.mpr hsign).symm

/-- All bits flipped. Source: `fixed-value.c` `do_fixed_divide` (`quo_r.low = ~quo_r.low`). Kind: L -/
theorem Rep.complement {r : DoubleWord h} {w : ℤ} (hr : Rep r w) : Rep (⟨~~~r.low, ~~~r.high⟩ : DoubleWord h) (-w - 1) := by
  have hlow := r.low.isLt
  have hhigh := r.high.isLt
  have hnat : ((⟨~~~r.low, ~~~r.high⟩ : DoubleWord h).toNat : ℤ) = 2 ^ (4 * h) - 1 - r.toNat := by
    have hr' : (r.toNat : ℤ) = r.low.toNat + r.high.toNat * 2 ^ (2 * h) := by
      unfold DoubleWord.toNat
      push_cast
      rfl
    have hbase : ((2 ^ (2 * h) : ℕ) : ℤ) = 2 ^ (2 * h) := by push_cast; rfl
    have hfour : (2 : ℤ) ^ (4 * h) = 2 ^ (2 * h) * 2 ^ (2 * h) := by exact_mod_cast two_pow_four (h := h)
    have hnotLow : ((~~~r.low).toNat : ℤ) = 2 ^ (2 * h) - 1 - r.low.toNat := by
      rw [BitVec.toNat_not]
      omega
    have hnotHigh : ((~~~r.high).toNat : ℤ) = 2 ^ (2 * h) - 1 - r.high.toNat := by
      rw [BitVec.toNat_not]
      omega
    change (((~~~r.low).toNat + (~~~r.high).toNat * 2 ^ (2 * h) : ℕ) : ℤ) = _
    push_cast
    rw [hnotLow, hnotHigh, hr', hfour]
    ring
  apply Rep.of_modEq hh
  rw [hnat]
  have hmod : (2 : ℤ) ^ (4 * h) - 1 - r.toNat ≡ -r.toNat - 1 [ZMOD 2 ^ (4 * h)] := Int.modEq_iff_dvd.mpr ⟨-1, by ring⟩
  exact hmod.trans ((hr.modEq.neg).sub_right 1)

/-- **The sign of the halves.** Source: `fixed-value.c` `do_fixed_divide` (`num_of_neg == 1`). Kind: L -/
theorem halves_negHalves {r s : DoubleWord h} {z : ℤ} (hr : Halves r s z) :
    Halves (negHalves r s).1 (negHalves r s).2 (-z) := by
  obtain ⟨high, hrep, hsum⟩ := hr
  have hslt := s.toNat_lt
  have hnegs := (rep_toNat s).neg hh
  unfold negHalves
  dsimp only
  by_cases hs : s.toNat = 0
  · have hzero : (doubleIntNeg s).toNat = 0 := by
      rw [hs, Nat.cast_zero, neg_zero] at hnegs
      have hexact := hnegs.toNat_eq hh (le_refl 0) (by positivity)
      exact_mod_cast hexact
    have hpieces : (doubleIntNeg s).high = 0 ∧ (doubleIntNeg s).low = 0 := by
      have heq : doubleIntNeg s = zero := by
        apply DoubleWord.ext_toNat
        rw [hzero]
        unfold zero DoubleWord.toNat
        simp
      rw [heq]
      exact ⟨rfl, rfl⟩
    rw [if_pos hpieces]
    refine ⟨-high, hrep.neg hh, ?_⟩
    rw [hzero, ← hsum, hs]
    push_cast
    ring
  · have hwidthInt : ((2 ^ (4 * h) : ℕ) : ℤ) = 2 ^ (4 * h) := by push_cast; rfl
    have hexact : ((doubleIntNeg s).toNat : ℤ) = 2 ^ (4 * h) - s.toNat := by
      apply Rep.toNat_eq hh
      · apply Rep.of_modEq hh
        exact hnegs.modEq.trans (Int.modEq_iff_dvd.mpr ⟨1, by ring⟩)
      · omega
      · omega
    have hpieces : ¬ ((doubleIntNeg s).high = 0 ∧ (doubleIntNeg s).low = 0) := by
      rintro ⟨hhigh, hlow⟩
      have hzero : (doubleIntNeg s).toNat = 0 := by
        unfold DoubleWord.toNat
        rw [hhigh, hlow]
        simp
      omega
    rw [if_neg hpieces]
    refine ⟨-high - 1, ?_, ?_⟩
    · exact hrep.complement hh
    · rw [hexact, ← hsum]
      ring

/-- The dividend, in two halves. Source: `fixed-value.c` `do_fixed_divide` ("Left shift pos_a to {r, s} by FBIT"). Kind: L -/
theorem scaled_halves (posA : DoubleWord h) {f : ℕ} (hpos : 0 < f) (hle : f ≤ 4 * h) :
    let halves := if f = 2 * (2 * h) then (posA, zero)
      else (shift truncated posA (-(2 * (2 * h) - f)) false, shift truncated posA f false)
    halves.1.toNat * 2 ^ (4 * h) + halves.2.toNat = posA.toNat * 2 ^ f := by
  dsimp only
  split_ifs with hfull
  · have hzero : (zero : DoubleWord h).toNat = 0 := by
      unfold zero DoubleWord.toNat
      simp
    rw [hzero, hfull, add_zero, show 2 * (2 * h) = 4 * h by omega]
  · have hcount : (-(2 * (2 * h) - f) : ℤ) = -((4 * h - f : ℕ) : ℤ) := by omega
    have hupper : (shift truncated posA (-(2 * (2 * h) - f)) false).toNat = posA.toNat / 2 ^ (4 * h - f) := by
      rw [hcount, ← DoubleWord.toNat_bits, bits_shift_right hh truncated posA (by omega) (by omega),
        BitVec.toNat_ushiftRight, Nat.shiftRight_eq_div_pow, posA.toNat_bits]
    have hlower : (shift truncated posA f false).toNat = posA.toNat % 2 ^ (4 * h - f) * 2 ^ f := by
      rw [← DoubleWord.toNat_bits, bits_shift_left hh truncated posA (by omega), BitVec.toNat_shiftLeft, Nat.shiftLeft_eq,
        mul_two_pow_mod hle, posA.toNat_bits]
    have hpow : (2 : ℕ) ^ (4 * h) = 2 ^ (4 * h - f) * 2 ^ f := by
      rw [← pow_add, Nat.sub_add_cancel hle]
    have hsplit := Nat.div_add_mod posA.toNat (2 ^ (4 * h - f))
    rw [hupper, hlower, hpow]
    linear_combination 2 ^ f * hsplit

/-- **The unsigned quotient** in two halves. Source: `fixed-value.c` `do_fixed_divide`. Kind: L -/
theorem halves_quotient {posB r s : DoubleWord h} (hpos : 0 < posB.toNat) :
    let first := divAndRoundDouble .TRUNC_DIV_EXPR true r posB
    Halves first.1 (divideBits truncated posB (2 * (2 * h)) (s, zero, first.2.1)).2.1
      (((r.toNat * 2 ^ (4 * h) + s.toNat) / posB.toNat : ℕ) : ℤ) := by
  have hvalue : ∀ x : DoubleWord h, x.value true = x.toNat := fun x => rfl
  have hdenNe : posB.value true ≠ 0 := by
    rw [hvalue]
    omega
  obtain ⟨hquoEq, hremEq⟩ := @divAndRoundDouble_trunc h hh true r posB
    (by rw [← value_eq_valueIn hh]; exact hdenNe)
  have hquoMod := truncQuo_modEq hh true r posB hdenNe
  have hremMod := remOf_modEq hh true r _ posB hquoMod
  rw [hvalue, hvalue] at hquoMod hremMod
  have htdiv : (r.toNat : ℤ).tdiv posB.toNat = ((r.toNat / posB.toNat : ℕ) : ℤ) := rfl
  have hrem : (remOf r (truncQuo true r posB) posB).toNat = r.toNat % posB.toNat := by
    have hlt : r.toNat % posB.toNat < 2 ^ (4 * h) := lt_trans (Nat.mod_lt _ hpos) posB.toNat_lt
    have hsub : (r.toNat : ℤ) - (r.toNat : ℤ).tdiv posB.toNat * posB.toNat = ((r.toNat % posB.toNat : ℕ) : ℤ) := by
      have hsplit := Nat.div_add_mod r.toNat posB.toNat
      rw [htdiv]
      zify at hsplit ⊢
      linear_combination -hsplit
    rw [hsub] at hremMod
    have hexact := (Rep.of_modEq hh hremMod).toNat_eq hh (Int.natCast_nonneg _) (by exact_mod_cast hlt)
    exact_mod_cast hexact
  have hbits := @divideBits_spec h hh truncated posB s (remOf r (truncQuo true r posB) posB)
    (by rw [hrem]; exact Nat.mod_lt _ hpos) (4 * h) (le_refl _)
  dsimp only
  rw [hquoEq, hremEq, show 2 * (2 * h) = 4 * h by omega]
  generalize divideBits truncated posB (4 * h) (s, zero, remOf r (truncQuo true r posB) posB) = last at hbits
  obtain ⟨-, hquoLt, hremLt, hinv⟩ := hbits
  refine ⟨_, Rep.of_modEq hh hquoMod, ?_⟩
  rw [htdiv]
  rw [hrem, Nat.sub_self, pow_zero, Nat.div_one] at hinv
  have hsplit := Nat.div_add_mod r.toNat posB.toNat
  have htotal : r.toNat * 2 ^ (4 * h) + s.toNat =
      last.2.2.toNat + posB.toNat * (r.toNat / posB.toNat * 2 ^ (4 * h) + last.2.1.toNat) := by
    calc r.toNat * 2 ^ (4 * h) + s.toNat
        = (posB.toNat * (r.toNat / posB.toNat) + r.toNat % posB.toNat) * 2 ^ (4 * h) + s.toNat := by rw [hsplit]
      _ = posB.toNat * (r.toNat / posB.toNat) * 2 ^ (4 * h) + (r.toNat % posB.toNat * 2 ^ (4 * h) + s.toNat) := by ring
      _ = _ := by rw [hinv]; ring
  rw [htotal, Nat.add_mul_div_left _ _ hpos, Nat.div_eq_of_lt hremLt, zero_add]
  push_cast
  rfl

end Division

/-! ## The operations -/

section Operations

variable {a b : DoubleWord h} {x y : ℤ}

include hh

/-- **Products of wide modes.** Source: `fixed-value.c` `do_fixed_multiply`. Kind: L -/
theorem wide_multiply (hp : ¬ m.precision ≤ 2 * h) (ha : Rep a x) (hb : Rep b y) (hx : m.Has x) (hy : m.Has y) (sat : Bool) :
    Computes m sat (x * y / 2 ^ m.fbit) (doFixedMultiply truncated m a b sat) := by
  have hin := m.inType_mul m.precision_le hx hy
  have hproduct := halves_signedHigh hh m.unsigned (halves_wideProduct hh a b)
  rw [FixedMode.valueIn_of_rep hh hx ha, FixedMode.valueIn_of_rep hh hy hb] at hproduct
  have hshifted := halves_shiftHalves hh truncated (m := m) hproduct hin
  unfold doFixedMultiply
  rw [if_neg hp]
  exact computes_saturate2 hh truncated hshifted (inType_ediv hin m.fbit) sat

/-- **Quotients of wide modes.** Source: `fixed-value.c` `do_fixed_divide`. Kind: L -/
theorem wide_divide (hp : ¬ m.precision ≤ 2 * h) (ha : Rep a x) (hb : Rep b y) (hx : m.Has x) (hy : m.Has y) (hy0 : y ≠ 0)
    (sat : Bool) : Computes m sat ((x * 2 ^ m.fbit).tdiv y) (doFixedDivide truncated m a b sat) := by
  have hin := m.inType_quotient m.precision_le hx hy
  obtain ⟨hposA, hnegA⟩ := positive_spec hh m.unsigned a
  obtain ⟨hposB, hnegB⟩ := positive_spec hh m.unsigned b
  rw [FixedMode.valueIn_of_rep hh hx ha] at hposA hnegA
  rw [FixedMode.valueIn_of_rep hh hy hb] at hposB hnegB
  have hfbit : m.fbit ≤ 4 * h := by
    have hsign := m.fbit_add_sign_le
    have hprec := m.precision_le
    omega
  have hscaled := scaled_halves hh truncated (positive m.unsigned a).1 m.fbit_pos hfbit
  have hmagnitude : (x * 2 ^ m.fbit).tdiv y =
      if decide (x < 0) != decide (y < 0) then -((x.natAbs * 2 ^ m.fbit / y.natAbs : ℕ) : ℤ)
        else ((x.natAbs * 2 ^ m.fbit / y.natAbs : ℕ) : ℤ) := by
    have hsign : (x * 2 ^ m.fbit < 0) ↔ x < 0 := by
      constructor
      · intro hlt
        by_contra hge
        exact absurd hlt (not_lt.mpr (mul_nonneg (not_lt.mp hge) (by positivity)))
      · intro hlt
        exact mul_neg_of_neg_of_pos hlt (by positivity)
    rw [tdiv_eq_sign_magnitude, Int.natAbs_mul, Int.natAbs_pow]
    simp only [hsign]
    rfl
  unfold doFixedDivide
  rw [if_neg hp]
  dsimp only
  generalize (positive m.unsigned a) = absA at *
  generalize (positive m.unsigned b) = absB at *
  have hquotient := fun r s => @halves_quotient h hh truncated absB.1 r s (by rw [hposB]; omega)
  generalize (if m.fbit = 2 * (2 * h) then (absA.1, zero)
      else (shift truncated absA.1 (-(2 * (2 * h) - m.fbit)) false, shift truncated absA.1 m.fbit false)) = dividend at *
  specialize hquotient dividend.1 dividend.2
  dsimp only at hscaled hquotient
  rw [hscaled, hposA, hposB] at hquotient
  apply computes_saturate2 hh truncated _ hin sat
  rw [hmagnitude, hnegA, hnegB]
  split_ifs
  · exact halves_negHalves hh hquotient
  · exact hquotient

/-- **Shifts to the left of wide modes.** Source: `fixed-value.c` `do_fixed_shift`. Kind: L -/
theorem wide_shift_left (ha : Rep a x) (hx : m.Has x) {c : ℕ} (hpos : 0 < c) (hc : c < m.precision) (sat : Bool) :
    let high := shift truncated a (c - 4 * h) false
    let high := if !m.unsigned && a.high.msb then doubleIntExt high c m.unsigned else high
    let low := shift truncated a c (!m.unsigned)
    Computes m sat (x * 2 ^ c) (doubleIntExt (fixedSaturate2 truncated m high low low sat).1 m.width m.unsigned,
      (fixedSaturate2 truncated m high low low sat).2) := by
  have hprec := m.precision_le
  have hin := m.inType_scaled (c := c) hprec (by split <;> omega) hx
  have hshifted := halves_shift_left hh truncated m.unsigned a hpos (by omega) (!m.unsigned)
  rw [FixedMode.valueIn_of_rep hh hx ha] at hshifted
  exact computes_saturate2 hh truncated hshifted hin sat

end Operations

end GccCore.Gcc.FixedValue
