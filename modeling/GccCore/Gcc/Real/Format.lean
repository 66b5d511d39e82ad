import GccCore.Gcc.Real.Add

/-!
# `gcc/real.c`: target formats

`round_for_format` brings a number to the precision and the range of a format. A number that the format holds is kept
(`roundForFormat_of_dvd`).
-/

namespace GccCore.Gcc.Real

open GccCore.Lib.WordArray GccCore.Lib.Scaled

variable {l k : ℕ}

/-! ## Formats -/

/-- Every format has a digit, and at least two fewer than the internal representation; it holds the number one.
Source: `real.h` `struct real_format` -/
structure RealFormat (l : ℕ) where
  b : ℕ
  p : ℕ
  emin : ℤ
  emax : ℤ
  roundTowardsZero : Bool
  hasDenorm : Bool
  hasSignedZero : Bool
  p_pos : 0 < p
  p_add_two_le : p + 2 ≤ significandBits l
  emin_le_one : emin ≤ 1
  one_le_emax : 1 ≤ emax

/-- A format whose radix is two. Source: `real.c` (`ieee_double_format`). -/
structure BinaryFormat (l : ℕ) extends RealFormat l where
  b_eq : b = 2

/-- Source: `real.c` `ieee_double_format`. -/
def ieeeDoubleFormat (l : ℕ) : BinaryFormat l where
  b := 2
  p := 53
  emin := -1021
  emax := 1024
  roundTowardsZero := false
  hasDenorm := true
  hasSignedZero := true
  p_pos := by decide
  p_add_two_le := by unfold significandBits; omega
  emin_le_one := by decide
  one_le_emax := by decide
  b_eq := rfl

/-- The functions of decimal floating point that these functions call. Source: `dfp.c`. -/
structure Dfp (l : ℕ) where
  dfmode : RealFormat l
  decimalRoundForFormat : RealFormat l → RealValue l → RealValue l
  decimalRealConvert : RealFormat l → RealValue l → RealValue l
  decimalDoFixTrunc : RealValue l → RealValue l

/-- Functions that keep every number. -/
def Dfp.keep (l : ℕ) : Dfp l where
  dfmode := (ieeeDoubleFormat l).toRealFormat
  decimalRoundForFormat := fun _ r => r
  decimalRealConvert := fun _ r => r
  decimalDoFixTrunc := id

/-! ## Rounding -/

/-- Source: `real.c` `test_significand_bit`. -/
def testSignificandBit (a : Words l k) (n : ℕ) : Bool := (a.word (n / l)).getLsbD (n % l)

/-- Source: `real.c` `round_for_format` (`sticky`). -/
def stickyBelow (a : Words l k) (n : ℕ) : Bool :=
  ((List.range (n / l)).any fun i => a.word i != 0) || (a.word (n / l) &&& ((1 : BitVec l) <<< (n % l) - 1) != 0)

/-- Source: `real.c` `round_for_format` (`underflow`). -/
def formatZero (fmt : RealFormat l) (r : RealValue l) : RealValue l :=
  if fmt.hasSignedZero then r else { r with sign := false }

/-- Source: `real.c` `round_for_format` ("Catch underflow that we deferred until after rounding"). -/
def finishRound (fmt : RealFormat l) (r : RealValue l) : RealValue l :=
  if r.realExp ≤ fmt.emin - 1 then formatZero fmt (getZero l r.sign)
  else { r with sig := clearSignificandBelow r.sig (significandBits l - fmt.p) }

/-- Source: `real.c` `round_for_format` ("Round to even"). -/
def roundUp (fmt : RealFormat l) (sig : Words l (sigsz l)) : Bool :=
  let np2 := significandBits l - fmt.p
  !fmt.roundTowardsZero && testSignificandBit sig (np2 - 1) && (stickyBelow sig (np2 - 1) || testSignificandBit sig np2)

/-- Source: `real.c` `round_for_format`. -/
def roundNormal (fmt : RealFormat l) (r : RealValue l) : RealValue l :=
  if roundUp fmt r.sig then
    let s := addSignificands r.sig (setSignificandBit (.ofFn fun _ => 0) (significandBits l - fmt.p))
    if s.2 then
      if fmt.emax < r.realExp + 1 then getInf l r.sign
      else
        finishRound fmt
          { r with uexp := setRealExp (r.realExp + 1),
                   sig := .ofFn fun i => if i = sigsz l - 1 then (1 : BitVec l) <<< (l - 1) else s.1.word i }
    else finishRound fmt { r with sig := s.1 }
  else finishRound fmt r

/-- A number whose radix is two; a small number is de-normalized first. Source: `real.c` `round_for_format`. -/
def roundBinary (fmt : RealFormat l) (r : RealValue l) : RealValue l :=
  match r.cl with
  | .rvc_zero => formatZero fmt r
  | .rvc_inf => r
  | .rvc_nan => { r with sig := clearSignificandBelow r.sig (significandBits l - fmt.p) }
  | .rvc_normal =>
    if fmt.emax < r.realExp then getInf l r.sign
    else if r.realExp ≤ fmt.emin - 1 then
      if !fmt.hasDenorm then
        if r.realExp < fmt.emin - 1 then formatZero fmt (getZero l r.sign) else roundNormal fmt r
      else
        let diff := fmt.emin - 1 - r.realExp + 1
        if fmt.p < diff then formatZero fmt (getZero l r.sign)
        else
          let s := stickyRshiftSignificand r.sig diff.toNat
          roundNormal fmt { r with uexp := setRealExp (r.realExp + diff), sig := orSticky s.1 s.2 }
    else roundNormal fmt r

/-- Source: `real.c` `round_for_format`. -/
def roundForFormat (dfp : Dfp l) (fmt : RealFormat l) (r : RealValue l) : RealValue l :=
  if r.decimal then
    if fmt.b = 10 then dfp.decimalRoundForFormat fmt r else roundBinary fmt (dfp.decimalRealConvert dfp.dfmode r)
  else roundBinary fmt r

/-- Extend or truncate to a new mode. Source: `real.c` `real_convert`. -/
def realConvert (dfp : Dfp l) (fmt : RealFormat l) (a : RealValue l) : RealValue l :=
  let r := roundForFormat dfp fmt (if a.decimal || fmt.b = 10 then dfp.decimalRealConvert fmt a else a)
  if r.cl = .rvc_normal then normalize r else r

/-! ## Numbers that a format holds -/

section Holds

variable (hl : HostLong l)

include hl

theorem testSignificandBit_eq (a : Words l k) (n : ℕ) : testSignificandBit a n = a.toNat.testBit n :=
  (Words.testBit_toNat hl.pos a n).symm

variable {dfp : Dfp l} {fmt : RealFormat l} {r : RealValue l}

/-- **A number that the format holds** is kept. Source: `real.c` `round_for_format`. Kind: L -/
theorem roundForFormat_of_dvd (hcl : r.cl = .rvc_normal) (hdec : r.decimal = false)
    (hexp : fmt.emin ≤ r.realExp ∧ r.realExp ≤ fmt.emax) (hdvd : 2 ^ (significandBits l - fmt.p) ∣ r.sig.toNat) :
    roundForFormat dfp fmt r = r := by
  obtain ⟨q, hq⟩ := hdvd
  have hp := fmt.p_add_two_le
  have hguard : testSignificandBit r.sig (significandBits l - fmt.p - 1) = false := by
    rw [testSignificandBit_eq hl, hq, Nat.testBit_two_pow_mul, decide_eq_false (by omega), Bool.false_and]
  have hup : roundUp fmt r.sig = false := by
    unfold roundUp
    dsimp only
    rw [hguard, Bool.and_false, Bool.false_and]
  have hclear : clearSignificandBelow r.sig (significandBits l - fmt.p) = r.sig := by
    refine Words.toNat_inj hl.pos ?_
    rw [clearSignificandBelow_toNat hl.pos, hq, Nat.mul_div_cancel_left _ (by positivity), mul_comm]
  have hround : roundNormal fmt r = r := by
    unfold roundNormal finishRound
    rw [hup, if_neg Bool.false_ne_true, if_neg (by omega), hclear]
  unfold roundForFormat roundBinary
  rw [hdec, if_neg Bool.false_ne_true, hcl]
  dsimp only
  rw [if_neg (by omega), if_neg (by omega), hround]

/-- A binary format converts a number that it holds to itself. Source: `real.c` `real_convert`. Kind: L -/
theorem realConvert_of_dvd (hb : fmt.b ≠ 10) (hr : r.Normalized) (hexp : fmt.emin ≤ r.realExp ∧ r.realExp ≤ fmt.emax)
    (hdvd : 2 ^ (significandBits l - fmt.p) ∣ r.sig.toNat) : realConvert dfp fmt r = r := by
  unfold realConvert
  rw [hr.decimal, Bool.false_or, decide_eq_false hb, if_neg Bool.false_ne_true, roundForFormat_of_dvd hl hr.cl hr.decimal hexp hdvd]
  dsimp only
  rw [if_pos hr.cl, normalize_of_msb hl hr.sig]

end Holds

end GccCore.Gcc.Real
