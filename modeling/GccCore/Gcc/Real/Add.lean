import GccCore.Gcc.Real.Basic

/-!
# `gcc/real.c`: `do_add`

The significand of the smaller number is shifted down to the exponent of the larger one; the bits that are shifted out are kept as one
sticky bit, the last of the result.

* **Sums** (`addOrdered_sum`, `addOrdered_carry`): the significand is the sticky quotient of the exact sum.
* **Exact sums** (`addOrdered_exact`), if no bit is lost.
* **Far apart** (`addOrdered_far`): the larger number, if the significands do not overlap.
-/

namespace GccCore.Gcc.Real

open GccCore.Lib.WordArray GccCore.Lib.Scaled

variable {l k : ℕ}

/-! ## The code -/

/-- Source: `real.c` (`sig[SIGSZ - 1] |= SIG_MSB`). -/
def setSigMsb (a : Words l k) : Words l k :=
  .ofFn fun i => if i = k - 1 then a.word i ||| (1 : BitVec l) <<< (l - 1) else a.word i

/-- Source: `real.c` (`sig[0] |= inexact`). -/
def orSticky (a : Words l k) (inexact : Bool) : Words l k :=
  .ofFn fun i => if i = 0 then a.word i ||| (if inexact then 1 else 0) else a.word i

/-- The result of an addition that has a significand and an exponent. Source: `real.c` `do_add` ("Re-normalize the result"). -/
def finishAdd (sig : Words l (sigsz l)) (sign : Bool) (exp : ℤ) (inexact : Bool) : RealValue l :=
  let r := normalize ⟨.rvc_normal, false, sign, false, false, setRealExp exp, sig⟩
  if r.cl = .rvc_zero then { r with sign := false } else { r with sig := orSticky r.sig inexact }

/-- The significand that is shifted down, and whether one bits were shifted out.
Source: `real.c` `do_add` ("we need to shift the significand of B down") -/
def alignSignificand (b : Words l k) (dexp : ℕ) : Words l k × Bool :=
  if 0 < dexp then stickyRshiftSignificand b dexp else (b, false)

/-- The addition of normal numbers, of which the first has the larger exponent. Source: `real.c` `do_add`. -/
def addOrdered (a b : RealValue l) (sign subtract : Bool) : RealValue l × Bool :=
  let dexp := (a.realExp - b.realExp).toNat
  if significandBits l ≤ dexp then ({ a with sign := sign }, true)
  else
    let t := alignSignificand b.sig dexp
    if subtract then
      let d := subSignificands a.sig t.1 t.2
      if d.2 then (finishAdd (negSignificand d.1) (!sign) a.realExp t.2, t.2)
      else (finishAdd d.1 sign a.realExp t.2, t.2)
    else
      let s := addSignificands a.sig t.1
      if s.2 then
        let h := stickyRshiftSignificand s.1 1
        if maxExp < a.realExp + 1 then (getInf l sign, true)
        else (finishAdd (setSigMsb h.1) sign (a.realExp + 1) (t.2 || h.2), t.2 || h.2)
      else (finishAdd s.1 sign a.realExp t.2, t.2)

/-- The sum or the difference, and whether it may be inexact. Source: `real.c` `do_add`. -/
def doAdd (a b : RealValue l) (subtract : Bool) : RealValue l × Bool :=
  let sign := a.sign
  let subtract := (sign ^^ b.sign) ^^ subtract
  match a.cl, b.cl with
  | .rvc_zero, .rvc_zero => (getZero l (sign && !subtract), false)
  | .rvc_zero, .rvc_normal | .rvc_zero, .rvc_inf | .rvc_zero, .rvc_nan | .rvc_normal, .rvc_nan | .rvc_inf, .rvc_nan
  | .rvc_nan, .rvc_nan | .rvc_normal, .rvc_inf => ({ b with sign := sign ^^ subtract }, false)
  | .rvc_normal, .rvc_zero | .rvc_inf, .rvc_zero | .rvc_nan, .rvc_zero | .rvc_nan, .rvc_normal | .rvc_nan, .rvc_inf
  | .rvc_inf, .rvc_normal => (a, false)
  | .rvc_inf, .rvc_inf => if subtract then (getCanonicalQnan l false, false) else (a, false)
  | .rvc_normal, .rvc_normal =>
    if a.realExp - b.realExp < 0 then addOrdered b a (sign ^^ subtract) subtract else addOrdered a b sign subtract

/-- Nothing and a number. Source: `real.c` `do_add` ("0 + ANY = ANY"). Kind: L -/
theorem doAdd_zero_left {a b : RealValue l} {sign : Bool} {exp : ℤ} {m : ℕ} (ha : a.cl = .rvc_zero) (hb : b.Represents sign exp m)
    (subtract : Bool) : (doAdd a b subtract).1.Represents (sign ^^ subtract) exp m := by
  have hsum : (doAdd a b subtract).1 = { b with sign := a.sign ^^ ((a.sign ^^ b.sign) ^^ subtract) } := by
    unfold doAdd
    rw [ha, hb.cl]
  rw [hsum]
  refine ⟨hb.cl, hb.decimal, ?_, hb.exp, hb.sig⟩
  dsimp only
  rw [hb.sign, Bool.xor_assoc, ← Bool.xor_assoc, Bool.xor_self, Bool.false_xor]

/-! ## Normal numbers -/

section Normal

variable {a b : RealValue l} (ha : a.cl = .rvc_normal) (hb : b.cl = .rvc_normal) (subtract : Bool)

include ha hb

theorem doAdd_of_ge (hle : b.realExp ≤ a.realExp) :
    doAdd a b subtract = addOrdered a b a.sign ((a.sign ^^ b.sign) ^^ subtract) := by
  unfold doAdd
  rw [ha, hb]
  dsimp only
  rw [if_neg (by omega)]

theorem doAdd_of_lt (hlt : a.realExp < b.realExp) :
    doAdd a b subtract = addOrdered b a (a.sign ^^ ((a.sign ^^ b.sign) ^^ subtract)) ((a.sign ^^ b.sign) ^^ subtract) := by
  unfold doAdd
  rw [ha, hb]
  dsimp only
  rw [if_pos (by omega)]

end Normal

/-! ## Bits -/

theorem or_two_pow_of_lt {n x : ℕ} (h : x < 2 ^ n) : x ||| 2 ^ n = x + 2 ^ n := by
  have hadd := Nat.two_pow_add_eq_or_of_lt h 1
  rw [mul_one] at hadd
  rw [Nat.or_comm, ← hadd, Nat.add_comm]

section Bits

variable (hl : 0 < l) (a : Words l k)

include hl

theorem setSigMsb_toNat (hk : 0 < k) : (setSigMsb a).toNat = a.toNat ||| 2 ^ (l * k - 1) := by
  have hpos : l * k - 1 = l * (k - 1) + (l - 1) := by
    obtain ⟨k, rfl⟩ := Nat.exists_eq_succ_of_ne_zero hk.ne'
    rw [Nat.succ_sub_one, Nat.mul_succ]
    omega
  have hdiv : (l * k - 1) / l = k - 1 := by
    rw [hpos, Nat.mul_add_div hl, Nat.div_eq_of_lt (by omega), Nat.add_zero]
  have hmod : (l * k - 1) % l = l - 1 := by
    rw [hpos, Nat.mul_add_mod, Nat.mod_eq_of_lt (by omega)]
  have hlt : l * k - 1 < l * k := Nat.sub_lt (Nat.mul_pos hl hk) Nat.one_pos
  rw [← setSignificandBit_toNat hl a hlt]
  unfold setSigMsb setSignificandBit
  rw [hdiv, hmod]

theorem orSticky_toNat (hk : 0 < k) (inexact : Bool) : (orSticky a inexact).toNat = a.toNat ||| inexact.toNat := by
  cases inexact with
  | false =>
    have hsame : orSticky a false = a := by
      refine Words.toNat_inj hl (Words.toNat_eq_of_bits hl a.toNat_lt fun i hi j hj => ?_)
      unfold orSticky
      rw [Words.word_ofFn hi, Words.testBit_block hl a hj, if_neg Bool.false_ne_true]
      split_ifs
      · exact congrArg (fun w : BitVec l => w.getLsbD j) BitVec.or_zero
      · rfl
    rw [hsame, Bool.toNat_false, Nat.or_zero]
  | true =>
    have hbit : (setSignificandBit a 0).toNat = a.toNat ||| 2 ^ 0 := setSignificandBit_toNat hl a (Nat.mul_pos hl hk)
    rw [Bool.toNat_true, ← pow_zero 2, ← hbit]
    unfold orSticky setSignificandBit
    rw [Nat.zero_div, Nat.zero_mod, BitVec.shiftLeft_zero, if_pos rfl]

end Bits

/-! ## Addition of significands -/

section Hosts

variable (hl : HostLong l)

include hl

theorem HostLong.sigsz_pos : 0 < sigsz l := by
  rcases hl with rfl | rfl <;> decide

variable {sig : Words l (sigsz l)} {exp : ℤ} (sign inexact : Bool)

/-- A result that needs no shift. Source: `real.c` `do_add`. Kind: L -/
theorem finishAdd_of_msb (hmsb : 2 ^ (significandBits l - 1) ≤ sig.toNat) (hexp : -maxExp ≤ exp ∧ exp ≤ maxExp) :
    (finishAdd sig sign exp inexact).Represents sign exp (sig.toNat ||| inexact.toNat) := by
  unfold finishAdd
  rw [normalize_of_msb hl hmsb]
  dsimp only
  rw [if_neg (by decide)]
  refine ⟨rfl, rfl, rfl, realExp_eq rfl ?_, orSticky_toNat hl.pos sig hl.sigsz_pos inexact⟩
  unfold maxExp at hexp
  omega

variable {a b : RealValue l}

/-- **The significand that is shifted down**, with its sticky bit. Source: `real.c` `do_add`. Kind: L -/
theorem alignSignificand_spec (b : Words l k) (d : ℕ) :
    (alignSignificand b d).1.toNat = b.toNat / 2 ^ d ∧ (alignSignificand b d).2 = decide (b.toNat % 2 ^ d ≠ 0) := by
  unfold alignSignificand
  split_ifs with hd
  · refine ⟨rshiftSignificand_toNat hl.pos b d, ?_⟩
    rw [Bool.eq_iff_iff, sticky_iff hl.pos, decide_eq_true_iff]
  · obtain rfl : d = 0 := by omega
    refine ⟨(Nat.div_one _).symm, ?_⟩
    rw [pow_zero, Nat.mod_one]
    rfl

omit hl in
/-- **Far apart**: the larger number. Source: `real.c` `do_add` ("the significands do not overlap"). Kind: L -/
theorem addOrdered_far (subtract : Bool) (ha : a.Normalized) (hfar : (significandBits l : ℤ) ≤ a.realExp - b.realExp) :
    (addOrdered a b sign subtract).1.Represents sign a.realExp a.sig.toNat := by
  unfold addOrdered
  dsimp only
  rw [if_pos (by omega)]
  exact ⟨ha.cl, ha.decimal, rfl, rfl, rfl⟩

section Near

variable (ha : a.Normalized) {d : ℕ} (hd : a.realExp - b.realExp = d) (hnear : d < significandBits l)

include ha hd hnear

omit ha hd hnear in
/-- The aligned sum, with its carry. Source: `real.c` `do_add`. Kind: L -/
theorem addAligned_spec :
    (addSignificands a.sig (alignSignificand b.sig d).1).1.toNat +
        (addSignificands a.sig (alignSignificand b.sig d).1).2.toNat * 2 ^ significandBits l =
      a.sig.toNat + b.sig.toNat / 2 ^ d := by
  have hadd := addSignificands_spec hl.pos a.sig (alignSignificand b.sig d).1
  rw [(alignSignificand_spec hl b.sig d).1, hl.mul_sigsz] at hadd
  exact hadd

omit hl ha hd hnear in
theorem aligned_div : (a.sig.toNat * 2 ^ d + b.sig.toNat) / 2 ^ d = a.sig.toNat + b.sig.toNat / 2 ^ d := by
  rw [Nat.add_comm, Nat.add_mul_div_right _ _ (by positivity), Nat.add_comm]

omit ha hd hnear in
theorem aligned_sticky_iff :
    (alignSignificand b.sig d).2 = true ↔ (a.sig.toNat * 2 ^ d + b.sig.toNat) % 2 ^ d ≠ 0 := by
  rw [(alignSignificand_spec hl b.sig d).2, decide_eq_true_iff, Nat.add_comm, Nat.add_mul_mod_self_right]

/-- **The sum**, if there is no carry. Source: `real.c` `do_add`. Kind: L -/
theorem addOrdered_sum (hsum : a.sig.toNat + b.sig.toNat / 2 ^ d < 2 ^ significandBits l) :
    (addOrdered a b sign false).1.Represents sign a.realExp (stickyDiv (a.sig.toNat * 2 ^ d + b.sig.toNat) d) := by
  have hadd := addAligned_spec hl (a := a) (b := b) (d := d)
  have hcarry : (addSignificands a.sig (alignSignificand b.sig d).1).2 = false := by
    cases hcarry : (addSignificands a.sig (alignSignificand b.sig d).1).2 with
    | false => rfl
    | true =>
      rw [hcarry, Bool.toNat_true] at hadd
      omega
  rw [hcarry, Bool.toNat_false, zero_mul, Nat.add_zero] at hadd
  have hmsb : 2 ^ (significandBits l - 1) ≤ (addSignificands a.sig (alignSignificand b.sig d).1).1.toNat :=
    hadd ▸ le_add_right ha.sig
  have hfinish := finishAdd_of_msb hl sign (alignSignificand b.sig d).2 hmsb ha.exp
  rw [hadd, or_toNat_eq_stickyDiv aligned_div.symm (aligned_sticky_iff hl)] at hfinish
  unfold addOrdered
  dsimp only
  rw [hd, Int.toNat_natCast, if_neg (not_le.mpr hnear), if_neg Bool.false_ne_true, hcarry, if_neg Bool.false_ne_true]
  exact hfinish

/-- **The sum**, if there is a carry. Source: `real.c` `do_add` ("We got carry out of the addition"). Kind: L -/
theorem addOrdered_carry (hsum : 2 ^ significandBits l ≤ a.sig.toNat + b.sig.toNat / 2 ^ d) (hmax : a.realExp + 1 ≤ maxExp) :
    (addOrdered a b sign false).1.Represents sign (a.realExp + 1)
      (stickyDiv (a.sig.toNat * 2 ^ d + b.sig.toNat) (d + 1)) := by
  have hadd := addAligned_spec hl (a := a) (b := b) (d := d)
  have hS : significandBits l = significandBits l - 1 + 1 := by
    unfold significandBits
    omega
  have hpow : 2 ^ significandBits l = 2 ^ (significandBits l - 1) * 2 := by
    rw [← pow_succ, ← hS]
  have haLt := a.sig_lt hl
  have hbLt : b.sig.toNat / 2 ^ d < 2 ^ significandBits l := lt_of_le_of_lt (Nat.div_le_self _ _) (b.sig_lt hl)
  generalize hs : addSignificands a.sig (alignSignificand b.sig d).1 = s at hadd
  have hlow : s.1.toNat < 2 ^ significandBits l := by
    rw [← hl.mul_sigsz]
    exact s.1.toNat_lt
  have hcarry : s.2 = true := by
    cases hcarry : s.2 with
    | true => rfl
    | false =>
      rw [hcarry, Bool.toNat_false] at hadd
      omega
  rw [hcarry, Bool.toNat_true, one_mul] at hadd
  -- the carry comes back as the most significant bit
  have hhalf : (setSigMsb (stickyRshiftSignificand s.1 1).1).toNat = (a.sig.toNat * 2 ^ d + b.sig.toNat) / 2 ^ (d + 1) := by
    have hshift : (stickyRshiftSignificand s.1 1).1.toNat = s.1.toNat / 2 ^ 1 := rshiftSignificand_toNat hl.pos s.1 1
    rw [setSigMsb_toNat hl.pos _ hl.sigsz_pos, hl.mul_sigsz, hshift, pow_one, pow_succ, ← Nat.div_div_eq_div_mul, aligned_div, ← hadd,
      hpow, Nat.add_mul_div_right _ _ two_pos]
    exact or_two_pow_of_lt (by omega)
  have hmsb : 2 ^ (significandBits l - 1) ≤ (setSigMsb (stickyRshiftSignificand s.1 1).1).toNat := by
    rw [setSigMsb_toNat hl.pos _ hl.sigsz_pos, hl.mul_sigsz]
    exact Nat.right_le_or
  have hsticky : ((alignSignificand b.sig d).2 || (stickyRshiftSignificand s.1 1).2) = true ↔
      (a.sig.toNat * 2 ^ d + b.sig.toNat) % 2 ^ (d + 1) ≠ 0 := by
    rw [Bool.or_eq_true, aligned_sticky_iff hl, mod_two_pow_succ_ne_zero_iff, aligned_div, sticky_iff hl.pos, ← hadd, hpow,
      Nat.add_mul_mod_self_right, pow_one]
  have hexp := ha.exp
  have hrange : -maxExp ≤ a.realExp + 1 ∧ a.realExp + 1 ≤ maxExp := by omega
  have hfinish := finishAdd_of_msb hl sign ((alignSignificand b.sig d).2 || (stickyRshiftSignificand s.1 1).2) hmsb hrange
  rw [or_toNat_eq_stickyDiv hhalf hsticky] at hfinish
  unfold addOrdered
  dsimp only
  rw [hd, Int.toNat_natCast, if_neg (not_le.mpr hnear), if_neg Bool.false_ne_true, hs, hcarry, if_pos rfl, if_neg (by omega)]
  exact hfinish

/-- **The exact sum**, if no bit is shifted out. Source: `real.c` `do_add`. Kind: L -/
theorem addOrdered_exact (hdvd : 2 ^ d ∣ b.sig.toNat)
    (hcarry : 2 ^ significandBits l ≤ a.sig.toNat + b.sig.toNat / 2 ^ d →
      2 ∣ a.sig.toNat + b.sig.toNat / 2 ^ d ∧ a.realExp + 1 ≤ maxExp) :
    (addOrdered a b sign false).1.Normalized ∧ (addOrdered a b sign false).1.value = signed sign (a.magnitude + b.magnitude) := by
  have hexp := ha.exp
  have hmsb := ha.sig
  have hS : 0 < significandBits l := by
    unfold significandBits
    omega
  have hpow : 2 ^ significandBits l = 2 * 2 ^ (significandBits l - 1) := by
    rw [← pow_succ', Nat.sub_add_cancel hS]
  have hsumDvd : 2 ^ d ∣ a.sig.toNat * 2 ^ d + b.sig.toNat := Nat.dvd_add (Dvd.intro_left _ rfl) hdvd
  have hmagnitude : a.magnitude + b.magnitude = scaled (a.sig.toNat * 2 ^ d + b.sig.toNat) (b.realExp - significandBits l) := by
    rw [scaled_add, scaled_mul_two_pow]
    unfold RealValue.magnitude
    congr 2
    omega
  rcases lt_or_ge (a.sig.toNat + b.sig.toNat / 2 ^ d) (2 ^ significandBits l) with hlt | hge
  · have hsum := addOrdered_sum hl sign ha hd hnear hlt
    refine ⟨hsum.normalized ?_ hexp, ?_⟩
    · rw [stickyDiv_of_dvd hsumDvd, aligned_div]
      exact le_add_right hmsb
    · have hscale : a.realExp - significandBits l = b.realExp - significandBits l + d := by omega
      rw [hsum.value, hmagnitude, hscale, scaled_stickyDiv_of_dvd hsumDvd]
  · obtain ⟨heven, hmax⟩ := hcarry hge
    have hsum := addOrdered_carry hl sign ha hd hnear hge hmax
    have hdvd' : 2 ^ (d + 1) ∣ a.sig.toNat * 2 ^ d + b.sig.toNat := by
      rw [← aligned_div] at heven
      obtain ⟨q, hq⟩ := heven
      refine ⟨q, ?_⟩
      rw [pow_succ, mul_assoc, ← hq, Nat.mul_div_cancel' hsumDvd]
    refine ⟨hsum.normalized ?_ (by omega), ?_⟩
    · rw [stickyDiv_of_dvd hdvd', pow_succ, ← Nat.div_div_eq_div_mul, aligned_div]
      omega
    · have hscale : a.realExp + 1 - significandBits l = b.realExp - significandBits l + (d + 1 : ℕ) := by
        push_cast
        omega
      rw [hsum.value, hmagnitude, hscale, scaled_stickyDiv_of_dvd hdvd']

end Near

end Hosts

end GccCore.Gcc.Real
