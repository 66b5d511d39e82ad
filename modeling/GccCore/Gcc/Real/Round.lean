import GccCore.Gcc.Real.Integer

/-!
# `gcc/real.c`: rounding to integers

`real_floor`, `real_ceil` and `real_round` are made of the truncation and of one addition.

* **One more** (`doAdd_one`): the truncation of a number that is not integral has room for the next integer.
* **One half more** (`doAdd_half`): a sticky bit lies below the bits that the truncation keeps.
* **Exactness** of both conversions and of every rounding (`real_integer_exact`).
-/

namespace GccCore.Gcc.Real

open GccCore.Lib.WordArray GccCore.Lib.Scaled GccCore.Lib.RoundedDiv GccCore.Gcc.FoldConst

variable {l h : ℕ}

/-! ## The code -/

/-- Source: `emit-rtl.c` `init_emit_once` (`dconst1`). -/
def dconst1 (h : ℕ) (dfp : Dfp l) (doubleMode : BinaryFormat l) : RealValue l :=
  realFromInteger dfp (some doubleMode.toRealFormat) (⟨1, 0⟩ : DoubleWord h) false

/-- Source: `emit-rtl.c` `init_emit_once` (`dconstm1`). -/
def dconstm1 (h : ℕ) (dfp : Dfp l) (doubleMode : BinaryFormat l) : RealValue l :=
  { dconst1 h dfp doubleMode with sign := true }

/-- Source: `emit-rtl.c` `init_emit_once` (`dconsthalf`). -/
def dconsthalf (h : ℕ) (dfp : Dfp l) (doubleMode : BinaryFormat l) : RealValue l :=
  let r := dconst1 h dfp doubleMode
  { r with uexp := setRealExp (r.realExp - 1) }

section Rounding

variable (h : ℕ) (dfp : Dfp l) (doubleMode : BinaryFormat l) (mode : Option (RealFormat l)) (x : RealValue l)

/-- Round down. Source: `real.c` `real_floor`. -/
def realFloor : RealValue l :=
  let t := doFixTrunc dfp x
  convertTo dfp mode (if !realIdentical t x && x.sign then (doAdd t (dconstm1 h dfp doubleMode) false).1 else t)

/-- Round up. Source: `real.c` `real_ceil`. -/
def realCeil : RealValue l :=
  let t := doFixTrunc dfp x
  convertTo dfp mode (if !realIdentical t x && !x.sign then (doAdd t (dconst1 h dfp doubleMode) false).1 else t)

/-- Round to the nearest integer. Source: `real.c` `real_round`. -/
def realRound : RealValue l :=
  convertTo dfp mode (doFixTrunc dfp (doAdd x (dconsthalf h dfp doubleMode) x.sign).1)

end Rounding

/-! ## Constants -/

section Constants

variable (hw : HostWide l h) (dfp : Dfp l) (fmt : BinaryFormat l)

include hw

/-- **One.** Source: `emit-rtl.c` `init_emit_once` (`dconst1`). Kind: L -/
theorem dconst1_represents : (dconst1 h dfp fmt).Represents false 1 (2 ^ (significandBits l - 1)) := by
  have hle := hw.le
  have hpos := hw.pos
  have hone : (⟨1, 0⟩ : DoubleWord h).value false = 1 := by
    have hnat : (⟨1, 0⟩ : DoubleWord h).toNat = 1 := by
      unfold DoubleWord.toNat
      dsimp only
      rw [toNat_word_one (by omega)]
      simp
    have hbig : (2 : ℤ) ^ 1 ≤ 2 ^ (4 * h - 1) := pow_le_pow_right₀ one_le_two (by omega)
    refine DoubleWord.value_eq_of_modEq hpos (by rw [hnat]; rfl) ⟨?_, ?_⟩
    · omega
    · omega
  obtain ⟨s, hs, hge, hr⟩ := realFromInteger_represents hw dfp (⟨1, 0⟩ : DoubleWord h) false (by rw [hone]; exact one_ne_zero)
  rw [hone] at hge hr
  have hlt := RealValue.sig_lt hw.long (realFromInteger dfp none (⟨1, 0⟩ : DoubleWord h) false)
  rw [hr.sig] at hlt
  have hs' : significandBits l - 4 * h + s = significandBits l - 1 := by
    rw [Int.natAbs_one, one_mul, ← pow_add] at hge hlt
    have hge' := (Nat.pow_le_pow_iff_right one_lt_two).mp hge
    have hlt' := (Nat.pow_lt_pow_iff_right one_lt_two).mp hlt
    omega
  have hexp : 4 * (h : ℤ) - s = 1 := by omega
  rw [Int.natAbs_one, one_mul, ← pow_add, hs', hexp] at hr
  have hnorm : (realFromInteger dfp none (⟨1, 0⟩ : DoubleWord h) false).Normalized :=
    hr.normalized le_rfl (by decide)
  have hconvert : dconst1 h dfp fmt = realFromInteger dfp none (⟨1, 0⟩ : DoubleWord h) false := by
    have hp := fmt.p_pos
    have hdvd : 2 ^ (significandBits l - fmt.p) ∣ 2 ^ (significandBits l - 1) := Nat.pow_dvd_pow 2 (by omega)
    calc dconst1 h dfp fmt = realConvert dfp fmt.toRealFormat (realFromInteger dfp none (⟨1, 0⟩ : DoubleWord h) false) := rfl
      _ = realFromInteger dfp none (⟨1, 0⟩ : DoubleWord h) false :=
          realConvert_of_dvd hw.long (by rw [fmt.b_eq]; decide) hnorm (by rw [hr.exp]; exact ⟨fmt.emin_le_one, fmt.one_le_emax⟩)
            (by rw [hr.sig]; exact hdvd)
  rw [hconvert]
  exact hr

/-- **Minus one.** Source: `emit-rtl.c` `init_emit_once` (`dconstm1`). Kind: L -/
theorem dconstm1_represents : (dconstm1 h dfp fmt).Represents true 1 (2 ^ (significandBits l - 1)) := by
  obtain ⟨hcl, hdec, -, hexp, hsig⟩ := dconst1_represents hw dfp fmt
  exact ⟨hcl, hdec, rfl, hexp, hsig⟩

/-- **One half.** Source: `emit-rtl.c` `init_emit_once` (`dconsthalf`). Kind: L -/
theorem dconsthalf_represents : (dconsthalf h dfp fmt).Represents false 0 (2 ^ (significandBits l - 1)) := by
  obtain ⟨hcl, hdec, hsign, hexp, hsig⟩ := dconst1_represents hw dfp fmt
  refine ⟨hcl, hdec, hsign, realExp_eq ?_ (by decide), hsig⟩
  unfold dconsthalf
  dsimp only
  rw [hexp]
  rfl

end Constants

/-! ## Rounding -/

section Rounding

variable (hl : HostLong l) (dfp : Dfp l) {x one half : RealValue l} {sign : Bool} {exp : ℤ} {m : ℕ}

include hl

variable (hx : x.Represents sign exp m) (hm : 2 ^ (significandBits l - 1) ≤ m) (hexp : -maxExp ≤ exp ∧ exp ≤ maxExp)

include hx hm hexp

omit hexp in
/-- **The truncation is the number** if that is integral. Source: `real.c` `real_floor` (`real_identical(&t, x)`). Kind: L -/
theorem realIdentical_doFixTrunc_iff :
    realIdentical (doFixTrunc dfp x) x = true ↔ (⌊scaled m (exp - significandBits l)⌋ : ℚ) = scaled m (exp - significandBits l) := by
  have hmlt : m < 2 ^ significandBits l := by
    rw [← hx.sig]
    exact x.sig_lt hl
  rcases (by omega : exp ≤ 0 ∨ (0 < exp ∧ exp ≤ significandBits l) ∨ (significandBits l : ℤ) ≤ exp) with hsmall | hmid | hlarge
  · have hne : (getZero l sign).cl ≠ x.cl := by
      rw [hx.cl]
      exact RealValueClass.noConfusion
    have hpos : scaled 0 (exp - significandBits l) < scaled m (exp - significandBits l) :=
      scaled_lt_scaled (lt_of_lt_of_le (by positivity) hm)
    rw [scaled_zero] at hpos
    rw [doFixTrunc_of_nonpos dfp hx hsmall, floor_scaled_of_nonpos hmlt hsmall, Int.cast_zero]
    unfold realIdentical
    rw [if_pos hne]
    exact iff_of_false Bool.false_ne_true hpos.ne
  · obtain ⟨n, hn⟩ := Int.eq_ofNat_of_zero_le (show 0 ≤ (significandBits l : ℤ) - exp by omega)
    have hneg : exp - significandBits l = -(n : ℤ) := by omega
    have hint : ((m / 2 ^ n : ℕ) : ℚ) = scaled (m / 2 ^ n * 2 ^ n) (-(n : ℤ)) := by
      rw [scaled_mul_two_pow, neg_add_cancel]
      unfold scaled
      rw [zpow_zero, mul_one]
    rw [realIdentical_iff hl (doFixTrunc_represents hl dfp hx hmid) hx, hn, Int.toNat_natCast, hneg, floor_scaled_neg,
      Int.cast_natCast, hint, scaled_inj]
  · obtain ⟨n, hn⟩ := Int.eq_ofNat_of_zero_le (show 0 ≤ exp - significandBits l by omega)
    rw [doFixTrunc_of_ge dfp hx hlarge, realIdentical_iff hl hx hx, hn, scaled_natCast, Int.floor_natCast,
      Int.cast_natCast]
    exact iff_of_true rfl rfl

/-- **One more in magnitude** than the truncation of a number that is not integral. Source: `real.c` `real_floor`, `real_ceil`. Kind: L -/
theorem doAdd_one (hone : one.Represents sign 1 (2 ^ (significandBits l - 1))) (hsmall : exp < significandBits l) :
    (doAdd (doFixTrunc dfp x) one false).1.Finite ∧
      (doAdd (doFixTrunc dfp x) one false).1.value = signed sign (⌊scaled m (exp - significandBits l)⌋ + 1) := by
  have hmlt : m < 2 ^ significandBits l := by
    rw [← hx.sig]
    exact x.sig_lt hl
  have hS : 0 < significandBits l := by
    unfold significandBits
    omega
  have honeValue : scaled (2 ^ (significandBits l - 1)) (1 - significandBits l) = 1 := by
    have hzero : ((significandBits l - 1 : ℕ) : ℤ) + (1 - significandBits l) = 0 := by omega
    rw [scaled_two_pow, hzero, zpow_zero]
  rcases (by omega : exp ≤ 0 ∨ 0 < exp) with hneg | hpos
  · have hresult := doAdd_zero_left (a := getZero l sign) rfl hone false
    rw [Bool.xor_false] at hresult
    rw [doFixTrunc_of_nonpos dfp hx hneg, floor_scaled_of_nonpos hmlt hneg, hresult.value, honeValue, Int.cast_zero, zero_add]
    exact ⟨Or.inr (hresult.normalized le_rfl (by decide)), rfl⟩
  · obtain ⟨n, hn⟩ := Int.eq_ofNat_of_zero_le (show 0 ≤ (significandBits l : ℤ) - exp by omega)
    obtain ⟨d, hd⟩ := Int.eq_ofNat_of_zero_le (show 0 ≤ exp - 1 by omega)
    have hneg : exp - significandBits l = -(n : ℤ) := by omega
    have ht := doFixTrunc_represents hl dfp hx ⟨hpos, hsmall.le⟩
    rw [hn, Int.toNat_natCast] at ht
    have hmsb : 2 ^ (significandBits l - 1) ≤ m / 2 ^ n * 2 ^ n := by
      have hsplit : 2 ^ (significandBits l - 1) = 2 ^ d * 2 ^ n := by
        rw [← pow_add]
        congr 1
        omega
      rw [hsplit] at hm ⊢
      exact Nat.mul_le_mul_right _ ((Nat.le_div_iff_mul_le (by positivity)).mpr hm)
    have hshift : one.sig.toNat / 2 ^ d = 2 ^ n := by
      rw [hone.sig, Nat.pow_div (by omega) two_pos]
      congr 1
      omega
    have hexact := addOrdered_exact hl sign (b := one) (ht.normalized hmsb hexp) (d := d) (by rw [ht.exp, hone.exp, hd])
      (by omega) (by rw [hone.sig]; exact Nat.pow_dvd_pow 2 (by omega))
    rw [ht.sig, ht.exp, hshift] at hexact
    have hbits := hl.significandBits_le
    obtain ⟨hfinite, hvalue⟩ := hexact fun _ => by
      refine ⟨Nat.dvd_add (Dvd.dvd.mul_left (dvd_pow_self 2 (by omega)) _) (dvd_pow_self 2 (by omega)), ?_⟩
      unfold maxExp
      omega
    rw [doAdd_of_ge ht.cl hone.cl false (by rw [ht.exp, hone.exp]; omega), ht.sign, hone.sign, Bool.xor_self, Bool.xor_false]
    refine ⟨Or.inr hfinite, hvalue.trans (congrArg _ ?_)⟩
    unfold RealValue.magnitude
    rw [ht.exp, ht.sig, hone.exp, hone.sig, honeValue, hneg, floor_scaled_neg, scaled_mul_two_pow, neg_add_cancel, Int.cast_natCast]
    unfold scaled
    rw [zpow_zero, mul_one]

/-- **One half more in magnitude**, truncated. Source: `real.c` `real_round`. Kind: L -/
theorem doAdd_half (hhalf : half.Represents false 0 (2 ^ (significandBits l - 1))) :
    (doFixTrunc dfp (doAdd x half sign).1).Finite ∧
      (doFixTrunc dfp (doAdd x half sign).1).value = signed sign ⌊scaled m (exp - significandBits l) + 1 / 2⌋ := by
  have hmlt : m < 2 ^ significandBits l := by
    rw [← hx.sig]
    exact x.sig_lt hl
  have hxn := hx.normalized hm hexp
  have hhn : half.Normalized := hhalf.normalized le_rfl (by decide)
  have hbits := hl.significandBits_le
  have hS : 0 < significandBits l := by
    unfold significandBits
    omega
  have hsub : ((x.sign ^^ half.sign) ^^ sign) = false := by
    rw [hx.sign, hhalf.sign, Bool.xor_false, Bool.xor_self]
  rcases le_or_gt 0 exp with hnonneg | hneg
  · rw [doAdd_of_ge hx.cl hhalf.cl sign (by rw [hx.exp, hhalf.exp]; exact hnonneg), hsub, hx.sign]
    rcases le_or_gt (significandBits l : ℤ) exp with hlarge | hsmall
    · -- the number has no fraction
      have hfar := addOrdered_far sign false (b := half) hxn (by rw [hx.exp, hhalf.exp]; omega)
      rw [hx.exp, hx.sig] at hfar
      obtain ⟨hfinite, hvalue⟩ := doFixTrunc_spec hl dfp hfar hm hexp
      obtain ⟨n, hn⟩ := Int.eq_ofNat_of_zero_le (show 0 ≤ exp - significandBits l by omega)
      refine ⟨hfinite, hvalue.trans ?_⟩
      have hhalfFloor : ⌊(1 / 2 : ℚ)⌋ = 0 := by norm_num
      rw [hn, scaled_natCast, Int.floor_natCast_add, hhalfFloor, Int.floor_natCast, add_zero]
    · obtain ⟨d, rfl⟩ := Int.eq_ofNat_of_zero_le hnonneg
      obtain ⟨n, hn⟩ := Nat.exists_eq_add_of_lt (show d < significandBits l by omega)
      have hd : x.realExp - half.realExp = d := by
        rw [hx.exp, hhalf.exp, sub_zero]
      have hdvd : 2 ^ d ∣ half.sig.toNat := by
        rw [hhalf.sig]
        exact Nat.pow_dvd_pow 2 (by omega)
      have hshift : half.sig.toNat / 2 ^ d = 2 ^ n := by
        rw [hhalf.sig, Nat.pow_div (by omega) two_pos]
        congr 1
        omega
      -- the exact sum has the magnitude that is to be truncated
      have hmagnitude : scaled (m * 2 ^ d + half.sig.toNat) (-(n + 1 + d : ℕ)) = scaled m (d - significandBits l) + 1 / 2 := by
        have hhalfValue : scaled half.sig.toNat (-(n + 1 + d : ℕ)) = 1 / 2 := by
          have hone : ((significandBits l - 1 : ℕ) : ℤ) + -(n + 1 + d : ℕ) = -1 := by omega
          rw [hhalf.sig, scaled_two_pow, hone]
          norm_num
        rw [scaled_add, hhalfValue, scaled_mul_two_pow]
        congr 2
        omega
      rcases lt_or_ge (m + 2 ^ n) (2 ^ significandBits l) with hlt | hge
      · have hsum := addOrdered_sum hl sign (b := half) hxn hd (by omega) (by rw [hx.sig, hshift]; exact hlt)
        rw [hx.sig, hx.exp] at hsum
        have hge' : 2 ^ (significandBits l - 1) ≤ stickyDiv (m * 2 ^ d + half.sig.toNat) d := by
          rw [stickyDiv_of_dvd (Nat.dvd_add (Dvd.intro_left _ rfl) hdvd), ← hx.sig, aligned_div, hx.sig]
          exact le_add_right hm
        obtain ⟨hfinite, hvalue⟩ := doFixTrunc_spec hl dfp hsum hge' hexp
        refine ⟨hfinite, hvalue.trans ?_⟩
        have hscale : (d : ℤ) - significandBits l = -(n + 1 : ℕ) := by omega
        rw [← hmagnitude, hscale, floor_scaled_stickyDiv (Nat.succ_pos n), Nat.add_comm d]
      · have hmax : x.realExp + 1 ≤ maxExp := by
          rw [hx.exp]
          unfold maxExp
          omega
        have hsum := addOrdered_carry hl sign (b := half) hxn hd (by omega) (by rw [hx.sig, hshift]; exact hge) hmax
        rw [hx.sig, hx.exp] at hsum
        have haligned : (m * 2 ^ d + half.sig.toNat) / 2 ^ d = m + 2 ^ n := by
          rw [← hx.sig, aligned_div, hshift]
        have hpow : 2 ^ significandBits l = 2 * 2 ^ (significandBits l - 1) := by
          rw [← pow_succ', Nat.sub_add_cancel hS]
        have hge' : 2 ^ (significandBits l - 1) ≤ stickyDiv (m * 2 ^ d + half.sig.toNat) (d + 1) := by
          refine le_trans ?_ div_le_stickyDiv
          rw [pow_succ, ← Nat.div_div_eq_div_mul, haligned]
          omega
        obtain ⟨hfinite, hvalue⟩ := doFixTrunc_spec hl dfp hsum hge' (by rw [hx.exp] at hmax; omega)
        refine ⟨hfinite, hvalue.trans ?_⟩
        rw [← hmagnitude]
        rcases Nat.eq_zero_or_pos n with rfl | hn0
        · -- the number is all ones, and the sum a power of two
          have hdvd' : 2 ^ (d + 1) ∣ m * 2 ^ d + half.sig.toNat := by
            obtain ⟨q, hq⟩ : 2 ^ d ∣ m * 2 ^ d + half.sig.toNat := Nat.dvd_add (Dvd.intro_left _ rfl) hdvd
            rw [hq, Nat.mul_div_cancel_left _ (by positivity), pow_zero] at haligned
            rw [hq, pow_succ, haligned]
            exact Nat.mul_dvd_mul_left _ (by omega)
          have hscale : (d : ℤ) + 1 - significandBits l = -(0 + 1 + d : ℕ) + (d + 1 : ℕ) := by omega
          rw [hscale, scaled_stickyDiv_of_dvd hdvd']
        · have hscale : (d : ℤ) + 1 - significandBits l = -(n : ℕ) := by omega
          have hsplit : d + 1 + n = n + 1 + d := by omega
          rw [hscale, floor_scaled_stickyDiv hn0, hsplit]
  · obtain ⟨d, hd⟩ := Int.eq_ofNat_of_zero_le (show 0 ≤ -exp by omega)
    -- the sum is below one
    have hfloor : ⌊scaled m (exp - significandBits l) + 1 / 2⌋ = 0 := by
      have hlt : scaled m (exp - significandBits l) < 1 / 2 := by
        calc scaled m (exp - significandBits l) < scaled (2 ^ significandBits l) (exp - significandBits l) := scaled_lt_scaled hmlt
          _ = 2 ^ exp := by rw [scaled_two_pow, add_sub_cancel]
          _ ≤ 2 ^ (-1 : ℤ) := zpow_le_zpow_right₀ one_le_two (by omega)
          _ = 1 / 2 := by norm_num
      have hge : 0 ≤ scaled m (exp - significandBits l) := scaled_nonneg
      rw [Int.floor_eq_zero_iff, Set.mem_Ico]
      constructor <;> linarith
    rw [doAdd_of_lt hx.cl hhalf.cl sign (by rw [hx.exp, hhalf.exp]; exact hneg), hsub, Bool.xor_false, hx.sign, hfloor, Int.cast_zero,
      signed_zero]
    have hzero : ∀ {r : RealValue l} {m' : ℕ}, r.Represents sign 0 m' →
        (doFixTrunc dfp r).Finite ∧ (doFixTrunc dfp r).value = 0 := by
      intro r m' hr
      rw [doFixTrunc_of_nonpos dfp hr le_rfl]
      exact ⟨Or.inl rfl, value_getZero sign⟩
    rcases le_or_gt (significandBits l) d with hfar | hnear
    · have hsum := addOrdered_far sign false (b := x) hhn (by rw [hx.exp, hhalf.exp]; omega)
      rw [hhalf.exp] at hsum
      exact hzero hsum
    · have hquot : x.sig.toNat / 2 ^ d < 2 ^ (significandBits l - 1) := by
        rw [hx.sig, Nat.div_lt_iff_lt_mul (by positivity), ← pow_add]
        exact lt_of_lt_of_le hmlt (Nat.pow_le_pow_right two_pos (by omega))
      have hpow : 2 ^ significandBits l = 2 * 2 ^ (significandBits l - 1) := by
        rw [← pow_succ', Nat.sub_add_cancel hS]
      have hsum := addOrdered_sum hl sign (b := x) hhn (d := d) (by rw [hx.exp, hhalf.exp]; omega) hnear
        (by rw [hhalf.sig]; omega)
      rw [hhalf.exp] at hsum
      exact hzero hsum

end Rounding

/-! ## Exactness -/

section Exact

variable (hw : HostWide l h) (dfp : Dfp l) (fmt : BinaryFormat l) (dec : RealValue l → DoubleWord h)

/-- A number of two words by its value. -/
theorem toNat_eq_emod (x : DoubleWord h) (u : Bool) : (x.toNat : ℤ) = x.value u % 2 ^ (4 * h) := by
  have hlt : (x.toNat : ℤ) < 2 ^ (4 * h) := by exact_mod_cast x.toNat_lt
  exact (Int.emod_eq_of_lt (Int.natCast_nonneg _) hlt).symm.trans (x.value_modEq u)

include hw

/-- **From an integer**: its value. Source: `real.c` `real_from_integer`. Kind: L -/
theorem realFromInteger_value (x : DoubleWord h) (u : Bool) :
    (realFromInteger dfp none x u).Finite ∧ (realFromInteger dfp none x u).value = x.value u := by
  by_cases hzero : x.value u = 0
  · have hnat : (x.toNat : ℤ) = 0 := by rw [toNat_eq_emod x u, hzero, Int.zero_emod]
    have hx : x = ⟨0, 0⟩ := by
      refine DoubleWord.ext_toNat ?_
      unfold DoubleWord.toNat at hnat ⊢
      simp only [BitVec.ofNat_eq_ofNat, BitVec.toNat_zero]
      omega
    have hresult : realFromInteger dfp none x u = getZero l false := by
      unfold realFromInteger convertTo
      rw [hx]
      simp
    rw [hresult, hzero, Int.cast_zero]
    exact ⟨Or.inl rfl, value_getZero false⟩
  · obtain ⟨s, hs, hge, hr⟩ := realFromInteger_represents hw dfp x u hzero
    have hle := hw.le
    have hbits := hw.long.significandBits_le
    refine ⟨Or.inr (hr.normalized hge (by unfold maxExp; omega)), ?_⟩
    have hscale : 4 * (h : ℤ) - s - significandBits l = -(significandBits l - 4 * h + s : ℕ) := by omega
    have hmagnitude : scaled ((x.value u).natAbs * 2 ^ (significandBits l - 4 * h) * 2 ^ s) (4 * (h : ℤ) - s - significandBits l) =
        ((x.value u).natAbs : ℤ) := by
      rw [hscale, mul_assoc, ← pow_add, scaled_mul_two_pow, neg_add_cancel]
      unfold scaled
      rw [zpow_zero, mul_one]
      rfl
    rw [hr.value, hmagnitude, signed_intCast]
    congr 1
    split_ifs with hneg
    · have := of_decide_eq_true hneg
      omega
    · have := of_decide_eq_false (Bool.not_eq_true _ ▸ hneg)
      omega

/-- **To an integer**: the truncation. Source: `real.c` `real_to_integer2`. Kind: L -/
theorem realToInteger2_value {r : RealValue l} (hr : r.Finite) (hsmall : |r.value| < 2 ^ (4 * h - 1)) :
    (realToInteger2 dec r).value false = truncate r.value := by
  have hpos := hw.pos
  have hle := hw.le
  have hzeroWord : (⟨0, 0⟩ : DoubleWord h).value false = 0 := by
    refine DoubleWord.value_eq_of_modEq hpos (by simp [DoubleWord.toNat]) ⟨?_, by positivity⟩
    exact neg_nonpos.mpr (by positivity)
  rcases hr with hzero | hn
  · have hword : realToInteger2 dec r = ⟨0, 0⟩ := by
      unfold realToInteger2
      rw [hzero]
    rw [hword, hzeroWord, value_of_zero hzero]
    simp [truncate]
  · have hr := hn.represents
    have hlt := r.sig_lt hw.long
    have hS : 0 < significandBits l := by
      unfold significandBits
      omega
    rw [hr.value, abs_signed, abs_of_nonneg scaled_nonneg] at hsmall
    rw [hr.value, truncate_signed scaled_nonneg]
    rcases le_or_gt r.realExp 0 with hneg | hposExp
    · have hword : realToInteger2 dec r = ⟨0, 0⟩ := by
        unfold realToInteger2
        rw [hr.cl, hr.decimal]
        dsimp only
        rw [if_neg Bool.false_ne_true, if_pos hneg]
      rw [hword, hzeroWord, floor_scaled_of_nonpos hlt hneg]
      simp
    · -- the exponent is bounded by the value
      have hexp : r.realExp ≤ 4 * h - 1 := by
        by_contra hbig
        refine absurd hsmall (not_lt.mpr ?_)
        calc (2 : ℚ) ^ (4 * h - 1) = 2 ^ ((4 * h - 1 : ℕ) : ℤ) := (zpow_natCast 2 _).symm
          _ ≤ 2 ^ ((significandBits l - 1 : ℕ) + (r.realExp - significandBits l)) := zpow_le_zpow_right₀ one_le_two (by omega)
          _ = scaled (2 ^ (significandBits l - 1)) (r.realExp - significandBits l) := (scaled_two_pow _ _).symm
          _ ≤ scaled r.sig.toNat (r.realExp - significandBits l) := scaled_le_scaled hn.sig
      obtain ⟨v, hv, hresult⟩ := realToInteger2_spec hw dec hr ⟨hposExp, by omega⟩
      obtain ⟨n, hn'⟩ := Int.eq_ofNat_of_zero_le (show 0 ≤ (significandBits l : ℤ) - r.realExp by omega)
      rw [hn', Int.toNat_natCast] at hv
      have hneg : r.realExp - significandBits l = -(n : ℤ) := by omega
      have hfloor : ⌊scaled r.sig.toNat (r.realExp - significandBits l)⌋ = v.toNat := by
        rw [hneg, floor_scaled_neg, hv]
      have hvlt : (v.toNat : ℤ) < 2 ^ (4 * h - 1) := by
        rw [← hfloor, Int.floor_lt]
        push_cast
        exact hsmall
      rw [hresult, hfloor]
      cases hsign : r.sign with
      | false =>
        rw [if_neg Bool.false_ne_true, if_neg Bool.false_ne_true]
        refine DoubleWord.value_eq_of_modEq hpos (Int.ModEq.refl _) ⟨?_, hvlt⟩
        have : (0 : ℤ) < 2 ^ (4 * h - 1) := by positivity
        omega
      | true =>
        rw [if_pos rfl, if_pos rfl]
        refine DoubleWord.value_eq_of_modEq hpos (negDouble_modEq v) ⟨?_, ?_⟩
        · omega
        · have : (0 : ℤ) < 2 ^ (4 * h - 1) := by positivity
          omega

/-- **The round trip** of an integer. Source: `real.c` `real_from_integer`, `real_to_integer2`. Kind: L -/
theorem realToInteger2_realFromInteger (x : DoubleWord h) (u : Bool) :
    realToInteger2 dec (realFromInteger dfp none x u) = x := by
  have hle := hw.le
  have hemod := toNat_eq_emod x u
  by_cases hzero : x.value u = 0
  · have hnat : (x.toNat : ℤ) = 0 := by rw [hemod, hzero, Int.zero_emod]
    have hx : x = ⟨0, 0⟩ := by
      refine DoubleWord.ext_toNat ?_
      unfold DoubleWord.toNat at hnat ⊢
      simp only [BitVec.ofNat_eq_ofNat, BitVec.toNat_zero]
      omega
    unfold realFromInteger convertTo realToInteger2
    rw [hx]
    simp [getZero]
  · obtain ⟨s, hs, hge, hr⟩ := realFromInteger_represents hw dfp x u hzero
    have hlt := RealValue.sig_lt hw.long (realFromInteger dfp none x u)
    rw [hr.sig] at hlt
    have hpos : 0 < (x.value u).natAbs := Int.natAbs_pos.mpr hzero
    have hshift : significandBits l - 4 * h + s < significandBits l := by
      refine (Nat.pow_lt_pow_iff_right one_lt_two).mp (lt_of_le_of_lt ?_ hlt)
      rw [mul_assoc, ← pow_add]
      exact Nat.le_mul_of_pos_left _ hpos
    obtain ⟨v, hv, hresult⟩ := realToInteger2_spec hw dec hr (by omega)
    have hexp : ((significandBits l : ℤ) - (4 * h - s)).toNat = significandBits l - 4 * h + s := by omega
    rw [hexp, mul_assoc, ← pow_add, Nat.mul_div_cancel _ (by positivity)] at hv
    apply DoubleWord.ext_toNat
    rw [hresult]
    have hcast : ((x.toNat : ℕ) : ℤ) = x.value u % ((2 ^ (4 * h) : ℕ) : ℤ) := by
      rw [hemod]
      push_cast
      rfl
    have hvlt := v.toNat_lt
    by_cases hneg : x.value u < 0
    · rw [decide_eq_true hneg, if_pos rfl, negDouble_toNat, Nat.mod_eq_of_lt (by omega)]
      have hmod : x.value u % ((2 ^ (4 * h) : ℕ) : ℤ) = x.value u + (2 ^ (4 * h) : ℕ) := by
        rw [← Int.add_emod_right, Int.emod_eq_of_lt (by omega) (by omega)]
      omega
    · rw [decide_eq_false hneg, if_neg Bool.false_ne_true]
      have hmod : x.value u % ((2 ^ (4 * h) : ℕ) : ℤ) = x.value u := Int.emod_eq_of_lt (by omega) (by omega)
      omega

variable {r : RealValue l} (hr : r.Finite)

include hr

omit hw hr in
theorem doFixTrunc_of_zero (hzero : r.cl = .rvc_zero) : doFixTrunc dfp r = r := by
  unfold doFixTrunc
  rw [hzero]

/-- **The truncation.** Source: `real.c` `do_fix_trunc`. Kind: L -/
theorem doFixTrunc_value : (doFixTrunc dfp r).Finite ∧ (doFixTrunc dfp r).value = truncate r.value := by
  rcases hr with hzero | hn
  · rw [doFixTrunc_of_zero dfp hzero, value_of_zero hzero]
    refine ⟨Or.inl hzero, ?_⟩
    simp [truncate]
  · obtain ⟨hfinite, hvalue⟩ := doFixTrunc_spec hw.long dfp hn.represents hn.sig hn.exp
    refine ⟨hfinite, ?_⟩
    rw [hvalue, hn.represents.value, truncate_signed scaled_nonneg, signed_intCast]

omit hr in
/-- A number that is not integral has a fraction. Source: `real.c` `real_floor`. Kind: L -/
theorem exp_lt_of_not_identical (hn : r.Normalized) (hne : realIdentical (doFixTrunc dfp r) r = false) :
    r.realExp < significandBits l := by
  by_contra hge
  rw [doFixTrunc_of_ge dfp hn.represents (not_lt.mp hge), (realIdentical_iff hw.long hn.represents hn.represents).mpr rfl] at hne
  exact Bool.noConfusion hne

omit hw hr in
theorem realIdentical_of_zero (hzero : r.cl = .rvc_zero) : realIdentical r r = true := by
  unfold realIdentical
  rw [hzero]
  simp

omit hr in
/-- The magnitude, rounded up. Source: `real.c` `real_floor`, `real_ceil`. Kind: L -/
theorem ceil_magnitude (hn : r.Normalized) :
    ⌈r.magnitude⌉ = ⌊r.magnitude⌋ + if realIdentical (doFixTrunc dfp r) r then 0 else 1 := by
  have hid := realIdentical_doFixTrunc_iff hw.long dfp hn.represents hn.sig
  change _ ↔ (⌊r.magnitude⌋ : ℚ) = r.magnitude at hid
  split_ifs with hident
  · have hint := hid.mp hident
    rw [← hint, Int.ceil_intCast, Int.floor_intCast, add_zero]
  · refine (Int.ceil_eq_floor_add_one_iff_notMem _).mpr ?_
    rintro ⟨z, hz⟩
    refine hident (hid.mpr ?_)
    rw [← hz, Int.floor_intCast]

omit hr in
/-- The truncation, with one added to the magnitude of a number that is not integral if it is to be rounded away from zero.
Source: `real.c` `real_floor`, `real_ceil`
Kind: L -/
theorem roundAway_value (hn : r.Normalized) {away : Bool} {one : RealValue l}
    (hone : away = true → one.Represents r.sign 1 (2 ^ (significandBits l - 1))) {x : RealValue l}
    (hx : (if !realIdentical (doFixTrunc dfp r) r && away then (doAdd (doFixTrunc dfp r) one false).1 else doFixTrunc dfp r) = x) :
    x.Finite ∧ x.value = signed r.sign (if away then ⌈r.magnitude⌉ else ⌊r.magnitude⌋ : ℤ) := by
  obtain ⟨hfinite, hvalue⟩ := doFixTrunc_spec hw.long dfp hn.represents hn.sig hn.exp
  change _ = signed r.sign ⌊r.magnitude⌋ at hvalue
  subst hx
  cases away with
  | false =>
    rw [Bool.and_false, if_neg Bool.false_ne_true, if_neg Bool.false_ne_true]
    exact ⟨hfinite, hvalue⟩
  | true =>
    rw [if_pos rfl, ceil_magnitude hw dfp hn]
    cases hident : realIdentical (doFixTrunc dfp r) r with
    | true =>
      rw [Bool.not_true, Bool.false_and, if_neg Bool.false_ne_true, if_pos rfl, add_zero]
      exact ⟨hfinite, hvalue⟩
    | false =>
      obtain ⟨hfinite', hvalue'⟩ :=
        doAdd_one hw.long dfp hn.represents hn.sig hn.exp (hone rfl) (exp_lt_of_not_identical hw dfp hn hident)
      rw [Bool.not_false, Bool.true_and, if_pos rfl, if_neg Bool.false_ne_true, Int.cast_add, Int.cast_one]
      exact ⟨hfinite', hvalue'⟩

/-- **The floor.** Source: `real.c` `real_floor`. Kind: L -/
theorem realFloor_value : (realFloor h dfp fmt none r).Finite ∧ (realFloor h dfp fmt none r).value = ⌊r.value⌋ := by
  unfold realFloor convertTo
  dsimp only
  rcases hr with hzero | hn
  · rw [doFixTrunc_of_zero dfp hzero, realIdentical_of_zero hzero, Bool.not_true, Bool.false_and, if_neg Bool.false_ne_true,
      value_of_zero hzero]
    exact ⟨Or.inl hzero, by simp⟩
  · obtain ⟨hfinite, hvalue⟩ := roundAway_value hw dfp hn (fun hsign => hsign ▸ dconstm1_represents hw dfp fmt) rfl
    refine ⟨hfinite, hvalue.trans ?_⟩
    rw [hn.represents.value, floor_signed, signed_intCast]
    cases r.sign <;> rfl

/-- **The ceiling.** Source: `real.c` `real_ceil`. Kind: L -/
theorem realCeil_value : (realCeil h dfp fmt none r).Finite ∧ (realCeil h dfp fmt none r).value = ⌈r.value⌉ := by
  unfold realCeil convertTo
  dsimp only
  rcases hr with hzero | hn
  · rw [doFixTrunc_of_zero dfp hzero, realIdentical_of_zero hzero, Bool.not_true, Bool.false_and, if_neg Bool.false_ne_true,
      value_of_zero hzero]
    exact ⟨Or.inl hzero, by simp⟩
  · have hone : (!r.sign) = true → (dconst1 h dfp fmt).Represents r.sign 1 (2 ^ (significandBits l - 1)) := by
      intro hsign
      rw [(Bool.not_eq_true' _).mp hsign]
      exact dconst1_represents hw dfp fmt
    obtain ⟨hfinite, hvalue⟩ := roundAway_value hw dfp hn hone rfl
    refine ⟨hfinite, hvalue.trans ?_⟩
    rw [hn.represents.value, ceil_signed, signed_intCast]
    cases r.sign <;> rfl

/-- **The nearest integer.** Source: `real.c` `real_round`. Kind: L -/
theorem realRound_value : (realRound h dfp fmt none r).Finite ∧ (realRound h dfp fmt none r).value = roundHalfAway r.value := by
  unfold realRound convertTo
  dsimp only
  have hhalf := dconsthalf_represents hw dfp fmt
  rcases hr with hzero | hn
  · have hsum := doAdd_zero_left hzero hhalf r.sign
    have hround : roundHalfAway 0 = 0 := by
      unfold roundHalfAway
      norm_num
    rw [doFixTrunc_of_nonpos dfp hsum le_rfl, value_of_zero hzero, hround, value_getZero]
    exact ⟨Or.inl rfl, rfl⟩
  · obtain ⟨hfinite, hvalue⟩ := doAdd_half hw.long dfp hn.represents hn.sig hn.exp hhalf
    refine ⟨hfinite, hvalue.trans ?_⟩
    rw [hn.represents.value, roundHalfAway_signed scaled_nonneg, signed_intCast]

end Exact

/-- **Conversions and roundings are exact.**
Source: `real.c` `real_from_integer`, `real_to_integer2`, `do_fix_trunc`, `real_floor`, `real_ceil`, `real_round`
Kind: P -/
theorem real_integer_exact (hw : HostWide l h) (dfp : Dfp l) (fmt : BinaryFormat l) (dec : RealValue l → DoubleWord h) :
    (∀ (x : DoubleWord h) (unsignedP : Bool),
      (realFromInteger dfp none x unsignedP).Finite ∧ (realFromInteger dfp none x unsignedP).value = x.value unsignedP ∧
        realToInteger2 dec (realFromInteger dfp none x unsignedP) = x) ∧
      ∀ r : RealValue l, r.Finite →
        ((doFixTrunc dfp r).Finite ∧ (doFixTrunc dfp r).value = truncate r.value) ∧
          ((realFloor h dfp fmt none r).Finite ∧ (realFloor h dfp fmt none r).value = ⌊r.value⌋) ∧
          ((realCeil h dfp fmt none r).Finite ∧ (realCeil h dfp fmt none r).value = ⌈r.value⌉) ∧
          ((realRound h dfp fmt none r).Finite ∧ (realRound h dfp fmt none r).value = roundHalfAway r.value) ∧
          (|r.value| < 2 ^ (4 * h - 1) → (realToInteger2 dec r).value false = truncate r.value) := by
  constructor
  · intro x unsignedP
    obtain ⟨hfinite, hvalue⟩ := realFromInteger_value hw dfp x unsignedP
    exact ⟨hfinite, hvalue, realToInteger2_realFromInteger hw dfp dec x unsignedP⟩
  · intro r hr
    exact ⟨doFixTrunc_value hw dfp hr, realFloor_value hw dfp fmt hr, realCeil_value hw dfp fmt hr, realRound_value hw dfp fmt hr,
      realToInteger2_value hw dec hr⟩

/-- Minus two and a half, on a host with a `long` of 64 bits. -/
def minusTwoAndAHalf : RealValue 64 :=
  ⟨.rvc_normal, false, true, false, false, setRealExp 2, .ofFn fun i => if i = 2 then 5 <<< 61 else 0⟩

/-- Minus two and a half rounds to minus three, away from zero. Source: `real.c` `real_round`. Kind: C -/
theorem real_integer_exact_minus_two_and_a_half :
    (realRound 32 (Dfp.keep 64) (ieeeDoubleFormat 64) none minusTwoAndAHalf).value = -3 := by
  have hr : minusTwoAndAHalf.Represents true 2 (5 * 2 ^ 189) := ⟨rfl, rfl, rfl, by decide, by decide⟩
  have hvalue : minusTwoAndAHalf.value = -(5 / 2) := by
    rw [hr.value, scaled_mul_two_pow]
    norm_num [signed, scaled, significandBits]
  have hexact := (real_integer_exact (Or.inl ⟨rfl, rfl⟩) (Dfp.keep 64) (ieeeDoubleFormat 64)
    fun _ => (⟨0, 0⟩ : DoubleWord 32)).2 minusTwoAndAHalf (Or.inr (hr.normalized (by decide) (by decide)))
  rw [hexact.2.2.2.1.2, hvalue]
  norm_num [roundHalfAway]

end GccCore.Gcc.Real
