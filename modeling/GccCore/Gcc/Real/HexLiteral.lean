import GccCore.Gcc.Real.HexString
import Mathlib.Data.List.TakeWhile

/-!
# `gcc/real.c`: the value of a hexadecimal literal

* **Literals** (`HexLiteral`) of the grammar of C, with their exact magnitude.
* **What the code keeps** (`realFromString_text`): the digits from the first that is not zero on, as many as the significand holds.
* **The value** (`real_from_string_hex`): exact but for the last bit of the digits that are kept, or infinity, or zero.
-/

namespace GccCore.Gcc.Real

open GccCore.Lib.Digits GccCore.Lib.WordArray GccCore.Lib.Scaled

variable {l : ℕ}

/-! ## The grammar -/

/-- A sign that may be left out. Source: `real.c` `real_from_string` (`if (*str == '-')`). -/
def signText : Option Bool → List Char
  | none => []
  | some true => ['-']
  | some false => ['+']

/-- A binary exponent. Source: `real.c` `real_from_string` (`if (*str == 'p' || *str == 'P')`). -/
structure HexExponent where
  upper : Bool
  sign : Option Bool
  digits : List Char
  isDigit : ∀ c ∈ digits, c.isDigit

/-- A hexadecimal literal. Source: `real.c` `real_from_string` ("Hexadecimal floating point"). -/
structure HexLiteral where
  sign : Option Bool
  upper : Bool
  whole : List Char
  fraction : Option (List Char)
  exponent : Option HexExponent
  whole_hex : ∀ c ∈ whole, hexValue c ≠ none
  fraction_hex : ∀ c ∈ fraction.getD [], hexValue c ≠ none

def exponentText : Option HexExponent → List Char
  | none => []
  | some e => (if e.upper then 'P' else 'p') :: (signText e.sign ++ e.digits)

namespace HexLiteral

variable (t : HexLiteral)

/-- The characters of a literal. -/
def text : List Char :=
  signText t.sign ++ '0' :: (if t.upper then 'X' else 'x') :: (t.whole ++ (fractionText t.fraction ++ exponentText t.exponent))

def negative : Bool := t.sign == some true

def exponentMagnitude : ℕ :=
  match t.exponent with
  | none => 0
  | some e => Nat.ofDigitChars 10 e.digits 0

def exponentNegative : Bool :=
  match t.exponent with
  | none => false
  | some e => e.sign == some true

/-- The binary exponent, as it is written. -/
def exponentValue : ℤ := if t.exponentNegative then -(t.exponentMagnitude : ℤ) else t.exponentMagnitude

/-- The digits of the mantissa. -/
def digits : List Char := t.whole ++ t.fraction.getD []

/-- The exact magnitude. -/
def magnitude : ℚ := scaled (hexNumber (t.digits.filterMap hexValue)) (t.exponentValue - 4 * (t.fraction.getD []).length)

/-- The exponent that the first digit has, if that is not zero. Source: `real.c` `real_from_string` (`exp`). -/
def leadExponent : ℤ := 4 * ((leadDigits t.digits).length - (t.fraction.getD []).length) + t.exponentValue

end HexLiteral

/-! ## Scanning a literal -/

section Scan

variable (hl : HostLong l)

theorem scanSign_signText (sign : Option Bool) {str : List Char} (hstr : ∀ c ∈ str.head?, c ≠ '-' ∧ c ≠ '+') :
    scanSign (signText sign ++ str) = (sign == some true, str) := by
  cases sign with
  | none =>
    cases str with
    | nil => rfl
    | cons c str =>
      obtain ⟨hminus, hplus⟩ := hstr c rfl
      rw [signText, List.nil_append, scanSign, if_neg hminus, if_neg hplus]
      rfl
  | some neg =>
    cases neg with
    | true => rfl
    | false => rfl

theorem exponentText_head (e : Option HexExponent) :
    NoHexHead (exponentText e) ∧ (exponentText e).head? ≠ some '.' := by
  cases e with
  | none => exact ⟨fun c hc => absurd hc (by simp [exponentText]), by simp [exponentText]⟩
  | some e =>
    unfold exponentText NoHexHead
    rw [List.head?_cons]
    cases e.upper with
    | true | false =>
      refine ⟨fun c hc => ?_, by decide⟩
      obtain rfl := Option.some.inj hc
      decide

/-- **The exponent** of a literal. Source: `real.c` `real_from_string`. Kind: L -/
theorem hexExponent_exponentText (t : HexLiteral) :
    hexExponent (exponentText t.exponent) =
      (t.exponentNegative, if (t.exponentMagnitude : ℤ) ≤ maxExp then some t.exponentMagnitude else none) := by
  unfold HexLiteral.exponentNegative HexLiteral.exponentMagnitude
  cases t.exponent with
  | none =>
    rw [if_pos (by decide)]
    rfl
  | some e =>
    have hletter : (if e.upper then 'P' else 'p') = 'p' ∨ (if e.upper then 'P' else 'p') = 'P' := by
      cases e.upper
      · exact Or.inl rfl
      · exact Or.inr rfl
    have hsign : scanSign (signText e.sign ++ e.digits) = (e.sign == some true, e.digits) := by
      refine scanSign_signText e.sign fun c hc => ?_
      have hdigit := e.isDigit c (List.mem_of_mem_head? hc)
      constructor
      · rintro rfl
        exact absurd hdigit (by decide)
      · rintro rfl
        exact absurd hdigit (by decide)
    rw [exponentText, hexExponent, if_pos hletter, hsign]
    dsimp only
    rw [scanExponent_eq e.isDigit (by decide)]

omit hl in
theorem length_filterMap_hexValue {cs : List Char} (hcs : ∀ c ∈ cs, hexValue c ≠ none) :
    (cs.filterMap hexValue).length = cs.length := by
  induction cs with
  | nil => rfl
  | cons c cs ih =>
    obtain ⟨d, hd⟩ := Option.ne_none_iff_exists'.mp (hcs c List.mem_cons_self)
    rw [List.filterMap_cons_some hd, List.length_cons, List.length_cons, ih fun c hc => hcs c (List.mem_cons_of_mem _ hc)]

include hl

/-- The significand of a literal. Source: `real.c` `real_from_string`. Kind: L -/
theorem realFromString_text (decimal : Bool → List Char → ℤ × RealValue l) (t : HexLiteral) :
    ∃ s : HexState l, s.sig.toNat = hexSignificand l (leadDigits t.digits) ∧
      s.exp = 4 * ((leadDigits t.digits).length - (t.fraction.getD []).length) ∧
      realFromString decimal t.text =
        if !cmpSignificand0 s.sig then (0, getZero l t.negative)
        else if (t.exponentMagnitude : ℤ) ≤ maxExp then
          (0, { normalize ⟨.rvc_normal, false, false, false, false, setRealExp (s.exp + t.exponentValue), s.sig⟩ with
                sign := t.negative })
        else if t.exponentNegative then (-1, getZero l t.negative)
        else (1, getInf l t.negative) := by
  obtain ⟨hhead, hpoint⟩ := exponentText_head t.exponent
  obtain ⟨s, hscan, hsig, hexp⟩ := scanMantissa_spec hl t.whole_hex t.fraction_hex hhead hpoint
  have hhex : ∀ c ∈ t.digits.dropWhile (· = '0'), hexValue c ≠ none := by
    intro c hc
    rcases List.mem_append.mp (List.dropWhile_subset _ hc) with hwhole | hfraction
    · exact t.whole_hex c hwhole
    · exact t.fraction_hex c hfraction
  have hlength : (leadDigits t.digits).length = (t.digits.dropWhile (· = '0')).length := length_filterMap_hexValue hhex
  refine ⟨s, hsig, ?_, ?_⟩
  · rw [hlength]
    exact hexp
  · have hletter : (if t.upper then 'X' else 'x') = 'x' ∨ (if t.upper then 'X' else 'x') = 'X' := by
      cases t.upper
      · exact Or.inl rfl
      · exact Or.inr rfl
    have hsign : scanSign t.text = (t.negative, '0' :: (if t.upper then 'X' else 'x') ::
        (t.whole ++ (fractionText t.fraction ++ exponentText t.exponent))) := by
      refine scanSign_signText t.sign fun c hc => ?_
      obtain rfl := Option.some.inj hc
      decide
    have hhex : realFromString decimal t.text =
        realFromHex t.negative (t.whole ++ (fractionText t.fraction ++ exponentText t.exponent)) := by
      unfold realFromString
      rw [hsign]
      dsimp only
      rw [if_neg (by simp), if_neg (by simp), if_neg (by simp), if_pos ⟨rfl, hletter⟩]
    rw [hhex]
    unfold realFromHex
    rw [hscan]
    dsimp only
    rw [hexExponent_exponentText t]
    split_ifs
    · rfl
    · rfl
    · dsimp only
      rw [if_pos ‹_›]
    · dsimp only
      rw [if_neg ‹_›]

end Scan

/-! ## The digits that are kept -/

section Kept

theorem eq_zero_of_hexValue {c : Char} (hc : hexValue c = some 0) : c = '0' := by
  unfold hexValue at hc
  simp only [Char.le_def, UInt32.le_iff_toNat_le] at hc
  split_ifs at hc with hdigit hupper hlower
  · have hzero := Option.some.inj hc
    have hge : 48 ≤ c.toNat := hdigit.1
    have hbase : '0'.toNat = 48 := rfl
    exact Char.toNat_inj.mp (by omega)
  · exact absurd (Option.some.inj hc) (by omega)
  · exact absurd (Option.some.inj hc) (by omega)

/-- The first digit is not zero. Source: `real.c` `real_from_string` (`while (*str == '0')`). Kind: L -/
theorem leadDigits_cons {cs : List Char} (hcs : ∀ c ∈ cs, hexValue c ≠ none) (hne : leadDigits cs ≠ []) :
    ∃ d ds, leadDigits cs = d :: ds ∧ d ≠ 0 := by
  unfold leadDigits at hne ⊢
  cases hdrop : cs.dropWhile (· = '0') with
  | nil =>
    rw [hdrop] at hne
    exact absurd List.filterMap_nil hne
  | cons c rest =>
    have hmem : c ∈ cs := List.dropWhile_subset (· = '0') (hdrop ▸ List.mem_cons_self)
    obtain ⟨d, hd⟩ := Option.ne_none_iff_exists'.mp (hcs c hmem)
    refine ⟨d, rest.filterMap hexValue, List.filterMap_cons_some hd, ?_⟩
    rintro rfl
    have hhead := List.head_dropWhile_not (· = '0') (l := cs) (by rw [hdrop]; exact List.cons_ne_nil c rest)
    simp only [hdrop, List.head_cons, eq_zero_of_hexValue hd] at hhead
    exact absurd hhead (by decide)

/-- The zeros in front do not count. -/
theorem hexNumber_leadDigits (cs : List Char) : hexNumber (cs.filterMap hexValue) = hexNumber (leadDigits cs) := by
  have hzeros : hexNumber ((cs.takeWhile (· = '0')).filterMap hexValue) = 0 := by
    refine (hexNumber_eq_zero_iff _).mpr fun d hd => ?_
    obtain ⟨c, hc, hvalue⟩ := List.mem_filterMap.mp hd
    have hzero : c = '0' := by simpa using List.mem_takeWhile_imp hc
    rw [hzero] at hvalue
    exact (Option.some.inj hvalue).symm
  conv_lhs => rw [← List.takeWhile_append_dropWhile (p := (· = '0')) (l := cs)]
  rw [List.filterMap_append, hexNumber_append_list, hzeros, zero_mul, zero_add]
  rfl

variable (hl : HostLong l) {ds : List ℕ} (hds : ∀ d ∈ ds, d < 16)

include hds

/-- **The digits that are kept** are the integral part, and the sticky bit is the fraction. Source: `real.c` `real_from_string`. Kind: L -/
theorem hexSignificand_eq :
    hexSignificand l ds = truncateSticky (scaled (hexNumber ds) (4 * ((hexPlaces l : ℤ) - ds.length))) := by
  rcases le_or_gt ds.length (hexPlaces l) with hle | hgt
  · obtain ⟨k, hk⟩ := Nat.exists_eq_add_of_le hle
    have hscale : 4 * ((hexPlaces l : ℤ) - ds.length) = (4 * k : ℕ) := by
      rw [hk]
      push_cast
      ring
    rw [hexSignificand_of_le hle, hscale, scaled_natCast, truncateSticky_natCast, hk, Nat.add_sub_cancel_left, pow_mul]
    rfl
  · obtain ⟨k, hk⟩ := Nat.exists_eq_add_of_lt hgt
    have hscale : 4 * ((hexPlaces l : ℤ) - ds.length) = -((4 * (k + 1) : ℕ) : ℤ) := by
      rw [hk]
      push_cast
      ring
    have hdropLength : (ds.drop (hexPlaces l)).length = k + 1 := by
      rw [List.length_drop]
      omega
    have hpow : 16 ^ (k + 1) = 2 ^ (4 * (k + 1)) := by
      rw [pow_mul]
      rfl
    have hsplit : hexNumber ds = hexNumber (ds.take (hexPlaces l)) * 2 ^ (4 * (k + 1)) + hexNumber (ds.drop (hexPlaces l)) := by
      conv_lhs => rw [← List.take_append_drop (hexPlaces l) ds]
      rw [hexNumber_append_list, hdropLength, hpow]
    have hrest : hexNumber (ds.drop (hexPlaces l)) < 2 ^ (4 * (k + 1)) := by
      rw [← hpow, ← hdropLength]
      exact hexNumber_lt fun d hd => hds d (List.mem_of_mem_drop hd)
    have hany : (ds.drop (hexPlaces l)).any (· ≠ 0) = true ↔ hexNumber ds % 2 ^ (4 * (k + 1)) ≠ 0 := by
      rw [hsplit, Nat.mul_add_mod_self_right, Nat.mod_eq_of_lt hrest, ne_eq, hexNumber_eq_zero_iff]
      simp
    rw [hscale, truncateSticky_scaled_neg, ← or_toNat_eq_stickyDiv ?_ hany]
    · unfold hexSignificand
      rw [Nat.sub_eq_zero_of_le hgt.le, pow_zero, mul_one]
    · rw [hsplit, Nat.add_comm, Nat.add_mul_div_right _ _ (by positivity), Nat.div_eq_of_lt hrest, Nat.zero_add]

include hl

/-- The number of bits of the significand. Source: `real.c` `real_from_string`. Kind: L -/
theorem hexSignificand_lt : hexSignificand l ds < 2 ^ significandBits l := by
  have hpow : 2 ^ significandBits l = 16 ^ hexPlaces l := by
    rw [hl.hexPlaces_eq, pow_mul]
    rfl
  have hS : significandBits l ≠ 0 := by
    unfold significandBits
    omega
  unfold hexSignificand
  refine Nat.or_lt_two_pow ?_ (lt_of_le_of_lt (Bool.toNat_le _) (Nat.one_lt_two_pow hS))
  have htake : hexNumber (ds.take (hexPlaces l)) < 16 ^ (ds.take (hexPlaces l)).length :=
    hexNumber_lt fun d hd => hds d (List.mem_of_mem_take hd)
  rw [List.length_take] at htake
  calc hexNumber (ds.take (hexPlaces l)) * 16 ^ (hexPlaces l - ds.length)
      < 16 ^ min (hexPlaces l) ds.length * 16 ^ (hexPlaces l - ds.length) := Nat.mul_lt_mul_of_pos_right htake (by positivity)
    _ = 2 ^ significandBits l := by rw [hpow, ← pow_add]; congr 1; omega

omit hds in
theorem le_hexSignificand {d : ℕ} (hd : d ≠ 0) : 2 ^ (significandBits l - 4) ≤ hexSignificand l (d :: ds) := by
  obtain ⟨k, hk⟩ := Nat.exists_eq_add_of_lt (show 0 < hexPlaces l by unfold hexPlaces significandBits; omega)
  rw [Nat.zero_add] at hk
  have hpow : 2 ^ (significandBits l - 4) = 16 ^ k := by
    rw [hl.hexPlaces_eq, hk, mul_add, mul_one, Nat.add_sub_cancel, pow_mul]
    rfl
  have hnumber : 16 ^ (ds.take k).length ≤ hexNumber ((d :: ds).take (hexPlaces l)) := by
    rw [hk, List.take_succ_cons, ← List.singleton_append, hexNumber_append_list]
    have hone : 1 ≤ hexNumber [d] := Nat.pos_of_ne_zero fun h => hd ((hexNumber_eq_zero_iff [d]).mp h d (List.mem_singleton_self d))
    calc 16 ^ (ds.take k).length ≤ hexNumber [d] * 16 ^ (ds.take k).length := Nat.le_mul_of_pos_left _ hone
      _ ≤ _ := Nat.le_add_right _ _
  unfold hexSignificand
  refine le_trans ?_ Nat.left_le_or
  calc 2 ^ (significandBits l - 4) = 16 ^ (ds.take k).length * 16 ^ (hexPlaces l - (d :: ds).length) := by
        rw [hpow, ← pow_add, List.length_take, List.length_cons]
        congr 1
        omega
    _ ≤ hexNumber ((d :: ds).take (hexPlaces l)) * 16 ^ (hexPlaces l - (d :: ds).length) := Nat.mul_le_mul_right _ hnumber

end Kept

/-- Digits, as a computation. -/
theorem hexValue_of_all {cs : List Char} (h : cs.all (fun c => (hexValue c).isSome) = true) : ∀ c ∈ cs, hexValue c ≠ none :=
  fun c hc => Option.isSome_iff_ne_none.mp (List.all_eq_true.mp h c hc)

/-! ## The value of a literal -/

section Value

variable (hl : HostLong l) (t : HexLiteral)

theorem HexLiteral.digits_hex : ∀ c ∈ t.digits, hexValue c ≠ none := by
  intro c hc
  rcases List.mem_append.mp hc with hwhole | hfraction
  · exact t.whole_hex c hwhole
  · exact t.fraction_hex c hfraction

/-- The exact magnitude, from the first digit that is not zero on. -/
theorem HexLiteral.magnitude_eq : t.magnitude =
    scaled (hexNumber (leadDigits t.digits)) (t.leadExponent - 4 * (leadDigits t.digits).length) := by
  unfold HexLiteral.magnitude HexLiteral.leadExponent
  rw [hexNumber_leadDigits]
  congr 1
  ring

theorem HexLiteral.exists_lead (hne : t.magnitude ≠ 0) : ∃ d ds, leadDigits t.digits = d :: ds ∧ d ≠ 0 := by
  refine leadDigits_cons t.digits_hex fun hnil => hne ?_
  rw [t.magnitude_eq, hnil]
  exact scaled_zero

theorem HexLiteral.lead_lt : ∀ d ∈ leadDigits t.digits, d < 16 := digit_lt _

include hl

/-- **The significand** that is read, as the magnitude. Source: `real.c` `real_from_string`. Kind: L -/
theorem HexLiteral.significand_eq :
    hexSignificand l (leadDigits t.digits) = truncateSticky (t.magnitude * 2 ^ ((significandBits l : ℤ) - t.leadExponent)) := by
  rw [hexSignificand_eq t.lead_lt, t.magnitude_eq]
  congr 1
  unfold scaled
  rw [mul_assoc, ← zpow_add₀ two_ne_zero, hl.hexPlaces_eq]
  congr 2
  push_cast
  ring

variable (decimal : Bool → List Char → ℤ × RealValue l) (hne : t.magnitude ≠ 0)

include hne

/-- A literal whose exponent is not too large. Source: `real.c` `real_from_string`. Kind: L -/
theorem realFromString_eq :
    ∃ s : HexState l, s.sig.toNat = hexSignificand l (leadDigits t.digits) ∧
      realFromString decimal t.text =
        if (t.exponentMagnitude : ℤ) ≤ maxExp then
          (0, { normalize ⟨.rvc_normal, false, false, false, false, setRealExp t.leadExponent, s.sig⟩ with sign := t.negative })
        else if t.exponentNegative then (-1, getZero l t.negative)
        else (1, getInf l t.negative) := by
  obtain ⟨d, ds, hlead, hd⟩ := t.exists_lead hne
  obtain ⟨s, hsig, hexp, htext⟩ := realFromString_text hl decimal t
  have hpos : 0 < s.sig.toNat := by
    rw [hsig, hlead]
    exact lt_of_lt_of_le (by positivity) (le_hexSignificand hl hd)
  have hcmp : cmpSignificand0 s.sig = true := (cmpSignificand0_iff hl.pos s.sig).mpr hpos.ne'
  refine ⟨s, hsig, ?_⟩
  rw [htext, hcmp, Bool.not_true, if_neg Bool.false_ne_true, hexp]
  rfl

/-- **The exponent** of the result. Source: `real.c` `real_from_string`. Kind: L -/
theorem exists_leadShift :
    ∃ s : ℕ, s ≤ 3 ∧ 2 ^ (significandBits l - 1) ≤ hexSignificand l (leadDigits t.digits) * 2 ^ s ∧
      hexSignificand l (leadDigits t.digits) * 2 ^ s < 2 ^ significandBits l ∧
      (2 : ℚ) ^ (t.leadExponent - s - 1) ≤ t.magnitude ∧ t.magnitude < 2 ^ (t.leadExponent - s) := by
  obtain ⟨d, ds, hlead, hd⟩ := t.exists_lead hne
  have hge : 2 ^ (significandBits l - 4) ≤ hexSignificand l (d :: ds) := le_hexSignificand hl hd
  have hlt := hexSignificand_lt hl t.lead_lt
  rw [← hlead] at hge
  obtain ⟨s, hs, hmsb, hbelow⟩ := exists_shift (lt_of_lt_of_le (by positivity) hge).ne' hlt
  have hsmall : significandBits l - 4 + s < significandBits l := by
    refine (Nat.pow_lt_pow_iff_right one_lt_two).mp (lt_of_le_of_lt ?_ hbelow)
    rw [pow_add]
    exact Nat.mul_le_mul_right _ hge
  have hbits : 128 ≤ significandBits l := Nat.le_add_right _ _
  have hs3 : s ≤ 3 := by omega
  have hlower : 2 ^ (significandBits l - 1 - s) ≤ hexSignificand l (leadDigits t.digits) := by
    refine Nat.le_of_mul_le_mul_right ?_ (Nat.two_pow_pos s)
    rw [← pow_add]
    exact le_trans (le_of_eq (by congr 1; omega)) hmsb
  have hupper : ¬ 2 ^ (significandBits l - s) ≤ hexSignificand l (leadDigits t.digits) := by
    intro hle
    refine absurd hbelow (not_lt.mpr ?_)
    calc 2 ^ significandBits l = 2 ^ (significandBits l - s) * 2 ^ s := by rw [← pow_add]; congr 1; omega
      _ ≤ _ := Nat.mul_le_mul_right _ hle
  have hq : 0 ≤ t.magnitude * 2 ^ ((significandBits l : ℤ) - t.leadExponent) := mul_nonneg scaled_nonneg (by positivity)
  rw [t.significand_eq hl, two_pow_le_truncateSticky_iff hq (by omega)] at hlower
  rw [t.significand_eq hl, two_pow_le_truncateSticky_iff hq (by omega)] at hupper
  have hback : t.magnitude = t.magnitude * 2 ^ ((significandBits l : ℤ) - t.leadExponent) *
      2 ^ (t.leadExponent - significandBits l) := by
    rw [mul_assoc, ← zpow_add₀ two_ne_zero, sub_add_sub_cancel, sub_self, zpow_zero, mul_one]
  refine ⟨s, by omega, hmsb, hbelow, ?_, ?_⟩
  · rw [hback]
    calc (2 : ℚ) ^ (t.leadExponent - s - 1) = 2 ^ (significandBits l - 1 - s) * 2 ^ (t.leadExponent - significandBits l) := by
          rw [← zpow_natCast, ← zpow_add₀ two_ne_zero]
          congr 1
          omega
      _ ≤ _ := mul_le_mul_of_nonneg_right hlower (by positivity)
  · rw [hback]
    calc _ < (2 : ℚ) ^ (significandBits l - s) * 2 ^ (t.leadExponent - significandBits l) :=
          mul_lt_mul_of_pos_right (not_le.mp hupper) (by positivity)
      _ = 2 ^ (t.leadExponent - s) := by
          rw [← zpow_natCast, ← zpow_add₀ two_ne_zero]
          congr 1
          omega

variable (hexp : |t.exponentValue| ≤ maxExp) (hfield : -2 ^ 25 ≤ t.leadExponent ∧ t.leadExponent < 2 ^ 25)

include hexp hfield

/-- **A literal that is in range.** Source: `real.c` `real_from_string`. Kind: L -/
theorem realFromString_inRange :
    ∃ exp : ℤ, 2 ^ (exp - 1) ≤ t.magnitude ∧ t.magnitude < 2 ^ exp ∧
      (exp < -maxExp → exp < t.leadExponent → realFromString decimal t.text = (0, getZero l t.negative)) ∧
      (-maxExp ≤ exp → exp ≤ maxExp ∧ ∃ s : ℕ, exp = t.leadExponent - s ∧
        2 ^ (significandBits l - 1) ≤ hexSignificand l (leadDigits t.digits) * 2 ^ s ∧ (realFromString decimal t.text).1 = 0 ∧
        (realFromString decimal t.text).2.Represents t.negative exp (hexSignificand l (leadDigits t.digits) * 2 ^ s)) := by
  obtain ⟨s, hs, hmsb, hbelow, hlower, hupper⟩ := exists_leadShift hl t hne
  obtain ⟨st, hsig, htext⟩ := realFromString_eq hl t decimal hne
  have hmagnitude : (t.exponentMagnitude : ℤ) ≤ maxExp := by
    unfold HexLiteral.exponentValue at hexp
    split_ifs at hexp
    · rwa [abs_neg, Nat.abs_cast] at hexp
    · rwa [Nat.abs_cast] at hexp
  rw [if_pos hmagnitude] at htext
  have hr : RealValue.Represents (⟨.rvc_normal, false, false, false, false, setRealExp t.leadExponent, st.sig⟩ : RealValue l) false
      t.leadExponent (hexSignificand l (leadDigits t.digits)) := ⟨rfl, rfl, rfl, realExp_eq rfl hfield, hsig⟩
  have hmax : t.leadExponent ≤ maxExp := by
    unfold maxExp
    omega
  refine ⟨t.leadExponent - s, hlower, hupper, fun hlow hshift => ?_, fun hhigh => ?_⟩
  · rw [htext, normalize_underflow hl hr hmsb hbelow (by omega) hlow]
    rfl
  · obtain ⟨hcl, hdec, hsign, hexp', hsig'⟩ := normalize_spec hl hr hmax hmsb hbelow hhigh
    rw [htext]
    exact ⟨by omega, s, rfl, hmsb, rfl, hcl, hdec, rfl, hexp', hsig'⟩

omit hexp hfield in
/-- **Reading a hexadecimal literal.** An exponent out of range gives infinity or zero. Otherwise the significand is the
magnitude, cut off after as many digits as the significand holds, from the first that is not zero on; and its last bit is set
if a digit that is cut off is not zero.
Source: `real.c` `real_from_string`
Kind: C -/
theorem real_from_string_hex :
    (maxExp < t.exponentValue → realFromString decimal t.text = (1, getInf l t.negative)) ∧
      (t.exponentValue < -maxExp → realFromString decimal t.text = (-1, getZero l t.negative)) ∧
      (|t.exponentValue| ≤ maxExp → -2 ^ 25 ≤ t.leadExponent → t.leadExponent < 2 ^ 25 →
        ∃ exp : ℤ, 2 ^ (exp - 1) ≤ t.magnitude ∧ t.magnitude < 2 ^ exp ∧
          (exp < -maxExp → exp < t.leadExponent → realFromString decimal t.text = (0, getZero l t.negative)) ∧
          (-maxExp ≤ exp → (realFromString decimal t.text).1 = 0 ∧ (realFromString decimal t.text).2.Normalized ∧
            (realFromString decimal t.text).2.realExp = exp ∧
            (realFromString decimal t.text).2.value = signed t.negative
              (scaled (truncateSticky (t.magnitude * 2 ^ ((significandBits l : ℤ) - t.leadExponent)))
                (t.leadExponent - significandBits l)))) := by
  obtain ⟨s, -, htext⟩ := realFromString_eq hl t decimal hne
  have hmaxExp : 0 < maxExp := by decide
  refine ⟨fun hover => ?_, fun hunder => ?_, fun hexp hge hlt => ?_⟩
  · unfold HexLiteral.exponentValue at hover
    split_ifs at hover with hnegative
    · omega
    · rw [htext, if_neg (by omega), if_neg hnegative]
  · unfold HexLiteral.exponentValue at hunder
    split_ifs at hunder with hnegative
    · rw [htext, if_neg (by omega), if_pos hnegative]
    · omega
  · obtain ⟨exp, hlower, hupper, hlow, hhigh⟩ := realFromString_inRange hl t decimal hne hexp ⟨hge, hlt⟩
    refine ⟨exp, hlower, hupper, hlow, fun hmin => ?_⟩
    obtain ⟨hmax, s, hs, hmsb, hcode, hr⟩ := hhigh hmin
    refine ⟨hcode, hr.normalized hmsb ⟨hmin, hmax⟩, hr.exp, ?_⟩
    rw [hr.value, ← t.significand_eq hl, hs]
    congr 1
    unfold scaled
    rw [Nat.cast_mul, Nat.cast_pow, Nat.cast_ofNat, ← zpow_natCast, mul_assoc, ← zpow_add₀ two_ne_zero]
    congr 2
    ring

end Value

/-- One, 47 zeros and an eight: 49 digits, where a significand of 192 bits holds 48. -/
def fortyNineDigits : HexLiteral :=
  ⟨none, false, '1' :: (List.replicate 47 '0' ++ ['8']), none, none, hexValue_of_all rfl, hexValue_of_all rfl⟩

theorem fortyNineDigits_magnitude : fortyNineDigits.magnitude = 2 ^ 192 + 8 := by
  have hnumber : hexNumber (fortyNineDigits.digits.filterMap hexValue) = 2 ^ 192 + 8 := by decide
  unfold HexLiteral.magnitude
  rw [hnumber]
  have hexponent : fortyNineDigits.exponentValue - 4 * (fortyNineDigits.fraction.getD []).length = 0 := by decide
  rw [hexponent]
  norm_num [scaled]

/-- The last of the 49 digits is cut off, and the last bit of the other 48 is set for it: the value is 2^192 + 16.
Source: `real.c` `real_from_string`
Kind: C -/
theorem real_from_string_hex_sticky :
    (realFromString (fun _ _ => (0, getZero 64 false)) fortyNineDigits.text).2.value = 2 ^ 192 + 16 := by
  have hmagnitude := fortyNineDigits_magnitude
  obtain ⟨exp, -, hupper, -, hhigh⟩ := (real_from_string_hex (Or.inl rfl) fortyNineDigits
    (fun _ _ => (0, getZero 64 false)) (hmagnitude ▸ by norm_num)).2.2 (by decide) (by decide) (by decide)
  have hexp : 0 < exp := by
    by_contra hle
    have hsmall : (2 : ℚ) ^ exp ≤ 2 ^ (0 : ℤ) := zpow_le_zpow_right₀ one_le_two (not_lt.mp hle)
    rw [hmagnitude] at hupper
    rw [zpow_zero] at hsmall
    linarith
  obtain ⟨-, -, -, hvalue⟩ := hhigh (le_trans (by decide) hexp.le)
  have hlead : fortyNineDigits.leadExponent = 196 := by decide
  have hscaled : ((2 ^ 192 + 8) * 2 ^ ((significandBits 64 : ℤ) - 196) : ℚ) = scaled (2 ^ 192 + 8) (-(4 : ℕ)) := by
    norm_num [scaled, significandBits]
  have hsticky : stickyDiv (2 ^ 192 + 8) 4 = 2 ^ 188 + 1 := by decide
  rw [hvalue, hmagnitude, hlead, hscaled, truncateSticky_scaled_neg, hsticky]
  norm_num [signed, scaled, significandBits, HexLiteral.negative, fortyNineDigits]

/-- The literal has 193 bits, and the 192 of the significand would hold it exactly; but the digits that are kept have only 189
bits, and the last of these is set for the eight.
Source: `real.c` `real_from_string` ("Ensure correct rounding by setting last bit")
Kind: C -/
theorem real_from_string_hex_forty_nine :
    2 ^ ((193 : ℤ) - 1) ≤ fortyNineDigits.magnitude ∧ fortyNineDigits.magnitude < 2 ^ (193 : ℤ) ∧
      (realFromString (fun _ _ => (0, getZero 64 false)) fortyNineDigits.text).2.value ≠
        signed fortyNineDigits.negative (scaled
          (truncateSticky (fortyNineDigits.magnitude * 2 ^ ((significandBits 64 : ℤ) - 193))) (193 - significandBits 64)) := by
  have hmagnitude := fortyNineDigits_magnitude
  have hlower : (2 : ℚ) ^ ((193 : ℤ) - 1) ≤ fortyNineDigits.magnitude := by
    rw [hmagnitude]
    norm_num
  have hupper : fortyNineDigits.magnitude < 2 ^ (193 : ℤ) := by
    rw [hmagnitude]
    norm_num
  refine ⟨hlower, hupper, ?_⟩
  obtain ⟨exp, -, hupper', -, hhigh⟩ := realFromString_inRange (Or.inl rfl) fortyNineDigits
    (fun _ _ => (0, getZero 64 false)) (hmagnitude ▸ by norm_num) (by decide) (by decide)
  have hexp : 193 ≤ exp := Int.sub_one_lt_iff.mp ((zpow_lt_zpow_iff_right₀ one_lt_two).mp (lt_of_le_of_lt hlower hupper'))
  obtain ⟨-, s, hs, -, -, hr⟩ := hhigh (le_trans (by decide) hexp)
  have hsig : hexSignificand 64 (leadDigits fortyNineDigits.digits) = 2 ^ 188 + 1 := by decide
  have hlead : fortyNineDigits.leadExponent = 196 := by decide
  have hscale : exp - significandBits 64 + s = 4 := by
    rw [hs, hlead]
    unfold significandBits
    omega
  have hcode : scaled ((2 ^ 188 + 1) * 2 ^ s) (exp - significandBits 64) = 2 ^ 192 + 16 := by
    rw [scaled_mul_two_pow, hscale]
    norm_num [scaled]
  have hclaim : scaled (truncateSticky ((2 ^ 192 + 8) * 2 ^ ((significandBits 64 : ℤ) - 193))) (193 - significandBits 64) =
      2 ^ 192 + 8 := by
    have hhalf : ((2 ^ 192 + 8) * 2 ^ ((significandBits 64 : ℤ) - 193) : ℚ) = ((2 ^ 191 + 4 : ℕ) : ℚ) := by
      norm_num [significandBits]
    rw [hhalf, truncateSticky_natCast]
    norm_num [scaled, significandBits]
  rw [hr.value, hsig, hcode, hmagnitude, hclaim, Ne, signed_inj]
  norm_num

end GccCore.Gcc.Real
