import GccCore.Gcc.Real.Add
import Mathlib.Data.Nat.Digits.Defs

/-!
# `gcc/real.c`: `real_from_string`

A hexadecimal literal is read from the left. The digits go to the significand from the top; those that do not fit leave one sticky
bit. The exponent counts the digits before the point, or the zeros that are skipped behind it.

* **Digits** (`placeDigits_spec`): the significand after any number of digits.
* **The scanners** (`scanDigits_append`, `skipZeros_eq`, `scanExponent_eq`) stop behind what they accept.
* **The mantissa** (`scanMantissa_spec`): the digits from the first that is not zero on.
-/

namespace GccCore.Gcc.Real

open GccCore.Lib.Digits GccCore.Lib.WordArray GccCore.Lib.Scaled

variable {l : ℕ}

/-! ## The code -/

/-- The value of a digit. Source: `libiberty/hex.c` `_hex_value`. -/
def hexValue (c : Char) : Option ℕ :=
  if '0' ≤ c ∧ c ≤ '9' then some (c.toNat - '0'.toNat)
  else if 'A' ≤ c ∧ c ≤ 'F' then some (c.toNat - 'A'.toNat + 10)
  else if 'a' ≤ c ∧ c ≤ 'f' then some (c.toNat - 'a'.toNat + 10)
  else none

/-- The significand, the position of the next digit and the exponent. Source: `real.c` `real_from_string` (`r->sig`, `pos`, `exp`). -/
structure HexState (l : ℕ) where
  sig : Words l (sigsz l)
  pos : ℤ
  exp : ℤ

/-- Source: `real.c` `real_from_string` (`r->sig[pos / HOST_BITS_PER_LONG] |= ...`). -/
def orDigit (a : Words l (sigsz l)) (pos d : ℕ) : Words l (sigsz l) :=
  .ofFn fun i => if i = pos / l then a.word i ||| BitVec.ofNat l d <<< (pos % l) else a.word i

/-- Source: `real.c` `real_from_string` ("Ensure correct rounding by setting last bit"). -/
def placeDigit (s : HexState l) (d : ℕ) : HexState l :=
  if 0 ≤ s.pos then { s with sig := orDigit s.sig s.pos.toNat d, pos := s.pos - 4 }
  else if d ≠ 0 then { s with sig := orSticky s.sig true }
  else s

/-- The digits, each of which adds to the exponent. Source: `real.c` `real_from_string` (`while (1)`). -/
def scanDigits (step : ℤ) : List Char → HexState l → HexState l × List Char
  | [], s => (s, [])
  | c :: str, s =>
    match hexValue c with
    | none => (s, c :: str)
    | some d =>
      let s := placeDigit s d
      scanDigits step str { s with exp := s.exp + step }

/-- Source: `real.c` `real_from_string` (`while (*str == '0')`). -/
def skipZeros (step : ℤ) : List Char → ℤ → List Char × ℤ
  | [], exp => ([], exp)
  | c :: str, exp => if c = '0' then skipZeros step str (exp + step) else (c :: str, exp)

/-- A sign, and what follows. Source: `real.c` `real_from_string` (`sign`, `exp_neg`). -/
def scanSign : List Char → Bool × List Char
  | [] => (false, [])
  | c :: str => if c = '-' then (true, str) else if c = '+' then (false, str) else (false, c :: str)

/-- The digits of the exponent, unless there are too many. Source: `real.c` `real_from_string` ("Overflowed the exponent"). -/
def scanExponent : List Char → ℕ → Option ℕ
  | [], d => some d
  | c :: str, d =>
    if c.isDigit then
      let d := 10 * d + (c.toNat - '0'.toNat)
      if maxExp < d then none else scanExponent str d
    else some d

/-- Whether the exponent is negative, and its magnitude. Source: `real.c` `real_from_string` (`if (*str == 'p' || *str == 'P')`). -/
def hexExponent : List Char → Bool × Option ℕ
  | [] => (false, some 0)
  | c :: str =>
    if c = 'p' ∨ c = 'P' then
      let (expNeg, str) := scanSign str
      (expNeg, scanExponent str 0)
    else (false, some 0)

/-- The point and the digits behind it: before the first digit, the zeros count as well.
Source: `real.c` `real_from_string` (`if (*str == '.')`) -/
def scanFraction (s : HexState l) : List Char → HexState l × List Char
  | [] => (s, [])
  | c :: str =>
    if c = '.' then
      if s.pos = significandBits l - 4 then
        let (str, exp) := skipZeros (-4) str s.exp
        scanDigits 0 str { s with exp := exp }
      else scanDigits 0 str s
    else (s, c :: str)

/-- The digits before the point and behind it. Source: `real.c` `real_from_string` ("Hexadecimal floating point"). -/
def scanMantissa (str : List Char) : HexState l × List Char :=
  let (s, str) := scanDigits 4 (skipZeros 0 str 0).1 ⟨.ofFn fun _ => 0, significandBits l - 4, 0⟩
  scanFraction s str

/-- Minus one if the number underflows, one if it overflows, else zero; and the number.
Source: `real.c` `real_from_string` ("Hexadecimal floating point") -/
def realFromHex (sign : Bool) (str : List Char) : ℤ × RealValue l :=
  let (s, str) := scanMantissa str
  if !cmpSignificand0 s.sig then (0, getZero l sign)
  else
    match hexExponent str with
    | (expNeg, none) => if expNeg then (-1, getZero l sign) else (1, getInf l sign)
    | (expNeg, some d) =>
      let exp := s.exp + if expNeg then -(d : ℤ) else d
      (0, { normalize ⟨.rvc_normal, false, false, false, false, setRealExp exp, s.sig⟩ with sign := sign })

/-- The reading of decimal strings is a parameter. Source: `real.c` `real_from_string`. -/
def realFromString (decimal : Bool → List Char → ℤ × RealValue l) (str : List Char) : ℤ × RealValue l :=
  let (sign, str) := scanSign str
  if "QNaN".toList.isPrefixOf str then (0, getCanonicalQnan l sign)
  else if "SNaN".toList.isPrefixOf str then (0, getCanonicalSnan l sign)
  else if "Inf".toList.isPrefixOf str then (0, getInf l sign)
  else
    match str with
    | c :: x :: rest => if c = '0' ∧ (x = 'x' ∨ x = 'X') then realFromHex sign rest else decimal sign str
    | _ => decimal sign str

/-! ## Digits -/

/-- A sequence of digits, the first the most significant, as a number. -/
def hexNumber (ds : List ℕ) : ℕ := Nat.ofDigits 16 ds.reverse

/-- The number of digits that the significand holds. Source: `real.c` (`SIGNIFICAND_BITS / 4`). -/
def hexPlaces (l : ℕ) : ℕ := significandBits l / 4

/-- The significand with the digits at the top: the last bit is set if a digit that is not zero does not fit.
Source: `real.c` `real_from_string` ("Ensure correct rounding by setting last bit") -/
def hexSignificand (l : ℕ) (ds : List ℕ) : ℕ :=
  hexNumber (ds.take (hexPlaces l)) * 16 ^ (hexPlaces l - ds.length) ||| ((ds.drop (hexPlaces l)).any (· ≠ 0)).toNat

section Digits

variable (hl : HostLong l)

theorem hexNumber_append (ds : List ℕ) (d : ℕ) : hexNumber (ds ++ [d]) = 16 * hexNumber ds + d := by
  unfold hexNumber
  rw [List.reverse_append, List.reverse_singleton, List.singleton_append, Nat.ofDigits_cons, Nat.add_comm]

theorem hexNumber_append_list (as bs : List ℕ) : hexNumber (as ++ bs) = hexNumber as * 16 ^ bs.length + hexNumber bs := by
  unfold hexNumber
  rw [List.reverse_append, Nat.ofDigits_append, List.length_reverse, Nat.add_comm, mul_comm]

theorem hexNumber_eq_zero_iff (ds : List ℕ) : hexNumber ds = 0 ↔ ∀ d ∈ ds, d = 0 := by
  induction ds using List.reverseRecOn with
  | nil => simp [hexNumber]
  | append_singleton ds d ih =>
    rw [hexNumber_append]
    simp only [List.mem_append, List.mem_singleton]
    constructor
    · rintro hzero e (he | rfl)
      · exact ih.mp (by omega) e he
      · omega
    · intro hall
      rw [ih.mpr fun e he => hall e (Or.inl he), hall d (Or.inr rfl)]

theorem hexNumber_lt {ds : List ℕ} (hds : ∀ d ∈ ds, d < 16) : hexNumber ds < 16 ^ ds.length := by
  have hlt := Nat.ofDigits_lt_base_pow_length (b := 16) (l := ds.reverse) (by decide) fun d hd => hds d (List.mem_reverse.mp hd)
  rwa [List.length_reverse] at hlt

include hl

theorem HostLong.hexPlaces_eq : significandBits l = 4 * hexPlaces l := by
  rcases hl with rfl | rfl <;> rfl

theorem HostLong.four_dvd : 4 ∣ l := by
  rcases hl with rfl | rfl
  · exact ⟨16, rfl⟩
  · exact ⟨8, rfl⟩

/-- **A digit at a position.** Source: `real.c` `real_from_string`. Kind: L -/
theorem orDigit_toNat (a : Words l (sigsz l)) {p d : ℕ} (hp : p < hexPlaces l) (hd : d < 16) :
    (orDigit a (4 * p) d).toNat = a.toNat ||| d * 2 ^ (4 * p) := by
  have hplaces := hl.hexPlaces_eq
  have hsplit := Nat.div_add_mod (4 * p) l
  have hmod := Nat.mod_lt (4 * p) hl.pos
  have hfit : 4 * p % l + 4 ≤ l := by
    obtain ⟨t, ht⟩ := hl.four_dvd
    obtain ⟨u, hu⟩ : 4 ∣ 4 * p % l := (Nat.dvd_mod_iff hl.four_dvd).mpr (Nat.dvd_mul_right 4 p)
    omega
  have hhigh : ∀ n, 4 ≤ n → d.testBit n = false := fun n hn =>
    Nat.testBit_lt_two_pow (lt_of_lt_of_le hd (Nat.pow_le_pow_right two_pos hn))
  have hdlt : d * 2 ^ (4 * p) < 2 ^ (l * sigsz l) := by
    rw [hl.mul_sigsz, hplaces]
    calc d * 2 ^ (4 * p) < 2 ^ 4 * 2 ^ (4 * p) := Nat.mul_lt_mul_of_pos_right hd (by positivity)
      _ = 2 ^ (4 * (p + 1)) := by rw [← pow_add]; congr 1; omega
      _ ≤ 2 ^ (4 * hexPlaces l) := Nat.pow_le_pow_right two_pos (by omega)
  refine Words.toNat_eq_of_bits hl.pos (Nat.or_lt_two_pow a.toNat_lt hdlt) fun i hi j hj => ?_
  unfold orDigit
  rw [Words.word_ofFn hi, Nat.testBit_or, Words.testBit_block hl.pos a hj, ← Nat.shiftLeft_eq, Nat.testBit_shiftLeft]
  split_ifs with hword
  · rw [BitVec.getLsbD_or, BitVec.getLsbD_shiftLeft, decide_eq_true hj, Bool.true_and, BitVec.getLsbD_ofNat, hword]
    congr 1
    by_cases hge : 4 * p % l ≤ j
    · rw [decide_eq_false (not_lt.mpr hge), decide_eq_true (by omega), decide_eq_true (by omega), Bool.not_false, Bool.true_and,
        Bool.true_and, Bool.true_and]
      congr 1
      omega
    · rw [decide_eq_true (not_le.mp hge), Bool.not_true, Bool.false_and, decide_eq_false (by omega), Bool.false_and]
  · -- the digit lies within one word
    have hclear : (decide (l * i + j ≥ 4 * p) && d.testBit (l * i + j - 4 * p)) = false := by
      rcases Nat.lt_or_gt_of_ne hword with hlt | hgt
      · have hblock : l * (i + 1) ≤ l * (4 * p / l) := Nat.mul_le_mul_left l hlt
        rw [mul_add] at hblock
        rw [decide_eq_false (by omega), Bool.false_and]
      · have hblock : l * (4 * p / l + 1) ≤ l * i := Nat.mul_le_mul_left l hgt
        rw [mul_add] at hblock
        rw [hhigh _ (by omega), Bool.and_false]
    rw [hclear, Bool.or_false]

omit hl in
/-- Digits that fit are all kept. -/
theorem hexSignificand_of_le {ds : List ℕ} (hlen : ds.length ≤ hexPlaces l) :
    hexSignificand l ds = hexNumber ds * 16 ^ (hexPlaces l - ds.length) := by
  unfold hexSignificand
  rw [List.take_of_length_le hlen, List.drop_eq_nil_of_le hlen]
  simp

omit hl in
/-- One more digit that fits. -/
theorem hexSignificand_append_of_lt {ds : List ℕ} {p d : ℕ} (hlen : hexPlaces l = ds.length + p + 1) (hd : d < 16) :
    hexSignificand l (ds ++ [d]) = hexSignificand l ds ||| d * 2 ^ (4 * p) := by
  have hpow : 16 ^ (p + 1) = 2 ^ (4 * p + 4) := by
    rw [show (16 : ℕ) = 2 ^ 4 by rfl, ← pow_mul, mul_add]
  have hlow : d * 2 ^ (4 * p) < 2 ^ (4 * p + 4) := by
    rw [pow_add, mul_comm]
    exact Nat.mul_lt_mul_of_pos_left hd (by positivity)
  have hrest : hexPlaces l - (ds ++ [d]).length = p := by
    rw [List.length_append, List.length_singleton]
    omega
  rw [hexSignificand_of_le (by rw [List.length_append, List.length_singleton]; omega), hexSignificand_of_le (by omega), hrest,
    hexNumber_append, show hexPlaces l - ds.length = p + 1 by omega, hpow, mul_comm (hexNumber ds), ← Nat.two_pow_add_eq_or_of_lt hlow]
  rw [show (16 : ℕ) ^ p = 2 ^ (4 * p) by rw [show (16 : ℕ) = 2 ^ 4 by rfl, ← pow_mul]]
  ring

omit hl in
/-- One more digit that does not fit. -/
theorem hexSignificand_append_of_ge {ds : List ℕ} {d : ℕ} (hlen : hexPlaces l ≤ ds.length) :
    hexSignificand l (ds ++ [d]) = if d ≠ 0 then hexSignificand l ds ||| 1 else hexSignificand l ds := by
  have hrest : hexPlaces l - (ds ++ [d]).length = hexPlaces l - ds.length := by
    rw [List.length_append, List.length_singleton]
    omega
  unfold hexSignificand
  rw [List.take_append_of_le_length hlen, List.drop_append_of_le_length hlen, hrest, List.any_append]
  split_ifs with hd
  · have hsticky : ∀ b : Bool, (b || true).toNat = b.toNat ||| 1 := by decide
    rw [List.any_cons, List.any_nil, Bool.or_false, decide_eq_true hd, hsticky, Nat.lor_assoc]
  · simp [not_not.mp hd]

variable {ds : List ℕ} (hds : ∀ d ∈ ds, d < 16)

include hds

/-- **The digits** of a mantissa: the significand and the position. Source: `real.c` `real_from_string`. Kind: L -/
theorem placeDigits_spec (exp : ℤ) :
    (ds.foldl placeDigit (⟨.ofFn fun _ => 0, significandBits l - 4, exp⟩ : HexState l)).sig.toNat = hexSignificand l ds ∧
      (ds.foldl placeDigit (⟨.ofFn fun _ => 0, significandBits l - 4, exp⟩ : HexState l)).pos =
        4 * ((hexPlaces l : ℤ) - 1 - min ds.length (hexPlaces l)) ∧
      (ds.foldl placeDigit (⟨.ofFn fun _ => 0, significandBits l - 4, exp⟩ : HexState l)).exp = exp := by
  have hplaces := hl.hexPlaces_eq
  induction ds using List.reverseRecOn with
  | nil =>
    have hzero : (Words.ofFn fun _ => 0 : Words l (sigsz l)).toNat = 0 := by
      rw [Words.toNat_ofFn]
      exact val_eq_zero fun _ _ => Nat.zero_mod _
    refine ⟨?_, ?_, rfl⟩
    · have hnone : hexSignificand l [] = 0 := by simp [hexSignificand, hexNumber]
      rw [hnone]
      exact hzero
    · dsimp only [List.foldl_nil, List.length_nil]
      rw [Nat.zero_min, hplaces]
      push_cast
      ring
  | append_singleton ds d ih =>
    obtain ⟨hsig, hpos, hexp⟩ := ih fun e he => hds e (List.mem_append_left _ he)
    have hd : d < 16 := hds d (List.mem_append_right _ (List.mem_singleton_self d))
    rw [List.foldl_append, List.foldl_cons, List.foldl_nil]
    generalize ds.foldl placeDigit (⟨.ofFn fun _ => 0, significandBits l - 4, exp⟩ : HexState l) = s at hsig hpos hexp
    rcases lt_or_ge ds.length (hexPlaces l) with hroom | hfull
    · -- there is room for the digit
      obtain ⟨p, hp⟩ := Nat.exists_eq_add_of_lt hroom
      have hpos' : s.pos = (4 * p : ℕ) := by
        rw [hpos, Nat.min_eq_left hroom.le]
        push_cast
        omega
      have hplace : placeDigit s d = { s with sig := orDigit s.sig (4 * p) d, pos := s.pos - 4 } := by
        unfold placeDigit
        rw [if_pos (by omega), hpos', Int.toNat_natCast]
      rw [hplace]
      refine ⟨?_, ?_, hexp⟩
      · rw [orDigit_toNat hl s.sig (by omega) hd, hsig, hexSignificand_append_of_lt (by omega) hd]
      · dsimp only
        rw [hpos', List.length_append, List.length_singleton, Nat.min_eq_left (by omega)]
        push_cast
        omega
    · have hplace : placeDigit s d = if d ≠ 0 then { s with sig := orSticky s.sig true } else s := by
        unfold placeDigit
        rw [if_neg]
        rw [hpos, Nat.min_eq_right hfull]
        omega
      have hpos' : s.pos = 4 * ((hexPlaces l : ℤ) - 1 - min (ds ++ [d]).length (hexPlaces l)) := by
        rw [hpos, Nat.min_eq_right hfull, Nat.min_eq_right (by rw [List.length_append]; omega)]
      rw [hplace, hexSignificand_append_of_ge hfull]
      split_ifs with hne
      · refine ⟨?_, hpos', hexp⟩
        rw [orSticky_toNat hl.pos s.sig hl.sigsz_pos, hsig]
        rfl
      · exact ⟨hsig, hpos', hexp⟩

end Digits

/-! ## Scanners -/

/-- Where the digits end. Source: `real.c` `real_from_string` (`d == _hex_bad`). -/
def NoHexHead (str : List Char) : Prop := ∀ c ∈ str.head?, hexValue c = none

section Scanners

variable {ds rest : List Char} {s : HexState l}

theorem hexValue_lt {c : Char} {d : ℕ} (h : hexValue c = some d) : d < 16 := by
  unfold hexValue at h
  simp only [Char.le_def, UInt32.le_iff_toNat_le] at h
  split_ifs at h with hdigit hupper hlower
  · obtain rfl := Option.some.inj h
    have hle : c.toNat ≤ 57 := hdigit.2
    have hge : '0'.toNat = 48 := rfl
    omega
  · obtain rfl := Option.some.inj h
    have hle : c.toNat ≤ 70 := hupper.2
    have hge : 'A'.toNat = 65 := rfl
    omega
  · obtain rfl := Option.some.inj h
    have hle : c.toNat ≤ 102 := hlower.2
    have hge : 'a'.toNat = 97 := rfl
    omega

/-- The digits leave the exponent alone. Source: `real.c` `real_from_string`. Kind: L -/
theorem placeDigits_exp (ds : List ℕ) (s : HexState l) (exp : ℤ) :
    ds.foldl placeDigit { s with exp := exp } = { ds.foldl placeDigit s with exp := exp } := by
  induction ds generalizing s with
  | nil => rfl
  | cons d ds ih =>
    have hplace : placeDigit { s with exp := exp } d = { placeDigit s d with exp := exp } := by
      unfold placeDigit
      split_ifs <;> rfl
    rw [List.foldl_cons, List.foldl_cons, hplace, ih]

/-- **The digits** are all scanned. Source: `real.c` `real_from_string` (`while (1)`). Kind: L -/
theorem scanDigits_append (step : ℤ) (hds : ∀ c ∈ ds, hexValue c ≠ none) (hrest : NoHexHead rest) (s : HexState l) :
    scanDigits step (ds ++ rest) s =
      ({ (ds.filterMap hexValue).foldl placeDigit s with exp := s.exp + step * ds.length }, rest) := by
  induction ds generalizing s with
  | nil =>
    have hstop : scanDigits step rest s = (s, rest) := by
      cases rest with
      | nil => rfl
      | cons c rest =>
        rw [scanDigits, hrest c rfl]
    simp [hstop]
  | cons c ds ih =>
    obtain ⟨d, hd⟩ := Option.ne_none_iff_exists'.mp (hds c List.mem_cons_self)
    rw [List.cons_append, scanDigits, hd]
    dsimp only
    rw [ih fun c hc => hds c (List.mem_cons_of_mem _ hc), List.filterMap_cons_some hd, List.foldl_cons, List.length_cons]
    have hexp : (placeDigit s d).exp = s.exp := by
      unfold placeDigit
      split_ifs <;> rfl
    rw [placeDigits_exp]
    dsimp only
    rw [hexp]
    congr 2
    push_cast
    ring

/-- **The zeros** are all skipped. Source: `real.c` `real_from_string` (`while (*str == '0')`). Kind: L -/
theorem skipZeros_eq (step : ℤ) (str : List Char) (exp : ℤ) :
    skipZeros step str exp = (str.dropWhile (· = '0'), exp + step * (str.takeWhile (· = '0')).length) := by
  induction str generalizing exp with
  | nil => simp [skipZeros]
  | cons c str ih =>
    rw [skipZeros, List.dropWhile_cons, List.takeWhile_cons]
    by_cases hc : c = '0'
    · rw [if_pos hc, if_pos (decide_eq_true hc), if_pos (decide_eq_true hc), ih, List.length_cons]
      congr 1
      push_cast
      ring
    · rw [if_neg hc, if_neg (by simpa using hc), if_neg (by simpa using hc), List.length_nil, Nat.cast_zero, mul_zero, add_zero]

/-- The value only grows. -/
theorem le_ofDigitChars (str : List Char) (d : ℕ) : d ≤ Nat.ofDigitChars 10 str d := by
  induction str generalizing d with
  | nil => rw [Nat.ofDigitChars_nil]
  | cons c str ih =>
    rw [Nat.ofDigitChars_cons]
    exact le_trans (by omega) (ih _)

/-- **The exponent**, unless it is too large. Source: `real.c` `real_from_string` ("Overflowed the exponent"). Kind: L -/
theorem scanExponent_eq (hds : ∀ c ∈ ds, c.isDigit) {d : ℕ} (hd : (d : ℤ) ≤ maxExp) :
    scanExponent ds d = if (Nat.ofDigitChars 10 ds d : ℤ) ≤ maxExp then some (Nat.ofDigitChars 10 ds d) else none := by
  induction ds generalizing d with
  | nil =>
    rw [scanExponent, Nat.ofDigitChars_nil, if_pos hd]
  | cons c ds ih =>
    rw [scanExponent, if_pos (hds c List.mem_cons_self), Nat.ofDigitChars_cons]
    dsimp only
    by_cases hover : maxExp < ((10 * d + (c.toNat - '0'.toNat) : ℕ) : ℤ)
    · have hle := le_ofDigitChars ds (10 * d + (c.toNat - '0'.toNat))
      rw [if_pos hover, if_neg]
      exact not_le.mpr (lt_of_lt_of_le hover (by exact_mod_cast hle))
    · rw [if_neg hover, ih (fun c hc => hds c (List.mem_cons_of_mem _ hc)) (not_lt.mp hover)]

end Scanners

/-! ## Mantissas -/

/-- The point and the digits behind it. Source: `real.c` `real_from_string` (`if (*str == '.')`). -/
def fractionText : Option (List Char) → List Char
  | none => []
  | some fraction => '.' :: fraction

/-- The digits from the first that is not zero on. Source: `real.c` `real_from_string` (`while (*str == '0')`). -/
def leadDigits (ds : List Char) : List ℕ := (ds.dropWhile (· = '0')).filterMap hexValue

section Mantissa

variable (hl : HostLong l) {whole rest : List Char} {fraction : Option (List Char)}

theorem NoHexHead.ne_zero {c : Char} {str : List Char} (h : NoHexHead (c :: str)) : c ≠ '0' := by
  rintro rfl
  exact absurd (h _ rfl) (by decide)

/-- The zeros end before the rest. -/
theorem dropWhile_append_rest (ds : List Char) (hrest : NoHexHead rest) :
    (ds ++ rest).dropWhile (· = '0') = ds.dropWhile (· = '0') ++ rest ∧
      ((ds ++ rest).takeWhile (· = '0')).length = (ds.takeWhile (· = '0')).length := by
  have hstop : rest.dropWhile (· = '0') = rest ∧ rest.takeWhile (· = '0') = [] := by
    cases rest with
    | nil => exact ⟨rfl, rfl⟩
    | cons c rest =>
      have hc := hrest.ne_zero
      rw [List.dropWhile_cons, List.takeWhile_cons, if_neg (by simpa using hc), if_neg (by simpa using hc)]
      exact ⟨rfl, rfl⟩
  induction ds with
  | nil =>
    rw [List.nil_append, hstop.1, hstop.2]
    exact ⟨rfl, rfl⟩
  | cons c ds ih =>
    rw [List.cons_append, List.dropWhile_cons, List.dropWhile_cons, List.takeWhile_cons, List.takeWhile_cons]
    split_ifs with hc
    · exact ⟨ih.1, congrArg (· + 1) ih.2⟩
    · exact ⟨rfl, rfl⟩

theorem noHexHead_fractionText (hrest : NoHexHead rest) : NoHexHead (fractionText fraction ++ rest) := by
  cases fraction with
  | none => exact hrest
  | some fraction =>
    intro c hc
    obtain rfl : '.' = c := Option.some.inj hc
    decide

theorem digit_lt (cs : List Char) : ∀ d ∈ cs.filterMap hexValue, d < 16 := by
  intro d hd
  obtain ⟨c, -, hc⟩ := List.mem_filterMap.mp hd
  exact hexValue_lt hc

theorem length_dropWhile (cs : List Char) :
    ((cs.dropWhile (· = '0')).length : ℤ) = cs.length - (cs.takeWhile (· = '0')).length := by
  have hcount : (cs.takeWhile (· = '0')).length + (cs.dropWhile (· = '0')).length = cs.length := by
    rw [← List.length_append, List.takeWhile_append_dropWhile]
  omega

/-- No point. Source: `real.c` `real_from_string` (`if (*str == '.')`). Kind: L -/
theorem scanFraction_of_ne (s : HexState l) (hpoint : rest.head? ≠ some '.') : scanFraction s rest = (s, rest) := by
  cases rest with
  | nil => rfl
  | cons c rest =>
    rw [scanFraction, if_neg]
    rintro rfl
    exact hpoint rfl

/-- **The digits behind the point.** Source: `real.c` `real_from_string` (`if (*str == '.')`). Kind: L -/
theorem scanFraction_point {ds : List Char} (hds : ∀ c ∈ ds, hexValue c ≠ none) (hrest : NoHexHead rest) (s : HexState l) :
    scanFraction s ('.' :: (ds ++ rest)) =
      if s.pos = significandBits l - 4 then
        ({ ((ds.dropWhile (· = '0')).filterMap hexValue).foldl placeDigit s with
            exp := s.exp + 4 * ((ds.dropWhile (· = '0')).length - ds.length) }, rest)
      else ({ (ds.filterMap hexValue).foldl placeDigit s with exp := s.exp }, rest) := by
  rw [scanFraction, if_pos rfl]
  split_ifs
  · obtain ⟨hdrop, hskip⟩ := dropWhile_append_rest ds hrest
    rw [skipZeros_eq, hdrop, hskip]
    dsimp only
    rw [scanDigits_append 0 (fun c hc => hds c (List.dropWhile_subset _ hc)) hrest, placeDigits_exp]
    dsimp only
    rw [length_dropWhile]
    congr 2
    ring
  · rw [scanDigits_append 0 hds hrest, zero_mul, add_zero]

include hl

/-- **The mantissa**: the digits from the first that is not zero on, and their place. Source: `real.c` `real_from_string`. Kind: L -/
theorem scanMantissa_spec (hwhole : ∀ c ∈ whole, hexValue c ≠ none) (hfraction : ∀ c ∈ fraction.getD [], hexValue c ≠ none)
    (hrest : NoHexHead rest) (hpoint : rest.head? ≠ some '.') :
    ∃ s : HexState l, scanMantissa (whole ++ (fractionText fraction ++ rest)) = (s, rest) ∧
      s.sig.toNat = hexSignificand l (leadDigits (whole ++ fraction.getD [])) ∧
      s.exp = 4 * (((whole ++ fraction.getD []).dropWhile (· = '0')).length - (fraction.getD []).length) := by
  have hnext : NoHexHead (fractionText fraction ++ rest) := noHexHead_fractionText hrest
  obtain ⟨hdrop, -⟩ := dropWhile_append_rest whole hnext
  have hwhole' : ∀ c ∈ whole.dropWhile (· = '0'), hexValue c ≠ none := fun c hc => hwhole c (List.dropWhile_subset _ hc)
  have hplaces := hl.hexPlaces_eq
  have hplacesPos : 0 < hexPlaces l := by
    unfold hexPlaces significandBits
    omega
  have hstart := placeDigits_spec hl (digit_lt (whole.dropWhile (· = '0'))) 0
  unfold scanMantissa leadDigits
  rw [skipZeros_eq, hdrop, scanDigits_append 4 hwhole' hnext, List.dropWhile_append]
  dsimp only
  rw [zero_add]
  have hfresh : ∀ s : HexState l, s.pos = 4 * ((hexPlaces l : ℤ) - 1 -
      min ((whole.dropWhile (· = '0')).filterMap hexValue).length (hexPlaces l)) →
      (s.pos = significandBits l - 4 ↔ whole.dropWhile (· = '0') = []) := by
    intro s hs
    rw [hs, hplaces]
    cases hempty : whole.dropWhile (· = '0') with
    | nil =>
      refine iff_of_true ?_ rfl
      rw [List.filterMap_nil, List.length_nil, Nat.zero_min]
      push_cast
      ring
    | cons c cs =>
      rw [hempty] at hwhole'
      obtain ⟨d, hd⟩ := Option.ne_none_iff_exists'.mp (hwhole' c List.mem_cons_self)
      rw [List.filterMap_cons_some hd, List.length_cons]
      refine iff_of_false ?_ (List.cons_ne_nil c cs)
      push_cast
      omega
  have hfresh' := hfresh _ hstart.2.1
  generalize hs : ((whole.dropWhile (· = '0')).filterMap hexValue).foldl placeDigit
    (⟨.ofFn fun _ => 0, significandBits l - 4, 0⟩ : HexState l) = s at hstart hfresh' ⊢
  cases fraction with
  | none =>
    rw [fractionText, List.nil_append, scanFraction_of_ne _ hpoint, Option.getD_none, List.dropWhile_nil, List.append_nil]
    refine ⟨_, rfl, ?_, ?_⟩
    · dsimp only
      rw [hstart.1]
      split_ifs with hempty
      · rw [List.isEmpty_iff.mp hempty]
      · rfl
    · dsimp only
      split_ifs with hempty
      · rw [List.isEmpty_iff.mp hempty]
        simp
      · simp
  | some fraction =>
    rw [Option.getD_some] at hfraction ⊢
    rw [fractionText, List.cons_append, scanFraction_point hfraction hrest]
    dsimp only
    by_cases hpos : s.pos = significandBits l - 4
    · -- no digit has been placed, and the zeros behind the point count as well
      have hempty := hfresh'.mp hpos
      rw [hempty, List.filterMap_nil, List.foldl_nil] at hs
      rw [if_pos hpos, hempty, if_pos List.isEmpty_nil, ← hs, placeDigits_exp]
      obtain ⟨hsig, -, -⟩ := placeDigits_spec hl (digit_lt (fraction.dropWhile (· = '0'))) 0
      refine ⟨_, rfl, hsig, ?_⟩
      dsimp only
      rw [List.length_nil, Nat.cast_zero, mul_zero, zero_add]
    · have hempty : ¬ (whole.dropWhile (· = '0')).isEmpty = true := fun h => hpos (hfresh'.mpr (List.isEmpty_iff.mp h))
      rw [if_neg hpos, if_neg hempty, ← hs, placeDigits_exp, ← List.foldl_append, ← List.filterMap_append]
      obtain ⟨hsig, -, -⟩ := placeDigits_spec hl (digit_lt (whole.dropWhile (· = '0') ++ fraction)) 0
      refine ⟨_, rfl, hsig, ?_⟩
      dsimp only
      rw [List.length_append]
      push_cast
      ring

end Mantissa

end GccCore.Gcc.Real
