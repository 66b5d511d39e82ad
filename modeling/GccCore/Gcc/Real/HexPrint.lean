import GccCore.Gcc.Real.HexLiteral
import Mathlib.Data.List.DropRight

/-!
# `gcc/real.c`: `real_to_hexadecimal`

A number is printed with a zero before the point, and with all the digits of its significand behind it. The digits come from the
words, the highest first, and the zeros at the end may be cropped.

* **Digits** (`hexDigits_eq`): the digits over all words are the digits of the significand.
* **What is printed** (`printedDigits_spec`): the digits but for zeros at the end.
* **Round trip** (`real_hexadecimal_round_trip`): what is printed is read as the same number.
-/

namespace GccCore.Gcc.Real

open GccCore.Lib.Digits GccCore.Lib.WordArray GccCore.Lib.Scaled

variable {l : ℕ}

/-! ## The code -/

/-- The digits from the top. Source: `real.c` `real_to_hexadecimal` (`for (i = SIGSZ - 1; i >= 0; --i)`). -/
def hexDigits (a : Words l (sigsz l)) : List Char :=
  (List.range (sigsz l)).reverse.flatMap fun i =>
    (List.range (l / 4)).reverse.map fun j => Nat.digitChar (a.word i >>> (4 * j) &&& BitVec.ofNat l 15).toNat

/-- The zeros at the end are dropped, but for the first digit. Source: `real.c` `real_to_hexadecimal` (`p > first + 1`). -/
def cropZeros : List Char → List Char
  | [] => []
  | first :: cs => first :: cs.rdropWhile (· = '0')

/-- An exponent with its sign. Source: `real.c` `real_to_hexadecimal` (`"p%+d"`). -/
def printExponent (exp : ℤ) : List Char := 'p' :: (if exp < 0 then '-' else '+') :: Nat.toDigits 10 exp.natAbs

/-- The text of a number, unless the assertion on the size of the buffer fails.
Source: `real.c` `real_to_hexadecimal` -/
def realToHexadecimal (r : RealValue l) (bufSize digits : ℕ) (cropTrailingZeros : Bool) : Option (List Char) :=
  match r.cl with
  | .rvc_inf => some (if r.sign then "-Inf" else "+Inf").toList
  | .rvc_nan => some [if r.sign then '-' else '+', if r.signalling then 'S' else 'Q', 'N', 'a', 'N']
  | .rvc_zero | .rvc_normal =>
    if r.decimal then some "N/A".toList
    else
      let exp := if r.cl = .rvc_zero then 0 else r.realExp
      let digits := if digits = 0 then significandBits l / 4 else digits
      let expBuf := printExponent exp
      let used := expBuf.length + r.sign.toNat + 4 + 1
      -- the difference is unsigned: it wraps around, and `gcc_assert (max_digits <= buf_size)` fails
      if bufSize < used then none
      else
        let digits := min digits (bufSize - used)
        -- from zero, `--digits` wraps around, and all the digits are printed
        let ds := if digits = 0 then hexDigits r.sig else (hexDigits r.sig).take digits
        let ds := if cropTrailingZeros then cropZeros ds else ds
        some ((if r.sign then ['-'] else []) ++ '0' :: 'x' :: '0' :: '.' :: (ds ++ expBuf))

/-! ## The digits of the significand -/

/-- The digits of a number below `16 ^ n`, the first the most significant. -/
def nibbles (n x : ℕ) : List ℕ := (List.range n).reverse.map fun p => x / 16 ^ p % 16

section Nibbles

variable {n x : ℕ}

theorem length_nibbles : (nibbles n x).length = n := by
  rw [nibbles, List.length_map, List.length_reverse, List.length_range]

theorem nibbles_lt : ∀ d ∈ nibbles n x, d < 16 := by
  intro d hd
  obtain ⟨p, -, rfl⟩ := List.mem_map.mp hd
  exact Nat.mod_lt _ (by decide)

/-- The first digit. -/
theorem nibbles_succ : nibbles (n + 1) x = x / 16 ^ n % 16 :: nibbles n x := by
  rw [nibbles, List.range_succ, List.reverse_append]
  rfl

/-- The digits write the number. -/
theorem hexNumber_nibbles : hexNumber (nibbles n x) = x % 16 ^ n := by
  induction n with
  | zero =>
    rw [pow_zero, Nat.mod_one]
    rfl
  | succ n ih =>
    rw [nibbles_succ, ← List.singleton_append, hexNumber_append_list, length_nibbles, ih, Nat.mod_pow_succ]
    have hone : hexNumber [x / 16 ^ n % 16] = x / 16 ^ n % 16 := by
      unfold hexNumber
      rw [List.reverse_singleton, Nat.ofDigits_singleton]
    rw [hone]
    ring

/-- The digits of blocks are the digits of the whole. -/
theorem flatMap_nibbles (n k x : ℕ) :
    (List.range n).reverse.flatMap (fun i => (List.range k).reverse.map fun j => x / 16 ^ (k * i + j) % 16) = nibbles (k * n) x := by
  induction n with
  | zero => rfl
  | succ n ih =>
    have hblock : nibbles (k * (n + 1)) x =
        ((List.range k).reverse.map fun j => x / 16 ^ (k * n + j) % 16) ++ nibbles (k * n) x := by
      rw [nibbles, mul_add, mul_one, List.range_add, List.reverse_append, List.map_append, ← List.map_reverse, List.map_map]
      rfl
    rw [hblock, List.range_succ, List.reverse_append, List.flatMap_append, ih]
    simp

end Nibbles

section Digits

variable (hl : HostLong l)

include hl

/-- A digit of a word is a digit of the number. Source: `real.c` `real_to_hexadecimal`. Kind: L -/
theorem word_nibble (a : Words l (sigsz l)) {i j : ℕ} (hj : j < l / 4) :
    (a.word i >>> (4 * j) &&& BitVec.ofNat l 15).toNat = a.toNat / 16 ^ (l / 4 * i + j) % 16 := by
  have hfour := hl.four_dvd
  have hpow : 16 ^ (l / 4 * i + j) = 2 ^ (l * i + 4 * j) := by
    rw [← Nat.mul_div_cancel' hfour, mul_assoc, ← mul_add, pow_mul, Nat.mul_div_cancel_left _ four_pos]
    rfl
  have hfifteen : (BitVec.ofNat l 15).toNat = 2 ^ 4 - 1 := by
    rcases hl with rfl | rfl <;> rfl
  rw [BitVec.toNat_and, BitVec.toNat_ushiftRight, hfifteen, Nat.and_two_pow_sub_one_eq_mod, hpow]
  apply Nat.eq_of_testBit_eq
  intro m
  rw [Nat.testBit_mod_two_pow, show 16 = 2 ^ 4 from rfl, Nat.testBit_mod_two_pow, Nat.testBit_shiftRight, Nat.testBit_div_two_pow]
  by_cases hm : m < 4
  · have hbit := a.testBit_block hl.pos (i := i) (show 4 * j + m < l by omega)
    rw [Nat.add_comm m, Nat.add_assoc, hbit]
    rfl
  · rw [decide_eq_false hm, Bool.false_and, Bool.false_and]

/-- **The digits** over all words. Source: `real.c` `real_to_hexadecimal`. Kind: L -/
theorem hexDigits_eq (a : Words l (sigsz l)) : hexDigits a = (nibbles (hexPlaces l) a.toNat).map Nat.digitChar := by
  have hplaces : l / 4 * sigsz l = hexPlaces l := by
    unfold hexPlaces
    rw [← hl.mul_sigsz, Nat.div_mul_right_comm hl.four_dvd]
  rw [← hplaces, ← flatMap_nibbles, List.map_flatMap]
  unfold hexDigits
  refine List.flatMap_congr fun i _ => ?_
  rw [List.map_map]
  refine List.map_congr_left fun j hj => ?_
  rw [word_nibble hl a (List.mem_range.mp (List.mem_reverse.mp hj))]
  rfl

end Digits

/-- The first digit of a number that has its first bit at the top. -/
theorem nibbles_head_ne_zero (hl : HostLong l) {x d : ℕ} {ds : List ℕ} (hx : x < 2 ^ significandBits l)
    (hmsb : 2 ^ (significandBits l - 1) ≤ x) (hds : nibbles (hexPlaces l) x = d :: ds) : d ≠ 0 := by
  obtain ⟨n, hn⟩ := Nat.exists_eq_add_of_lt (show 0 < hexPlaces l by unfold hexPlaces significandBits; omega)
  rw [Nat.zero_add] at hn
  have hbits : significandBits l = 4 * n + 4 := by
    rw [hl.hexPlaces_eq, hn]
    ring
  rw [hn, nibbles_succ] at hds
  have hd : x / 16 ^ n % 16 = d := (List.cons.inj hds).1
  have hpow : 16 ^ n = 2 ^ (4 * n) := by
    rw [pow_mul]
    rfl
  have hhigh : 8 ≤ x / 16 ^ n := by
    rw [Nat.le_div_iff_mul_le (by positivity), hpow]
    calc 8 * 2 ^ (4 * n) = 2 ^ (significandBits l - 1) := by rw [hbits, Nat.add_sub_assoc (by decide), pow_add]; ring
      _ ≤ x := hmsb
  have hlow : x / 16 ^ n < 16 := by
    rw [Nat.div_lt_iff_lt_mul (by positivity), hpow]
    calc x < 2 ^ significandBits l := hx
      _ = 16 * 2 ^ (4 * n) := by rw [hbits, pow_add]; ring
  rw [Nat.mod_eq_of_lt hlow] at hd
  omega

/-! ## Cropping -/

section Crop

theorem hexValue_digitChar {d : ℕ} (hd : d < 16) : hexValue (Nat.digitChar d) = some d := by
  interval_cases d <;> decide

theorem filterMap_digitChar {ds : List ℕ} (hds : ∀ d ∈ ds, d < 16) : (ds.map Nat.digitChar).filterMap hexValue = ds := by
  induction ds with
  | nil => rfl
  | cons d ds ih =>
    rw [List.map_cons, List.filterMap_cons_some (hexValue_digitChar (hds d List.mem_cons_self)),
      ih fun d hd => hds d (List.mem_cons_of_mem _ hd)]

/-- Only zeros are dropped. Source: `real.c` `real_to_hexadecimal` (`p[-1] == '0'`). Kind: L -/
theorem cropZeros_append (cs : List Char) : ∃ k, cs = cropZeros cs ++ List.replicate k '0' := by
  cases cs with
  | nil => exact ⟨0, rfl⟩
  | cons first cs =>
    have hzeros : cs.rtakeWhile (· = '0') = List.replicate (cs.rtakeWhile (· = '0')).length '0' :=
      List.eq_replicate_of_mem fun c hc => by simpa using List.mem_rtakeWhile_imp hc
    refine ⟨(cs.rtakeWhile (· = '0')).length, ?_⟩
    rw [← hzeros, cropZeros, List.cons_append, List.rdropWhile_append_rtakeWhile]

theorem cropZeros_ne_nil {cs : List Char} (hcs : cs ≠ []) : cropZeros cs ≠ [] := by
  cases cs with
  | nil => exact absurd rfl hcs
  | cons first cs => exact List.cons_ne_nil _ _

variable (hl : HostLong l) (a : Words l (sigsz l)) (crop : Bool)

include hl

/-- **What is printed** are the digits of the significand, but for zeros at the end. Source: `real.c` `real_to_hexadecimal`. Kind: L -/
theorem printedDigits_spec :
    ∃ ds k, nibbles (hexPlaces l) a.toNat = ds ++ List.replicate k 0 ∧ ds ≠ [] ∧
      (if crop then cropZeros (hexDigits a) else hexDigits a) = ds.map Nat.digitChar := by
  have hne : nibbles (hexPlaces l) a.toNat ≠ [] := by
    refine List.ne_nil_of_length_pos ?_
    rw [length_nibbles]
    unfold hexPlaces significandBits
    omega
  cases crop with
  | false => exact ⟨_, 0, (List.append_nil _).symm, hne, hexDigits_eq hl a⟩
  | true =>
    rw [if_pos rfl, hexDigits_eq hl a]
    obtain ⟨k, hk⟩ := cropZeros_append ((nibbles (hexPlaces l) a.toNat).map Nat.digitChar)
    obtain ⟨ds, zs, hsplit, hds, hzs⟩ := List.map_eq_append_iff.mp hk
    have hzeros : zs = List.replicate zs.length 0 := by
      refine List.eq_replicate_of_mem fun z hz => ?_
      have hlt : z < 16 := nibbles_lt z (hsplit ▸ List.mem_append_right _ hz)
      have hchar : Nat.digitChar z = '0' := List.eq_of_mem_replicate (hzs ▸ List.mem_map_of_mem hz)
      have hvalue := hexValue_digitChar hlt
      rw [hchar] at hvalue
      exact (Option.some.inj hvalue).symm
    refine ⟨ds, zs.length, hzeros ▸ hsplit, ?_, hds.symm⟩
    rintro rfl
    exact cropZeros_ne_nil (fun hnil => hne (List.map_eq_nil_iff.mp hnil)) hds.symm

omit hl in
/-- Zeros at the end do not change the significand. -/
theorem hexSignificand_of_append {ds : List ℕ} {k x : ℕ} (hx : x < 16 ^ hexPlaces l)
    (hds : nibbles (hexPlaces l) x = ds ++ List.replicate k 0) : hexSignificand l ds = x := by
  have hlength := congrArg List.length hds
  rw [length_nibbles, List.length_append, List.length_replicate] at hlength
  have hnumber := congrArg hexNumber hds
  have hzeros : hexNumber (List.replicate k 0) = 0 := (hexNumber_eq_zero_iff _).mpr fun d hd => List.eq_of_mem_replicate hd
  rw [hexNumber_nibbles, Nat.mod_eq_of_lt hx, hexNumber_append_list, hzeros, Nat.add_zero, List.length_replicate] at hnumber
  rw [hexSignificand_of_le (by omega), hnumber]
  congr 2
  omega

end Crop

/-! ## Round trip -/

/-- What is printed, as a literal. Source: `real.c` `real_to_hexadecimal`. -/
def printedLiteral (sign : Bool) (exp : ℤ) (ds : List ℕ) (hds : ∀ d ∈ ds, d < 16) : HexLiteral where
  sign := if sign then some true else none
  upper := false
  whole := ['0']
  fraction := some (ds.map Nat.digitChar)
  exponent := some ⟨false, some (decide (exp < 0)), Nat.toDigits 10 exp.natAbs,
    fun _ hc => Nat.isDigit_of_mem_toDigits (by decide) (by decide) hc⟩
  whole_hex := hexValue_of_all rfl
  fraction_hex := by
    intro c hc
    obtain ⟨d, hd, rfl⟩ := List.mem_map.mp hc
    rw [hexValue_digitChar (hds d hd)]
    exact Option.some_ne_none d

section RoundTrip

variable {sign : Bool} {exp : ℤ} {ds : List ℕ} (hds : ∀ d ∈ ds, d < 16)

theorem printedLiteral_text : (printedLiteral sign exp ds hds).text =
    (if sign then ['-'] else []) ++ '0' :: 'x' :: '0' :: '.' :: (ds.map Nat.digitChar ++ printExponent exp) := by
  have hexponent : exponentText (printedLiteral sign exp ds hds).exponent = printExponent exp := by
    unfold printedLiteral exponentText printExponent
    by_cases hneg : exp < 0
    · rw [if_pos hneg, decide_eq_true hneg]
      rfl
    · rw [if_neg hneg, decide_eq_false hneg]
      rfl
  have hsign : signText (printedLiteral sign exp ds hds).sign = if sign then ['-'] else [] := by
    cases sign
    · rfl
    · rfl
  unfold HexLiteral.text
  rw [hexponent, hsign]
  rfl

theorem printedLiteral_exponentValue : (printedLiteral sign exp ds hds).exponentValue = exp := by
  have hmagnitude : (printedLiteral sign exp ds hds).exponentMagnitude = exp.natAbs :=
    Nat.ofDigitChars_toDigits (by decide) (by decide)
  unfold HexLiteral.exponentValue
  rw [hmagnitude]
  have hnegative : (printedLiteral sign exp ds hds).exponentNegative = decide (exp < 0) := by
    unfold HexLiteral.exponentNegative printedLiteral
    by_cases hneg : exp < 0
    · rw [decide_eq_true hneg]
      rfl
    · rw [decide_eq_false hneg]
      rfl
  rw [hnegative]
  by_cases hneg : exp < 0
  · rw [decide_eq_true hneg, if_pos rfl]
    omega
  · rw [decide_eq_false hneg, if_neg Bool.false_ne_true]
    omega

/-- The zero before the point does not count. Source: `real.c` `real_from_string` (`while (*str == '0')`). Kind: L -/
theorem printedLiteral_leadDigits : leadDigits (printedLiteral sign exp ds hds).digits = ds.dropWhile (· = 0) := by
  have hzero : ∀ d < 16, Nat.digitChar d = '0' ↔ d = 0 := by
    intro d hd
    interval_cases d <;> decide
  have hdrop : ∀ es : List ℕ, (∀ d ∈ es, d < 16) →
      (es.map Nat.digitChar).dropWhile (· = '0') = (es.dropWhile (· = 0)).map Nat.digitChar := by
    intro es hes
    induction es with
    | nil => rfl
    | cons d es ih =>
      have hd := hzero d (hes d List.mem_cons_self)
      rw [List.map_cons, List.dropWhile_cons, List.dropWhile_cons, ih fun d hd => hes d (List.mem_cons_of_mem _ hd)]
      by_cases hz : d = 0
      · rw [if_pos (by simpa using hd.mpr hz), if_pos (by simpa using hz)]
      · rw [if_neg (by simpa using fun h => hz (hd.mp h)), if_neg (by simpa using hz)]
        rfl
  have hdigits : (printedLiteral sign exp ds hds).digits = '0' :: ds.map Nat.digitChar := rfl
  unfold leadDigits
  rw [hdigits, List.dropWhile_cons_of_pos (by decide), hdrop ds hds,
    filterMap_digitChar fun d hd => hds d (List.dropWhile_subset _ hd)]

end RoundTrip

section Main

variable (hl : HostLong l) (decimal : Bool → List Char → ℤ × RealValue l) (r : RealValue l) (bufSize : ℕ) (crop : Bool)

/-- The exponent that is printed. Source: `real.c` `real_to_hexadecimal` (`exp`). -/
def printedExp : ℤ := if r.cl = .rvc_zero then 0 else r.realExp

include hl

/-- **What is printed** is a literal. Source: `real.c` `real_to_hexadecimal`. Kind: L -/
theorem realToHexadecimal_eq (hcl : r.cl = .rvc_zero ∨ r.cl = .rvc_normal) (hdec : r.decimal = false)
    (hbuf : (printExponent (printedExp r)).length + r.sign.toNat + 4 + 1 + significandBits l / 4 ≤ bufSize) :
    ∃ ds k, ∃ hds : ∀ d ∈ ds, d < 16, nibbles (hexPlaces l) r.sig.toNat = ds ++ List.replicate k 0 ∧ ds ≠ [] ∧
      realToHexadecimal r bufSize 0 crop = some (printedLiteral r.sign (printedExp r) ds hds).text := by
  obtain ⟨ds, k, hsplit, hne, hprint⟩ := printedDigits_spec hl r.sig crop
  have hds : ∀ d ∈ ds, d < 16 := fun d hd => nibbles_lt d (hsplit ▸ List.mem_append_left _ hd)
  have hpos : 0 < significandBits l / 4 := by
    unfold significandBits
    omega
  have htake : (hexDigits r.sig).take (significandBits l / 4) = hexDigits r.sig := by
    refine List.take_of_length_le ?_
    rw [hexDigits_eq hl, List.length_map, length_nibbles]
    rfl
  refine ⟨ds, k, hds, hsplit, hne, ?_⟩
  rw [printedLiteral_text, ← hprint]
  unfold printedExp at hbuf ⊢
  rcases hcl with hcl | hcl
  all_goals
    unfold realToHexadecimal
    rw [hcl] at hbuf ⊢
    simp only [hdec, Bool.false_eq_true, reduceCtorEq, if_true, if_false] at hbuf ⊢
    rw [if_neg (by omega), Nat.min_eq_left (by omega), if_neg hpos.ne', htake]

/-- **Printing and reading** give the same number back.
Source: `real.c` `real_to_hexadecimal`, `real_from_string`
Kind: P -/
theorem real_hexadecimal_round_trip (hr : r.Zero ∨ r.Normalized)
    (hbuf : (printExponent (printedExp r)).length + r.sign.toNat + 4 + 1 + significandBits l / 4 ≤ bufSize) :
    ∃ str, realToHexadecimal r bufSize 0 crop = some str ∧ (realFromString decimal str).1 = 0 ∧
      realIdentical (realFromString decimal str).2 r = true := by
  have hcl : r.cl = .rvc_zero ∨ r.cl = .rvc_normal := hr.imp RealValue.Zero.cl RealValue.Normalized.cl
  have hdec : r.decimal = false := hr.elim RealValue.Zero.decimal RealValue.Normalized.decimal
  obtain ⟨ds, k, hds, hsplit, hne, hprint⟩ := realToHexadecimal_eq hl r bufSize crop hcl hdec hbuf
  obtain ⟨s, hsig, hexp, htext⟩ := realFromString_text hl decimal (printedLiteral r.sign (printedExp r) ds hds)
  have hnegative : (printedLiteral r.sign (printedExp r) ds hds).negative = r.sign := by
    unfold printedLiteral HexLiteral.negative
    cases r.sign
    · rfl
    · rfl
  have hplaces : r.sig.toNat < 16 ^ hexPlaces l := by
    have hlt := r.sig_lt hl
    rwa [hl.hexPlaces_eq, pow_mul] at hlt
  rw [printedLiteral_leadDigits] at hsig hexp
  rw [hnegative] at htext
  refine ⟨_, hprint, ?_⟩
  rw [htext]
  rcases hr with hzero | hnormal
  · -- no digit is left, and the mantissa is zero
    have hnil : ds.dropWhile (· = 0) = [] := by
      refine List.dropWhile_eq_nil_iff.mpr fun d hd => decide_eq_true ?_
      have hmem : d ∈ nibbles (hexPlaces l) r.sig.toNat := hsplit ▸ List.mem_append_left _ hd
      rw [hzero.sig] at hmem
      obtain ⟨p, -, rfl⟩ := List.mem_map.mp hmem
      rw [Nat.zero_div]
    have hcmp : ¬cmpSignificand0 s.sig = true := by
      rw [cmpSignificand0_iff hl.pos, hsig, hnil, not_not, hexSignificand_of_le (Nat.zero_le _)]
      exact Nat.zero_mul _
    rw [Bool.eq_false_of_not_eq_true hcmp, Bool.not_false, if_pos rfl]
    refine ⟨rfl, ?_⟩
    have hsame : realIdentical (getZero l r.sign) r = true := by
      unfold realIdentical getZero
      rw [hzero.cl]
      simp
    exact hsame
  · -- the first digit is at least eight, and all the digits are read
    obtain ⟨d, es, rfl⟩ := List.exists_cons_of_ne_nil hne
    have hfirst : d ≠ 0 := nibbles_head_ne_zero hl (r.sig_lt hl) hnormal.sig hsplit
    have hall : (d :: es).dropWhile (· = 0) = d :: es := List.dropWhile_cons_of_neg (by simpa using hfirst)
    rw [hall] at hsig hexp
    rw [hexSignificand_of_append hplaces hsplit] at hsig
    have hcmp : cmpSignificand0 s.sig = true := by
      rw [cmpSignificand0_iff hl.pos, hsig]
      exact (lt_of_lt_of_le (by positivity) hnormal.sig).ne'
    have hexponent : printedExp r = r.realExp := by
      unfold printedExp
      rw [hnormal.cl]
      exact if_neg (by decide)
    have hfraction : ((printedLiteral r.sign (printedExp r) (d :: es) hds).fraction.getD []).length = (d :: es).length :=
      List.length_map _
    have hmagnitude : ((printedLiteral r.sign (printedExp r) (d :: es) hds).exponentMagnitude : ℤ) ≤ maxExp := by
      have habs : (printedLiteral r.sign (printedExp r) (d :: es) hds).exponentMagnitude = (printedExp r).natAbs :=
        Nat.ofDigitChars_toDigits (by decide) (by decide)
      rw [habs, hexponent]
      have hrange := hnormal.exp
      omega
    rw [hcmp, Bool.not_true, if_neg Bool.false_ne_true, if_pos hmagnitude, hexp, hfraction, sub_self, mul_zero, zero_add,
      printedLiteral_exponentValue, hexponent]
    refine ⟨rfl, ?_⟩
    rw [normalize_of_msb hl (hsig ▸ hnormal.sig)]
    have hfield : -2 ^ 25 ≤ r.realExp ∧ r.realExp < 2 ^ 25 := by
      have hrange := hnormal.exp
      unfold maxExp at hrange
      omega
    have hread : RealValue.Represents (⟨.rvc_normal, false, r.sign, false, false, setRealExp r.realExp, s.sig⟩ : RealValue l)
        r.sign r.realExp r.sig.toNat := ⟨rfl, rfl, rfl, realExp_eq rfl hfield, hsig⟩
    exact (realIdentical_iff hl hread hnormal.represents).mpr rfl

end Main

/-- Ten, on a host with a `long` of 64 bits. -/
def tenReal : RealValue 64 :=
  ⟨.rvc_normal, false, false, false, false, setRealExp 4, .ofFn fun i => if i = 2 then 5 <<< 61 else 0⟩

/-- Ten is printed and read again. Source: `real.c` `real_to_hexadecimal`. Kind: C -/
theorem real_hexadecimal_round_trip_ten :
    realToHexadecimal tenReal 128 0 true = some "0x0.ap+4".toList ∧
      realIdentical (realFromString (fun _ _ => (0, getZero 64 false)) "0x0.ap+4".toList).2 tenReal = true := by
  have hprint : realToHexadecimal tenReal 128 0 true = some "0x0.ap+4".toList := by decide
  have hnormal : tenReal.Normalized := ⟨rfl, rfl, by decide, by decide⟩
  obtain ⟨str, hstr, -, hsame⟩ := real_hexadecimal_round_trip (Or.inl rfl) (fun _ _ => (0, getZero 64 false)) tenReal 128 true
    (Or.inr hnormal) (by decide)
  rw [hprint] at hstr
  obtain rfl := Option.some.inj hstr
  exact ⟨hprint, hsame⟩

end GccCore.Gcc.Real
