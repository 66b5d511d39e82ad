import GccCore.Cpp.Expr.Basic

/-!
# `libcpp/expr.c`: integer constants

The digits of a constant are read in one part as long as a digit surely fits, and then in two parts.

* **One digit more** (`appendDigit_spec`): the value modulo `2 ^ precision`, and whether it fits.
* **All digits** (`readDigits_spec`), by either way, in any order that the threshold chooses.
* **The class** (`cppClassifyNumber_digits`): the scan for the class of a constant has seen the digits that are read later.
* **Constants** (`cppInterpretInteger_spec`): value, report and signedness. In a directive, traditional mode keeps numbers signed.
-/

namespace GccCore.Cpp.Expr

open GccCore GccCore.Lib.WordPair

/-! ## The code -/

section Model

variable {w : ℕ}

/-- Appends `digit` to a number that is read in base `base`. Source: `expr.c` `append_digit`. -/
def appendDigit (num : CppNum w) (digit base precision : ℕ) : CppNum w :=
  -- multiply by 2, 8 or 16
  let shift := if base = 2 then 1 else if base = 16 then 4 else 3
  let overflow := num.high >>> (w - shift) != 0
  let high := num.high <<< shift
  let low := num.low <<< shift
  let high := high ||| num.low >>> (w - shift)
  let addLow := if base = 10 then num.low <<< 1 else 0
  let addHigh := if base = 10 then num.high <<< 1 + num.low >>> (w - 1) else 0
  let addHigh := if addLow + BitVec.ofNat w digit < addLow then addHigh + 1#w else addHigh
  let addLow := addLow + BitVec.ofNat w digit
  let addHigh := if low + addLow < low then addHigh + 1#w else addHigh
  let overflow := overflow || decide (high + addHigh < high)
  let result : CppNum w := ⟨high + addHigh, low + addLow, num.unsignedp, overflow⟩
  let num := { num with low := result.low, high := result.high }
  let result := numTrim result precision
  if !numEq result num then { result with overflow := true } else result

/-- Source: `safe-ctype.h` `ISXDIGIT`. -/
def isXDigit (c : Char) : Bool := c.isDigit || ('a' ≤ c && c ≤ 'f') || ('A' ≤ c && c ≤ 'F')

/-- The value of a digit, or `_hex_bad`. Source: `hex.c` `_hex_value`. -/
def hexValue (c : Char) : ℕ :=
  if c.isDigit then c.toNat - '0'.toNat
  else if 'a' ≤ c && c ≤ 'f' then c.toNat - 'a'.toNat + 10
  else if 'A' ≤ c && c ≤ 'F' then c.toNat - 'A'.toNat + 10
  else 99

/-- Source: `cpplib.h` (`CPP_N_RADIX`). -/
inductive Radix
  | decimal
  | hex
  | octal
  | binary
  deriving DecidableEq

/-- Source: `expr.c` `cpp_interpret_integer` (`base`). -/
def Radix.base : Radix → ℕ
  | .decimal => 10
  | .hex => 16
  | .octal => 8
  | .binary => 2

/-- What stands before the digits. Source: `expr.c` `cpp_interpret_integer` (`p++`, `p += 2`). -/
def Radix.prefixLength : Radix → ℕ
  | .decimal => 0
  | .hex => 2
  | .octal => 1
  | .binary => 2

/-- The characters that are read as digits. Source: `expr.c` (`ISDIGIT (c) || (base == 16 && ISXDIGIT (c))`). -/
def Radix.reads (radix : Radix) (c : Char) : Bool := c.isDigit || (radix = .hex && isXDigit c)

/-- Source: `expr.c` `cpp_classify_number` (`float_flag`). -/
inductive FloatFlag
  | notFloat
  | afterPoint
  | afterExpon
  deriving DecidableEq

/-- The loop over the suffix, from its end; `next` is the letter after `s[len]`.
Source: `expr.c` `interpret_int_suffix` -/
def suffixLetters : List Char → Char → ℕ → ℕ → ℕ → Option (ℕ × ℕ × ℕ)
  | [], _, u, l, i => some (u, l, i)
  | c :: s, next, u, l, i =>
    if c = 'u' ∨ c = 'U' then suffixLetters s c (u + 1) l i
    else if c = 'i' ∨ c = 'I' ∨ c = 'j' ∨ c = 'J' then suffixLetters s c u l (i + 1)
    else if c = 'l' ∨ c = 'L' then
      -- two Ls must be adjacent and the same case
      if l + 1 = 2 ∧ c ≠ next then none else suffixLetters s c u (l + 1) i
    else none

/-- Is the suffix valid, and is it an unsigned one? Source: `expr.c` `interpret_int_suffix`. -/
def interpretIntSuffix (s : List Char) : Option Bool :=
  match suffixLetters s.reverse (Char.ofNat 0) 0 0 0 with
  | none => none
  | some (u, l, i) => if l > 2 ∨ u > 1 ∨ i > 1 then none else some (u ≠ 0)

/-- The radix that the first characters show. The text ends with a NUL. Source: `expr.c` `cpp_classify_number`. -/
def interpretRadix : List Char → Radix × List Char
  | '0' :: x :: str =>
    if (x = 'x' ∨ x = 'X') ∧ str.head?.any (fun c => c = '.' || isXDigit c) then (.hex, str)
    else if (x = 'b' ∨ x = 'B') ∧ str.head?.any (fun c => c = '0' || c = '1') then (.binary, str)
    else (.octal, x :: str)
  | str => (.decimal, str)

/-- The scan over digits and points. Source: `expr.c` `cpp_classify_number` (`for (;;)`). -/
def scanNumber (radix : Radix) : List Char → FloatFlag → ℕ → Option (FloatFlag × ℕ × List Char)
  | [], floatFlag, maxDigit => some (floatFlag, maxDigit, [])
  | c :: str, floatFlag, maxDigit =>
    if c.isDigit || (isXDigit c && radix = .hex) then
      scanNumber radix str floatFlag (if hexValue c > maxDigit then hexValue c else maxDigit)
    else if c = '.' then
      if floatFlag = .notFloat then scanNumber radix str .afterPoint maxDigit else none
    else if (radix.base ≤ 10 ∧ (c = 'e' ∨ c = 'E')) ∨ (radix = .hex ∧ (c = 'p' ∨ c = 'P')) then
      some (.afterExpon, maxDigit, str)
    else some (floatFlag, maxDigit, c :: str)

/-- The radix of a number that is classified as an integer, and whether its suffix makes it unsigned; `none` for other numbers.
The suffixes of fixed-point constants are not valid for integers. What is said about valid integers is left out.
Source: `expr.c` `cpp_classify_number` -/
def cppClassifyNumber (str : List Char) : Option (Radix × Bool) :=
  if str.length = 1 then some (.decimal, false)
  else
    let (radix, str) := interpretRadix str
    match scanNumber radix str .notFloat 0 with
    | some (.notFloat, maxDigit, str) =>
      if radix.base ≤ maxDigit then none
      else match interpretIntSuffix str with
        | some unsignedp => some (radix, unsignedp)
        | none => none
    | _ => none

/-- The loop over the digits: the number, and whether a digit overflowed it.
Source: `expr.c` `cpp_interpret_integer` (`for (; p < end; p++)`) -/
def readDigits (radix : Radix) (precision : ℕ) : List Char → BitVec w → CppNum w → Bool → CppNum w × Bool
  | [], _, result, overflow => (result, overflow)
  | c :: p, max, result, overflow =>
    if radix.reads c then
      let c := hexValue c
      if result.low < max then
        readDigits radix precision p max { result with low := result.low * BitVec.ofNat w radix.base + BitVec.ofNat w c } overflow
      else
        let result := appendDigit result c radix.base precision
        readDigits radix precision p 0 result (overflow || result.overflow)
    else (result, overflow)

/-- What is said about an integer constant. Source: `expr.c` `cpp_interpret_integer` (`cpp_error`). -/
inductive Report
  /-- `CPP_DL_PEDWARN`: "integer constant is too large for its type". -/
  | tooLarge
  /-- `CPP_DL_WARNING`: "integer constant is so large that it is unsigned". -/
  | soLarge
  deriving DecidableEq

/-- Numbers strictly less than this take a digit in one part.
Source: `expr.c` `cpp_interpret_integer` (`max = (max - base + 1) / base + 1`) -/
def digitThreshold (w precision : ℕ) (radix : Radix) : BitVec w :=
  let max := BitVec.allOnes w
  let max := if precision < w then max >>> (w - precision) else max
  (max - BitVec.ofNat w radix.base + 1#w) / BitVec.ofNat w radix.base + 1#w

/-- Source: `expr.c` `cpp_interpret_integer`. -/
def cppInterpretInteger (w : ℕ) (traditional inDirective : Bool) (precision : ℕ) (str : List Char) (radix : Radix)
    (unsignedp : Bool) : CppNum w × Option Report :=
  let result : CppNum w := ⟨0, 0, unsignedp, false⟩
  match str with
  -- common case of a single digit
  | [c] => ({ result with low := BitVec.ofNat w c.toNat - BitVec.ofNat w '0'.toNat }, none)
  | str =>
    let (result, overflow) :=
      readDigits radix precision (str.drop radix.prefixLength) (digitThreshold w precision radix) result false
    if overflow then (result, some .tooLarge)
    -- too big to be signed; traditional numbers were always signed, in directives
    else if !result.unsignedp && !(traditional && inDirective) && !numPositive result precision then
      ({ result with unsignedp := true }, if radix = .decimal then some .soLarge else none)
    else (result, none)

/-! ## What a constant denotes -/

/-- The first characters of a number.
Source: `lex.c` `_cpp_lex_direct` (`case '0'` to `case '9'`, `case '.'` with `ISDIGIT (*buffer->cur)`) -/
def startsNumber : List Char → Bool
  | '.' :: c :: _ => c.isDigit
  | c :: _ => c.isDigit
  | [] => false

/-- A number as the lexer makes it. Source: `lex.c` `_cpp_lex_direct` (`CPP_NUMBER`). -/
structure NumberToken where
  text : List Char
  /-- The lexer has done its job. -/
  lexed : startsNumber text = true

/-- The digits of a constant, behind its prefix. -/
def constantDigits (radix : Radix) (text : List Char) : List Char := (text.drop radix.prefixLength).takeWhile radix.reads

/-- The mathematical value of a constant. -/
def constantValue (radix : Radix) (text : List Char) : ℕ :=
  Nat.ofDigits radix.base ((constantDigits radix text).map hexValue).reverse

end Model

/-! ## One digit more -/

section Append

variable {w p : ℕ} {num : CppNum w}

/-- The bits that a shift loses. Source: `expr.c` `append_digit` (`overflow = !!(num.high >> ...)`). Kind: L -/
theorem high_shift_ne_zero_iff {m : ℕ} (hm : m ≤ w) (num : CppNum w) :
    num.high >>> (w - m) ≠ 0 ↔ 2 ^ (2 * w) ≤ num.toNat * 2 ^ m := by
  have hzero : num.high >>> (w - m) = 0 ↔ num.high.toNat / 2 ^ (w - m) = 0 := by
    rw [← BitVec.toNat_inj, toNat_ushiftRight]
    simp
  have hdiv : num.toNat / 2 ^ w = num.high.toNat := pair_div num.high num.low
  have hpow : 2 ^ (2 * w) = 2 ^ w * 2 ^ (w - m) * 2 ^ m := by
    rw [← pow_add, ← pow_add]
    congr 1
    omega
  rw [ne_eq, hzero, ← hdiv, Nat.div_div_eq_div_mul, Nat.div_eq_zero_iff, hpow, Nat.mul_le_mul_right_iff (Nat.two_pow_pos m)]
  have hpos := Nat.mul_pos (Nat.two_pow_pos w) (Nat.two_pow_pos (w - m))
  omega

/-- What is added to the product by 2, 8 or 16. Source: `expr.c` `append_digit` (`add_high`, `add_low`). Kind: L -/
theorem pair_addend (hw : 8 ≤ w) {digit base : ℕ} (hdigit : digit < 16) (num : CppNum w) :
    pair (if (if base = 10 then num.low <<< 1 else 0) + BitVec.ofNat w digit < (if base = 10 then num.low <<< 1 else 0) then
        (if base = 10 then num.high <<< 1 + num.low >>> (w - 1) else 0) + 1#w
      else if base = 10 then num.high <<< 1 + num.low >>> (w - 1) else 0)
      ((if base = 10 then num.low <<< 1 else 0) + BitVec.ofNat w digit) =
      ((if base = 10 then num.toNat * 2 else 0) + digit) % 2 ^ (2 * w) := by
  have hlt : digit < 2 ^ w := hdigit.trans_le ((by decide : 16 ≤ 2 ^ 8).trans (Nat.pow_le_pow_right (by omega) hw))
  have hd : (BitVec.ofNat w digit).toNat = digit := by rw [BitVec.toNat_ofNat, Nat.mod_eq_of_lt hlt]
  -- a sum of bits that do not overlap
  have hor : num.high <<< 1 + num.low >>> (w - 1) = num.high <<< 1 ||| num.low >>> (w - 1) := by
    apply BitVec.eq_of_toNat_eq
    have hlt' : (num.low >>> (w - 1)).toNat < 2 ^ 1 := by
      rw [toNat_ushiftRight, Nat.div_lt_iff_lt_mul (Nat.two_pow_pos _), ← pow_add, show 1 + (w - 1) = w by omega]
      exact num.low.isLt
    have hmod : (num.high <<< 1).toNat % 2 ^ 1 = 0 := by
      rw [toNat_shiftLeft (by omega)]
      exact Nat.mul_mod_left _ _
    have hsum := or_eq_add hmod hlt'
    rw [BitVec.toNat_add, BitVec.toNat_or, ← hsum, Nat.mod_eq_of_lt]
    rw [← BitVec.toNat_or]
    exact (num.high <<< 1 ||| num.low >>> (w - 1)).isLt
  rw [pair_add_low, hd]
  split_ifs with hten
  · rw [hor, pair_shiftLeft (by omega), pow_one, Nat.mod_add_mod]
    rfl
  · simp [pair]

/-- **One digit more**: the value modulo the precision, and overflow if it does not fit.
Source: `expr.c` `append_digit`
Kind: L -/
theorem appendDigit_spec (hw : 8 ≤ w) (hpw : p ≤ 2 * w) {digit base : ℕ}
    (hbase : base = 2 ∨ base = 8 ∨ base = 10 ∨ base = 16) (hdigit : digit < base) (num : CppNum w) :
    (appendDigit num digit base p).toNat = (num.toNat * base + digit) % 2 ^ p ∧
      ((appendDigit num digit base p).overflow = true ↔ 2 ^ p ≤ num.toNat * base + digit) ∧
      (appendDigit num digit base p).unsignedp = num.unsignedp := by
  have hdvd : 2 ^ p ∣ 2 ^ (2 * w) := Nat.pow_dvd_pow 2 hpw
  obtain ⟨s, hs, hsw, hsplit⟩ : ∃ s, s = (if base = 2 then 1 else if base = 16 then 4 else 3) ∧ s ≤ w ∧
      base = 2 ^ s + if base = 10 then 2 else 0 := by
    refine ⟨_, rfl, ?_, ?_⟩
    · split_ifs <;> omega
    · rcases hbase with rfl | rfl | rfl | rfl <;> rfl
  have hproduct := pair_shiftLeft hsw num.high num.low
  have hlost := high_shift_ne_zero_iff hsw num
  have haddend := @pair_addend w hw digit base (by omega) num
  have hv : pair num.high num.low = num.toNat := rfl
  have hlt := num.toNat_lt
  have hle : 2 ^ p ≤ 2 ^ (2 * w) := Nat.pow_le_pow_right (by omega) hpw
  have hvalue : num.toNat * base + digit = num.toNat * 2 ^ s + ((if base = 10 then num.toNat * 2 else 0) + digit) := by
    conv_lhs => rw [hsplit]
    split_ifs <;> ring
  unfold appendDigit
  dsimp only
  rw [← hs]
  rw [hv] at hproduct
  generalize num.high <<< s ||| num.low >>> (w - s) = high at *
  generalize num.low <<< s = low at *
  generalize hal : (if base = 10 then num.low <<< 1 else 0) + BitVec.ofNat w digit = addLow at *
  generalize (if addLow < if base = 10 then num.low <<< 1 else 0 then
    (if base = 10 then num.high <<< 1 + num.low >>> (w - 1) else 0) + 1#w
    else if base = 10 then num.high <<< 1 + num.low >>> (w - 1) else 0) = addHigh at *
  -- the sum, and when it does not fit two parts
  have hsum := pair_add_carry high low addHigh addLow
  have hover : (num.high >>> (w - s) != 0 ||
      decide ((high + if low + addLow < low then addHigh + 1#w else addHigh) < high)) = true ↔
      2 ^ (2 * w) ≤ num.toNat * base + digit := by
    rw [Bool.or_eq_true, bne_iff_ne, decide_eq_true_iff, hlost, hvalue]
    by_cases hfirst : 2 ^ (2 * w) ≤ num.toNat * 2 ^ s
    · exact iff_of_true (.inl hfirst) (by omega)
    · have hsq := two_pow_two_mul w
      have hbig : 2 ^ 8 ≤ 2 ^ w := Nat.pow_le_pow_right (by omega) hw
      have hbig' : 2 ^ 8 * 2 ^ 8 ≤ 2 ^ w * 2 ^ w := Nat.mul_le_mul hbig hbig
      -- the addend is less than half of what fits
      have hhalf : 2 * ((if base = 10 then num.toNat * 2 else 0) + digit) < 2 ^ (2 * w) := by
        split_ifs with hten
        · have hthree : s = 3 := by
            rw [hs, hten]
            rfl
          rw [hthree] at hfirst
          omega
        · omega
      rw [Nat.mod_eq_of_lt (by omega)] at haddend
      rw [Nat.mod_eq_of_lt (by omega)] at hproduct
      have hroom : addHigh.toNat + 1 < 2 ^ w := by
        have hdiv := pair_div addHigh addLow
        rw [haddend] at hdiv
        have hlt' : ((if base = 10 then num.toNat * 2 else 0) + digit) / 2 ^ w * 2 < 2 ^ w := by
          have hmul := Nat.div_mul_le_self ((if base = 10 then num.toNat * 2 else 0) + digit) (2 ^ w)
          by_contra hge
          have hle' := Nat.mul_le_mul_right (2 ^ w) (not_lt.mp hge)
          have hcomm : ∀ q : ℕ, q * 2 * 2 ^ w = 2 * (q * 2 ^ w) := fun q => by ring
          rw [hcomm] at hle'
          omega
        omega
      rw [add_carry_lt_iff hroom, hproduct, haddend]
      exact or_iff_right hfirst
  generalize (num.high >>> (w - s) != 0 ||
    decide ((high + if low + addLow < low then addHigh + 1#w else addHigh) < high)) = lost at *
  have hmod : pair (high + if low + addLow < low then addHigh + 1#w else addHigh) (low + addLow) =
      (num.toNat * base + digit) % 2 ^ (2 * w) := by
    rw [hsum, hproduct, haddend, hvalue, ← Nat.add_mod]
  generalize high + (if low + addLow < low then addHigh + 1#w else addHigh) = sumHigh at *
  generalize low + addLow = sumLow at *
  have hpair : (CppNum.mk sumHigh sumLow num.unsignedp lost).toNat = (num.toNat * base + digit) % 2 ^ (2 * w) := hmod
  have htrim : (numTrim (CppNum.mk sumHigh sumLow num.unsignedp lost) p).toNat = (num.toNat * base + digit) % 2 ^ p := by
    rw [toNat_numTrim, hpair, Nat.mod_mod_of_dvd _ hdvd]
  have hsame : numEq (numTrim (CppNum.mk sumHigh sumLow num.unsignedp lost) p)
      { num with low := sumLow, high := sumHigh } = true ↔
      (num.toNat * base + digit) % 2 ^ p = (num.toNat * base + digit) % 2 ^ (2 * w) := by
    have hnum : ({ num with low := sumLow, high := sumHigh } : CppNum w).toNat = (num.toNat * base + digit) % 2 ^ (2 * w) := hmod
    rw [numEq_iff, htrim, hnum]
  generalize num.toNat * base + digit = V at *
  have hmodlt := Nat.mod_lt V (Nat.two_pow_pos p)
  refine ⟨?_, ?_, ?_⟩
  · split_ifs <;> exact htrim
  · split_ifs with hne
    · -- the two parts hold the sum, or not even they do
      rw [Bool.not_eq_true', Bool.eq_false_iff, ne_eq, hsame] at hne
      refine iff_of_true rfl (le_of_not_gt fun hfits => hne ?_)
      rw [Nat.mod_eq_of_lt hfits, Nat.mod_eq_of_lt (hfits.trans_le hle)]
    · rw [Bool.not_eq_true', Bool.not_eq_false, hsame] at hne
      rw [overflow_numTrim]
      refine hover.trans ⟨hle.trans, fun hge => le_of_not_gt fun hfits => ?_⟩
      rw [Nat.mod_eq_of_lt hfits] at hne
      omega
  · split_ifs <;> exact unsignedp_numTrim

end Append

/-! ## Digits -/

section Digits

variable {radix : Radix} {unsignedp : Bool}

theorem isDigit_iff {c : Char} : c.isDigit = true ↔ 48 ≤ c.toNat ∧ c.toNat ≤ 57 := by
  unfold Char.isDigit
  rw [Bool.and_eq_true, decide_eq_true_iff, decide_eq_true_iff]
  rfl

theorem hexValue_isDigit {c : Char} (h : c.isDigit = true) : hexValue c = c.toNat - 48 := by
  rw [hexValue, if_pos h]
  rfl

/-- **The scan** has seen every digit that is read. Source: `expr.c` `cpp_classify_number` (`max_digit`). Kind: L -/
theorem scanNumber_digits {str rest : List Char} {flag flag' : FloatFlag} {m m' : ℕ}
    (h : scanNumber radix str flag m = some (flag', m', rest)) :
    m ≤ m' ∧ ∀ c ∈ str.takeWhile radix.reads, hexValue c ≤ m' := by
  induction str generalizing flag m with
  | nil =>
    simp only [scanNumber, Option.some.injEq, Prod.mk.injEq] at h
    simp [h.2.1]
  | cons c str ih =>
    have hreads : (c.isDigit || (isXDigit c && radix = .hex)) = radix.reads c := by
      rw [Radix.reads, Bool.and_comm]
    rw [scanNumber, hreads] at h
    by_cases hc : radix.reads c = true
    · rw [if_pos hc] at h
      obtain ⟨hle, hall⟩ := ih h
      have hmax : hexValue c ≤ m' ∧ m ≤ m' := by
        split_ifs at hle <;> omega
      refine ⟨hmax.2, fun c' hc' => ?_⟩
      rw [List.takeWhile_cons_of_pos hc, List.mem_cons] at hc'
      rcases hc' with rfl | hc'
      · exact hmax.1
      · exact hall c' hc'
    · rw [List.takeWhile_cons_of_neg hc]
      refine ⟨?_, by simp⟩
      rw [if_neg hc] at h
      split_ifs at h
      · exact (ih h).1
      · simp only [Option.some.injEq, Prod.mk.injEq] at h
        exact h.2.1.le
      · simp only [Option.some.injEq, Prod.mk.injEq] at h
        exact h.2.1.le

/-- The prefix is what is skipped. Source: `expr.c` `cpp_classify_number`, `cpp_interpret_integer`. Kind: L -/
theorem interpretRadix_drop (str : List Char) : (interpretRadix str).2 = str.drop (interpretRadix str).1.prefixLength := by
  unfold interpretRadix
  split
  · split_ifs <;> rfl
  · rfl

/-- **The class**: the digits that are read are digits of the radix. Source: `expr.c` `cpp_classify_number`. Kind: L -/
theorem cppClassifyNumber_digits {str : List Char} (hlen : str.length ≠ 1)
    (h : cppClassifyNumber str = some (radix, unsignedp)) :
    ∀ c ∈ constantDigits radix str, hexValue c < radix.base := by
  rw [cppClassifyNumber, if_neg hlen] at h
  have hdrop := interpretRadix_drop str
  rcases hradix : interpretRadix str with ⟨radix', str'⟩
  rw [hradix] at h hdrop
  dsimp only at h hdrop
  split at h
  · rename_i _ m rest hscan
    split_ifs at h with hmax
    split at h
    · simp only [Option.some.injEq, Prod.mk.injEq] at h
      obtain ⟨rfl, -⟩ := h
      intro c hc
      rw [constantDigits, ← hdrop] at hc
      exact ((scanNumber_digits hscan).2 c hc).trans_lt (not_le.mp hmax)
    · cases h
  · cases h

end Digits

/-! ## All digits -/

section Loop

variable {w p V : ℕ} {radix : Radix} {threshold : BitVec w} {num : CppNum w} {overflow : Bool}

theorem Radix.base_cases (radix : Radix) : radix.base = 2 ∨ radix.base = 8 ∨ radix.base = 10 ∨ radix.base = 16 := by
  cases radix <;> simp [Radix.base]

/-- **The invariant** of the loop: the digits so far have the value `V`, and as long as the threshold is not zero, they are
in the low part.
Source: `expr.c` `cpp_interpret_integer` -/
structure ReadsTo (radix : Radix) (p : ℕ) (threshold : BitVec w) (num : CppNum w) (overflow : Bool) (V : ℕ) : Prop where
  value : num.toNat = V % 2 ^ p
  overflows : overflow = true ↔ 2 ^ p ≤ V
  room : threshold ≠ 0 → num.high = 0 ∧ V < 2 ^ p ∧ threshold.toNat * radix.base ≤ 2 ^ min p w

/-- **The threshold** is the number of digits that surely fit. Source: `expr.c` `cpp_interpret_integer` (`max`). Kind: L -/
theorem digitThreshold_mul_le (hw : 8 ≤ w) (hp : 8 ≤ p) (radix : Radix) :
    (digitThreshold w p radix).toNat * radix.base ≤ 2 ^ min p w := by
  have hbase : 2 ≤ radix.base ∧ radix.base ≤ 16 := by
    rcases radix.base_cases with h | h | h | h <;> omega
  have hM : 2 ^ 8 ≤ 2 ^ min p w := Nat.pow_le_pow_right (by omega) (by omega)
  have hMw : 2 ^ min p w ≤ 2 ^ w := Nat.pow_le_pow_right (by omega) (by omega)
  have hb : (BitVec.ofNat w radix.base).toNat = radix.base := by
    rw [BitVec.toNat_ofNat, Nat.mod_eq_of_lt (by omega)]
  have hone : (1#w).toNat = 1 := by
    rw [BitVec.toNat_ofNat, Nat.mod_eq_of_lt (by omega)]
  have hones : (if p < w then BitVec.allOnes w >>> (w - p) else BitVec.allOnes w).toNat = 2 ^ min p w - 1 := by
    split_ifs with hpw
    · have hsplit : 2 ^ w = 2 ^ p * 2 ^ (w - p) := by rw [← pow_add, Nat.add_sub_cancel' hpw.le]
      have hpos := Nat.two_pow_pos (w - p)
      have hpos' := Nat.two_pow_pos p
      have hsub : 2 ^ w - 1 = (2 ^ (w - p) - 1) + 2 ^ (w - p) * (2 ^ p - 1) := by
        rw [hsplit, Nat.mul_sub, Nat.mul_comm (2 ^ p)]
        have hle := Nat.le_mul_of_pos_right (2 ^ (w - p)) hpos'
        omega
      rw [toNat_ushiftRight, BitVec.toNat_allOnes, hsub, Nat.add_mul_div_left _ _ hpos, Nat.div_eq_of_lt (by omega),
        min_eq_left hpw.le]
      omega
    · rw [BitVec.toNat_allOnes, min_eq_right (by omega)]
  have hsub : ((if p < w then BitVec.allOnes w >>> (w - p) else BitVec.allOnes w) - BitVec.ofNat w radix.base + 1#w).toNat =
      2 ^ min p w - radix.base := by
    rw [BitVec.toNat_add, BitVec.toNat_sub_of_le (by rw [BitVec.le_def, hones, hb]; omega), hones, hb, hone,
      Nat.mod_eq_of_lt (by omega)]
    omega
  have hdiv : (2 ^ min p w - radix.base) / radix.base + 1 = 2 ^ min p w / radix.base := by
    rw [← Nat.add_div_right _ (by omega), Nat.sub_add_cancel (by omega)]
  have hlt : 2 ^ min p w / radix.base < 2 ^ w := (Nat.div_lt_self (by omega) (by omega)).trans_le hMw
  have hvalue : (digitThreshold w p radix).toNat = 2 ^ min p w / radix.base := by
    unfold digitThreshold
    dsimp only
    rw [BitVec.toNat_add, BitVec.toNat_udiv, hsub, hb, hone, hdiv, Nat.mod_eq_of_lt hlt]
  rw [hvalue]
  exact Nat.div_mul_le_self _ _

/-- **One step** in one part. Source: `expr.c` `cpp_interpret_integer` (`result.low < max`). Kind: L -/
theorem ReadsTo.low (h : ReadsTo radix p threshold num overflow V) {digit : ℕ} (hdigit : digit < radix.base)
    (hlow : num.low < threshold) :
    ReadsTo radix p threshold { num with low := num.low * BitVec.ofNat w radix.base + BitVec.ofNat w digit } overflow
      (V * radix.base + digit) := by
  have hne : threshold ≠ 0 := by
    rintro rfl
    exact BitVec.not_lt_zero hlow
  obtain ⟨hhigh, hfits, hroom⟩ := h.room hne
  have hv : num.toNat = num.low.toNat := by
    rw [CppNum.toNat, hhigh]
    simp [pair]
  have hV : num.low.toNat = V := by rw [← hv, h.value, Nat.mod_eq_of_lt hfits]
  -- what is read stays below the bound
  have hnew : V * radix.base + digit < 2 ^ min p w := by
    have hlt : V + 1 ≤ threshold.toNat := hV ▸ BitVec.lt_def.mp hlow
    have hmul := Nat.mul_le_mul_right radix.base hlt
    rw [Nat.add_mul, Nat.one_mul] at hmul
    omega
  have hp : V * radix.base + digit < 2 ^ p := hnew.trans_le (Nat.pow_le_pow_right (by omega) (by omega))
  have hw : V * radix.base + digit < 2 ^ w := hnew.trans_le (Nat.pow_le_pow_right (by omega) (by omega))
  have hover : overflow = false := by
    rw [← Bool.not_eq_true, h.overflows]
    omega
  refine ⟨?_, ?_, fun _ => ⟨hhigh, hp, hroom⟩⟩
  · rw [CppNum.toNat, hhigh, Nat.mod_eq_of_lt hp]
    have hlow' : (num.low * BitVec.ofNat w radix.base + BitVec.ofNat w digit).toNat = V * radix.base + digit := by
      rw [BitVec.toNat_add, BitVec.toNat_mul, hV, BitVec.toNat_ofNat, BitVec.toNat_ofNat, ← Nat.add_mod,
        ← Nat.mod_mod_of_dvd _ (dvd_refl (2 ^ w)), Nat.add_mod, Nat.mul_mod_mod, ← Nat.add_mod, Nat.mod_mod, Nat.mod_eq_of_lt hw]
    simp [pair, hlow']
  · rw [hover]
    simp
    omega

/-- **One step** in two parts. Source: `expr.c` `cpp_interpret_integer` (`append_digit`). Kind: L -/
theorem ReadsTo.append (hw : 8 ≤ w) (hpw : p ≤ 2 * w) (h : ReadsTo radix p threshold num overflow V) {digit : ℕ}
    (hdigit : digit < radix.base) :
    ReadsTo radix p (0 : BitVec w) (appendDigit num digit radix.base p)
      (overflow || (appendDigit num digit radix.base p).overflow) (V * radix.base + digit) := by
  obtain ⟨hvalue, hover, -⟩ := appendDigit_spec hw hpw radix.base_cases hdigit num
  have hpos : 1 ≤ radix.base := by omega
  refine ⟨?_, ?_, fun hne => absurd rfl hne⟩
  · rw [hvalue, h.value, Nat.add_mod, Nat.mod_mul_mod, ← Nat.add_mod]
  · rw [Bool.or_eq_true, h.overflows, hover, h.value]
    have hle := Nat.le_mul_of_pos_right V hpos
    by_cases hbig : 2 ^ p ≤ V
    · exact iff_of_true (.inl hbig) (by omega)
    · rw [Nat.mod_eq_of_lt (not_le.mp hbig)]
      exact or_iff_right hbig

/-- **All digits**, whichever way each of them is read. Source: `expr.c` `cpp_interpret_integer`. Kind: L -/
theorem readDigits_spec (hw : 8 ≤ w) (hpw : p ≤ 2 * w) {str : List Char}
    (hdigits : ∀ c ∈ str.takeWhile radix.reads, hexValue c < radix.base) (h : ReadsTo radix p threshold num overflow V) :
    ∃ threshold', ReadsTo radix p threshold' (readDigits radix p str threshold num overflow).1
        (readDigits radix p str threshold num overflow).2
        ((str.takeWhile radix.reads).foldl (fun V c => V * radix.base + hexValue c) V) ∧
      (readDigits radix p str threshold num overflow).1.unsignedp = num.unsignedp := by
  induction str generalizing threshold num overflow V with
  | nil => exact ⟨threshold, h, rfl⟩
  | cons c str ih =>
    rw [readDigits]
    by_cases hc : radix.reads c = true
    · rw [List.takeWhile_cons_of_pos hc] at hdigits ⊢
      have hdigit := hdigits c List.mem_cons_self
      have hrest := fun c' hc' => hdigits c' (List.mem_cons_of_mem _ hc')
      rw [if_pos hc, List.foldl_cons]
      dsimp only
      split_ifs with hlow
      · exact ih hrest (h.low hdigit hlow)
      · obtain ⟨threshold', hreads, hflag⟩ := ih hrest (h.append hw hpw hdigit)
        exact ⟨threshold', hreads, hflag.trans (appendDigit_spec hw hpw radix.base_cases hdigit num).2.2⟩
    · rw [List.takeWhile_cons_of_neg hc, if_neg hc]
      exact ⟨threshold, h, rfl⟩

/-- The value of the digits, read from the first. -/
theorem foldl_digits (radix : Radix) (digits : List Char) :
    digits.foldl (fun V c => V * radix.base + hexValue c) 0 = Nat.ofDigits radix.base (digits.map hexValue).reverse := by
  rw [Nat.ofDigits_eq_foldr, List.foldr_reverse, List.foldl_map]
  congr 1
  funext V c
  simp [Nat.mul_comm, Nat.add_comm]

end Loop

/-! ## Constants -/

section Constants

variable {w p : ℕ} {radix : Radix} {unsignedp : Bool}

/-- The highest bit of what fits. -/
theorem testBit_top_iff {V : ℕ} (hp : 0 < p) (hV : V < 2 ^ p) : V.testBit (p - 1) = true ↔ ¬ 2 * V < 2 ^ p := by
  have hhalf := two_pow_half hp
  have hdiv : V / 2 ^ (p - 1) < 2 := by
    rw [Nat.div_lt_iff_lt_mul (Nat.two_pow_pos _)]
    omega
  rw [Nat.testBit_eq_decide_div_mod_eq, decide_eq_true_iff, Nat.mod_eq_of_lt hdiv]
  have hle := Nat.div_pos_iff (a := V) (b := 2 ^ (p - 1))
  have hpos := Nat.two_pow_pos (p - 1)
  omega

/-- A token of one character is a digit.
Source: `expr.c` `cpp_classify_number` ("length one can only be a single digit")
Kind: L -/
theorem startsNumber_single {c : Char} (h : startsNumber [c] = true) : c.isDigit = true := by
  unfold startsNumber at h
  split at h
  · rename_i heq
    cases heq
  · rename_i heq
    cases heq
    exact h
  · cases h

/-- **A single digit** is its value. Source: `expr.c` `cpp_interpret_integer` (`Common case of a single digit`). Kind: L -/
theorem cppInterpretInteger_single (hw : 8 ≤ w) {c : Char} (hc : c.isDigit = true) (traditional inDirective : Bool) :
    (cppInterpretInteger w traditional inDirective p [c] .decimal unsignedp).1.toNat = constantValue .decimal [c] ∧
      constantValue .decimal [c] < 10 := by
  have hreads : Radix.reads .decimal c = true := by simp [Radix.reads, hc]
  have hvalue : constantValue .decimal [c] = c.toNat - 48 := by
    rw [constantValue, constantDigits, Radix.prefixLength, List.drop_zero, List.takeWhile_cons_of_pos hreads,
      ← hexValue_isDigit hc]
    simp
  have hrange := isDigit_iff.mp hc
  have hpow : 2 ^ 8 ≤ 2 ^ w := Nat.pow_le_pow_right (by omega) hw
  have hzero : '0'.toNat = 48 := rfl
  have hlow : (BitVec.ofNat w c.toNat - BitVec.ofNat w '0'.toNat).toNat = c.toNat - 48 := by
    have hc' : (BitVec.ofNat w c.toNat).toNat = c.toNat := by rw [BitVec.toNat_ofNat, Nat.mod_eq_of_lt (by omega)]
    have h0 : (BitVec.ofNat w '0'.toNat).toNat = 48 := by rw [BitVec.toNat_ofNat, hzero, Nat.mod_eq_of_lt (by omega)]
    rw [BitVec.toNat_sub_of_le (by rw [BitVec.le_def, hc', h0]; omega), hc', h0]
  rw [hvalue]
  refine ⟨?_, by omega⟩
  have hparts : (cppInterpretInteger w traditional inDirective p [c] .decimal unsignedp).1.toNat =
      pair 0 (BitVec.ofNat w c.toNat - BitVec.ofNat w '0'.toNat) := rfl
  rw [hparts, pair, hlow]
  simp

/-- **Integer constants** of `p` bits: the value modulo `2 ^ p`, the report that the constant is too large, and the signedness
of a constant without a suffix `u`. A number is always signed in a directive in traditional mode.
Source: `expr.c` `cpp_interpret_integer`, `append_digit`
Kind: C -/
theorem cppInterpretInteger_spec (hw : 8 ≤ w) (hp : 8 ≤ p) (hpw : p ≤ 2 * w) (traditional inDirective : Bool)
    {token : NumberToken} (h : cppClassifyNumber token.text = some (radix, unsignedp)) :
    let value := constantValue radix token.text
    let (num, report) := cppInterpretInteger w traditional inDirective p token.text radix unsignedp
    num.toNat = value % 2 ^ p ∧ (report = some .tooLarge ↔ 2 ^ p ≤ value) ∧
      (unsignedp = false →
        (num.unsignedp = true ↔ value < 2 ^ p ∧ value.testBit (p - 1) = true ∧ ¬ (traditional = true ∧ inDirective = true))) := by
  obtain ⟨text, hlexed⟩ := token
  dsimp only at h ⊢
  have hpow : 2 ^ 8 ≤ 2 ^ p := Nat.pow_le_pow_right (by omega) hp
  by_cases hlen : text.length = 1
  · obtain ⟨c, rfl⟩ := List.length_eq_one_iff.mp hlen
    obtain ⟨rfl, rfl⟩ : radix = .decimal ∧ unsignedp = false := by
      rw [cppClassifyNumber, if_pos hlen, Option.some.injEq, Prod.mk.injEq] at h
      exact ⟨h.1.symm, h.2.symm⟩
    obtain ⟨hvalue, hlt⟩ := @cppInterpretInteger_single w p false hw c (startsNumber_single hlexed) traditional inDirective
    refine ⟨?_, ?_, fun _ => ?_⟩
    · rw [hvalue, Nat.mod_eq_of_lt (by omega)]
    · exact iff_of_false (by simp [cppInterpretInteger]) (by omega)
    · refine iff_of_false (by simp [cppInterpretInteger]) fun hset => ?_
      rw [testBit_top_iff (by omega) hset.1] at hset
      omega
  · have hstart : ReadsTo radix p (digitThreshold w p radix) (⟨0, 0, unsignedp, false⟩ : CppNum w) false 0 := by
      refine ⟨?_, ?_, fun _ => ⟨rfl, by omega, digitThreshold_mul_le hw hp radix⟩⟩
      · simp [CppNum.toNat, pair]
      · exact iff_of_false (by simp) (by omega)
    obtain ⟨threshold, hreads, hflag⟩ := readDigits_spec hw hpw (cppClassifyNumber_digits hlen h) hstart
    have hV : (constantDigits radix text).foldl (fun V c => V * radix.base + hexValue c) 0 = constantValue radix text :=
      foldl_digits radix _
    rw [← constantDigits, hV] at hreads
    have hrun : cppInterpretInteger w traditional inDirective p text radix unsignedp =
        (let (result, overflow) :=
          readDigits radix p (text.drop radix.prefixLength) (digitThreshold w p radix) ⟨0, 0, unsignedp, false⟩ false
        if overflow then (result, some .tooLarge)
        else if !result.unsignedp && !(traditional && inDirective) && !numPositive result p then
          ({ result with unsignedp := true }, if radix = .decimal then some .soLarge else none)
        else (result, none)) := by
      unfold cppInterpretInteger
      dsimp only
      split
      · exact absurd rfl hlen
      · rfl
    rw [hrun]
    generalize readDigits radix p (text.drop radix.prefixLength) (digitThreshold w p radix)
      ⟨0, 0, unsignedp, false⟩ false = run at *
    obtain ⟨num, overflow⟩ := run
    generalize constantValue radix text = V at *
    dsimp only at hreads hflag ⊢
    have htrimmed : Trimmed p num := by
      rw [Trimmed, hreads.value]
      exact Nat.mod_lt _ (Nat.two_pow_pos p)
    have hpositive := numPositive_eq (by omega) hpw htrimmed
    by_cases hbig : 2 ^ p ≤ V
    · rw [if_pos (hreads.overflows.mpr hbig)]
      refine ⟨hreads.value, iff_of_true rfl hbig, fun hplain => iff_of_false ?_ fun hset => by omega⟩
      rw [hflag, hplain]
      exact Bool.false_ne_true
    · have hsmall := not_le.mp hbig
      have hnum : num.toNat = V := by rw [hreads.value, Nat.mod_eq_of_lt hsmall]
      have hmark : (!num.unsignedp && !(traditional && inDirective) && !numPositive num p) = true ↔
          unsignedp = false ∧ ¬ (traditional = true ∧ inDirective = true) ∧ V.testBit (p - 1) = true := by
        rw [hpositive, hnum, hflag, testBit_top_iff (by omega) hsmall]
        cases unsignedp <;> cases traditional <;> cases inDirective <;> simp
      rw [if_neg fun hover => hbig (hreads.overflows.mp hover)]
      by_cases hmarked : (!num.unsignedp && !(traditional && inDirective) && !numPositive num p) = true
      · obtain ⟨-, hmode, hset⟩ := hmark.mp hmarked
        rw [if_pos hmarked]
        refine ⟨hreads.value, iff_of_false ?_ hbig, fun _ => iff_of_true rfl ⟨hsmall, hset, hmode⟩⟩
        split_ifs <;> simp
      · rw [if_neg hmarked]
        refine ⟨hreads.value, iff_of_false (by simp) hbig, fun hplain => iff_of_false ?_ ?_⟩
        · rw [hflag, hplain]
          exact Bool.false_ne_true
        · rintro ⟨-, hset, hmode⟩
          exact hmarked (hmark.mpr ⟨hplain, hmode, hset⟩)

/-- The text of a constant that takes two parts of 8 bits. -/
def sixteenBits : NumberToken := ⟨['4', '3', '6', '9', '0'], rfl⟩

/-- **A decimal constant** in two parts of 8 bits, with the highest of 16 bits set. Source: none: an instance. Kind: P -/
theorem cppInterpretInteger_spec_decimal :
    (cppInterpretInteger 8 false false 16 sixteenBits.text .decimal false).1.toNat = 43690 ∧
      (cppInterpretInteger 8 false false 16 sixteenBits.text .decimal false).1.unsignedp = true := by
  have hvalue : constantValue .decimal sixteenBits.text = 43690 := by decide
  obtain ⟨hnum, -, hflag⟩ := cppInterpretInteger_spec (w := 8) (p := 16) (by omega) (by omega) (by omega) false false
    (show cppClassifyNumber sixteenBits.text = some (.decimal, false) by decide)
  rw [hvalue] at hnum hflag
  exact ⟨hnum, (hflag rfl).mpr ⟨by omega, by decide, by decide⟩⟩

/-- **Traditional mode**: in a directive, a constant that fits and whose highest bit is set stays signed.
Source: `expr.c` `cpp_interpret_integer` ("Traditional numbers were always signed ... in directives")
Kind: P -/
theorem cppInterpretInteger_traditional :
    cppClassifyNumber sixteenBits.text = some (.decimal, false) ∧ constantValue .decimal sixteenBits.text < 2 ^ 16 ∧
      (constantValue .decimal sixteenBits.text).testBit 15 = true ∧
      (cppInterpretInteger 64 true true 16 sixteenBits.text .decimal false).1.unsignedp = false := by
  refine ⟨by decide, by decide, by decide, by decide⟩

end Constants

end GccCore.Cpp.Expr
