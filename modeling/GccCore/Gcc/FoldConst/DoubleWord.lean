import GccCore.Lib.Digits

/-!
# `gcc/fold-const.c`: two-word integers

A `HOST_WIDE_INT` of `2 * h` bits is a `BitVec (2 * h)`, and signedness is that of the operation
applied to it (`BitVec.msb` for a comparison `< 0`, the unsigned order for `unsigned
HOST_WIDE_INT`). A two-word integer is its `low` and `high` piece; an array of `HOST_WIDE_INT` is a
function from its indices.

* **The pieces are half-word digits** (`val_encode`, `decode_toNat`): `encode` and `decode` are the
  passage between a two-word integer and four digits in base `2 ^ h`.
* **Addition, negation and multiplication are those modulo `2 ^ (4 * h)`**
  (`addDoubleWithSign_toNat`, `negDouble_toNat`, `mulDoubleWithSign_toNat`).
* **Signed values** are read modulo the width (`DoubleWord.toInt_eq_of_modEq`).
-/

namespace GccCore.Gcc.FoldConst

open GccCore.Lib.Digits

variable {h : ℕ}

/-! ## The code -/

/-- A `HOST_WIDE_INT`, of twice `h` bits.
Source: `hwint.h` (`HOST_WIDE_INT`) -/
abbrev Word (h : ℕ) := BitVec (2 * h)

/-- A two-word integer.
Source: `fold-const.c` ("the integer, as two `HOST_WIDE_INT` pieces") -/
@[ext]
structure DoubleWord (h : ℕ) where
  /-- The low piece, unsigned. -/
  low : Word h
  /-- The high piece. -/
  high : Word h
  deriving DecidableEq, Repr

/-- Source: `fold-const.c` (`#define BASE`). -/
def base : Word h := (1 : Word h) <<< h

/-- Source: `fold-const.c` (`#define LOWPART(x)`). -/
def lowpart (x : Word h) : Word h := x &&& ((1 : Word h) <<< h - 1)

/-- Source: `fold-const.c` (`#define HIGHPART(x)`). -/
def highpart (x : Word h) : Word h := x >>> h

/-- The four words of an integer.
Source: `fold-const.c` `encode` -/
def encode (x : DoubleWord h) : ℕ → Word h
  | 0 => lowpart x.low
  | 1 => highpart x.low
  | 2 => lowpart x.high
  | 3 => highpart x.high
  | _ => 0

/-- Source: `fold-const.c` `decode` -/
def decode (words : ℕ → Word h) : DoubleWord h :=
  ⟨words 0 + words 1 * base, words 2 + words 3 * base⟩

/-- `OVERFLOW_SUM_SIGN`: do `a` and `b` have the same sign, and `sum` another?
Source: `fold-const.c` (`#define OVERFLOW_SUM_SIGN(a, b, sum)`) -/
def overflowSumSign (a b sum : Word h) : Bool := (~~~(a ^^^ b) &&& (a ^^^ sum)).msb

/-- The sum and the overflow flag.
Source: `fold-const.c` `add_double_with_sign` -/
def addDoubleWithSign (x y : DoubleWord h) (unsignedP : Bool) : DoubleWord h × Bool :=
  let l := x.low + y.low
  let hi := x.high + y.high + if l < x.low then 1 else 0
  (⟨l, hi⟩, if unsignedP then hi < x.high else overflowSumSign x.high y.high hi)

/-- The negative and the overflow flag.
Source: `fold-const.c` `neg_double` -/
def negDouble (x : DoubleWord h) : DoubleWord h × Bool :=
  if x.low = 0 then (⟨0, -x.high⟩, (-x.high &&& x.high).msb)
  else (⟨-x.low, ~~~x.high⟩, false)

/-- The inner loop of the multiplication after `j` passes: the carry and `prod`.
Source: `fold-const.c` `mul_double_with_sign` (`for (j = 0; j < 4; j++)`) -/
def mulRow (arg1 arg2 : ℕ → Word h) (i : ℕ) (prod : ℕ → Word h) : ℕ → Word h × (ℕ → Word h)
  | 0 => (0, prod)
  | j + 1 =>
    let (carry, prod) := mulRow arg1 arg2 i prod j
    let carry := carry + arg1 i * arg2 j
    let carry := carry + prod (i + j)
    (highpart carry, Function.update prod (i + j) (lowpart carry))

/-- The outer loop of the multiplication after `i` passes.
Source: `fold-const.c` `mul_double_with_sign` (`for (i = 0; i < 4; i++)`) -/
def mulRows (arg1 arg2 : ℕ → Word h) : ℕ → ℕ → Word h
  | 0 => fun _ => 0
  | i + 1 =>
    let (carry, prod) := mulRow arg1 arg2 i (mulRows arg1 arg2 i) 4
    Function.update prod (i + 4) carry

/-- The product and the overflow flag.
Source: `fold-const.c` `mul_double_with_sign` -/
def mulDoubleWithSign (x y : DoubleWord h) (unsignedP : Bool) : DoubleWord h × Bool :=
  let prod := mulRows (encode x) (encode y) 4
  let v := decode prod
  let top := decode fun k => prod (k + 4)
  if unsignedP then (v, (top.low ||| top.high) != 0)
  else
    -- the signed representation of the top half agrees with the low half's sign bit
    let top := if x.high.msb then (addDoubleWithSign (negDouble y).1 top false).1 else top
    let top := if y.high.msb then (addDoubleWithSign (negDouble x).1 top false).1 else top
    (v, (if v.high.msb then ~~~(top.low &&& top.high) else top.low ||| top.high) != 0)

/-- Source: `tree.h` (`#define add_double`). -/
def addDouble (x y : DoubleWord h) : DoubleWord h × Bool := addDoubleWithSign x y false

/-- Source: `tree.h` (`#define mul_double`). -/
def mulDouble (x y : DoubleWord h) : DoubleWord h × Bool := mulDoubleWithSign x y false

/-! ## Values -/

/-- The unsigned value. -/
def DoubleWord.toNat (x : DoubleWord h) : ℕ := x.low.toNat + x.high.toNat * 2 ^ (2 * h)

/-- The signed value. -/
def DoubleWord.toInt (x : DoubleWord h) : ℤ :=
  if x.high.msb then (x.toNat : ℤ) - 2 ^ (4 * h) else x.toNat

/-- Both readings are below `2 ^ (4 * h)`. -/
theorem DoubleWord.toNat_lt (x : DoubleWord h) : x.toNat < 2 ^ (4 * h) := by
  have hlow := x.low.isLt
  have hhigh := x.high.isLt
  have hpow : 2 ^ (4 * h) = 2 ^ (2 * h) * 2 ^ (2 * h) := by rw [← pow_add]; congr 1; omega
  have : (x.high.toNat + 1) * 2 ^ (2 * h) ≤ 2 ^ (2 * h) * 2 ^ (2 * h) :=
    Nat.mul_le_mul_right _ hhigh
  rw [DoubleWord.toNat, hpow]
  linarith [add_one_mul x.high.toNat (2 ^ (2 * h))]

/-- A two-word integer is its unsigned value. -/
theorem DoubleWord.ext_toNat {x y : DoubleWord h} (heq : x.toNat = y.toNat) : x = y := by
  have hx := x.low.isLt
  have hy := y.low.isLt
  have hpos : 0 < 2 ^ (2 * h) := by positivity
  have hlow : x.low.toNat = y.low.toNat := by
    have := congrArg (· % 2 ^ (2 * h)) heq
    simpa [DoubleWord.toNat, Nat.mod_eq_of_lt hx, Nat.mod_eq_of_lt hy] using this
  have hhigh : x.high.toNat = y.high.toNat := by
    rw [DoubleWord.toNat, DoubleWord.toNat, hlow] at heq
    exact Nat.eq_of_mul_eq_mul_right hpos (by omega)
  exact DoubleWord.ext (BitVec.eq_of_toNat_eq hlow) (BitVec.eq_of_toNat_eq hhigh)

/-- The pieces' width in half words. -/
theorem two_pow_two_mul (h : ℕ) : 2 ^ (2 * h) = 2 ^ h * 2 ^ h := by rw [two_mul, pow_add]

/-- The width of a two-word integer in half words. -/
theorem two_pow_four_mul (h : ℕ) : 2 ^ (4 * h) = (2 ^ h) ^ 4 := by rw [mul_comm, pow_mul]

section Half

variable (hh : 0 < h)

include hh

/-- One is one. -/
theorem one_toNat : (1 : Word h).toNat = 1 :=
  BitVec.toNat_one (by omega)

/-- `BASE` is `2 ^ h`. -/
theorem base_toNat : (base : Word h).toNat = 2 ^ h := by
  have hlt : 2 ^ h < 2 ^ (2 * h) := Nat.pow_lt_pow_right (by norm_num) (by omega)
  rw [base, BitVec.toNat_shiftLeft, one_toNat hh, Nat.shiftLeft_eq, one_mul, Nat.mod_eq_of_lt hlt]

/-- `LOWPART` is the low digit. -/
theorem lowpart_toNat (x : Word h) : (lowpart x).toNat = x.toNat % 2 ^ h := by
  have hlt : 2 ^ h < 2 ^ (2 * h) := Nat.pow_lt_pow_right (by norm_num) (by omega)
  have hpos : 0 < 2 ^ h := by positivity
  have hmask : ((1 : Word h) <<< h - 1).toNat = 2 ^ h - 1 := by
    have hb : ((1 : Word h) <<< h).toNat = 2 ^ h := base_toNat hh
    rw [BitVec.toNat_sub, hb, one_toNat hh,
      show 2 ^ (2 * h) - 1 + 2 ^ h = 2 ^ h - 1 + 2 ^ (2 * h) by omega, Nat.add_mod_right]
    exact Nat.mod_eq_of_lt (by omega)
  rw [lowpart, BitVec.toNat_and, hmask, Nat.and_two_pow_sub_one_eq_mod]

omit hh in
/-- `HIGHPART` is the high digit. -/
theorem highpart_toNat (x : Word h) : (highpart x).toNat = x.toNat / 2 ^ h := by
  rw [highpart, BitVec.toNat_ushiftRight, Nat.shiftRight_eq_div_pow]

/-- Low digits are digits. -/
theorem lowpart_lt (x : Word h) : (lowpart x).toNat < 2 ^ h := by
  rw [lowpart_toNat hh]
  exact Nat.mod_lt _ (by positivity)

omit hh in
/-- High digits are digits. -/
theorem highpart_lt (x : Word h) : (highpart x).toNat < 2 ^ h := by
  rw [highpart_toNat, Nat.div_lt_iff_lt_mul (by positivity), ← two_pow_two_mul]
  exact x.isLt

/-- The two digits of a word. -/
theorem lowpart_add_highpart (x : Word h) :
    (lowpart x).toNat + (highpart x).toNat * 2 ^ h = x.toNat := by
  rw [lowpart_toNat hh, highpart_toNat]
  exact Nat.mod_add_div' _ _

end Half

/-! ## Half-word digits -/

/-- The digits of an array of words. -/
def digit (words : ℕ → Word h) (t : ℕ) : ℕ := (words t).toNat

/-- Storing a word changes its own digit only. -/
theorem digit_update (words : ℕ → Word h) (k : ℕ) (x : Word h) :
    digit (Function.update words k x) = Function.update (digit words) k x.toNat := by
  funext t
  unfold digit
  rcases eq_or_ne t k with rfl | hne
  · simp
  · simp [Function.update_of_ne hne]

/-- Storing above the digits read changes nothing. -/
theorem val_update_of_le {B n k x : ℕ} (f : ℕ → ℕ) (hk : n ≤ k) :
    val B (Function.update f k x) n = val B f n :=
  val_congr fun t ht => Function.update_of_ne (by omega) _ _

section Digits

variable (hh : 0 < h)

include hh

/-- The words of an integer are digits. Source: `fold-const.c` `encode`. Kind: L -/
theorem digit_encode_lt (x : DoubleWord h) (t : ℕ) : digit (encode x) t < 2 ^ h := by
  rcases t with _ | _ | _ | _ | t
  · exact lowpart_lt hh _
  · exact highpart_lt _
  · exact lowpart_lt hh _
  · exact highpart_lt _
  · simp [digit, encode]

/-- `encode` writes the integer in base `2 ^ h`. Source: `fold-const.c` `encode`. Kind: L -/
theorem val_encode (x : DoubleWord h) : val (2 ^ h) (digit (encode x)) 4 = x.toNat := by
  have hlow := lowpart_add_highpart hh x.low
  have hhigh := lowpart_add_highpart hh x.high
  simp only [val, digit, encode, DoubleWord.toNat, ← hlow, ← hhigh, two_pow_two_mul]
  ring

/-- `decode` reads four digits. Source: `fold-const.c` `decode`. Kind: L -/
theorem decode_toNat (words : ℕ → Word h) (hd : ∀ t < 4, digit words t < 2 ^ h) :
    (decode words).toNat = val (2 ^ h) (digit words) 4 := by
  have hpair : ∀ t < 3, (words t + words (t + 1) * base).toNat =
      digit words t + digit words (t + 1) * 2 ^ h := by
    intro t ht
    have h1 := hd t (by omega)
    have h2 : (digit words (t + 1) + 1) * 2 ^ h ≤ 2 ^ h * 2 ^ h :=
      Nat.mul_le_mul_right _ (hd (t + 1) (by omega))
    rw [BitVec.toNat_add, BitVec.toNat_mul, base_toNat hh, Nat.add_mod_mod]
    refine Nat.mod_eq_of_lt ?_
    rw [two_pow_two_mul]
    unfold digit at *
    linarith [add_one_mul (words (t + 1)).toNat (2 ^ h)]
  rw [DoubleWord.toNat, decode, hpair 0 (by omega), hpair 2 (by omega)]
  simp only [val, two_pow_two_mul]
  ring

/-! ## Addition and negation -/

omit hh in
/-- A sum below its first operand has wrapped. Source: `fold-const.c` `add_double_with_sign` (`l < l1`). Kind: L -/
theorem add_lt_left_iff (a b : Word h) : a + b < a ↔ 2 ^ (2 * h) ≤ a.toNat + b.toNat := by
  have ha := a.isLt
  have hb := b.isLt
  rw [BitVec.lt_def, BitVec.toNat_add]
  constructor
  · intro hlt
    by_contra hle
    rw [Nat.mod_eq_of_lt (not_le.mp hle)] at hlt
    omega
  · intro hle
    rw [Nat.mod_eq_sub_mod hle, Nat.mod_eq_of_lt (by omega)]
    omega

/-- The sum, modulo the width. Source: `fold-const.c` `add_double_with_sign`. Kind: L -/
theorem addDoubleWithSign_toNat (x y : DoubleWord h) (u : Bool) :
    (addDoubleWithSign x y u).1.toNat = (x.toNat + y.toNat) % 2 ^ (4 * h) := by
  have hxl := x.low.isLt
  have hyl := y.low.isLt
  have hW : 0 < 2 ^ (2 * h) := by positivity
  have hpow : 2 ^ (4 * h) = 2 ^ (2 * h) * 2 ^ (2 * h) := by rw [← pow_add]; congr 1; omega
  have hone := one_toNat hh
  -- the carry out of the low words is what the comparison finds
  have hcarry : x.low.toNat + y.low.toNat = (x.low + y.low).toNat +
      (if x.low + y.low < x.low then 1 else 0 : Word h).toNat * 2 ^ (2 * h) := by
    have hlt := add_lt_left_iff x.low y.low
    rw [BitVec.toNat_add]
    by_cases hle : 2 ^ (2 * h) ≤ x.low.toNat + y.low.toNat
    · rw [if_pos (hlt.mpr hle), hone, Nat.mod_eq_sub_mod hle, Nat.mod_eq_of_lt (by omega)]
      omega
    · rw [if_neg (fun hc => hle (hlt.mp hc)), Nat.mod_eq_of_lt (not_le.mp hle)]
      simp
  simp only [addDoubleWithSign, DoubleWord.toNat]
  generalize (if x.low + y.low < x.low then 1 else 0 : Word h) = c at hcarry ⊢
  rw [BitVec.toNat_add (x.high + y.high), BitVec.toNat_add x.high, Nat.mod_add_mod]
  have hl := (x.low + y.low).isLt
  generalize (x.low + y.low).toNat = l at hcarry hl ⊢
  have hsum : x.low.toNat + x.high.toNat * 2 ^ (2 * h) +
      (y.low.toNat + y.high.toNat * 2 ^ (2 * h)) =
        l + (x.high.toNat + y.high.toNat + c.toNat) * 2 ^ (2 * h) := by
    linear_combination hcarry
  rw [hpow, hsum]
  rw [Nat.mod_mul, Nat.add_mul_mod_self_right, Nat.mod_eq_of_lt hl, Nat.add_mul_div_right _ _ hW,
    Nat.div_eq_of_lt hl, zero_add, mul_comm]

omit hh in
/-- The negative, modulo the width. Source: `fold-const.c` `neg_double`. Kind: L -/
theorem negDouble_toNat (x : DoubleWord h) :
    (negDouble x).1.toNat = (2 ^ (4 * h) - x.toNat) % 2 ^ (4 * h) := by
  have hxl := x.low.isLt
  have hxh := x.high.isLt
  have hW : 0 < 2 ^ (2 * h) := by positivity
  have hlt := x.toNat_lt
  have hpow : 2 ^ (4 * h) = 2 ^ (2 * h) * 2 ^ (2 * h) := by rw [← pow_add]; congr 1; omega
  unfold negDouble
  split_ifs with hl
  · have hl0 : x.low.toNat = 0 := by rw [hl]; simp
    have hz : (0 : Word h).toNat = 0 := BitVec.toNat_zero
    simp only [DoubleWord.toNat, hl0, hpow, BitVec.toNat_neg, hz, zero_add]
    rw [← Nat.sub_mul, Nat.mul_mod_mul_right]
  · have hl0 : 0 < x.low.toNat := Nat.pos_of_ne_zero fun h0 => hl (BitVec.eq_of_toNat_eq (by simpa))
    have hprod : (x.high.toNat + 1) * 2 ^ (2 * h) ≤ 2 ^ (2 * h) * 2 ^ (2 * h) :=
      Nat.mul_le_mul_right _ hxh
    simp only [DoubleWord.toNat, hpow, BitVec.toNat_neg, BitVec.toNat_not] at hlt ⊢
    rw [Nat.mod_eq_of_lt (by omega : 2 ^ (2 * h) - x.low.toNat < 2 ^ (2 * h)),
      Nat.mod_eq_of_lt (by omega), Nat.sub_mul, Nat.sub_mul, one_mul]
    rw [add_mul, one_mul] at hprod
    omega

/-! ## Multiplication -/

/-- **The inner loop**: it adds `arg1[i] * arg2` to `prod` at digit `i`, the digits below and above
staying as they are.
Source: `fold-const.c` `mul_double_with_sign`
Kind: L -/
theorem mulRow_spec {arg1 arg2 prod : ℕ → Word h} (h1 : ∀ t, digit arg1 t < 2 ^ h)
    (h2 : ∀ t, digit arg2 t < 2 ^ h) (hp : ∀ t, digit prod t < 2 ^ h) (i j : ℕ) :
    let (carry, prod') := mulRow arg1 arg2 i prod j
    carry.toNat < 2 ^ h ∧ (∀ t, digit prod' t < 2 ^ h) ∧
      (∀ t, t < i ∨ i + j ≤ t → prod' t = prod t) ∧
      val (2 ^ h) (fun t => digit prod' (i + t)) j + carry.toNat * (2 ^ h) ^ j =
        val (2 ^ h) (fun t => digit prod (i + t)) j +
          digit arg1 i * val (2 ^ h) (digit arg2) j := by
  induction j with
  | zero => simp [mulRow, hp]
  | succ j ih =>
    rcases hrow : mulRow arg1 arg2 i prod j with ⟨carry, prod'⟩
    rw [hrow] at ih
    obtain ⟨hc, hd, hsame, hval⟩ := ih
    simp only [mulRow, hrow]
    -- the sum of a pass fits one word
    have hsum : (carry + arg1 i * arg2 j + prod' (i + j)).toNat =
        digit arg1 i * digit arg2 j + carry.toNat + digit prod' (i + j) := by
      have hlt := mul_add_lt (h1 i) (h2 j) hc (hd (i + j))
      rw [← two_pow_two_mul] at hlt
      rw [BitVec.toNat_add, BitVec.toNat_add, BitVec.toNat_mul]
      simp only [Nat.add_mod_mod, Nat.mod_add_mod]
      unfold digit at *
      rw [Nat.mod_eq_of_lt (by omega)]
      omega
    have hsplit := lowpart_add_highpart hh (carry + arg1 i * arg2 j + prod' (i + j))
    rw [hsum] at hsplit
    refine ⟨highpart_lt _, fun t => ?_, fun t ht => ?_, ?_⟩
    · rw [digit_update, Function.update_apply]
      split_ifs
      · exact lowpart_lt hh _
      · exact hd t
    · rw [Function.update_of_ne (by omega), hsame t (by omega)]
    · have hprod : digit prod' (i + j) = digit prod (i + j) := by
        unfold digit
        rw [hsame (i + j) (by omega)]
      have hbelow : val (2 ^ h) (fun t => digit (Function.update prod' (i + j)
          (lowpart (carry + arg1 i * arg2 j + prod' (i + j)))) (i + t)) j =
          val (2 ^ h) (fun t => digit prod' (i + t)) j := by
        refine val_congr fun t ht => ?_
        rw [digit_update, Function.update_of_ne (by omega)]
      rw [val_succ, hbelow, val_succ, val_succ, digit_update, Function.update_self, pow_succ']
      rw [hprod] at hsplit
      linear_combination hval + (2 ^ h) ^ j * hsplit

/-- **The outer loop**: after `i` passes `prod` holds the product with the first `i` digits of
`arg1`, in its first `i + 4` digits.
Source: `fold-const.c` `mul_double_with_sign`
Kind: L -/
theorem mulRows_spec {arg1 arg2 : ℕ → Word h} (h1 : ∀ t, digit arg1 t < 2 ^ h)
    (h2 : ∀ t, digit arg2 t < 2 ^ h) (i : ℕ) :
    (∀ t, digit (mulRows arg1 arg2 i) t < 2 ^ h) ∧
      (∀ t, i + 4 ≤ t → digit (mulRows arg1 arg2 i) t = 0) ∧
      val (2 ^ h) (digit (mulRows arg1 arg2 i)) (i + 4) =
        val (2 ^ h) (digit arg1) i * val (2 ^ h) (digit arg2) 4 := by
  induction i with
  | zero =>
    have hzero : ∀ t, digit (mulRows arg1 arg2 0) t = 0 := fun t => BitVec.toNat_zero
    refine ⟨fun t => ?_, fun t _ => hzero t, ?_⟩
    · rw [hzero]
      positivity
    · rw [val_eq_zero fun t _ => hzero t]
      simp
  | succ i ih =>
    obtain ⟨hd, htop, hval⟩ := ih
    have hrow := mulRow_spec hh h1 h2 hd i 4
    rcases hr : mulRow arg1 arg2 i (mulRows arg1 arg2 i) 4 with ⟨carry, prod'⟩
    rw [hr] at hrow
    obtain ⟨hc, hd', hsame, hval'⟩ := hrow
    have hnew : mulRows arg1 arg2 (i + 1) = Function.update prod' (i + 4) carry := by
      rw [mulRows, hr]
    rw [hnew, digit_update]
    refine ⟨fun t => ?_, fun t ht => ?_, ?_⟩
    · rw [Function.update_apply]
      split_ifs
      · exact hc
      · exact hd' t
    · rw [Function.update_of_ne (by omega)]
      unfold digit
      rw [hsame t (by omega)]
      exact htop t (by omega)
    · have hlow : val (2 ^ h) (digit prod') i = val (2 ^ h) (digit (mulRows arg1 arg2 i)) i :=
        val_congr fun t ht => by
          unfold digit
          rw [hsame t (by omega)]
      rw [show i + 1 + 4 = i + 4 + 1 by omega, val_succ, Function.update_self,
        val_update_of_le _ le_rfl, val_add, hlow, val_succ (a := digit arg1)]
      rw [val_add] at hval
      rw [pow_add]
      linear_combination hval + (2 ^ h) ^ i * hval'

/-- The product, modulo the width. Source: `fold-const.c` `mul_double_with_sign`. Kind: L -/
theorem mulDoubleWithSign_toNat (x y : DoubleWord h) (u : Bool) :
    (mulDoubleWithSign x y u).1.toNat = x.toNat * y.toNat % 2 ^ (4 * h) := by
  obtain ⟨hd, -, hval⟩ := mulRows_spec hh (digit_encode_lt hh x) (digit_encode_lt hh y) 4
  rw [val_encode hh, val_encode hh, val_add] at hval
  have hres : (mulDoubleWithSign x y u).1 = decode (mulRows (encode x) (encode y) 4) := by
    unfold mulDoubleWithSign
    split_ifs <;> rfl
  rw [hres, decode_toNat hh _ fun t _ => hd t, ← hval, two_pow_four_mul, Nat.add_mul_mod_self_right,
    Nat.mod_eq_of_lt (val_lt fun t _ => hd t)]

end Digits

/-! ## Integer readings -/

/-- The value with the signedness `uns` asks for.
Source: `fold-const.c` ("UNS nonzero says do unsigned division") -/
def DoubleWord.value (uns : Bool) (x : DoubleWord h) : ℤ := if uns then x.toNat else x.toInt

/-- Both readings are the pieces modulo the width. -/
theorem DoubleWord.value_modEq (uns : Bool) (x : DoubleWord h) :
    (x.toNat : ℤ) ≡ x.value uns [ZMOD 2 ^ (4 * h)] := by
  unfold DoubleWord.value DoubleWord.toInt
  split_ifs
  · rfl
  · exact (Int.modEq_iff_dvd.mpr ⟨-1, by ring⟩)
  · rfl

/-- The sum, as integers. -/
theorem addDoubleWithSign_modEq (hh : 0 < h) (x y : DoubleWord h) (u : Bool) :
    ((addDoubleWithSign x y u).1.toNat : ℤ) ≡ x.toNat + y.toNat [ZMOD 2 ^ (4 * h)] := by
  rw [addDoubleWithSign_toNat hh]
  push_cast
  exact Int.mod_modEq _ _

/-- The product, as integers. -/
theorem mulDoubleWithSign_modEq (hh : 0 < h) (x y : DoubleWord h) (u : Bool) :
    ((mulDoubleWithSign x y u).1.toNat : ℤ) ≡ x.toNat * y.toNat [ZMOD 2 ^ (4 * h)] := by
  rw [mulDoubleWithSign_toNat hh]
  push_cast
  exact Int.mod_modEq _ _

/-- The negative, as integers. -/
theorem negDouble_modEq (x : DoubleWord h) :
    ((negDouble x).1.toNat : ℤ) ≡ -x.toNat [ZMOD 2 ^ (4 * h)] := by
  rw [negDouble_toNat]
  push_cast [Nat.cast_sub x.toNat_lt.le]
  refine (Int.mod_modEq _ _).trans (Int.modEq_iff_dvd.mpr ⟨-1, by ring⟩)

section Signs

variable (hh : 0 < h)

include hh

/-- The width is twice the number of nonnegative values. -/
theorem two_pow_width : 2 ^ (4 * h) = 2 * 2 ^ (4 * h - 1) := by
  rw [← pow_succ', show 4 * h - 1 + 1 = 4 * h by omega]

/-- The sign bit of the high piece is that of the integer. -/
theorem DoubleWord.msb_iff (x : DoubleWord h) :
    x.high.msb = true ↔ 2 ^ (4 * h - 1) ≤ x.toNat := by
  have hlow := x.low.isLt
  have hpow : 2 ^ (4 * h - 1) = 2 ^ (2 * h - 1) * 2 ^ (2 * h) := by
    rw [← pow_add]
    congr 1
    omega
  rw [BitVec.msb_eq_decide, decide_eq_true_iff, DoubleWord.toNat, hpow]
  constructor
  · intro hle
    exact le_add_of_le_right (Nat.mul_le_mul_right _ hle)
  · intro hle
    by_contra hlt
    have : (x.high.toNat + 1) * 2 ^ (2 * h) ≤ 2 ^ (2 * h - 1) * 2 ^ (2 * h) :=
      Nat.mul_le_mul_right _ (not_le.mp hlt)
    linarith [add_one_mul x.high.toNat (2 ^ (2 * h))]

omit hh in
/-- The sign bit says that the signed value is negative. -/
theorem DoubleWord.msb_iff_toInt_neg (x : DoubleWord h) :
    x.high.msb = true ↔ x.toInt < 0 := by
  have hlt : (x.toNat : ℤ) < 2 ^ (4 * h) := by exact_mod_cast x.toNat_lt
  unfold DoubleWord.toInt
  split_ifs with hmsb
  · exact ⟨fun _ => by omega, fun _ => hmsb⟩
  · exact ⟨fun hc => absurd hc hmsb, fun hneg => by omega⟩

/-- The range of the signed values. -/
theorem DoubleWord.toInt_bounds (x : DoubleWord h) :
    -2 ^ (4 * h - 1) ≤ x.toInt ∧ x.toInt < 2 ^ (4 * h - 1) := by
  have hlt : (x.toNat : ℤ) < 2 ^ (4 * h) := by exact_mod_cast x.toNat_lt
  have hwidth : (2 : ℤ) ^ (4 * h) = 2 * 2 ^ (4 * h - 1) := by exact_mod_cast two_pow_width hh
  have hmsb := x.msb_iff hh
  unfold DoubleWord.toInt
  split_ifs with hm
  · have : (2 : ℤ) ^ (4 * h - 1) ≤ x.toNat := by exact_mod_cast hmsb.mp hm
    omega
  · have : (x.toNat : ℤ) < 2 ^ (4 * h - 1) := by
      have := not_le.mp fun hle => hm (hmsb.mpr hle)
      exact_mod_cast this
    omega

/-- A signed value is determined modulo the width. -/
theorem DoubleWord.toInt_eq_of_modEq (x : DoubleWord h) {z : ℤ}
    (hz : (x.toNat : ℤ) ≡ z [ZMOD 2 ^ (4 * h)]) (hlo : -2 ^ (4 * h - 1) ≤ z)
    (hhi : z < 2 ^ (4 * h - 1)) : x.toInt = z := by
  have hwidth : (2 : ℤ) ^ (4 * h) = 2 * 2 ^ (4 * h - 1) := by exact_mod_cast two_pow_width hh
  obtain ⟨h1, h2⟩ := x.toInt_bounds hh
  have hmod : z ≡ x.toInt [ZMOD 2 ^ (4 * h)] := hz.symm.trans (x.value_modEq false)
  obtain ⟨k, hk⟩ := Int.modEq_iff_dvd.mp hmod
  have hpos : (0 : ℤ) < 2 ^ (4 * h) := by positivity
  have hk0 : k = 0 := by
    have h3 : 2 ^ (4 * h) * k < 2 ^ (4 * h) * 1 := by rw [← hk]; omega
    have h4 : 2 ^ (4 * h) * (-1) < 2 ^ (4 * h) * k := by rw [← hk]; omega
    have := lt_of_mul_lt_mul_left h3 hpos.le
    have := lt_of_mul_lt_mul_left h4 hpos.le
    omega
  rw [hk0, mul_zero] at hk
  omega

/-- The conversion to an absolute value. Source: `fold-const.c` `div_and_round_double`. Kind: L -/
theorem absDouble_toNat (x : DoubleWord h) (uns : Bool) :
    (if !uns && x.high.msb then (negDouble x).1 else x).toNat = (x.value uns).natAbs := by
  have hlt := x.toNat_lt
  unfold DoubleWord.value DoubleWord.toInt
  cases uns with
  | true => simp
  | false =>
    simp only [Bool.not_false, Bool.true_and, Bool.false_eq_true, if_false]
    split_ifs with hmsb
    · have hpos : 0 < x.toNat := lt_of_lt_of_le (by positivity) ((x.msb_iff hh).mp hmsb)
      rw [negDouble_toNat, Nat.mod_eq_of_lt (by omega)]
      have hcast : ((2 ^ (4 * h) : ℕ) : ℤ) = 2 ^ (4 * h) := by push_cast; rfl
      omega
    · simp

end Signs

end GccCore.Gcc.FoldConst
