import GccCore.Gcc.FoldConst.Fit

/-!
# `gcc/fold-const.c`: operations on two constants

* **Sums, differences and products** (`intConstBinop_exact`) of a signed type: the value is the exact one, reduced to the type, and
  it is marked exactly if the type does not have the exact one.
* **The short cut for divisions** (`divShortcut_eq_iff`) agrees with the division of two-word integers, but for remainders of
  divisions that round up.
-/

namespace GccCore.Gcc.FoldConst

open GccCore.Lib.MachineInt

variable {h : ℕ}

/-! ## The code -/

/-- The operations. Source: `fold-const.c` `int_const_binop`. -/
inductive BinopCode
  | BIT_IOR_EXPR
  | BIT_XOR_EXPR
  | BIT_AND_EXPR
  | RSHIFT_EXPR
  | LSHIFT_EXPR
  | RROTATE_EXPR
  | LROTATE_EXPR
  | PLUS_EXPR
  | MINUS_EXPR
  | MULT_EXPR
  | div (code : DivCode)
  | MIN_EXPR
  | MAX_EXPR
  deriving DecidableEq

/-- Whether the remainder is wanted. Source: `fold-const.c` `int_const_binop` (`case TRUNC_MOD_EXPR:`). -/
def DivCode.isMod : DivCode → Bool
  | .TRUNC_MOD_EXPR | .FLOOR_MOD_EXPR | .CEIL_MOD_EXPR | .ROUND_MOD_EXPR => true
  | _ => false

/-- "This is a shortcut for a common special case." Source: `fold-const.c` `int_const_binop`. -/
def shortcutGuard (arg1 arg2 : IntCst h) : Bool :=
  decide (arg2.val.high = 0) && decide (0 < arg2.val.low.toInt) && !arg1.overflow && !arg2.overflow &&
    decide (arg1.val.high = 0) && decide (0 ≤ arg1.val.low.toInt)

/-- The short cut, for operands of one piece. Source: `fold-const.c` `int_const_binop`. -/
def divShortcut (code : DivCode) (int1 int2 : DoubleWord h) : DoubleWord h :=
  let int1l :=
    if code = .CEIL_DIV_EXPR ∨ code = .CEIL_MOD_EXPR then int1.low + (int2.low - 1) else int1.low
  if code.isMod then ⟨int1l % int2.low, 0⟩ else ⟨int1l / int2.low, 0⟩

/-- Divisions and remainders; there is none by zero. Source: `fold-const.c` `int_const_binop`. -/
def divBinop (code : DivCode) (uns : Bool) (arg1 arg2 : IntCst h) : Option (DoubleWord h × Bool) :=
  if shortcutGuard arg1 arg2 && decide (code ≠ .ROUND_DIV_EXPR ∧ code ≠ .ROUND_MOD_EXPR) then
    some (divShortcut code arg1.val arg2.val, false)
  else if arg2.val.high = 0 ∧ arg2.val.low = 0 then none
  else if !code.isMod && decide (arg2.val.high = 0 ∧ arg2.val.low = 1) then some (arg1.val, false)
  else if !code.isMod && decide (arg1.val.low = arg2.val.low ∧ arg1.val.high = arg2.val.high ∧
      ¬ (arg1.val.low = 0 ∧ arg1.val.high = 0)) then some (⟨1, 0⟩, false)
  else
    let (quo, rem, overflow) := divAndRoundDouble code uns arg1.val arg2.val
    some (if code.isMod then rem else quo, overflow)

/-- Whether the first operand is the smaller one. Source: `fold-const.c` `int_const_binop` (`case MIN_EXPR:`). -/
def isLess (uns : Bool) (int1 int2 : DoubleWord h) : Bool :=
  if uns then int1.high.ult int2.high || decide (int1.high = int2.high) && int1.low.ult int2.low
  else int1.high.slt int2.high || decide (int1.high = int2.high) && int1.low.ult int2.low

/-- The result in two words, and the overflow of the operation. Source: `fold-const.c` `int_const_binop`. -/
def binopDouble (truncated : Bool) (code : BinopCode) (t : CstType h) (arg1 arg2 : IntCst h) : Option (DoubleWord h × Bool) :=
  let int1 := arg1.val
  let int2 := arg2.val
  match code with
  | .BIT_IOR_EXPR => some (⟨int1.low ||| int2.low, int1.high ||| int2.high⟩, false)
  | .BIT_XOR_EXPR => some (⟨int1.low ^^^ int2.low, int1.high ^^^ int2.high⟩, false)
  | .BIT_AND_EXPR => some (⟨int1.low &&& int2.low, int1.high &&& int2.high⟩, false)
  | .RSHIFT_EXPR => some (lshiftDouble truncated int1 (-int2.low).toInt t.prec (!t.unsigned), false)
  | .LSHIFT_EXPR => some (lshiftDouble truncated int1 int2.low.toInt t.prec (!t.unsigned), false)
  | .RROTATE_EXPR => some (lrotateDouble truncated int1 (-int2.low).toInt t.prec, false)
  | .LROTATE_EXPR => some (lrotateDouble truncated int1 int2.low.toInt t.prec, false)
  | .PLUS_EXPR => some (addDouble int1 int2)
  | .MINUS_EXPR =>
    let v := (addDouble int1 (negDouble int2).1).1
    some (v, overflowSumSign v.high int2.high int1.high)
  | .MULT_EXPR => some (mulDouble int1 int2)
  | .div code => divBinop code t.unsigned arg1 arg2
  | .MIN_EXPR => some (if isLess t.unsigned int1 int2 then int1 else int2, false)
  | .MAX_EXPR => some (if isLess t.unsigned int1 int2 then int2 else int1, false)

/-- The constant for the result, truncated to the type unless `notrunc`. Source: `fold-const.c` `int_const_binop`. -/
def intConstBinop (truncated : Bool) (code : BinopCode) (t : CstType h) (arg1 arg2 : IntCst h) (notrunc : Bool) :
    Option (IntCst h) :=
  (binopDouble truncated code t arg1 arg2).map fun (v, overflow) =>
    let overflow := t.signExtended && overflow || arg1.overflow || arg2.overflow
    if notrunc then ⟨v, overflow⟩ else forceFitTypeDouble t v 1 overflow

/-! ## Sums, differences and products -/

/-- The operations that are exact modulo the width. Source: `fold-const.c` `int_const_binop`. -/
inductive RingCode
  | PLUS_EXPR
  | MINUS_EXPR
  | MULT_EXPR

/-- Source: `fold-const.c` `int_const_binop`. -/
def RingCode.binopCode : RingCode → BinopCode
  | .PLUS_EXPR => .PLUS_EXPR
  | .MINUS_EXPR => .MINUS_EXPR
  | .MULT_EXPR => .MULT_EXPR

/-- The exact result. Source: `tree.def` `PLUS_EXPR`, `MINUS_EXPR`, `MULT_EXPR`. -/
def RingCode.exact : RingCode → ℤ → ℤ → ℤ
  | .PLUS_EXPR, x, y => x + y
  | .MINUS_EXPR, x, y => x - y
  | .MULT_EXPR, x, y => x * y

section Exact

variable (hh : 0 < h) (x y : DoubleWord h) {z : ℤ}

/-- The result in two words is exact modulo the width, and its flag says whether two words do not have the exact one. -/
def ExactDouble (z : ℤ) (r : DoubleWord h × Bool) : Prop :=
  (r.1.toNat : ℤ) ≡ z [ZMOD 2 ^ (4 * h)] ∧ (r.2 = true ↔ ¬ inType (4 * h) false z)

include hh

theorem exactDouble_add : ExactDouble (x.toInt + y.toInt) (addDouble x y) :=
  ⟨addDoubleWithSign_value_modEq hh x y false, addDoubleWithSign_signed hh x y⟩

theorem exactDouble_mul : ExactDouble (x.toInt * y.toInt) (mulDouble x y) :=
  ⟨(mulDoubleWithSign_modEq hh x y false).trans ((x.value_modEq false).mul (y.value_modEq false)),
    mulDoubleWithSign_signed hh x y⟩

/-- **The flag of a difference**: the difference and the subtrahend would overflow when added.
Source: `fold-const.c` `int_const_binop` (`OVERFLOW_SUM_SIGN(hi, int2h, int1h)`)
Kind: L -/
theorem exactDouble_sub :
    ExactDouble (x.toInt - y.toInt) ((addDouble x (negDouble y).1).1,
      overflowSumSign (addDouble x (negDouble y).1).1.high y.high x.high) := by
  generalize hv : (addDouble x (negDouble y).1).1 = v
  have hmod : (v.toNat : ℤ) ≡ x.toInt - y.toInt [ZMOD 2 ^ (4 * h)] := by
    rw [← hv, Int.sub_eq_add_neg]
    exact (addDoubleWithSign_modEq hh x _ false).trans
      ((x.value_modEq false).add ((negDouble_modEq y).trans (y.value_modEq false).neg))
  refine ⟨hmod, ?_⟩
  have hback : (addDouble v y).1 = x := by
    apply DoubleWord.ext_toNat
    have hsum : ((addDouble v y).1.toNat : ℤ) ≡ x.toNat [ZMOD 2 ^ (4 * h)] := by
      calc ((addDouble v y).1.toNat : ℤ) ≡ v.toNat + y.toNat [ZMOD 2 ^ (4 * h)] := addDoubleWithSign_modEq hh v y false
        _ ≡ x.toInt - y.toInt + y.toInt [ZMOD 2 ^ (4 * h)] := hmod.add (y.value_modEq false)
        _ = x.toInt := Int.sub_add_cancel ..
        _ ≡ x.toNat [ZMOD 2 ^ (4 * h)] := (x.value_modEq false).symm
    have hnat : (addDouble v y).1.toNat ≡ x.toNat [MOD 2 ^ (4 * h)] := by
      apply Int.natCast_modEq_iff.mp
      push_cast
      exact hsum
    exact hnat.eq_of_lt_of_lt (DoubleWord.toNat_lt _) x.toNat_lt
  have hflag : overflowSumSign v.high y.high x.high = (addDouble v y).2 := by
    rw [← hback]
    rfl
  change overflowSumSign v.high y.high x.high = true ↔ _
  rw [hflag, (exactDouble_add hh v y).2, not_iff_not]
  have hx : inType (4 * h) false x.toInt := x.inType_value hh false
  have hvin : inType (4 * h) false v.toInt := v.inType_value hh false
  constructor
  · intro hin
    have hsum : x.toInt = v.toInt + y.toInt := by
      have hadd := DoubleWord.value_eq_of_modEq hh (exactDouble_add hh v y).1 hin
      rw [hback] at hadd
      exact hadd
    rwa [hsum, Int.add_sub_cancel]
  · intro hin
    have hdiff : v.toInt = x.toInt - y.toInt := DoubleWord.value_eq_of_modEq hh hmod hin
    rwa [hdiff, Int.sub_add_cancel]

/-- An exact result in two words becomes one of the type. Source: `fold-const.c` `force_fit_type_double`. Kind: L -/
theorem forceFit_of_exact {r : DoubleWord h × Bool} (hr : ExactDouble z r) (t : CstType h) (hsign : t.signExtended = true) :
    (forceFitTypeDouble t r.1 1 r.2).val.toInt = (BitVec.ofInt t.prec z).toInt ∧
      ((forceFitTypeDouble t r.1 1 r.2).overflow = true ↔ ¬ inType t.prec false z) := by
  obtain ⟨hmod, hflag⟩ := hr
  obtain ⟨hvalue, hmark⟩ := forceFitTypeDouble_spec hh r.1 t hsign r.2
  constructor
  · have hcongr : r.1.toInt ≡ z [ZMOD 2 ^ t.prec] :=
      ((r.1.value_modEq false).symm.trans hmod).of_dvd (pow_dvd_pow 2 t.prec_le)
    rw [hvalue, ofInt_eq_of_modEq hcongr]
  · rw [hmark, hflag]
    by_cases hin : inType (4 * h) false z
    · have hexact : r.1.toInt = z := DoubleWord.value_eq_of_modEq hh hmod hin
      rw [hexact]
      exact or_iff_right (not_not.mpr hin)
    · exact iff_of_true (Or.inl hin) fun hc => hin (inType_mono t.prec_le hc)

/-- **Sums, differences and products of constants** of a signed type, at every precision up to two words and for all operands: the
result is the exact one, reduced to the type, and it is marked exactly if the type does not have the exact one.
Source: `fold-const.c` `int_const_binop`
Kind: P -/
theorem intConstBinop_exact (truncated : Bool) (code : RingCode) (t : CstType h) (hsigned : t.unsigned = false) :
    ∃ r, intConstBinop truncated code.binopCode t ⟨x, false⟩ ⟨y, false⟩ false = some r ∧
      r.val.toInt = (BitVec.ofInt t.prec (code.exact x.toInt y.toInt)).toInt ∧
      (r.overflow = true ↔ ¬ inType t.prec false (code.exact x.toInt y.toInt)) := by
  have hsign : t.signExtended = true := by
    unfold CstType.signExtended
    rw [hsigned]
    rfl
  have hdouble : ∃ r, binopDouble truncated code.binopCode t ⟨x, false⟩ ⟨y, false⟩ = some r ∧
      ExactDouble (code.exact x.toInt y.toInt) r := by
    cases code with
    | PLUS_EXPR => exact ⟨_, rfl, exactDouble_add hh x y⟩
    | MINUS_EXPR => exact ⟨_, rfl, exactDouble_sub hh x y⟩
    | MULT_EXPR => exact ⟨_, rfl, exactDouble_mul hh x y⟩
  obtain ⟨r, hr, hexact⟩ := hdouble
  refine ⟨forceFitTypeDouble t r.1 1 r.2, ?_, forceFit_of_exact hh hexact t hsign⟩
  unfold intConstBinop
  rw [hr, hsign]
  obtain ⟨v, overflow⟩ := r
  cases overflow <;> rfl

end Exact

/-- A signed type of 32 bits, in words of 64 bits. Source: none: example. -/
def int32 : CstType 32 := ⟨32, false, false, by decide, by decide⟩

/-- The greatest value plus one is the least, marked. Source: none: the theorem at one input. Kind: C -/
theorem intConstBinop_exact_wraps :
    ∃ r, intConstBinop false .PLUS_EXPR int32 ⟨⟨2147483647, 0⟩, false⟩ ⟨⟨1, 0⟩, false⟩ false = some r ∧
      r.val.toInt = -2147483648 ∧ r.overflow = true := by
  obtain ⟨r, hr, hvalue, hflag⟩ := intConstBinop_exact (by decide) (⟨2147483647, 0⟩ : DoubleWord 32) ⟨1, 0⟩ false .PLUS_EXPR
    int32 rfl
  have hx : (⟨2147483647, 0⟩ : DoubleWord 32).toInt = 2147483647 := by decide +kernel
  have hy : (⟨1, 0⟩ : DoubleWord 32).toInt = 1 := by decide +kernel
  rw [hx, hy] at hvalue hflag
  refine ⟨r, hr, hvalue.trans (by decide +kernel), hflag.mpr ?_⟩
  rintro ⟨-, hlt⟩
  exact absurd hlt (by decide)

/-! ## The short cut for divisions -/

section Shortcut

variable {code : DivCode} {arg1 arg2 : IntCst h}

/-- Nonnegative operands of one piece. Source: `fold-const.c` `int_const_binop`. Kind: L -/
theorem shortcutGuard_iff : shortcutGuard arg1 arg2 = true ↔
    (arg2.val.high = 0 ∧ 0 < arg2.val.low.toInt ∧ arg2.overflow = false) ∧
      arg1.val.high = 0 ∧ 0 ≤ arg1.val.low.toInt ∧ arg1.overflow = false := by
  unfold shortcutGuard
  simp only [Bool.and_eq_true, decide_eq_true_iff, Bool.not_eq_true']
  constructor
  · rintro ⟨⟨⟨⟨⟨h1, h2⟩, h3⟩, h4⟩, h5⟩, h6⟩
    exact ⟨⟨h1, h2, h4⟩, h5, h6, h3⟩
  · rintro ⟨⟨h1, h2, h4⟩, h5, h6, h3⟩
    exact ⟨⟨⟨⟨⟨h1, h2⟩, h3⟩, h4⟩, h5⟩, h6⟩

/-- The value of one piece. -/
theorem value_onePiece {x : DoubleWord h} (hhigh : x.high = 0) (u : Bool) : x.value u = x.low.toNat := by
  have hnat : x.toNat = x.low.toNat := by
    rw [DoubleWord.toNat, hhigh]
    exact (congrArg (x.low.toNat + ·) (Nat.zero_mul _)).trans (Nat.add_zero _)
  have hmsb : x.high.msb = false := by
    rw [hhigh]
    exact BitVec.msb_zero
  unfold DoubleWord.value DoubleWord.toInt
  rw [hmsb, if_neg Bool.false_ne_true, ite_self, hnat]

/-- The quotient rounded up, of naturals. Source: `fold-const.c` `int_const_binop` (`int1l += int2l - 1`). Kind: L -/
theorem ceil_natCast (a : ℕ) {b : ℕ} (hb : 0 < b) : -(-(a : ℤ)).fdiv b = ((a + (b - 1)) / b : ℕ) := by
  have hdiv := Nat.div_add_mod (a + (b - 1)) b
  have hmod := Nat.mod_lt (a + (b - 1)) hb
  rw [Int.fdiv_eq_ediv_of_nonneg _ (Int.natCast_nonneg b), neg_eq_iff_eq_neg]
  generalize (a + (b - 1)) / b = c at *
  have hbelow : a ≤ b * c := by omega
  have habove : b * c < a + b := by omega
  have hunique : -(a : ℤ) / b = -c ∧ -(a : ℤ) % b = b * c - a := by
    refine (Int.ediv_emod_unique (by exact_mod_cast hb)).mpr ⟨by ring, ?_, ?_⟩
    · exact sub_nonneg.mpr (by exact_mod_cast hbelow)
    · exact sub_lt_iff_lt_add'.mpr (by exact_mod_cast habove)
  exact hunique.1

/-- What the codes prescribe for naturals. Source: `fold-const.c` `div_and_round_double`. Kind: L -/
theorem quotient_natCast (hcode : code ≠ .ROUND_DIV_EXPR ∧ code ≠ .ROUND_MOD_EXPR) (a : ℕ) {b : ℕ} (hb : 0 < b) :
    code.quotient a b =
      if code = .CEIL_DIV_EXPR ∨ code = .CEIL_MOD_EXPR then (((a + (b - 1)) / b : ℕ) : ℤ) else ((a / b : ℕ) : ℤ) := by
  have hfloor : (a : ℤ).fdiv b = ((a / b : ℕ) : ℤ) := by
    rw [Int.fdiv_eq_ediv_of_nonneg _ (Int.natCast_nonneg b), Int.natCast_ediv]
  cases code with
  | TRUNC_DIV_EXPR | TRUNC_MOD_EXPR | EXACT_DIV_EXPR => rfl
  | FLOOR_DIV_EXPR | FLOOR_MOD_EXPR => exact hfloor
  | CEIL_DIV_EXPR | CEIL_MOD_EXPR => exact ceil_natCast a hb
  | ROUND_DIV_EXPR => exact absurd rfl hcode.1
  | ROUND_MOD_EXPR => exact absurd rfl hcode.2

/-- A piece that is not negative. -/
theorem toNat_lt_of_nonneg (hh : 0 < h) {w : Word h} (hw : 0 ≤ w.toInt) : w.toNat < 2 ^ (2 * h - 1) := by
  have hpow : 2 ^ (2 * h) = 2 * 2 ^ (2 * h - 1) := by
    rw [← pow_succ']
    congr 1
    omega
  by_contra hge
  have hneg : w.toInt < 0 := by
    rw [BitVec.toInt_eq_toNat_cond, if_neg (by omega)]
    have hlt : (w.toNat : ℤ) < ((2 ^ (2 * h) : ℕ) : ℤ) := by exact_mod_cast w.isLt
    exact sub_neg.mpr hlt
  exact absurd hw (not_le.mpr hneg)

/-- **What the short cut computes**, in naturals: nothing overflows. Source: `fold-const.c` `int_const_binop`. Kind: L -/
theorem divShortcut_toNat (hh : 0 < h) (code : DivCode) {x y : DoubleWord h} (hx : 0 ≤ x.low.toInt) (hy : 0 < y.low.toInt) :
    let s := if code = .CEIL_DIV_EXPR ∨ code = .CEIL_MOD_EXPR then x.low.toNat + (y.low.toNat - 1) else x.low.toNat
    (divShortcut code x y).toNat = if code.isMod then s % y.low.toNat else s / y.low.toNat := by
  intro s
  have hxlt := toNat_lt_of_nonneg hh hx
  have hylt := toNat_lt_of_nonneg hh hy.le
  have hpow : 2 ^ (2 * h) = 2 * 2 ^ (2 * h - 1) := by
    rw [← pow_succ']
    congr 1
    omega
  have hypos : 0 < y.low.toNat := by
    rcases Nat.eq_zero_or_pos y.low.toNat with hzero | hpos
    · have hlow : y.low = 0 := BitVec.eq_of_toNat_eq (hzero.trans BitVec.toNat_zero.symm)
      rw [hlow] at hy
      exact absurd hy (by simp)
    · exact hpos
  have hpred : (y.low - 1).toNat = y.low.toNat - 1 := by
    rw [BitVec.toNat_sub_of_le, one_toNat hh]
    exact BitVec.le_def.mpr (by rw [one_toNat hh]; exact hypos)
  have hsum : (if code = .CEIL_DIV_EXPR ∨ code = .CEIL_MOD_EXPR then x.low + (y.low - 1) else x.low).toNat = s := by
    split_ifs with hceil
    · rw [BitVec.toNat_add, hpred, Nat.mod_eq_of_lt (by omega)]
      exact (if_pos hceil).symm
    · exact (if_neg hceil).symm
  have honePiece : ∀ w : Word h, (⟨w, 0⟩ : DoubleWord h).toNat = w.toNat := fun w => by
    rw [DoubleWord.toNat]
    exact (congrArg (w.toNat + ·) (Nat.zero_mul _)).trans (Nat.add_zero _)
  unfold divShortcut
  generalize (if code = .CEIL_DIV_EXPR ∨ code = .CEIL_MOD_EXPR then x.low + (y.low - 1) else x.low) = int1l at hsum ⊢
  dsimp only
  split_ifs with hmod
  · rw [honePiece, BitVec.toNat_umod, hsum]
  · rw [honePiece, BitVec.toNat_udiv, hsum]

/-- A remainder of a division that rounds up, and the remainder that the short cut takes for it.
Source: `fold-const.c` `int_const_binop` (`low = int1l % int2l`)
Kind: L -/
theorem ceilMod_iff (a : ℕ) {b M : ℕ} (hb : 0 < b) (hM : b < M) :
    (((a + (b - 1)) % b : ℕ) : ℤ) = ((a : ℤ) - ((a + (b - 1)) / b : ℕ) * b) % (M : ℤ) ↔ b = 1 := by
  have hmod := Nat.mod_lt (a + (b - 1)) hb
  have hdiv : (((a + (b - 1)) % b : ℕ) : ℤ) = (a : ℤ) - ((a + (b - 1)) / b : ℕ) * b + (b - 1 : ℕ) := by
    have hcast : ((b * ((a + (b - 1)) / b) + (a + (b - 1)) % b : ℕ) : ℤ) = ((a + (b - 1) : ℕ) : ℤ) :=
      congrArg _ (Nat.div_add_mod (a + (b - 1)) b)
    push_cast at hcast ⊢
    linarith
  generalize (a : ℤ) - ((a + (b - 1)) / b : ℕ) * b = r at *
  constructor
  · intro heq
    have hcongr : r + (b - 1 : ℕ) ≡ r [ZMOD M] := by
      rw [← hdiv, heq]
      exact Int.mod_modEq r M
    have hdvd : (M : ℤ) ∣ (b - 1 : ℕ) := by
      have := Int.modEq_iff_dvd.mp hcongr.symm
      rwa [add_sub_cancel_left] at this
    have hzero := Nat.eq_zero_of_dvd_of_lt (Int.natCast_dvd_natCast.mp hdvd) (by omega)
    omega
  · rintro rfl
    have hr : r = (((a + (1 - 1)) % 1 : ℕ) : ℤ) := by rw [hdiv, Nat.sub_self, Nat.cast_zero, add_zero]
    rw [hr, Nat.mod_one, Nat.cast_zero, Int.zero_emod]

/-- **The short cut agrees with the division of two-word integers** for every code, but for `CEIL_MOD_EXPR` by another divisor
than one: there it leaves a remainder of the wrong sign.
Source: `fold-const.c` `int_const_binop` ("This is a shortcut for a common special case"), `div_and_round_double`
Kind: P -/
theorem divShortcut_eq_iff (hh : 0 < h) (code : DivCode) (uns : Bool) (arg1 arg2 : IntCst h)
    (hcode : code ≠ .ROUND_DIV_EXPR ∧ code ≠ .ROUND_MOD_EXPR) (hguard : shortcutGuard arg1 arg2 = true) :
    (divShortcut code arg1.val arg2.val =
        if code.isMod then (divAndRoundDouble code uns arg1.val arg2.val).2.1
        else (divAndRoundDouble code uns arg1.val arg2.val).1) ↔
      code ≠ .CEIL_MOD_EXPR ∨ arg2.val.low = 1 := by
  obtain ⟨⟨hhigh2, hpos2, -⟩, hhigh1, hpos1, -⟩ := shortcutGuard_iff.mp hguard
  generalize arg1.val = x at *
  generalize arg2.val = y at *
  have hshort := divShortcut_toNat hh code hpos1 hpos2
  dsimp only at hshort
  have hylt := toNat_lt_of_nonneg hh hpos2.le
  have hvx := value_onePiece hhigh1 uns
  have hvy := value_onePiece hhigh2 uns
  have hwide : 2 ^ (2 * h - 1) ≤ 2 ^ (4 * h) := Nat.pow_le_pow_right (by decide) (by omega)
  have hb : 0 < y.low.toNat := by
    rw [BitVec.toInt_eq_toNat_cond] at hpos2
    split_ifs at hpos2 <;> omega
  have hone : y.low = 1 ↔ y.low.toNat = 1 :=
    ⟨fun heq => by rw [heq, one_toNat hh], fun heq => BitVec.eq_of_toNat_eq (heq.trans (one_toNat hh).symm)⟩
  have hspec := divAndRoundDouble_spec hh uns x y code hcode (by rw [hvy]; exact_mod_cast hb.ne')
  rw [hvx, hvy] at hspec
  dsimp only at hspec
  rw [quotient_natCast hcode _ hb] at hspec
  obtain ⟨hquo, hrem, -, -⟩ := hspec
  have hfixed : ∀ r : DoubleWord h, ((r.toNat : ℤ)) % 2 ^ (4 * h) = r.toNat := fun r =>
    Int.emod_eq_of_lt (Int.natCast_nonneg _) (by exact_mod_cast r.toNat_lt)
  have hsame : ∀ {r r' : DoubleWord h} {z : ℤ}, (r.toNat : ℤ) = z → ((r'.toNat : ℤ) = z % 2 ^ (4 * h)) → r = r' := by
    intro r r' z hr hr'
    apply DoubleWord.ext_toNat
    rw [← hr, hfixed] at hr'
    exact_mod_cast hr'.symm
  generalize divAndRoundDouble code uns x y = quoRem at hquo hrem ⊢
  rw [hone]
  by_cases hmod : code.isMod = true
  · rw [if_pos hmod]
    rw [if_pos hmod] at hshort
    by_cases hceil : code = .CEIL_MOD_EXPR
    · rw [if_pos (Or.inr hceil)] at hshort hrem
      rw [or_iff_right (not_not.mpr hceil), ← ceilMod_iff x.low.toNat hb (lt_of_lt_of_le hylt hwide), ← hshort]
      have hcast : ((2 ^ (4 * h) : ℕ) : ℤ) = 2 ^ (4 * h) := Nat.cast_pow ..
      rw [hcast, ← hrem]
      constructor
      · intro heq
        rw [heq]
      · intro heq
        exact DoubleWord.ext_toNat (by exact_mod_cast heq)
    · have htrunc : ¬ (code = .CEIL_DIV_EXPR ∨ code = .CEIL_MOD_EXPR) := by
        rintro (hc | hc)
        · rw [hc] at hmod
          cases hmod
        · exact hceil hc
      rw [if_neg htrunc] at hshort hrem
      refine iff_of_true (hsame ?_ hrem) (Or.inl hceil)
      rw [hshort, Int.natCast_mod, Int.emod_def, Int.natCast_ediv, Int.mul_comm]
  · have hdiv : code ≠ .CEIL_MOD_EXPR := fun hc => hmod (by rw [hc]; rfl)
    rw [if_neg hmod]
    rw [if_neg hmod] at hshort
    refine iff_of_true (hsame ?_ hquo) (Or.inl hdiv)
    rw [hshort]
    split_ifs <;> rfl

end Shortcut

/-- Source: none: the theorem at one input. Kind: C -/
theorem divShortcut_eq_seven_by_two :
    divShortcut (h := 32) .CEIL_DIV_EXPR ⟨7, 0⟩ ⟨2, 0⟩ = (divAndRoundDouble .CEIL_DIV_EXPR false ⟨7, 0⟩ ⟨2, 0⟩).1 :=
  (divShortcut_eq_iff (by decide) .CEIL_DIV_EXPR false ⟨⟨7, 0⟩, false⟩ ⟨⟨2, 0⟩, false⟩ (by decide) (by decide)).mpr
    (Or.inl (by decide))

/-- Five by three, rounded up, leaves minus one; the short cut leaves one.
Source: `fold-const.c` `int_const_binop` (`if (code == CEIL_MOD_EXPR) int1l += int2l - 1;`)
Kind: C -/
theorem divShortcut_ne_five_by_three :
    shortcutGuard (h := 32) ⟨⟨5, 0⟩, false⟩ ⟨⟨3, 0⟩, false⟩ = true ∧
      (divShortcut (h := 32) .CEIL_MOD_EXPR ⟨5, 0⟩ ⟨3, 0⟩).toInt = 1 ∧
      divShortcut (h := 32) .CEIL_MOD_EXPR ⟨5, 0⟩ ⟨3, 0⟩ ≠ (divAndRoundDouble .CEIL_MOD_EXPR false ⟨5, 0⟩ ⟨3, 0⟩).2.1 := by
  refine ⟨by decide, by decide +kernel, fun heq => ?_⟩
  have hiff := divShortcut_eq_iff (h := 32) (by decide) .CEIL_MOD_EXPR false ⟨⟨5, 0⟩, false⟩ ⟨⟨3, 0⟩, false⟩ (by decide)
    (by decide)
  rcases hiff.mp heq with hcode | hone
  · exact hcode rfl
  · exact absurd hone (by decide)

end GccCore.Gcc.FoldConst
