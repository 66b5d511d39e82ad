import GccCore.Gcc.FoldConst.IntBinop
import GccCore.Gcc.FoldConst.Nearest
import Mathlib.Data.Nat.Size

/-!
# `gcc/double-int.c`: two-word integers and integers of any size

Integers of any size are those of the library that the code calls: import, export and comparison are exact.

* **From two words** (`mpzSetDoubleInt_eq`): the value, also of the least integer.
* **To two words** (`mpzGetDoubleInt_false`): the magnitude is extended to the type before the sign is restored. What comes out is a
  value of the type exactly if the extended magnitude has an opposite there (`mpz_get_double_int_iff`).
-/

namespace GccCore.Gcc.FoldConst

open GccCore.Lib.MachineInt

variable {h : ℕ}

/-! ## The code -/

/-- The words, least significant first, as an integer. Source: `double-int.c` (`mpz_import`). -/
def mpzImport : List (Word h) → ℤ
  | [] => 0
  | w :: ws => w.toNat + 2 ^ (2 * h) * mpzImport ws

/-- The number of words that are written; zero has none. Source: `double-int.c` (`mpz_export`). -/
def mpzExportCount (h : ℕ) (val : ℤ) : ℕ := (val.natAbs.size + 2 * h - 1) / (2 * h)

/-- The words of the magnitude, least significant first, over the array that was there. Source: `double-int.c` (`mpz_export`). -/
def mpzExport (vp : ℕ → Word h) (val : ℤ) (i : ℕ) : Word h :=
  if i < mpzExportCount h val then BitVec.ofNat (2 * h) (val.natAbs / 2 ^ (2 * h * i)) else vp i

/-- Source: `double-int.c` `mpz_set_double_int`. -/
def mpzSetDoubleInt (val : DoubleWord h) (uns : Bool) : ℤ :=
  let negate := !uns && val.high.msb
  let val := if negate then doubleIntNeg val else val
  let result := mpzImport [val.low, val.high]
  if negate then -result else result

/-- The bounds of a type, as its constants are stored: the greatest value of `sizetype`, but of no other size type, is sign extended
if it is unsigned.
Source: `tree.h` `TYPE_MIN_VALUE`, `TYPE_MAX_VALUE`, `stor-layout.c` `set_sizetype` ("we need to fix TYPE_MAX_VALUE") -/
structure IntegerType (h : ℕ) extends CstType h where
  minValue : DoubleWord h
  maxValue : DoubleWord h
  maxSignExtended : Bool
  sizetype_of_maxSignExtended : maxSignExtended = true → sizetype = true ∧ unsigned = true
  minValue_eq : minValue.bits = BitVec.ofInt (4 * h) (typeMin prec unsigned)
  maxValue_eq : maxValue.bits =
    BitVec.ofInt (4 * h) (if maxSignExtended then -1 else typeMax prec unsigned)

/-- The bounds of a type that has constants for them. Source: `tree.c` `get_type_static_bounds`. -/
def getTypeStaticBounds (t : IntegerType h) : ℤ × ℤ :=
  (mpzSetDoubleInt t.minValue t.unsigned, mpzSetDoubleInt t.maxValue t.unsigned)

/-- The two lowest words of the magnitude, extended to the type.
Source: `double-int.c` `mpz_get_double_int` (`res = double_int_ext(res, ...)`) -/
def magnitude (t : IntegerType h) (val : ℤ) : DoubleWord h :=
  let vp : ℕ → Word h := mpzExport (fun _ => 0) val
  doubleIntExt ⟨vp 0, vp 1⟩ t.prec t.unsigned

/-- There is no result if the assertion fails. Source: `double-int.c` `mpz_get_double_int`. -/
def mpzGetDoubleInt (t : IntegerType h) (val : ℤ) (wrap : Bool) : Option (DoubleWord h) :=
  let (min, max) := getTypeStaticBounds t
  let val := if wrap then val else if val < min then min else if max < val then max else val
  if wrap || decide (mpzExportCount h val ≤ 2) then
    let res := magnitude t val
    some (if val < 0 then doubleIntNeg res else res)
  else none

/-! ## Words -/

section Words

variable (hh : 0 < h)

theorem mpzImport_two (x : DoubleWord h) : mpzImport [x.low, x.high] = x.toNat := by
  rw [mpzImport, mpzImport, mpzImport, mul_zero, add_zero, DoubleWord.toNat]
  push_cast
  ring

include hh

/-- **From two words**: the value. Source: `double-int.c` `mpz_set_double_int`. Kind: L -/
theorem mpzSetDoubleInt_eq (x : DoubleWord h) (uns : Bool) : mpzSetDoubleInt x uns = x.value uns := by
  unfold mpzSetDoubleInt DoubleWord.value
  cases uns with
  | true => exact mpzImport_two x
  | false =>
    have habs := absSigned_toNat hh x
    rw [Bool.not_false, Bool.true_and, if_neg Bool.false_ne_true]
    dsimp only
    rw [mpzImport_two]
    change (if x.high.msb then -((if x.high.msb then (negDouble x).1 else x).toNat : ℤ) else
      ((if x.high.msb then (negDouble x).1 else x).toNat : ℤ)) = x.toInt
    rw [habs]
    split_ifs with hmsb
    · have hneg := x.msb_iff_toInt_neg.mp hmsb
      omega
    · have hnonneg : ¬ x.toInt < 0 := fun hc => hmsb (x.msb_iff_toInt_neg.mpr hc)
      omega

/-- The words that are not written are zero. Source: `double-int.c` (`vp[0] = 0; vp[1] = 0;`). Kind: L -/
theorem mpzExport_eq (val : ℤ) (i : ℕ) :
    mpzExport (fun _ => (0 : Word h)) val i = BitVec.ofNat (2 * h) (val.natAbs / 2 ^ (2 * h * i)) := by
  unfold mpzExport
  split_ifs with hwritten
  · rfl
  · have hsize : val.natAbs.size ≤ 2 * h * i := by
      unfold mpzExportCount at hwritten
      have hle : (val.natAbs.size + 2 * h - 1) / (2 * h) ≤ i := not_lt.mp hwritten
      have hlt : val.natAbs.size + 2 * h - 1 < (i + 1) * (2 * h) :=
        (Nat.div_lt_iff_lt_mul (by omega)).mp (Nat.lt_succ_of_le hle)
      have hexpand : (i + 1) * (2 * h) = 2 * h * i + 2 * h := by ring
      omega
    rw [Nat.div_eq_of_lt (Nat.size_le.mp hsize)]
    rfl

/-- **The two lowest words** of a magnitude. Source: `double-int.c` `mpz_get_double_int` (`res.low = vp[0]`). Kind: L -/
theorem exported_toNat (val : ℤ) :
    (⟨mpzExport (fun _ => 0) val 0, mpzExport (fun _ => 0) val 1⟩ : DoubleWord h).toNat = val.natAbs % 2 ^ (4 * h) := by
  have hpow : 2 ^ (4 * h) = 2 ^ (2 * h) * 2 ^ (2 * h) := by
    rw [← pow_add]
    congr 1
    omega
  rw [mpzExport_eq hh, mpzExport_eq hh, DoubleWord.toNat]
  dsimp only
  rw [BitVec.toNat_ofNat, BitVec.toNat_ofNat, mul_zero, pow_zero, Nat.div_one, mul_one, hpow, Nat.mod_mul, mul_comm (2 ^ _)]

/-- A magnitude of two words. Source: `double-int.c` (`gcc_assert(wrap || count <= 2)`). Kind: L -/
theorem mpzExportCount_le_two {val : ℤ} (hval : val.natAbs < 2 ^ (4 * h)) : mpzExportCount h val ≤ 2 := by
  have hsize := Nat.size_le.mpr hval
  unfold mpzExportCount
  refine Nat.le_of_lt_succ ((Nat.div_lt_iff_lt_mul (by omega)).mpr ?_)
  omega

end Words

/-! ## Signs -/

section Signs

variable (hh : 0 < h) (t : IntegerType h) (val : ℤ)

/-- The result for an integer that is not clamped. Source: `double-int.c` `mpz_get_double_int`. -/
def wrapped (t : IntegerType h) (val : ℤ) : DoubleWord h :=
  if val < 0 then doubleIntNeg (magnitude t val) else magnitude t val

/-- The integer is not negative, or the type is as wide as two words, or the magnitude, extended to the type, has an opposite in
it.
Source: `double-int.c` `mpz_get_double_int` -/
def HasOpposite (t : IntegerType h) (val : ℤ) : Prop :=
  0 ≤ val ∨ t.prec = 4 * h ∨ if t.unsigned then 2 ^ t.prec ∣ val else val % 2 ^ t.prec ≠ 2 ^ (t.prec - 1)

section

include hh

/-- The magnitude, extended to the type. Source: `double-int.c` `mpz_get_double_int` (`double_int_ext`). Kind: L -/
theorem magnitude_value :
    (magnitude t val).value t.unsigned = valueIn t.unsigned (BitVec.ofInt t.prec val.natAbs) := by
  rw [magnitude, DoubleWord.value_eq_valueIn hh, valueIn_ext hh _ t.prec_pos t.prec_le, setWidth_bits, exported_toNat hh,
    BitVec.ofInt_natCast]
  congr 1
  apply BitVec.eq_of_toNat_eq
  rw [BitVec.toNat_ofNat, BitVec.toNat_ofNat, Nat.mod_mod_of_dvd _ (pow_dvd_pow 2 t.prec_le)]

/-- The result, modulo two words. -/
theorem wrapped_modEq (hneg : val < 0) :
    (wrapped t val).value t.unsigned ≡ -valueIn t.unsigned (BitVec.ofInt t.prec val.natAbs) [ZMOD 2 ^ (4 * h)] := by
  unfold wrapped
  rw [if_pos hneg, ← magnitude_value hh t val]
  exact ((DoubleWord.value_modEq _ _).symm.trans (negDouble_modEq _)).trans (DoubleWord.value_modEq _ _).neg

/-- **The result is right exactly if it is a value of the type.** -/
theorem wrapped_eq_iff :
    (wrapped t val).value t.unsigned = valueIn t.unsigned (BitVec.ofInt t.prec val) ↔
      inType t.prec t.unsigned ((wrapped t val).value t.unsigned) := by
  constructor
  · intro heq
    rw [heq]
    exact inType_valueIn _ _
  · intro hin
    refine eq_of_inType hin (inType_valueIn _ _) ?_ t.prec_pos
    have hright : valueIn t.unsigned (BitVec.ofInt t.prec val) ≡ val [ZMOD 2 ^ t.prec] :=
      (valueIn_modEq _ _).trans (toNat_ofInt_modEq val)
    refine Int.ModEq.trans ?_ hright.symm
    have hmag : valueIn t.unsigned (BitVec.ofInt t.prec val.natAbs) ≡ val.natAbs [ZMOD 2 ^ t.prec] :=
      (valueIn_modEq _ _).trans (toNat_ofInt_modEq _)
    by_cases hneg : val < 0
    · have habs : val = -(val.natAbs : ℤ) := by omega
      have hmod := (wrapped_modEq hh t val hneg).of_dvd (pow_dvd_pow 2 t.prec_le)
      calc (wrapped t val).value t.unsigned ≡ -valueIn t.unsigned (BitVec.ofInt t.prec val.natAbs) [ZMOD 2 ^ t.prec] := hmod
        _ ≡ -(val.natAbs : ℤ) [ZMOD 2 ^ t.prec] := hmag.neg
        _ = val := habs.symm
    · have habs : val = (val.natAbs : ℤ) := by omega
      unfold wrapped
      rw [if_neg hneg, magnitude_value hh]
      calc valueIn t.unsigned (BitVec.ofInt t.prec val.natAbs) ≡ val.natAbs [ZMOD 2 ^ t.prec] := hmag
        _ = val := habs.symm

end

/-- The opposite of a value of a type in a wider one. -/
theorem opposite_inType_iff {p q : ℕ} (hp : 0 < p) (hpq : p < q) {u : Bool} {e f : ℤ} (he : inType p u e) (hf : inType q u f)
    (hmod : f ≡ -e [ZMOD 2 ^ q]) : inType p u f ↔ if u then e = 0 else e ≠ -2 ^ (p - 1) := by
  have hpow : 2 * (2 : ℤ) ^ (p - 1) ≤ 2 ^ (q - 1) := by
    rw [← two_pow_pred hp]
    exact pow_le_pow_right₀ (by decide) (by omega)
  have hpos : (0 : ℤ) < 2 ^ (p - 1) := by positivity
  have hp2 := two_pow_pred hp
  have hq2 := two_pow_pred (by omega : 0 < q)
  have hexact : inType q u (-e) → f = -e := fun hin => eq_of_inType hf hin hmod (by omega)
  unfold inType at *
  cases u with
  | false =>
    rw [if_neg Bool.false_ne_true] at *
    rw [if_neg Bool.false_ne_true]
    have heq := hexact ⟨by omega, by omega⟩
    constructor
    · rintro ⟨-, hlt⟩ hleast
      omega
    · intro hne
      omega
  | true =>
    rw [if_pos rfl] at *
    rw [if_pos rfl]
    constructor
    · rintro ⟨hnonneg, hlt⟩
      by_contra hne
      -- the opposite wraps around at the wider type
      obtain ⟨k, hk⟩ := Int.modEq_iff_dvd.mp hmod
      have hk0 : k < 0 := by
        by_contra hge
        have : 0 ≤ (2 : ℤ) ^ q * k := mul_nonneg (by positivity) (not_lt.mp hge)
        omega
      have hle : (2 : ℤ) ^ q * k ≤ 2 ^ q * (-1) := mul_le_mul_of_nonneg_left (by omega) (by positivity)
      omega
    · intro hzero
      rw [hexact ⟨by omega, by omega⟩, hzero]
      omega

include hh

/-- **When the result is a value of the type.** Source: `double-int.c` `mpz_get_double_int`. Kind: L -/
theorem wrapped_inType_iff : inType t.prec t.unsigned ((wrapped t val).value t.unsigned) ↔ HasOpposite t val := by
  have he := inType_valueIn t.unsigned (BitVec.ofInt t.prec val.natAbs)
  have hmag : valueIn t.unsigned (BitVec.ofInt t.prec val.natAbs) ≡ val.natAbs [ZMOD 2 ^ t.prec] :=
    (valueIn_modEq _ _).trans (toNat_ofInt_modEq _)
  unfold HasOpposite
  by_cases hneg : 0 ≤ val
  · rw [wrapped, if_neg (not_lt.mpr hneg), magnitude_value hh]
    exact iff_of_true he (Or.inl hneg)
  rw [or_iff_right hneg]
  by_cases hfull : t.prec = 4 * h
  · rw [hfull]
    exact iff_of_true (DoubleWord.inType_value hh _ _) (Or.inl rfl)
  rw [or_iff_right hfull, opposite_inType_iff t.prec_pos (lt_of_le_of_ne t.prec_le hfull) he
    (DoubleWord.inType_value hh _ _) (wrapped_modEq hh t val (not_le.mp hneg))]
  have habs : val = -(val.natAbs : ℤ) := by omega
  have hvalmod : val ≡ -valueIn t.unsigned (BitVec.ofInt t.prec val.natAbs) [ZMOD 2 ^ t.prec] := by
    calc val = -(val.natAbs : ℤ) := habs
      _ ≡ _ [ZMOD 2 ^ t.prec] := hmag.symm.neg
  generalize valueIn t.unsigned (BitVec.ofInt t.prec val.natAbs) = e at he hvalmod
  have hpos : (0 : ℤ) < 2 ^ (t.prec - 1) := by positivity
  have htwo := two_pow_pred t.prec_pos
  cases hu : t.unsigned with
  | true =>
    rw [if_pos rfl, if_pos rfl]
    rw [hu] at he
    have hzero : inType t.prec true 0 := ⟨le_rfl, by positivity⟩
    constructor
    · rintro rfl
      exact Int.modEq_zero_iff_dvd.mp (hvalmod.trans (by rw [neg_zero]))
    · intro hdvd
      refine eq_of_inType he hzero ?_ t.prec_pos
      have h0 := hvalmod.symm.trans (Int.modEq_zero_iff_dvd.mpr hdvd)
      have := h0.neg
      rwa [neg_neg, neg_zero] at this
  | false =>
    rw [if_neg Bool.false_ne_true, if_neg Bool.false_ne_true, not_iff_not]
    rw [hu] at he
    have hleast : inType t.prec false (-2 ^ (t.prec - 1)) := ⟨le_rfl, by linarith⟩
    have hhalf : (2 : ℤ) ^ (t.prec - 1) % 2 ^ t.prec = 2 ^ (t.prec - 1) := Int.emod_eq_of_lt hpos.le (by linarith)
    constructor
    · rintro rfl
      rw [neg_neg] at hvalmod
      exact Eq.trans hvalmod hhalf
    · intro hval
      refine eq_of_inType he hleast ?_ t.prec_pos
      have hv : val ≡ 2 ^ (t.prec - 1) [ZMOD 2 ^ t.prec] := hval.trans hhalf.symm
      have := (hvalmod.symm.trans hv).neg
      rwa [neg_neg] at this

end Signs

/-! ## Clamping -/

section Clamping

variable (hh : 0 < h) (t : IntegerType h) (val : ℤ)

/-- The greatest integer that is not clamped: a constant that was sign extended is read without its sign.
Source: `tree.c` `get_type_static_bounds` -/
def clampMax (t : IntegerType h) : ℤ :=
  if t.maxSignExtended then typeMax (4 * h) true else typeMax t.prec t.unsigned

/-- The integer is not cut off, or is cut off at a bound that is converted to itself.
Source: `double-int.c` `mpz_get_double_int` -/
def ClampsRight (t : IntegerType h) (val : ℤ) : Prop :=
  if t.unsigned then
    t.maxSignExtended = true → val ≤ 2 ^ t.prec - 1 ∨ 2 ^ (4 * h) - 1 ≤ val ∨ val % 2 ^ t.prec = 2 ^ t.prec - 1
  else t.prec = 4 * h ∨ -2 ^ (t.prec - 1) < val

include hh

/-- **The bounds.** Source: `tree.c` `get_type_static_bounds`. Kind: L -/
theorem getTypeStaticBounds_eq : getTypeStaticBounds t = (typeMin t.prec t.unsigned, clampMax t) := by
  have hmin : inType (4 * h) t.unsigned (typeMin t.prec t.unsigned) :=
    inType_mono t.prec_le (inType_iff.mpr ⟨le_rfl, typeMin_le_typeMax⟩)
  have hmax : inType (4 * h) t.unsigned (typeMax t.prec t.unsigned) :=
    inType_mono t.prec_le (inType_iff.mpr ⟨typeMin_le_typeMax, le_rfl⟩)
  unfold getTypeStaticBounds
  rw [mpzSetDoubleInt_eq hh, mpzSetDoubleInt_eq hh, DoubleWord.value_eq_valueIn hh, DoubleWord.value_eq_valueIn hh,
    t.minValue_eq, t.maxValue_eq, valueIn_ofInt (by omega) hmin]
  refine Prod.ext rfl ?_
  dsimp only
  unfold clampMax
  split_ifs with hsize
  · have hones : -1 ≡ 2 ^ (4 * h) - 1 [ZMOD 2 ^ (4 * h)] := Int.modEq_iff_dvd.mpr ⟨1, by ring⟩
    have hpos : (0 : ℤ) < 2 ^ (4 * h) := by positivity
    rw [(t.sizetype_of_maxSignExtended hsize).2, valueIn_true_ofInt]
    exact hones.eq.trans (Int.emod_eq_of_lt (by omega) (by omega))
  · exact valueIn_ofInt (by omega) hmax

omit hh in
/-- The bounds of a type are values of two words. -/
theorem clampMax_bounds : typeMax t.prec t.unsigned ≤ clampMax t ∧ clampMax t ≤ typeMax (4 * h) t.unsigned := by
  have hmax : inType (4 * h) t.unsigned (typeMax t.prec t.unsigned) :=
    inType_mono t.prec_le (inType_iff.mpr ⟨typeMin_le_typeMax, le_rfl⟩)
  unfold clampMax
  split_ifs with hsize
  · rw [(t.sizetype_of_maxSignExtended hsize).2] at hmax ⊢
    exact ⟨(inType_iff.mp hmax).2, le_rfl⟩
  · exact ⟨le_rfl, (inType_iff.mp hmax).2⟩

/-- **What the bounds leave** is converted. Source: `double-int.c` `mpz_get_double_int` (`mpz_cmp`). Kind: L -/
theorem mpzGetDoubleInt_false :
    mpzGetDoubleInt t val false = some (wrapped t (max (typeMin t.prec t.unsigned) (min val (clampMax t)))) := by
  obtain ⟨hle, hle'⟩ := clampMax_bounds t
  have hbounds : typeMin t.prec t.unsigned ≤ clampMax t := typeMin_le_typeMax.trans hle
  have hclamp : (if val < typeMin t.prec t.unsigned then typeMin t.prec t.unsigned
      else if clampMax t < val then clampMax t else val) = max (typeMin t.prec t.unsigned) (min val (clampMax t)) := by
    split_ifs <;> omega
  have hin : inType (4 * h) t.unsigned (max (typeMin t.prec t.unsigned) (min val (clampMax t))) := by
    have hmin : inType (4 * h) t.unsigned (typeMin t.prec t.unsigned) :=
      inType_mono t.prec_le (inType_iff.mpr ⟨le_rfl, typeMin_le_typeMax⟩)
    have hmin' := (inType_iff.mp hmin).1
    exact inType_iff.mpr ⟨by omega, by omega⟩
  have habs : (max (typeMin t.prec t.unsigned) (min val (clampMax t))).natAbs < 2 ^ (4 * h) := by
    have htwo := two_pow_pred (by omega : 0 < 4 * h)
    have hpos : (0 : ℤ) < 2 ^ (4 * h - 1) := by positivity
    have hcast : ((2 ^ (4 * h) : ℕ) : ℤ) = 2 ^ (4 * h) := Nat.cast_pow ..
    unfold inType at hin
    split_ifs at hin <;> omega
  unfold mpzGetDoubleInt
  rw [getTypeStaticBounds_eq hh]
  dsimp only
  rw [if_neg Bool.false_ne_true, hclamp, Bool.false_or, if_pos (decide_eq_true (mpzExportCount_le_two hh habs))]
  rfl

/-- **When the clamped integer is converted to the bound or to itself.** Source: `double-int.c` `mpz_get_double_int`. Kind: L -/
theorem wrapped_clamped_iff :
    (wrapped t (max (typeMin t.prec t.unsigned) (min val (clampMax t)))).value t.unsigned =
        max (typeMin t.prec t.unsigned) (min val (typeMax t.prec t.unsigned)) ↔ ClampsRight t val := by
  have hpos : (0 : ℤ) < 2 ^ (t.prec - 1) := by positivity
  have htwo := two_pow_pred t.prec_pos
  have hbounds := clampMax_bounds t
  unfold ClampsRight
  cases hu : t.unsigned with
  | true =>
    rw [hu] at hbounds
    rw [if_pos rfl]
    have hmin : typeMin t.prec true = 0 := rfl
    have hmax : typeMax t.prec true = 2 ^ t.prec - 1 := rfl
    have hwrapped : (wrapped t (max 0 (min val (clampMax t)))).value true = max 0 (min val (clampMax t)) % 2 ^ t.prec := by
      have hvalue := magnitude_value hh t (max 0 (min val (clampMax t)))
      rw [hu, Int.natAbs_of_nonneg (le_max_left _ _), valueIn_true_ofInt] at hvalue
      rw [wrapped, if_neg (not_lt.mpr (le_max_left _ _)), hvalue]
    rw [hmin, hmax, hwrapped]
    have hfits : ∀ z : ℤ, 0 ≤ z → z ≤ 2 ^ t.prec - 1 → z % 2 ^ t.prec = z := fun z hz hz' =>
      Int.emod_eq_of_lt hz (by omega)
    cases hsize : t.maxSignExtended with
    | false =>
      have hclamp : clampMax t = 2 ^ t.prec - 1 := by
        rw [clampMax, hsize, if_neg Bool.false_ne_true, hu, hmax]
      rw [hclamp]
      exact iff_of_true (hfits _ (le_max_left _ _) (by omega)) fun hc => absurd hc Bool.false_ne_true
    | true =>
      have hclamp : clampMax t = 2 ^ (4 * h) - 1 := by
        rw [clampMax, hsize, if_pos rfl]
        rfl
      rw [hclamp] at hbounds ⊢
      rw [hmax] at hbounds
      rw [imp_iff_right rfl]
      by_cases hsmall : val ≤ 2 ^ t.prec - 1
      · refine iff_of_true ?_ (Or.inl hsmall)
        rw [min_eq_left hsmall, min_eq_left (hsmall.trans hbounds.1)]
        exact hfits _ (le_max_left _ _) (by omega)
      have hright : max 0 (min val (2 ^ t.prec - 1)) = 2 ^ t.prec - 1 := by omega
      rw [or_iff_right hsmall, hright]
      by_cases hlarge : 2 ^ (4 * h) - 1 ≤ val
      · refine iff_of_true ?_ (Or.inl hlarge)
        have hones : (2 : ℤ) ^ (4 * h) - 1 ≡ 2 ^ t.prec - 1 [ZMOD 2 ^ t.prec] := by
          have hdvd : (2 : ℤ) ^ (4 * h) ≡ 0 [ZMOD 2 ^ t.prec] := Int.modEq_zero_iff_dvd.mpr (pow_dvd_pow 2 t.prec_le)
          have hself : (2 : ℤ) ^ t.prec ≡ 0 [ZMOD 2 ^ t.prec] := Int.modEq_zero_iff_dvd.mpr dvd_rfl
          exact (hdvd.trans hself.symm).sub_right 1
        rw [min_eq_right hlarge, max_eq_right (by omega)]
        exact hones.eq.trans (hfits _ (by omega) le_rfl)
      · rw [or_iff_right hlarge, min_eq_left (by omega), max_eq_right (by omega)]
  | false =>
    have hclamp : clampMax t = typeMax t.prec false := by
      have hplain : ¬ t.maxSignExtended = true := fun hmax => by
        have huns := (t.sizetype_of_maxSignExtended hmax).2
        exact Bool.false_ne_true (hu.symm.trans huns)
      rw [clampMax, if_neg hplain, hu]
    rw [if_neg Bool.false_ne_true, hclamp]
    have hin : inType t.prec false (max (typeMin t.prec false) (min val (typeMax t.prec false))) :=
      inType_iff.mpr ⟨le_max_left _ _, max_le typeMin_le_typeMax (min_le_right _ _)⟩
    have hexact := wrapped_eq_iff hh t (max (typeMin t.prec false) (min val (typeMax t.prec false)))
    rw [hu, valueIn_ofInt t.prec_pos hin] at hexact
    have hopposite := wrapped_inType_iff hh t (max (typeMin t.prec false) (min val (typeMax t.prec false)))
    rw [hu] at hopposite
    rw [hexact, hopposite, HasOpposite, hu, if_neg Bool.false_ne_true]
    have hmin : typeMin t.prec false = -2 ^ (t.prec - 1) := rfl
    have hmax : typeMax t.prec false = 2 ^ (t.prec - 1) - 1 := rfl
    rw [hmin, hmax, htwo]
    by_cases hcut : val ≤ -2 ^ (t.prec - 1)
    · have hleast : max (-2 ^ (t.prec - 1)) (min val (2 ^ (t.prec - 1) - 1)) = -(2 : ℤ) ^ (t.prec - 1) := by omega
      have hhalf : -(2 : ℤ) ^ (t.prec - 1) % (2 * 2 ^ (t.prec - 1)) = 2 ^ (t.prec - 1) := by
        have hmod : -(2 : ℤ) ^ (t.prec - 1) ≡ 2 ^ (t.prec - 1) [ZMOD 2 * 2 ^ (t.prec - 1)] :=
          Int.modEq_iff_dvd.mpr ⟨1, by ring⟩
        exact hmod.eq.trans (Int.emod_eq_of_lt hpos.le (by omega))
      rw [hleast, or_iff_right (by omega), or_iff_left (not_not.mpr hhalf), or_iff_left (not_lt.mpr hcut)]
    · refine iff_of_true ?_ (Or.inr (not_le.mp hcut))
      by_cases hneg : 0 ≤ max (-2 ^ (t.prec - 1)) (min val (2 ^ (t.prec - 1) - 1))
      · exact Or.inl hneg
      · refine Or.inr (Or.inr fun hhalf => ?_)
        have hval : max (-2 ^ (t.prec - 1)) (min val (2 ^ (t.prec - 1) - 1)) = val := by omega
        have hwrap : val % (2 * 2 ^ (t.prec - 1)) = val + 2 * 2 ^ (t.prec - 1) := by
          have hmod : val ≡ val + 2 * 2 ^ (t.prec - 1) [ZMOD 2 * 2 ^ (t.prec - 1)] := Int.modEq_iff_dvd.mpr ⟨1, by ring⟩
          exact hmod.eq.trans (Int.emod_eq_of_lt (by omega) (by omega))
        rw [hval, hwrap] at hhalf
        omega

end Clamping

/-! ## Both conversions -/

theorem value_inj (hh : 0 < h) {u : Bool} {x y : DoubleWord h} (heq : x.value u = y.value u) : x = y := by
  rw [DoubleWord.value_eq_valueIn hh, DoubleWord.value_eq_valueIn hh] at heq
  exact DoubleWord.bits_inj (eq_of_valueIn (by omega) heq)

/-- A value of the type has an opposite there, unless it is the least of a narrower signed type. -/
theorem hasOpposite_iff (t : IntegerType h) {val : ℤ} (hval : inType t.prec t.unsigned val) :
    HasOpposite t val ↔ t.unsigned = true ∨ t.prec = 4 * h ∨ val ≠ -2 ^ (t.prec - 1) := by
  have htwo := two_pow_pred t.prec_pos
  have hpos : (0 : ℤ) < 2 ^ (t.prec - 1) := by positivity
  unfold HasOpposite inType at *
  cases hu : t.unsigned with
  | true =>
    rw [hu, if_pos rfl] at hval
    exact iff_of_true (Or.inl hval.1) (Or.inl rfl)
  | false =>
    rw [hu, if_neg Bool.false_ne_true] at hval
    rw [if_neg Bool.false_ne_true, htwo]
    by_cases hneg : 0 ≤ val
    · exact iff_of_true (Or.inl hneg) (Or.inr (Or.inr (by omega)))
    have hwrap : val % (2 * 2 ^ (t.prec - 1)) = val + 2 * 2 ^ (t.prec - 1) := by
      have hmod : val ≡ val + 2 * 2 ^ (t.prec - 1) [ZMOD 2 * 2 ^ (t.prec - 1)] := Int.modEq_iff_dvd.mpr ⟨1, by ring⟩
      exact hmod.eq.trans (Int.emod_eq_of_lt (by omega) (by omega))
    rw [or_iff_right hneg, or_iff_right Bool.false_ne_true, hwrap]
    exact or_congr_right (not_congr ⟨fun heq => by omega, fun heq => by omega⟩)

section Both

variable (hh : 0 < h) (t : IntegerType h) (val : ℤ) (x : DoubleWord h)

include hh

/-- **Conversions to two words.** Wrapping gives the value of the type that is congruent to the integer exactly if the integer is not
negative, the type has the width of two words, or the magnitude has an opposite in the type. Otherwise the result is the integer,
clamped to the type, exactly if that is not the least value of a narrower signed type, and a size type has not cut it off. A value
of the type is converted and converted back, unless it is the least of a narrower signed type.
Source: `double-int.c` `mpz_get_double_int`, `mpz_set_double_int`
Kind: P -/
theorem mpz_get_double_int_iff (hx : inType t.prec t.unsigned (x.value t.unsigned)) :
    ((∃ r, mpzGetDoubleInt t val true = some r ∧
        r.value t.unsigned = valueIn t.unsigned (BitVec.ofInt t.prec val)) ↔ HasOpposite t val) ∧
      ((∃ r, mpzGetDoubleInt t val false = some r ∧
        r.value t.unsigned = max (typeMin t.prec t.unsigned) (min val (typeMax t.prec t.unsigned))) ↔ ClampsRight t val) ∧
      (mpzGetDoubleInt t (mpzSetDoubleInt x t.unsigned) true = some x ↔
        t.unsigned = true ∨ t.prec = 4 * h ∨ x.value t.unsigned ≠ -2 ^ (t.prec - 1)) := by
  have hwrap : ∀ z, mpzGetDoubleInt t z true = some (wrapped t z) := fun _ => rfl
  have hsome : ∀ {r : DoubleWord h} {z : ℤ}, (∃ r', some r = some r' ∧ r'.value t.unsigned = z) ↔ r.value t.unsigned = z := by
    intro r z
    constructor
    · rintro ⟨r', hr, hz⟩
      rwa [Option.some.inj hr]
    · exact fun hz => ⟨r, rfl, hz⟩
  refine ⟨?_, ?_, ?_⟩
  · rw [hwrap, hsome, wrapped_eq_iff hh, wrapped_inType_iff hh]
  · rw [mpzGetDoubleInt_false hh, hsome, wrapped_clamped_iff hh]
  · have hsame : wrapped t (x.value t.unsigned) = x ↔ (wrapped t (x.value t.unsigned)).value t.unsigned = x.value t.unsigned :=
      ⟨fun heq => congrArg (DoubleWord.value t.unsigned) heq, value_inj hh⟩
    have hopposite := wrapped_inType_iff hh t (x.value t.unsigned)
    rw [← wrapped_eq_iff hh, valueIn_ofInt t.prec_pos hx] at hopposite
    rw [hwrap, mpzSetDoubleInt_eq hh, Option.some_inj, hsame, hopposite, hasOpposite_iff t hx]

end Both

/-- A signed type of 32 bits, in words of 64 bits. Source: none: example. -/
def integerType32 : IntegerType 32 :=
  { int32 with
    maxSignExtended := false
    minValue := ⟨-2147483648, -1⟩
    maxValue := ⟨2147483647, 0⟩
    sizetype_of_maxSignExtended := by decide
    minValue_eq := by decide
    maxValue_eq := by decide }

/-- Source: none: the theorem at one input. Kind: C -/
theorem mpz_get_double_int_five :
    (∃ r, mpzGetDoubleInt integerType32 5 true = some r ∧ r.value false = 5) ∧
      (∃ r, mpzGetDoubleInt integerType32 5 false = some r ∧ r.value false = 5) ∧
      mpzGetDoubleInt integerType32 (mpzSetDoubleInt (⟨5, 0⟩ : DoubleWord 32) false) true = some ⟨5, 0⟩ := by
  have hx : (⟨5, 0⟩ : DoubleWord 32).value false = 5 := by decide +kernel
  have hin : inType 32 false ((⟨5, 0⟩ : DoubleWord 32).value false) := by
    rw [hx]
    exact ⟨by decide, by decide⟩
  obtain ⟨hwrap, hclamp, htrip⟩ := mpz_get_double_int_iff (by decide) integerType32 5 ⟨5, 0⟩ hin
  refine ⟨?_, ?_, htrip.mpr (Or.inr (Or.inr ?_))⟩
  · obtain ⟨r, hr, hvalue⟩ := hwrap.mpr (Or.inl (by decide))
    exact ⟨r, hr, hvalue.trans (by decide +kernel)⟩
  · obtain ⟨r, hr, hvalue⟩ := hclamp.mpr (Or.inr (by decide))
    exact ⟨r, hr, hvalue.trans (by decide)⟩
  · change (⟨5, 0⟩ : DoubleWord 32).value false ≠ _
    rw [hx]
    decide

/-- The least value of a signed type of 32 bits is converted to its opposite. Source: `double-int.c` `mpz_get_double_int`. Kind: C -/
theorem mpz_get_double_int_least :
    ¬ ∃ r, mpzGetDoubleInt integerType32 (-2147483648) true = some r ∧
      r.value false = valueIn false (BitVec.ofInt 32 (-2147483648)) := by
  rintro ⟨r, hr, hvalue⟩
  rw [← Option.some.inj hr] at hvalue
  have hopposite := (wrapped_inType_iff (by decide) _ _).mp ((wrapped_eq_iff (by decide) integerType32 (-2147483648)).mp hvalue)
  rcases hopposite with hnonneg | hfull | hother
  · exact absurd hnonneg (by decide)
  · exact absurd hfull (by decide)
  · exact hother (by decide)

end GccCore.Gcc.FoldConst
