import GccCore.Gcc.Chrec.Binomial
import GccCore.Gcc.Chrec.Multiply

/-!
# `gcc/tree-chrec.c`: the value of a chain of recurrences at a constant

A chain of recurrences of the first degree is applied as it is; one of a higher degree by Newton's formula, with the binomial
coefficients of the constant.

* **Evaluation** (`chrecEvaluate_univariate`): when it is known, it is Newton's formula, for a constant whose two words are its value.
* **Coefficients** (`rightCoefficients_iff`) are those of the constant exactly if its two words are its value and the type has the
  coefficients.
* **Sums, differences and applications** (`chrecApply_iff`).
-/

namespace GccCore.Gcc.TreeChrec

open GccCore.Gcc.FoldConst GccCore.Lib.MachineInt GccCore.Lib.Recurrence

variable {h : ℕ}

/-! ## The code -/

section Code

variable {p : ℕ}

/-- Constants evolve in no loop. Source: `tree-chrec.c` `evolution_function_is_invariant_rec_p`. -/
def evolutionFunctionIsInvariantP (loopnum : ℕ) : Chrec p → Bool
  | .cst _ => true
  | .poly var left right =>
    decide (var ≠ loopnum) && evolutionFunctionIsInvariantP loopnum right && evolutionFunctionIsInvariantP loopnum left

/-- Source: `tree-chrec.h` `evolution_function_is_affine_p`. -/
def evolutionFunctionIsAffineP : Chrec p → Bool
  | .cst _ => false
  | .poly var left right => evolutionFunctionIsInvariantP var left && evolutionFunctionIsInvariantP var right

variable (type : CstType h) (maxExprSize : ℕ) (multExpr : Chrec type.prec → BitVec type.prec → Option (Chrec type.prec)) (var : ℕ)
  (n : DoubleWord h)

/-- A product with a coefficient; it is folded for constants. Source: `tree-chrec.c` `chrec_evaluate` (`fold_build2`). -/
def foldMult : Chrec type.prec → BitVec type.prec → Option (Chrec type.prec)
  | .cst c, b => some (.cst (c * b))
  | .poly v left right, b => multExpr (.poly v left right) b

/-- The coefficient, in the type. Source: `tree-chrec.c` `chrec_evaluate` (`binomial_n_k`). -/
def binomialCoefficient (k : ℕ) : Option (BitVec type.prec) :=
  (treeFoldBinomial type n k).map fun b => BitVec.ofNat type.prec b.toNat

/-- Newton's formula; the evolution in inner loops is left out. Source: `tree-chrec.c` `chrec_evaluate`. -/
def chrecEvaluate : Chrec type.prec → ℕ → Option (Chrec type.prec)
  | .cst c, k => (binomialCoefficient type n k).bind (foldMult type multExpr (.cst c))
  | .poly v left right, k =>
    if flowLoopNestedP var v then chrecEvaluate left k
    else if v = var then
      (chrecEvaluate right (k + 1)).bind fun arg1 => (binomialCoefficient type n k).bind fun b =>
        chrecFoldPlus maxExprSize (foldMult type multExpr left b) (some arg1)
    else (binomialCoefficient type n k).bind (foldMult type multExpr (.poly v left right))

/-- The value at the constant `n` of the type `xtype`. Source: `tree-chrec.c` `chrec_apply`. -/
def chrecApply (xtype : CstType h) (chrec : Chrec type.prec) : Option (Chrec type.prec) :=
  match chrec with
  | .cst c => some (.cst c)
  | .poly v left right =>
    if evolutionFunctionIsAffineP (.poly v left right) then
      let x := BitVec.ofNat type.prec (foldConvert type n).toNat
      chrecFoldPlus maxExprSize (some left) (chrecFoldMultiply maxExprSize right (.cst x))
    else if treeIntCstSgn xtype n = 1 then chrecEvaluate type maxExprSize multExpr var n (.poly v left right) 0
    else none

end Code

/-! ## Constants of a type -/

section Constants

variable (hh : 0 < h) {type xtype : CstType h} {n c : DoubleWord h} {X k s : ℕ} {z : ℤ}

/-- The value is what the two words hold, modulo the precision. -/
theorem valueOf_modEq (t : CstType h) (c : DoubleWord h) : valueOf t c ≡ c.toNat [ZMOD 2 ^ t.prec] := by
  rw [valueOf]
  split_ifs
  · exact Int.mod_modEq _ _
  · rfl
  · exact ((c.value_modEq false).of_dvd (pow_dvd_pow 2 t.prec_le)).symm

/-- A coefficient that is exact is the value, if a size type has it. -/
theorem valueOf_eq_iff (hc : c.toInt = X) :
    valueOf type c = X ↔ (type.unsigned = true ∧ type.sizetype = true → X < 2 ^ type.prec) := by
  have hnat : c.toNat = X := toNat_of_toInt_nonneg hc
  rw [valueOf, hnat]
  split_ifs with huns hsize
  · constructor
    · intro heq _
      have hlt := Int.emod_lt_of_pos (X : ℤ) (by positivity : (0 : ℤ) < 2 ^ type.prec)
      rw [heq] at hlt
      exact_mod_cast hlt
    · intro hlt
      exact Int.emod_eq_of_lt (by omega) (by exact_mod_cast hlt ⟨huns, hsize⟩)
  · exact iff_of_true rfl fun hboth => absurd hboth.2 hsize
  · exact iff_of_true hc fun hboth => absurd hboth.1 huns

include hh

theorem inType_fitDoubleType {u : Bool} (hu : type.signExtended = !u) : inType type.prec u ((fitDoubleType n type).1.value u) := by
  rw [(fitDoubleType_spec hh n type hu).1]
  exact inType_valueIn u _

/-- A constant that is converted to a type is a value of the type. Source: `fold-const.c` `fit_double_type`. Kind: L -/
theorem inType_valueOf_foldConvert : inType type.prec type.unsigned (valueOf type (foldConvert type n)) := by
  rw [valueOf, foldConvert]
  cases huns : type.unsigned
  · rw [if_neg Bool.false_ne_true]
    exact inType_fitDoubleType hh (u := false) (by rw [CstType.signExtended, huns]; rfl)
  · rw [if_pos rfl]
    cases hsize : type.sizetype
    · rw [if_neg Bool.false_ne_true]
      exact inType_fitDoubleType hh (u := true) (by rw [CstType.signExtended, huns, hsize]; rfl)
    · rw [if_pos rfl, inType, if_pos rfl]
      exact ⟨Int.emod_nonneg _ (by positivity), Int.emod_lt_of_pos _ (by positivity)⟩

/-- Conversion keeps the two words, modulo the precision. Source: `fold-const.c` `fit_double_type`. Kind: L -/
theorem foldConvert_modEq : ((foldConvert type n).toNat : ℤ) ≡ n.toInt [ZMOD 2 ^ type.prec] := by
  obtain ⟨hvalue, -⟩ := fitDoubleType_spec hh n type (u := !type.signExtended) (Bool.not_not _).symm
  have hwidth : (2 : ℤ) ^ type.prec ∣ 2 ^ (4 * h) := pow_dvd_pow 2 type.prec_le
  have hleft := ((foldConvert type n).value_modEq (!type.signExtended)).of_dvd hwidth
  have hright := ((n.value_modEq false).symm.trans (n.value_modEq (!type.signExtended))).of_dvd hwidth
  rw [foldConvert, hvalue] at hleft
  refine hleft.trans (((valueIn_modEq _ _).trans (toNat_ofInt_modEq _)).trans hright.symm)

/-- **The conversion of a constant** whose two words are its value is the value, if the type has it.
Source: `fold-const.c` `fold_convert_const_int_from_int`
Kind: L -/
theorem valueOf_foldConvert_iff (hn : n.toInt = z) : valueOf type (foldConvert type n) = z ↔ inType type.prec type.unsigned z := by
  constructor
  · intro heq
    exact heq ▸ inType_valueOf_foldConvert hh
  · intro hin
    refine eq_of_inType (inType_valueOf_foldConvert hh) hin ?_ type.prec_pos
    exact (valueOf_modEq _ _).trans (hn ▸ foldConvert_modEq hh)

/-- **The two words of a constant** are its value, or are negative, and the value is more by a power of two.
Source: `fold-const.c` `fit_double_type`, `tree.c` `int_fits_type_p` (comments)
Kind: L -/
theorem reading_cases (hn : foldConvert xtype n = n) : n.toInt = valueOf xtype n ∨
    n.toInt < 0 ∧ ∃ s, 0 < s ∧ valueOf xtype n = n.toInt + 2 ^ s ∧ 2 ^ (s - 1) ≤ valueOf xtype n := by
  have hbounds := n.toInt_bounds hh
  rw [valueOf]
  split_ifs with huns hsize
  · have hin : inType xtype.prec false ((fitDoubleType n xtype).1.value false) :=
      inType_fitDoubleType hh (by rw [CstType.signExtended, hsize, Bool.or_true]; rfl)
    rw [show (fitDoubleType n xtype).1 = n from hn] at hin
    have hmod : (n.toNat : ℤ) % 2 ^ xtype.prec = n.toInt % 2 ^ xtype.prec :=
      (n.value_modEq false).of_dvd (pow_dvd_pow 2 xtype.prec_le)
    have hpow : (2 : ℤ) ^ xtype.prec = 2 * 2 ^ (xtype.prec - 1) := two_pow_pred xtype.prec_pos
    have hlow : -(2 : ℤ) ^ (xtype.prec - 1) ≤ n.toInt := hin.1
    have hhigh : n.toInt < (2 : ℤ) ^ (xtype.prec - 1) := hin.2
    rw [hmod]
    by_cases hneg : n.toInt < 0
    · refine Or.inr ⟨hneg, xtype.prec, xtype.prec_pos, ?_⟩
      rw [← Int.add_emod_right, Int.emod_eq_of_lt (by omega) (by omega)]
      exact ⟨rfl, by omega⟩
    · exact Or.inl (Int.emod_eq_of_lt (by omega) (by omega)).symm
  · have hpow : (2 : ℤ) ^ (4 * h) = 2 * 2 ^ (4 * h - 1) := two_pow_pred (by omega)
    rw [DoubleWord.toInt] at hbounds ⊢
    split_ifs at hbounds ⊢ with hmsb
    · have hlt : (n.toNat : ℤ) < 2 ^ (4 * h) := by exact_mod_cast n.toNat_lt
      have hge : (2 : ℤ) ^ (4 * h - 1) ≤ n.toNat := by exact_mod_cast (n.msb_iff hh).mp hmsb
      exact Or.inr ⟨by omega, 4 * h, by omega, by omega, hge⟩
    · exact Or.inl rfl
  · exact Or.inl rfl

end Constants

/-! ## Coefficients -/

section Coefficients

variable (hh : 0 < h) {type xtype : CstType h} {n b : DoubleWord h} {X k : ℕ}

/-- No coefficient up to the degree is wrapped. Source: `tree-chrec.c` `tree_fold_binomial` (comment). -/
def RightCoefficients (type : CstType h) (n : DoubleWord h) (X k : ℕ) : Prop :=
  ∀ j ≤ k, ∀ b, treeFoldBinomial type n j = some b → valueOf type b = X.choose j

/-- **When the coefficients of a degree are right**: the two words of the constant, read as a signed integer, are its value, the type
has this value, and if it is an unsigned size type, all the coefficients.
Source: `tree-chrec.c` `tree_fold_binomial` -/
def CoefficientsFit (type : CstType h) (n : DoubleWord h) (X k : ℕ) : Prop :=
  n.toInt = X ∧ inType type.prec type.unsigned X ∧
    (type.unsigned = true ∧ type.sizetype = true → ∀ j ≤ k, X.choose j < 2 ^ type.prec)

include hh

/-- The constant of one. Source: `tree-chrec.c` (`build_int_cst (type, 1)`). Kind: L -/
theorem one_toInt : (⟨1, 0⟩ : DoubleWord h).toInt = (1 : ℕ) := by
  have hone : (⟨1, 0⟩ : DoubleWord h).toNat = 1 := by
    rw [DoubleWord.toNat, one_toNat hh]
    exact (congrArg (1 + · * 2 ^ (2 * h)) BitVec.toNat_zero).trans (by rw [zero_mul, add_zero])
  have hlt : 2 ^ 1 ≤ 2 ^ (4 * h - 1) := Nat.pow_le_pow_right (by decide) (by omega)
  rw [toInt_of_toNat_lt hh (by omega), hone]

/-- **Coefficients modulo the precision** are those of the constant whenever its two words are its value.
Source: `tree-chrec.c` `tree_fold_binomial`
Kind: L -/
theorem binomial_modEq (hn : n.toInt = X) (hb : treeFoldBinomial type n k = some b) :
    (b.toNat : ℤ) ≡ X.choose k [ZMOD 2 ^ type.prec] := by
  obtain rfl | rfl | hk : k = 0 ∨ k = 1 ∨ 2 ≤ k := by omega
  · obtain rfl := Option.some.inj hb
    rw [toNat_of_toInt_nonneg (one_toInt hh), Nat.choose_zero_right]
  · obtain rfl := Option.some.inj hb
    rw [Nat.choose_one_right, ← hn]
    exact foldConvert_modEq hh
  · rw [(treeFoldBinomial_spec hh hn hk hb).1]

/-- A coefficient of a constant whose two words are its value. Source: `tree-chrec.c` `tree_fold_binomial`. Kind: L -/
theorem valueOf_binomial_iff (hn : n.toInt = X) (hb : treeFoldBinomial type n k = some b) :
    valueOf type b = X.choose k ↔
      (k = 1 → inType type.prec type.unsigned X) ∧ (type.unsigned = true ∧ type.sizetype = true → X.choose k < 2 ^ type.prec) := by
  obtain rfl | rfl | hk : k = 0 ∨ k = 1 ∨ 2 ≤ k := by omega
  · obtain rfl := Option.some.inj hb
    rw [valueOf_eq_iff (by rw [one_toInt hh, Nat.choose_zero_right])]
    simp
  · obtain rfl := Option.some.inj hb
    rw [Nat.choose_one_right, valueOf_foldConvert_iff hh hn]
    refine ⟨fun hin => ⟨fun _ => hin, fun hsize => ?_⟩, fun hin => hin.1 rfl⟩
    rw [inType, if_pos hsize.1] at hin
    exact_mod_cast hin.2
  · obtain ⟨hnat, hlt, -⟩ := treeFoldBinomial_spec hh hn hk hb
    rw [valueOf_eq_iff (by rw [toInt_of_toNat_lt hh (by omega), hnat]), and_iff_right fun hone => absurd hone (by omega)]

/-- **A constant with another value than its two words** has a wrapped second coefficient, if the type has it.
Source: `tree-chrec.c` `tree_fold_binomial`
Kind: L -/
theorem valueOf_two_ne {s : ℕ} (hneg : n.toInt < 0) (hs : 0 < s) (hX : (X : ℤ) = n.toInt + 2 ^ s) (hge : (2 : ℤ) ^ (s - 1) ≤ X)
    (hin : inType type.prec type.unsigned X) (hb : treeFoldBinomial type n 2 = some b) : valueOf type b ≠ X.choose 2 := by
  intro heq
  have htwo := treeFoldBinomial_two hh hneg hb
  obtain ⟨c, hc⟩ := Int.modEq_iff_dvd.mp (heq ▸ valueOf_modEq type b)
  have hchoose : 2 * (X.choose 2 : ℤ) = X * (X - 1) := by
    have hdesc : X.choose 2 * 2 = X * (X - 1) := Nat.choose_two_right X ▸ Nat.div_mul_cancel (Nat.even_mul_pred_self X).two_dvd
    have hpos : 1 ≤ X := by
      have : (0 : ℤ) < 2 ^ (s - 1) := by positivity
      omega
    have hcast : ((X.choose 2 * 2 : ℕ) : ℤ) = (X * (X - 1) : ℕ) := congrArg Nat.cast hdesc
    rw [Nat.cast_mul, Nat.cast_mul, Nat.cast_sub hpos] at hcast
    rw [mul_comm]
    exact hcast
  -- the difference of the two products is an odd multiple of a power of two that is not more than that of the type
  have hle : s ≤ type.prec := by
    by_contra hlt
    have hpow : (2 : ℤ) ^ type.prec ≤ 2 ^ (s - 1) := pow_le_pow_right₀ (by decide) (by omega)
    have hpred : (2 : ℤ) ^ (type.prec - 1) ≤ 2 ^ (s - 1) := pow_le_pow_right₀ (by decide) (by omega)
    rw [inType] at hin
    split_ifs at hin <;> omega
  obtain ⟨d, hd⟩ : ∃ d, type.prec = s + d := ⟨type.prec - s, by omega⟩
  have hodd : (2 : ℤ) ^ s * (2 * n.toInt + 2 ^ s - 1) = 2 ^ s * (2 * (2 ^ d * -c)) := by
    rw [hd, pow_add] at hc
    have hX' : (X : ℤ) * (X - 1) = n.toInt * (n.toInt - 1) + 2 ^ s * (2 * n.toInt + 2 ^ s - 1) := by
      rw [hX]
      ring
    linear_combination -hX' - hchoose + htwo - 2 * hc
  have hcancel := mul_left_cancel₀ (by positivity : (2 : ℤ) ^ s ≠ 0) hodd
  have heven : (2 : ℤ) ^ s = 2 * 2 ^ (s - 1) := two_pow_pred hs
  omega

/-- **The coefficients that are taken**, all known, are right exactly if they fit.
Source: `tree-chrec.c` `tree_fold_binomial`
Kind: L -/
theorem rightCoefficients_iff (hn : foldConvert xtype n = n) (hX : valueOf xtype n = X) (hk : 2 ≤ k)
    (hknown : ∀ j ≤ k, ∃ b, treeFoldBinomial type n j = some b) : RightCoefficients type n X k ↔ CoefficientsFit type n X k := by
  constructor
  · intro hright
    have hvalue : valueOf type (foldConvert type n) = X := by
      have hone := hright 1 (by omega) _ rfl
      rwa [Nat.choose_one_right] at hone
    have hin : inType type.prec type.unsigned X := hvalue ▸ inType_valueOf_foldConvert hh
    have hreading : n.toInt = X := by
      obtain hsame | ⟨hneg, s, hs, hsum, hge⟩ := reading_cases hh hn
      · rw [hsame, hX]
      · obtain ⟨b, hb⟩ := hknown 2 hk
        rw [hX] at hsum hge
        exact absurd (hright 2 hk b hb) (valueOf_two_ne hh hneg hs hsum hge hin hb)
    refine ⟨hreading, hin, fun hsize j hj => ?_⟩
    obtain ⟨b, hb⟩ := hknown j hj
    exact ((valueOf_binomial_iff hh hreading hb).mp (hright j hj b hb)).2 hsize
  · rintro ⟨hreading, hin, hsize⟩ j hj b hb
    exact (valueOf_binomial_iff hh hreading hb).mpr ⟨fun _ => hin, fun hboth => hsize hboth j hj⟩

end Coefficients

/-! ## Newton's formula -/

section Newton

variable (hh : 0 < h) {type xtype : CstType h} {maxExprSize var k X : ℕ} {n : DoubleWord h} {c d : BitVec type.prec}
  {l : List (BitVec type.prec)} {multExpr : Chrec type.prec → BitVec type.prec → Option (Chrec type.prec)} {R : Chrec type.prec}

/-- `{c, +, {…, +, …}}` in one loop. Source: `tree-chrec.h` (`POLYNOMIAL_CHREC`). -/
def univariate {p : ℕ} (var : ℕ) : BitVec p → List (BitVec p) → Chrec p
  | c, [] => .cst c
  | c, d :: l => .poly var (.cst c) (univariate var d l)

theorem chrecFoldPlus_cst {p : ℕ} {a b : BitVec p} {S : Chrec p}
    (hplus : chrecFoldPlus maxExprSize (some (.cst a)) (some (.cst b)) = some S) : S = .cst (a + b) := by
  rw [chrecFoldPlus, Option.bind_some, Option.bind_some, chrecFold] at hplus
  split_ifs at hplus with hzero hzero'
  · have ha : a = 0 := Chrec.cst.inj (of_decide_eq_true hzero.2)
    rw [← Option.some.inj hplus, ha, zero_add]
  · have hb : b = 0 := Chrec.cst.inj (of_decide_eq_true hzero')
    rw [← Option.some.inj hplus, hb, add_zero]
  · rw [chrecFoldPlus1] at hplus
    split_ifs at hplus
    exact (Option.some.inj hplus).symm

/-- **A known value** has known coefficients. Source: `tree-chrec.c` `chrec_evaluate`. Kind: L -/
theorem known_of_chrecEvaluate (hR : chrecEvaluate type maxExprSize multExpr var n (univariate var c l) k = some R) :
    ∀ j ≤ l.length, ∃ b, treeFoldBinomial type n (k + j) = some b := by
  induction l generalizing c k R with
  | nil =>
    intro j hj
    obtain rfl : j = 0 := Nat.le_zero.mp hj
    obtain ⟨b, hb, -⟩ := Option.bind_eq_some_iff.mp hR
    obtain ⟨b', hb', -⟩ := Option.map_eq_some_iff.mp hb
    exact ⟨b', hb'⟩
  | cons d l ih =>
    rw [univariate, chrecEvaluate, if_neg (nested_iff.not.mpr (lt_irrefl _)), if_pos rfl] at hR
    obtain ⟨arg1, harg1, hR⟩ := Option.bind_eq_some_iff.mp hR
    obtain ⟨b, hb, -⟩ := Option.bind_eq_some_iff.mp hR
    obtain ⟨b', hb', -⟩ := Option.map_eq_some_iff.mp hb
    rintro (_ | j) hj
    · exact ⟨b', hb'⟩
    · obtain ⟨b, hb⟩ := ih harg1 j (Nat.le_of_succ_le_succ hj)
      rw [add_assoc, add_comm 1] at hb
      exact ⟨b, hb⟩

include hh

theorem binomialCoefficient_eq {b : BitVec type.prec} (hn : n.toInt = X) (hb : binomialCoefficient type n k = some b) :
    b = (X.choose k : ℕ) := by
  obtain ⟨b', hb', rfl⟩ := Option.map_eq_some_iff.mp hb
  rw [← BitVec.ofInt_natCast, ofInt_eq_of_modEq (binomial_modEq hh hn hb'), BitVec.ofInt_natCast]
  rfl

/-- **Evaluation** of a known value is Newton's formula. Source: `tree-chrec.c` `chrec_evaluate` (comment). Kind: L -/
theorem chrecEvaluate_univariate (hn : n.toInt = X)
    (hR : chrecEvaluate type maxExprSize multExpr var n (univariate var c l) k = some R) : R = .cst (newton (c :: l) X k) := by
  induction l generalizing c k R with
  | nil =>
    obtain ⟨b, hb, hmult⟩ := Option.bind_eq_some_iff.mp hR
    rw [← Option.some.inj hmult, binomialCoefficient_eq hh hn hb, newton, newton, add_zero]
  | cons d l ih =>
    rw [univariate, chrecEvaluate, if_neg (nested_iff.not.mpr (lt_irrefl _)), if_pos rfl] at hR
    obtain ⟨arg1, harg1, hR⟩ := Option.bind_eq_some_iff.mp hR
    obtain ⟨b, hb, hplus⟩ := Option.bind_eq_some_iff.mp hR
    rw [ih harg1] at hplus
    rw [chrecFoldPlus_cst hplus, binomialCoefficient_eq hh hn hb, newton.eq_def (c :: d :: l)]

end Newton

/-! ## Applications -/

section Apply

variable (hh : 0 < h) {type xtype : CstType h} {maxExprSize var X : ℕ} {n : DoubleWord h} {c d : BitVec type.prec}
  {l : List (BitVec type.prec)} {multExpr : Chrec type.prec → BitVec type.prec → Option (Chrec type.prec)} {R : Chrec type.prec}

/-- The value is what the recurrence reaches, and no coefficient that is taken is wrapped.
Source: `tree-chrec.c` `chrec_apply`, `tree_fold_binomial` (comments) -/
def AppliedRight (type : CstType h) (n : DoubleWord h) (X : ℕ) (c : BitVec type.prec) (l : List (BitVec type.prec))
    (R : Chrec type.prec) : Prop :=
  R = .cst (newton (c :: l) X 0) ∧ R = .cst ((advance^[X] (c :: l)).headD 0) ∧ (2 ≤ l.length → RightCoefficients type n X l.length)

/-- **When an application is right**: for a recurrence of the first degree, the step is not changed by the difference of the value of
the constant and of its two words; for one of a higher degree, the coefficients fit.
Source: `tree-chrec.c` `chrec_apply` -/
def ApplyHolds (type : CstType h) (n : DoubleWord h) (X : ℕ) : List (BitVec type.prec) → Prop
  | [] => True
  | [d] => d * BitVec.ofInt type.prec (X - n.toInt) = 0
  | _ :: _ :: l => CoefficientsFit type n X (l.length + 2)

theorem not_affine {p : ℕ} {left right : Chrec p} {c : BitVec p} :
    ¬ evolutionFunctionIsAffineP (.poly var (.cst c) (.poly var left right)) = true := by
  simp only [evolutionFunctionIsAffineP, evolutionFunctionIsInvariantP, ne_eq, not_true_eq_false, decide_false, Bool.false_and,
    Bool.and_false, Bool.false_eq_true, not_false_eq_true]

include hh

/-- A recurrence of the first degree. Source: `tree-chrec.c` `chrec_apply` (`"{a, +, b} (x)" -> "a + b*x"`). Kind: L -/
theorem chrecApply_affine (hR : chrecApply type maxExprSize multExpr var n xtype (univariate var c [d]) = some R) :
    R = .cst (c + d * BitVec.ofInt type.prec n.toInt) := by
  have hconvert : BitVec.ofNat type.prec (foldConvert type n).toNat = BitVec.ofInt type.prec n.toInt := by
    rw [← BitVec.ofInt_natCast, ofInt_eq_of_modEq (foldConvert_modEq hh)]
  rw [univariate, univariate, chrecApply] at hR
  rw [if_pos (show evolutionFunctionIsAffineP (.poly var (.cst c) (.cst d)) = true from rfl)] at hR
  dsimp only at hR
  rw [hconvert] at hR
  obtain ⟨_, prod, hleft, hprod, -⟩ := eval_chrecFoldPlus hR
  rw [hprod] at hR
  have hcst : prod = .cst (d * BitVec.ofInt type.prec n.toInt) := by
    rw [chrecFoldMultiply, mulCst] at hprod
    rw [← Option.some.inj hprod]
    split_ifs with hone hzero hone' hzero'
    · rw [hone, one_mul]
    · rw [hzero, zero_mul]
    · rw [hone', mul_one]
    · rw [hzero', mul_zero]
    · rfl
  rw [hcst] at hR
  exact chrecFoldPlus_cst hR

/-- **Applications**: a known value is right exactly under the condition. Source: `tree-chrec.c` `chrec_apply`. Kind: L -/
theorem appliedRight_iff (hn : foldConvert xtype n = n) (hX : valueOf xtype n = X)
    (hR : chrecApply type maxExprSize multExpr var n xtype (univariate var c l) = some R) :
    AppliedRight type n X c l R ↔ ApplyHolds type n X l := by
  have hiterate : (advance^[X] (c :: l)).headD 0 = newton (c :: l) X 0 := iterate_head _ _
  rw [AppliedRight, hiterate, and_self_left]
  rcases l with _ | ⟨d, _ | ⟨e, l⟩⟩
  · refine iff_of_true ⟨?_, fun hk => absurd hk (Nat.not_succ_le_zero 1)⟩ trivial
    rw [← Option.some.inj hR, newton, newton, Nat.choose_zero_right, Nat.cast_one, mul_one, add_zero]
  · have hnewton : newton [c, d] X 0 = c + d * BitVec.ofInt type.prec X := by
      rw [newton, newton, newton, Nat.choose_zero_right, Nat.choose_one_right, Nat.cast_one, mul_one, add_zero, BitVec.ofInt_natCast]
      rfl
    rw [and_iff_left fun hk : 2 ≤ [d].length => absurd hk (Nat.not_succ_le_self 1), chrecApply_affine hh hR, hnewton, ApplyHolds,
      ofInt_sub, mul_sub, sub_eq_zero, Chrec.cst.injEq, add_right_inj, eq_comm]
  · rw [univariate, univariate, chrecApply, if_neg not_affine] at hR
    split_ifs at hR
    have hknown := known_of_chrecEvaluate (l := d :: e :: l) hR
    simp only [zero_add] at hknown
    have hk : 2 ≤ (d :: e :: l).length := Nat.le_add_left _ _
    have hright := rightCoefficients_iff hh hn hX hk hknown
    rw [imp_iff_right hk, ApplyHolds]
    refine ⟨fun h => hright.mp h.2, fun h => ⟨?_, hright.mpr h⟩⟩
    exact chrecEvaluate_univariate hh h.1 hR

/-- **Sums and differences** that are known are those of the values, and those of ordered chains are known; and a known application to a
constant of a type is right exactly under the condition.
Source: `tree-chrec.c` `chrec_fold_plus`, `chrec_fold_minus`, `chrec_apply`
Kind: P -/
theorem chrecApply_iff (hn : foldConvert xtype n = n) (hX : valueOf xtype n = X)
    (hR : chrecApply type maxExprSize multExpr var n xtype (univariate var c l) = some R) :
    (∀ P Q S : Chrec type.prec, chrecFoldPlus maxExprSize (some P) (some Q) = some S → ∀ i, S.eval i = P.eval i + Q.eval i) ∧
      (∀ P Q S : Chrec type.prec, chrecFoldMinus maxExprSize (some P) (some Q) = some S → ∀ i, S.eval i = P.eval i - Q.eval i) ∧
      (∀ (P Q : Chrec type.prec) (m : ℕ), 2 < maxExprSize → P.InNest m → Q.InNest m →
        (∃ S, chrecFoldPlus maxExprSize (some P) (some Q) = some S) ∧ ∃ S, chrecFoldMinus maxExprSize (some P) (some Q) = some S) ∧
      (AppliedRight type n X c l R ↔ ApplyHolds type n X l) := by
  refine ⟨fun P Q S hS i => ?_, fun P Q S hS i => ?_, fun P Q m hsize hP hQ => ?_, appliedRight_iff hh hn hX hR⟩
  · obtain ⟨P', Q', hP, hQ, heval⟩ := eval_chrecFoldPlus hS
    rw [heval, Option.some.inj hP, Option.some.inj hQ]
  · obtain ⟨P', Q', hP, hQ, heval⟩ := eval_chrecFoldMinus hS
    rw [heval, Option.some.inj hP, Option.some.inj hQ]
  · obtain ⟨S, hplus, -⟩ := chrecFold_of_inNest hsize .PLUS_EXPR hP hQ
    obtain ⟨S', hminus, -⟩ := chrecFold_of_inNest hsize .MINUS_EXPR hP hQ
    exact ⟨⟨S, hplus⟩, S', hminus⟩

omit hh in
theorem chrecFoldPlus_cst_eq {p : ℕ} (hsize : 2 < maxExprSize) (a b : BitVec p) :
    chrecFoldPlus maxExprSize (some (.cst a)) (some (.cst b)) = some (.cst (a + b)) := by
  have hsome : (chrecFoldPlus maxExprSize (some (.cst a)) (some (.cst b))).isSome = true := by
    rw [chrecFoldPlus, Option.bind_some, Option.bind_some, chrecFold, chrecFoldPlus1, if_pos hsize]
    split_ifs <;> rfl
  obtain ⟨S, hS⟩ := Option.isSome_iff_exists.mp hsome
  rw [hS, chrecFoldPlus_cst hS]

omit hh in
/-- A recurrence of the second degree, whose coefficients are known. Source: `tree-chrec.c` `chrec_evaluate`. Kind: L -/
theorem chrecApply_second {e : BitVec type.prec} {b0 b1 b2 : DoubleWord h} (hsize : 2 < maxExprSize) (hsgn : treeIntCstSgn xtype n = 1)
    (h0 : treeFoldBinomial type n 0 = some b0) (h1 : treeFoldBinomial type n 1 = some b1) (h2 : treeFoldBinomial type n 2 = some b2) :
    chrecApply type maxExprSize multExpr var n xtype (univariate var c [d, e]) =
      some (.cst (c * BitVec.ofNat _ b0.toNat + (d * BitVec.ofNat _ b1.toNat + e * BitVec.ofNat _ b2.toNat))) := by
  have hloop : flowLoopNestedP var var = false := decide_eq_false (lt_irrefl _)
  simp only [univariate, chrecApply, not_affine, hsgn, chrecEvaluate, hloop, binomialCoefficient, h0, h1, h2, foldMult,
    chrecFoldPlus_cst_eq hsize, Option.map_some, Option.bind_some, zero_add, Nat.reduceAdd, if_true, if_false, Bool.false_eq_true]

/-- `int`. Source: `tree.c` (`integer_type_node`). -/
def intType : CstType 32 := ⟨32, false, false, Nat.succ_pos _, Nat.le_of_ble_eq_true rfl⟩

/-- An unsigned type of two words. Source: `tree.c` (`unsigned_intTI_type_node`). -/
def unsignedIntTIType : CstType 32 := ⟨128, true, false, Nat.succ_pos _, Nat.le_of_ble_eq_true rfl⟩

omit hh in
/-- `{1, +, {2, +, 3}}` at 10. Source: `tree-chrec.c` `chrec_apply`. Kind: C -/
theorem chrecApply_iff_ten : AppliedRight intType ⟨10, 0⟩ 10 1 [2, 3] (.cst (1 * 1 + (2 * 10 + 3 * 45))) := by
  have h0 : treeFoldBinomial intType ⟨10, 0⟩ 0 = some ⟨1, 0⟩ := rfl
  have h1 : treeFoldBinomial intType ⟨10, 0⟩ 1 = some ⟨10, 0⟩ := by decide +kernel
  have h2 : treeFoldBinomial intType ⟨10, 0⟩ 2 = some ⟨45, 0⟩ := by decide +kernel
  have hR : chrecApply intType 20 (fun _ _ => none) 1 ⟨10, 0⟩ intType (univariate 1 1 [2, 3]) =
      some (.cst (1 * 1 + (2 * 10 + 3 * 45))) :=
    (chrecApply_second (by decide) (by decide +kernel) h0 h1 h2).trans (by decide +kernel)
  refine (chrecApply_iff (by decide) (by decide +kernel) (by decide +kernel) hR).2.2.2.mpr ⟨by decide +kernel, ?_, ?_⟩
  · exact inType_iff.mpr ⟨by decide, by decide⟩
  · exact fun h => absurd h.1 (by decide)

omit hh in
/-- At the greatest constant of two words, which holds -1, the second coefficient comes out as one.
Source: `tree-chrec.c` `tree_fold_binomial`
Kind: C -/
theorem not_forall_appliedRight : ¬ ∀ (type xtype : CstType 32) (n : DoubleWord 32) (X : ℕ) (c : BitVec type.prec)
    (l : List (BitVec type.prec)) (R : Chrec type.prec), foldConvert xtype n = n → valueOf xtype n = X → 0 < X →
      chrecApply type 20 (fun _ _ => none) 1 n xtype (univariate 1 c l) = some R → AppliedRight type n X c l R := by
  intro hall
  have h0 : treeFoldBinomial unsignedIntTIType ⟨-1, -1⟩ 0 = some ⟨1, 0⟩ := rfl
  have h1 : treeFoldBinomial unsignedIntTIType ⟨-1, -1⟩ 1 = some ⟨-1, -1⟩ := by decide +kernel
  have h2 : treeFoldBinomial unsignedIntTIType ⟨-1, -1⟩ 2 = some ⟨1, 0⟩ := by decide +kernel
  have hR : chrecApply unsignedIntTIType 20 (fun _ _ => none) 1 ⟨-1, -1⟩ unsignedIntTIType (univariate 1 0 [0, 1]) = some (.cst 1) :=
    (chrecApply_second (by decide) (by decide +kernel) h0 h1 h2).trans (by decide +kernel)
  have hright := hall unsignedIntTIType unsignedIntTIType ⟨-1, -1⟩ (2 ^ 128 - 1) 0 [0, 1] _ (by decide +kernel) (by decide +kernel)
    (by decide +kernel) hR
  have hcoefficient := hright.2.2 le_rfl 2 le_rfl ⟨1, 0⟩ (by decide +kernel)
  have hone : valueOf unsignedIntTIType ⟨1, 0⟩ = 1 := by decide +kernel
  rw [hone, Nat.choose_two_right] at hcoefficient
  norm_num at hcoefficient

end Apply

end GccCore.Gcc.TreeChrec
