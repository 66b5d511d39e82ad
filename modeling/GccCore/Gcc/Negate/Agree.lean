import GccCore.Gcc.Negate.Basic

/-!
# `gcc/fold-const.c`: the test of negation and the negation

The test looks through conversions that change neither the mode nor the sign; the negation does not, but for a conversion between
float types.

* **A tree that passes the test** (`isSome_iff`) is negated unless it is such a conversion or a constant whose negation traps.
* **Parts of complex values** are given to a builder as they come out (`foldNegateExpr_ok_iff`).
-/

namespace GccCore.Gcc.Negate

open GccCore.Gcc.TreeVrp

variable {R F : Type} [DecidableEq R] [DecidableEq F] (tgt : Target R F)

/-! ## Trees that are negated -/

section Conditions

/-- The negation of a constant does not trap, or the constant is marked already.
Source: `fold-const.c` `fold_negate_expr` (`TYPE_OVERFLOW_TRAPS`) -/
def ConstantNegates (type : TreeType) (c : Cst) : Prop :=
  tgt.overflowTraps type = true → c.overflow = false → type.SignFits (-c.val)

/-- A tree without a conversion around it that the test looks through and the negation does not, and no constant whose negation traps.
Source: `fold-const.c` `negate_expr_p` (`STRIP_SIGN_NOPS`), `fold_negate_expr` -/
def Plain : Tree R F → Prop
  | .integerCst type c => ConstantNegates tgt type c
  | .complexIntegerCst _ elt re im => ConstantNegates tgt elt re ∧ ConstantNegates tgt elt im
  | t => stripSignNops t = t ∨ (negatedOperand tgt t).isSome = true

/-- **The parts of complex values** that the negation comes to are plain.
Source: `fold-const.c` `fold_negate_expr` (`COMPLEX_EXPR`, `CONJ_EXPR`) -/
def PartsPlain (t : Tree R F) : Prop :=
  match t with
  | .binary .COMPLEX_EXPR type op0 op1 =>
    negateExprP tgt (.binary .COMPLEX_EXPR type op0 op1) = true → (Plain tgt op0 ∧ Plain tgt op1) ∧ PartsPlain op0 ∧ PartsPlain op1
  | .unary .CONJ_EXPR type op => negateExprP tgt (.unary .CONJ_EXPR type op) = true → Plain tgt op ∧ PartsPlain op
  | t => ∀ op build, (_h : negatedOperand tgt t = some (op, build)) → PartsPlain (stripSignNops op)
termination_by t.size
decreasing_by
  all_goals first
    | exact lt_of_le_of_lt (size_stripSignNops_le _) (size_negatedOperand_lt _h)
    | (simp only [Tree.size]; omega)

end Conditions

/-! ## Which trees are negated -/

section Negated

variable {tgt} {t : Tree R F}

omit [DecidableEq R] [DecidableEq F] in
theorem constantNegates_iff {type : TreeType} {c : Cst} :
    ConstantNegates tgt type c ↔ (foldNegateConst type.toIntType c).overflow = c.overflow ∨ tgt.overflowTraps type = false := by
  rw [ConstantNegates]
  by_cases htraps : tgt.overflowTraps type = true
  · have hsigned : type.unsigned = false := by
      rw [Target.overflowTraps, Bool.and_eq_true_iff, Bool.not_eq_true'] at htraps
      exact htraps.1
    have hsize : type.sizetype = false := by
      by_contra h
      rw [Bool.not_eq_false] at h
      exact absurd (type.unsigned_of_sizetype h).1 (by rw [hsigned]; exact Bool.false_ne_true)
    simp only [htraps, forall_const, Bool.true_eq_false, or_false, foldNegateConst, forceFit, IntType.signExtended, IntType.stored,
      hsigned, hsize, Bool.not_false, Bool.true_or, Bool.true_and, Bool.and_true, Bool.false_eq_true, if_false]
    cases c.overflow <;> simp
  · rw [Bool.not_eq_true] at htraps
    exact iff_of_true (fun h => absurd h (by rw [htraps]; exact Bool.false_ne_true)) (Or.inr htraps)

theorem negateExpr_integerCst (elt : TreeType) (c : Cst) :
    (ConstantNegates tgt elt c → negateExpr tgt (.integerCst elt c) = .ok (.integerCst elt (foldNegateConst elt.toIntType c))) ∧
      (¬ ConstantNegates tgt elt c → negateExpr tgt (.integerCst elt c) = .ok (.unary .NEGATE_EXPR elt (.integerCst elt c))) := by
  rw [constantNegates_iff]
  refine ⟨fun h => ?_, fun h => ?_⟩
  · rw [negateExpr, stripSignNops, foldNegateExpr, if_pos h]
    · exact congrArg Except.ok (tgt.foldConvert_self (.integerCst elt (foldNegateConst elt.toIntType c)))
    · rintro code type op ⟨⟩
  · rw [negateExpr, stripSignNops, foldNegateExpr, if_neg h]
    · exact congrArg Except.ok (tgt.foldConvert_self (.unary .NEGATE_EXPR elt (.integerCst elt c)))
    · rintro code type op ⟨⟩

/-- An operand is negated where a tree of most codes passes the test. Source: `fold-const.c` `negate_expr_p`. Kind: L -/
theorem isSome_negatedFactor {code : BinaryCode} {type : TreeType} {op0 op1 : Tree R F}
    (h : (negateExprP tgt op1 || negateExprP tgt op0) = true) : (negatedFactor tgt code type op0 op1).isSome = true := by
  rw [negatedFactor]
  split_ifs with h1 h0
  · rfl
  · rfl
  · rw [Bool.not_eq_true] at h1 h0
    rw [h1, h0] at h
    exact absurd h Bool.false_ne_true

theorem isSome_negatedOperand {code : BinaryCode} {type : TreeType} {op0 op1 : Tree R F}
    (h : negateExprP tgt (.binary code type op0 op1) = true)
    (hcode : code ≠ .COMPLEX_EXPR ∧ code ≠ .MINUS_EXPR ∧ code ≠ .RSHIFT_EXPR) :
    (negatedOperand tgt (.binary code type op0 op1)).isSome = true := by
  rw [negateExprP, stripSignNops] at h
  swap
  · rintro code type op ⟨⟩
  cases code with
  | PLUS_EXPR =>
    rw [negateCodeP, Tree.type] at h
    rw [negatedOperand]
    split_ifs at h ⊢ with hhonor h1 h0
    · rfl
    · rfl
    · rw [Bool.not_eq_true] at h1 h0
      rw [h1, h0] at h
      exact absurd h Bool.false_ne_true
  | MULT_EXPR =>
    rw [negateCodeP] at h
    split_ifs at h with hunsigned
    obtain ⟨hhonor, hor⟩ := Bool.and_eq_true_iff.mp h
    rw [Bool.not_eq_true] at hunsigned
    rw [Bool.not_eq_true'] at hhonor
    rw [negatedOperand, hunsigned, hhonor, if_neg (by decide)]
    exact isSome_negatedFactor hor
  | RDIV_EXPR =>
    rw [negateCodeP] at h
    obtain ⟨hhonor, hor⟩ := Bool.and_eq_true_iff.mp h
    rw [Bool.not_eq_true'] at hhonor
    rw [negatedOperand, hhonor, if_neg (by decide)]
    exact isSome_negatedFactor hor
  | division code =>
    rw [negateCodeP] at h
    split_ifs at h with htype
    rw [negatedOperand, if_pos]
    · exact isSome_negatedFactor h
    · revert htype
      cases type.isIntegral <;> cases type.overflowUndefined tgt.flags <;> simp
  | MINUS_EXPR => exact absurd rfl hcode.2.1
  | RSHIFT_EXPR => exact absurd rfl hcode.2.2
  | COMPLEX_EXPR => exact absurd rfl hcode.1

/-- A tree whose operand is negated is negated. Source: `fold-const.c` `fold_negate_expr`. Kind: L -/
theorem isSome_of_negatedOperand {r : Option (Tree R F)} (h : (negatedOperand tgt t).isSome = true)
    (hr : foldNegateExpr tgt t = .ok r) : r.isSome = true := by
  obtain ⟨⟨op, build⟩, hop⟩ := Option.isSome_iff_exists.mp h
  rw [foldNegateExpr_eq hop] at hr
  rcases htem : negateExpr tgt op with e | tem
  · rw [htem] at hr
    cases hr
  · rw [htem] at hr
    rw [← Except.ok.inj hr]
    rfl

/-- A conversion that the test does not look through passes only if its operand is negated. Source: `fold-const.c` `negate_expr_p`. Kind: L -/
theorem isSome_negatedOperand_unary {code : UnaryCode} {type : TreeType} {op : Tree R F}
    (hcode : code = .NOP_EXPR ∨ code = .CONVERT_EXPR ∨ code = .NON_LVALUE_EXPR)
    (hstrip : stripSignNops (.unary code type op) = .unary code type op)
    (h : negateExprP tgt (.unary code type op) = true) : (negatedOperand tgt (.unary code type op)).isSome = true := by
  rw [negateExprP, hstrip] at h
  obtain rfl | rfl | rfl := hcode
  · rw [negateCodeP] at h
    split_ifs at h with hreal hne
    rw [negatedOperand, if_pos ⟨hreal, hne, h⟩]
    rfl
  · rw [negateCodeP] at h
    exact absurd h Bool.false_ne_true
  · rw [negateCodeP] at h
    exact absurd h Bool.false_ne_true

theorem isSome_complexIntegerCst {type elt : TreeType} {re im : Cst} {r : Option (Tree R F)}
    (hr : foldNegateExpr tgt (.complexIntegerCst type elt re im) = .ok r) :
    r.isSome = true ↔ ConstantNegates tgt elt re ∧ ConstantNegates tgt elt im := by
  obtain ⟨hre, hre'⟩ := @negateExpr_integerCst R F _ _ tgt elt re
  obtain ⟨him, him'⟩ := @negateExpr_integerCst R F _ _ tgt elt im
  rw [foldNegateExpr] at hr
  by_cases h1 : ConstantNegates tgt elt re
  · rw [hre h1] at hr
    by_cases h2 : ConstantNegates tgt elt im
    · rw [him h2] at hr
      rw [← Except.ok.inj hr]
      exact iff_of_true rfl ⟨h1, h2⟩
    · rw [him' h2] at hr
      rw [← Except.ok.inj hr]
      exact iff_of_false Bool.false_ne_true fun h => h2 h.2
  · rw [hre' h1] at hr
    refine iff_of_false ?_ fun h => h1 h.1
    by_cases h2 : ConstantNegates tgt elt im
    · rw [him h2] at hr
      rw [← Except.ok.inj hr]
      exact Bool.false_ne_true
    · rw [him' h2] at hr
      rw [← Except.ok.inj hr]
      exact Bool.false_ne_true

theorem foldNegateExpr_complexRealCst (type elt : TreeType) (re im : R) :
    foldNegateExpr tgt (.complexRealCst type elt re im) =
      .ok (some (.complexRealCst type elt (tgt.realValueNegate re) (tgt.realValueNegate im))) := by
  have hpart (r : R) : negateExpr tgt (.realCst elt r) = .ok (.realCst elt (tgt.realValueNegate r)) := by
    rw [negateExpr, stripSignNops, foldNegateExpr]
    · exact congrArg Except.ok (tgt.foldConvert_self (.realCst elt (tgt.realValueNegate r)))
    · rintro code type op ⟨⟩
  rw [foldNegateExpr, hpart, hpart]
  rfl

/-- **A tree that passes the test** is negated exactly if it is plain. Source: `fold-const.c` `fold_negate_expr` (comment). Kind: L -/
theorem isSome_iff {r : Option (Tree R F)} (h : negateExprP tgt t = true) (hr : foldNegateExpr tgt t = .ok r) :
    r.isSome = true ↔ Plain tgt t := by
  cases t with
  | other type uid =>
    rw [negateExprP, stripSignNops, negateCodeP] at h
    · exact absurd h Bool.false_ne_true
    · rintro code type op ⟨⟩
  | integerCst type c =>
    rw [Plain, constantNegates_iff]
    rw [foldNegateExpr] at hr
    split_ifs at hr with hc
    · rw [← Except.ok.inj hr]
      exact iff_of_true rfl hc
    · rw [← Except.ok.inj hr]
      exact iff_of_false Bool.false_ne_true hc
  | realCst type c | fixedCst type c =>
    rw [foldNegateExpr] at hr
    rw [← Except.ok.inj hr]
    exact iff_of_true rfl (Or.inl rfl)
  | complexIntegerCst type elt re im => exact isSome_complexIntegerCst hr
  | complexRealCst type elt re im =>
    rw [foldNegateExpr_complexRealCst] at hr
    rw [← Except.ok.inj hr]
    exact iff_of_true rfl (Or.inl rfl)
  | unary code type op =>
    by_cases hconv : code = .NOP_EXPR ∨ code = .CONVERT_EXPR ∨ code = .NON_LVALUE_EXPR
    · by_cases hop : (negatedOperand tgt (.unary code type op)).isSome = true
      · exact iff_of_true (isSome_of_negatedOperand hop hr) (Or.inr hop)
      · -- the test looks through the conversion, and the negation stops at it
        refine iff_of_false ?_ (not_or.mpr ⟨fun hstrip => hop (isSome_negatedOperand_unary hconv hstrip h), hop⟩)
        obtain rfl | rfl | rfl := hconv
        · rw [foldNegateExpr] at hr
          rw [negatedOperand] at hop
          split_ifs at hr hop with hreal hne hp hall hall
          · exact absurd rfl hop
          · exact absurd ⟨hreal, hne, hp⟩ hall
          all_goals
            rw [← Except.ok.inj hr]
            exact Bool.false_ne_true
        · rw [foldNegateExpr] at hr
          rw [← Except.ok.inj hr]
          exact Bool.false_ne_true
        · rw [foldNegateExpr] at hr
          rw [← Except.ok.inj hr]
          exact Bool.false_ne_true
    · have hstrip : stripSignNops (.unary code type op) = .unary code type op := by
        rw [stripSignNops, isSignNop, decide_eq_false hconv]
        rfl
      refine iff_of_true ?_ (Or.inl hstrip)
      rw [negateExprP, hstrip] at h
      cases code with
      | BIT_NOT_EXPR =>
        rw [negateCodeP, Tree.type] at h
        rw [foldNegateExpr, if_pos (Bool.and_eq_true_iff.mp h).1] at hr
        rw [← Except.ok.inj hr]
        rfl
      | NEGATE_EXPR =>
        rw [foldNegateExpr] at hr
        rw [← Except.ok.inj hr]
        rfl
      | CONJ_EXPR =>
        rw [foldNegateExpr, negateExprP, hstrip, if_pos h] at hr
        rcases htem : foldNegateExpr tgt op with e | tem
        · rw [htem] at hr
          cases hr
        · rw [htem] at hr
          rcases tem with _ | tem
          · cases hr
          · rw [← Except.ok.inj hr]
            rfl
      | NOP_EXPR => exact absurd (Or.inl rfl) hconv
      | CONVERT_EXPR => exact absurd (Or.inr (Or.inl rfl)) hconv
      | NON_LVALUE_EXPR => exact absurd (Or.inr (Or.inr rfl)) hconv
  | binary code type op0 op1 =>
    refine iff_of_true ?_ (Or.inl rfl)
    by_cases hcode : code ≠ .COMPLEX_EXPR ∧ code ≠ .MINUS_EXPR ∧ code ≠ .RSHIFT_EXPR
    · exact isSome_of_negatedOperand (isSome_negatedOperand h hcode) hr
    · have h' : negateCodeP tgt type (.binary code type op0 op1) = true := by
        rw [negateExprP, stripSignNops] at h
        · exact h
        · rintro code type op ⟨⟩
      obtain rfl | rfl | rfl : code = .COMPLEX_EXPR ∨ code = .MINUS_EXPR ∨ code = .RSHIFT_EXPR := by
        by_contra hno
        simp only [not_or] at hno
        exact hcode hno
      · rw [foldNegateExpr, if_pos h] at hr
        rcases htem0 : foldNegateExpr tgt op0 with e | tem0
        · rw [htem0] at hr
          cases hr
        · rcases htem1 : foldNegateExpr tgt op1 with e | tem1
          · rw [htem0, htem1] at hr
            cases hr
          · rw [htem0, htem1] at hr
            rcases tem0 with _ | tem0
            · cases hr
            · rcases tem1 with _ | tem1
              · cases hr
              · rw [← Except.ok.inj hr]
                rfl
      · rw [negateCodeP] at h'
        rw [foldNegateExpr, if_pos h'] at hr
        rw [← Except.ok.inj hr]
        rfl
      · rw [negateCodeP] at h'
        rw [foldNegateExpr, if_pos h'] at hr
        rw [← Except.ok.inj hr]
        rfl
  | call type fn arg =>
    refine iff_of_true (isSome_of_negatedOperand ?_ hr) (Or.inl rfl)
    rw [negateExprP, stripSignNops, negateCodeP] at h
    · rw [negatedOperand, if_pos h]
      rfl
    · rintro code type op ⟨⟩

/-- A rule without an operand that is negated has a result. Source: `fold-const.c` `fold_negate_expr`. Kind: L -/
theorem ok_of_negatedOperand_eq_none (h : negatedOperand tgt t = none) (hcomplex : ∀ type op0 op1, t ≠ .binary .COMPLEX_EXPR type op0 op1)
    (hconj : ∀ type op, t ≠ .unary .CONJ_EXPR type op) : ∃ r, foldNegateExpr tgt t = .ok r := by
  cases t with
  | other type uid => exact ⟨_, by rw [foldNegateExpr]⟩
  | integerCst type c =>
    rw [foldNegateExpr]
    split_ifs <;> exact ⟨_, rfl⟩
  | realCst type c => exact ⟨_, by rw [foldNegateExpr]⟩
  | fixedCst type c => exact ⟨_, by rw [foldNegateExpr]⟩
  | complexIntegerCst type elt re im =>
    have hpart (c : Cst) : ∃ tem, negateExpr tgt (.integerCst elt c) = .ok tem := by
      by_cases hc : ConstantNegates tgt elt c
      · exact ⟨_, (negateExpr_integerCst elt c).1 hc⟩
      · exact ⟨_, (negateExpr_integerCst elt c).2 hc⟩
    obtain ⟨rpart, hre⟩ := hpart re
    obtain ⟨ipart, him⟩ := hpart im
    rw [foldNegateExpr, hre, him]
    exact ⟨_, rfl⟩
  | complexRealCst type elt re im => exact ⟨_, foldNegateExpr_complexRealCst type elt re im⟩
  | unary code type op =>
    cases code with
    | NOP_EXPR =>
      rw [foldNegateExpr]
      split_ifs with hreal hne hp
      · rw [negatedOperand, if_pos ⟨hreal, hne, hp⟩] at h
        exact absurd h (Option.some_ne_none _)
      all_goals exact ⟨_, rfl⟩
    | BIT_NOT_EXPR =>
      rw [foldNegateExpr]
      split_ifs <;> exact ⟨_, rfl⟩
    | CONJ_EXPR => exact absurd rfl (hconj type op)
    | CONVERT_EXPR => exact ⟨_, by rw [foldNegateExpr]⟩
    | NON_LVALUE_EXPR => exact ⟨_, by rw [foldNegateExpr]⟩
    | NEGATE_EXPR => exact ⟨_, by rw [foldNegateExpr]⟩
  | binary code type op0 op1 =>
    by_cases hcode : code ≠ .COMPLEX_EXPR ∧ code ≠ .MINUS_EXPR ∧ code ≠ .RSHIFT_EXPR
    · exact ⟨_, foldNegateExpr_eq_none hcode h⟩
    · obtain rfl | rfl | rfl : code = .COMPLEX_EXPR ∨ code = .MINUS_EXPR ∨ code = .RSHIFT_EXPR := by
        by_contra hno
        simp only [not_or] at hno
        exact hcode hno
      · exact absurd rfl (hcomplex type op0 op1)
      · rw [foldNegateExpr]
        split_ifs <;> exact ⟨_, rfl⟩
      · rw [foldNegateExpr]
        split_ifs <;> exact ⟨_, rfl⟩
  | call type fn arg =>
    rw [foldNegateExpr]
    rw [negatedOperand] at h
    split_ifs at h ⊢
    exact ⟨_, rfl⟩

/-- A part of a complex value comes out as a tree. Source: `fold-const.c` `fold_negate_expr` (`COMPLEX_EXPR`). Kind: L -/
theorem part_ok_iff {op : Tree R F} (hp : negateExprP tgt op = true)
    (ih : (∃ r, foldNegateExpr tgt op = .ok r) ↔ PartsPlain tgt op) :
    (∃ tem, foldNegateExpr tgt op = .ok (some tem)) ↔ Plain tgt op ∧ PartsPlain tgt op := by
  constructor
  · rintro ⟨tem, htem⟩
    exact ⟨(isSome_iff hp htem).mp rfl, ih.mp ⟨_, htem⟩⟩
  · rintro ⟨hplain, hparts⟩
    obtain ⟨r, hr⟩ := ih.mpr hparts
    obtain ⟨tem, rfl⟩ := Option.isSome_iff_exists.mp ((isSome_iff hp hr).mpr hplain)
    exact ⟨tem, hr⟩

variable (tgt)

/-- **No null tree is given to a builder** exactly if the parts of complex values are plain. The induction is on the size: what is
negated is stripped first.
Source: `fold-const.c` `fold_negate_expr`
Kind: L -/
theorem foldNegateExpr_ok_iff (t : Tree R F) : (∃ r, foldNegateExpr tgt t = .ok r) ↔ PartsPlain tgt t := by
  induction hn : t.size using Nat.strong_induction_on generalizing t with
  | _ n ih =>
    subst hn
    by_cases hcomplex : ∃ type op0 op1, t = .binary .COMPLEX_EXPR type op0 op1
    · obtain ⟨type, op0, op1, rfl⟩ := hcomplex
      have ih0 := ih op0.size (by simp only [Tree.size]; omega) op0 rfl
      have ih1 := ih op1.size (by simp only [Tree.size]; omega) op1 rfl
      rw [foldNegateExpr, PartsPlain]
      by_cases hp : negateExprP tgt (.binary .COMPLEX_EXPR type op0 op1) = true
      · have hops : negateExprP tgt op0 = true ∧ negateExprP tgt op1 = true := by
          rw [negateExprP, stripSignNops, negateCodeP, Bool.and_eq_true_iff] at hp
          · exact hp
          · rintro code type op ⟨⟩
        simp only [hp, if_true, forall_const]
        rw [and_and_and_comm, ← part_ok_iff hops.1 ih0, ← part_ok_iff hops.2 ih1]
        rcases foldNegateExpr tgt op0 with e | _ | tem0
        · exact iff_of_false (by rintro ⟨r, h⟩; cases h) (by rintro ⟨⟨tem, h⟩, _⟩; cases h)
        · refine iff_of_false ?_ (by rintro ⟨⟨tem, h⟩, _⟩; cases h)
          rintro ⟨r, h⟩
          rcases hop1 : foldNegateExpr tgt op1 with e | tem1
          · rw [hop1] at h
            cases h
          · rw [hop1] at h
            cases h
        · rcases foldNegateExpr tgt op1 with e | _ | tem1
          · exact iff_of_false (by rintro ⟨r, h⟩; cases h) (by rintro ⟨_, tem, h⟩; cases h)
          · exact iff_of_false (by rintro ⟨r, h⟩; cases h) (by rintro ⟨_, tem, h⟩; cases h)
          · exact iff_of_true ⟨_, rfl⟩ ⟨⟨_, rfl⟩, _, rfl⟩
      · rw [if_neg hp]
        exact iff_of_true ⟨_, rfl⟩ fun h => absurd h hp
    · by_cases hconj : ∃ type op, t = .unary .CONJ_EXPR type op
      · obtain ⟨type, op, rfl⟩ := hconj
        have ih0 := ih op.size (by simp only [Tree.size]; omega) op rfl
        rw [foldNegateExpr, PartsPlain]
        by_cases hp : negateExprP tgt (.unary .CONJ_EXPR type op) = true
        · have hop : negateExprP tgt op = true := by
            rw [negateExprP, stripSignNops, isSignNop, if_neg (by simp), negateCodeP] at hp
            exact hp
          simp only [hp, if_true, forall_const]
          rw [← part_ok_iff hop ih0]
          rcases foldNegateExpr tgt op with e | _ | tem
          · exact iff_of_false (by rintro ⟨r, h⟩; cases h) (by rintro ⟨tem, h⟩; cases h)
          · exact iff_of_false (by rintro ⟨r, h⟩; cases h) (by rintro ⟨tem, h⟩; cases h)
          · exact iff_of_true ⟨_, rfl⟩ ⟨_, rfl⟩
        · rw [if_neg hp]
          exact iff_of_true ⟨_, rfl⟩ fun h => absurd h hp
      · have hcomplex' (type op0 op1) : t ≠ .binary .COMPLEX_EXPR type op0 op1 := fun h => hcomplex ⟨type, op0, op1, h⟩
        have hconj' (type op) : t ≠ .unary .CONJ_EXPR type op := fun h => hconj ⟨type, op, h⟩
        rw [PartsPlain]
        · rcases hop : negatedOperand tgt t with _ | ⟨op, build⟩
          · refine iff_of_true (ok_of_negatedOperand_eq_none hop hcomplex' hconj') ?_
            intro op build h
            exact absurd h (Option.some_ne_none _).symm
          · have hsize := lt_of_le_of_lt (size_stripSignNops_le op) (size_negatedOperand_lt hop)
            rw [foldNegateExpr_eq hop]
            constructor
            · rintro ⟨r, hr⟩ op' build' h
              obtain ⟨rfl, rfl⟩ := Prod.mk.inj (Option.some.inj h)
              refine (ih _ hsize _ rfl).mp (negateExpr_eq_ok_iff.mp ?_)
              rcases htem : negateExpr tgt op with e | tem
              · rw [htem] at hr
                cases hr
              · exact ⟨tem, rfl⟩
            · intro h
              obtain ⟨tem, htem⟩ := negateExpr_eq_ok_iff.mpr ((ih _ hsize _ rfl).mpr (h op build rfl))
              exact ⟨_, by rw [htem]; rfl⟩
        · exact hcomplex'
        · exact hconj'

end Negated

/-! ## Agreement -/

section Agreement

/-- **The test and the negation agree** exactly for plain trees with plain parts.
Source: `fold-const.c` `fold_negate_expr` ("If negate_expr_p would return true for T, NULL_TREE will never be returned")
Kind: P -/
theorem foldNegateExpr_agrees_iff (t : Tree R F) (h : negateExprP tgt t = true) :
    (∃ tem, foldNegateExpr tgt t = .ok (some tem)) ↔ Plain tgt t ∧ PartsPlain tgt t :=
  part_ok_iff h (foldNegateExpr_ok_iff tgt t)

/-- The negation of a variable. Source: `tree.h` `NEGATE_EXPR`. -/
def negatedVariable (n : ℕ) : Tree Unit Unit := .unary .NEGATE_EXPR (integerTypeNode false) (.other (integerTypeNode false) n)

/-- Two negations as the parts of a complex value are negated. Source: `fold-const.c` `fold_negate_expr` (`COMPLEX_EXPR`). Kind: C -/
theorem foldNegateExpr_agrees_iff_complex :
    ∃ tem, foldNegateExpr (.integers ⟨false, false, true⟩)
      (.binary .COMPLEX_EXPR { integerTypeNode false with code := .COMPLEX_TYPE, mode := 64 } (negatedVariable 0) (negatedVariable 1)) =
        .ok (some tem) := by
  have hp (n : ℕ) : negateExprP (.integers ⟨false, false, true⟩) (negatedVariable n) = true := by
    rw [negatedVariable, negateExprP, stripSignNops, Tree.type, if_neg (by decide), negateCodeP]
  have hplain (n : ℕ) : Plain (.integers ⟨false, false, true⟩) (negatedVariable n) := Or.inl rfl
  have hparts (n : ℕ) : PartsPlain (.integers ⟨false, false, true⟩) (negatedVariable n) := by
    rw [negatedVariable, PartsPlain]
    · rintro op build ⟨⟩
    · rintro type op0 op1 ⟨⟩
    · rintro type op ⟨⟩
  refine (foldNegateExpr_agrees_iff _ _ ?_).mpr ⟨Or.inl rfl, ?_⟩
  · rw [negateExprP, stripSignNops, negateCodeP, hp, hp]
    · rfl
    · rintro code type op ⟨⟩
  · rw [PartsPlain]
    exact fun _ => ⟨⟨hplain 0, hplain 1⟩, hparts 0, hparts 1⟩

/-- The negation of a variable as an enumeral of the same mode and sign. Source: `fold-const.c` `negate_expr_p` (`STRIP_SIGN_NOPS`). -/
def convertedNegation : Tree Unit Unit :=
  .unary .NOP_EXPR { integerTypeNode false with code := .ENUMERAL_TYPE }
    (.unary .NEGATE_EXPR (integerTypeNode false) (.other (integerTypeNode false) 0))

/-- **A converted negation** passes the test and gives a null tree, which a `COMPLEX_EXPR` of two of them hands to its builder.
Source: `fold-const.c` `fold_negate_expr` (comment)
Kind: C -/
theorem foldNegateExpr_counterexample :
    (¬ ∀ (tgt : Target Unit Unit) (t : Tree Unit Unit), negateExprP tgt t = true → ∃ tem, foldNegateExpr tgt t = .ok (some tem)) ∧
    foldNegateExpr (.integers ⟨false, false, true⟩) convertedNegation = .ok none ∧
    foldNegateExpr (.integers ⟨false, false, true⟩)
      (.binary .COMPLEX_EXPR { integerTypeNode false with code := .COMPLEX_TYPE, mode := 64 } convertedNegation convertedNegation) =
        .error .COMPLEX_EXPR := by
  have hp : negateExprP (.integers ⟨false, false, true⟩) convertedNegation = true := by
    rw [convertedNegation, negateExprP, stripSignNops, if_pos (by decide), stripSignNops, if_neg (by decide), negateCodeP]
  have hnull : foldNegateExpr (.integers ⟨false, false, true⟩) convertedNegation = .ok none := by
    rw [convertedNegation, foldNegateExpr, if_neg (by decide)]
  refine ⟨fun h => ?_, hnull, ?_⟩
  · obtain ⟨tem, htem⟩ := h _ _ hp
    rw [hnull] at htem
    cases htem
  · rw [foldNegateExpr, negateExprP, stripSignNops, negateCodeP, hp, hnull]
    · rfl
    · rintro code type op ⟨⟩

end Agreement

end GccCore.Gcc.Negate
