import GccCore.Gcc.Chrec.Basic

/-!
# `gcc/tree-chrec.c`: products of chains of recurrences

A product in nested loops multiplies the initial value of the inner recurrence only, and one in a single loop is folded by the formula
for steps that do not change.

* **Results** (`eval_chrecFoldMultiply`): the product of the values, and what the rules miss of it (`defect`).
* **When nothing is missed** (`chrecFoldMultiply_iff`): exactly under a condition on the parts of the two operands (`MultiplyHolds`).
* **First degree** (`multiplyHolds_affine`): the formula for a single loop is right there.
-/

namespace GccCore.Gcc.TreeChrec

open GccCore.Lib.Recurrence

/-! ## The code -/

section Code

variable {p : ℕ} (maxExprSize : ℕ)

/-- Source: `tree-chrec.c` `chrec_fold_multiply`, `chrec_fold_multiply_poly_poly`. -/
def chrecFoldMultiply (op0 op1 : Chrec p) : Option (Chrec p) :=
  match op0, op1 with
  | .poly var0 left0 right0, .poly var1 left1 right1 =>
    if flowLoopNestedP var0 var1 then
      buildPolynomialChrec var1 (chrecFoldMultiply left1 (.poly var0 left0 right0)) (some right1)
    else if flowLoopNestedP var1 var0 then
      buildPolynomialChrec var0 (chrecFoldMultiply left0 (.poly var1 left1 right1)) (some right0)
    else
      let t0 := chrecFoldMultiply left0 left1
      let t1 := chrecFoldMultiply left0 right1
      let t1 := chrecFoldPlus maxExprSize t1 (chrecFoldMultiply right0 left1)
      let t1 := chrecFoldPlus maxExprSize t1 (chrecFoldMultiply right0 right1)
      let t2 := (chrecFoldMultiply right0 right1).bind (mulCst 2)
      buildPolynomialChrec var0 t0 (buildPolynomialChrec var0 t1 t2)
  | .poly var0 left0 right0, .cst d => mulCst d (.poly var0 left0 right0)
  | .cst c, .poly var1 left1 right1 => mulCst c (.poly var1 left1 right1)
  | .cst c, .cst d => mulCst d (.cst c)
termination_by op0.size + op1.size
decreasing_by
  all_goals
    simp only [Chrec.size]
    omega

end Code

/-! ## What the rules miss -/

section Defect

variable {p : ℕ}

/-- What a nested product misses: the steps of the inner recurrence are not multiplied.
Source: `tree-chrec.c` `chrec_fold_multiply_poly_poly` (`/* poly0 is a constant wrt. poly1. */`) -/
def stepsMissed (var : ℕ) (right outer : (ℕ → ℕ) → BitVec p) (n : ℕ → ℕ) : BitVec p :=
  steps var right n - steps var right n * outer n

/-- What the formula for a single loop misses at a step: a step of each factor meets the sum of the other one.
Source: `tree-chrec.c` `chrec_fold_multiply_poly_poly` (`a*d + b*c + b*d`, `2*b*d`) -/
def formulaMissed (var : ℕ) (b d : (ℕ → ℕ) → BitVec p) (n : ℕ → ℕ) : BitVec p :=
  steps var (fun n => b n * d n * 2) n - (steps var b n * d n + b n * steps var d n)

/-- What the products of the parts miss at a step: those of an initial value and a step, and that of the steps, which is used twice.
Source: `tree-chrec.c` `chrec_fold_multiply_poly_poly` (`t1`, `t2`) -/
def partsMissed (var : ℕ) (ad bc bd : (ℕ → ℕ) → BitVec p) (n : ℕ → ℕ) : BitVec p :=
  ad n + bc n + bd n + steps var (fun n => bd n * 2) n

/-- What the rules miss of a product, at an iteration. Source: `tree-chrec.c` `chrec_fold_multiply_poly_poly`. -/
def defect (op0 op1 : Chrec p) : (ℕ → ℕ) → BitVec p :=
  match op0, op1 with
  | .poly var0 left0 right0, .poly var1 left1 right1 =>
    if flowLoopNestedP var0 var1 then fun n =>
      defect left1 (.poly var0 left0 right0) n + stepsMissed var1 right1.eval (Chrec.poly var0 left0 right0).eval n
    else if flowLoopNestedP var1 var0 then fun n =>
      defect left0 (.poly var1 left1 right1) n + stepsMissed var0 right0.eval (Chrec.poly var1 left1 right1).eval n
    else chain var0 (defect left0 left1) fun n =>
      partsMissed var0 (defect left0 right1) (defect right0 left1) (defect right0 right1) n + formulaMissed var0 right0.eval right1.eval n
  | _, _ => fun _ => 0
termination_by op0.size + op1.size
decreasing_by
  all_goals
    simp only [Chrec.size]
    omega

/-- **When a product is right**: in nested loops, the product of the initial value is right, and the sums of the inner steps are left
unchanged by the outer factor; in a single loop, the product of the initial values is right, and what the products of the other parts
miss is made up for by what the formula misses.
Source: `tree-chrec.c` `chrec_fold_multiply_poly_poly` -/
def MultiplyHolds (op0 op1 : Chrec p) : Prop :=
  match op0, op1 with
  | .poly var0 left0 right0, .poly var1 left1 right1 =>
    if flowLoopNestedP var0 var1 then
      MultiplyHolds left1 (.poly var0 left0 right0) ∧ ∀ n, stepsMissed var1 right1.eval (Chrec.poly var0 left0 right0).eval n = 0
    else if flowLoopNestedP var1 var0 then
      MultiplyHolds left0 (.poly var1 left1 right1) ∧ ∀ n, stepsMissed var0 right0.eval (Chrec.poly var1 left1 right1).eval n = 0
    else MultiplyHolds left0 left1 ∧ ∀ n, partsMissed var0 (defect left0 right1) (defect right0 left1) (defect right0 right1) n +
      formulaMissed var0 right0.eval right1.eval n = 0
  | _, _ => True
termination_by op0.size + op1.size
decreasing_by
  all_goals
    simp only [Chrec.size]
    omega

variable {var v var0 var1 m : ℕ} {left0 right0 left1 right1 P Q : Chrec p} {n : ℕ → ℕ}

theorem nested_iff {outer loop : ℕ} : flowLoopNestedP outer loop = true ↔ outer < loop := decide_eq_true_iff

theorem defect_cst_left (c : BitVec p) (Q : Chrec p) : defect (.cst c) Q = fun _ => 0 := by
  simp only [defect]

theorem defect_cst_right (P : Chrec p) (d : BitVec p) : defect P (.cst d) = fun _ => 0 := by
  simp only [defect]

theorem defect_outer_left (h : var0 < var1) : defect (.poly var0 left0 right0) (.poly var1 left1 right1) = fun n =>
    defect left1 (.poly var0 left0 right0) n + stepsMissed var1 right1.eval (Chrec.poly var0 left0 right0).eval n := by
  rw [defect, if_pos (nested_iff.mpr h)]

theorem defect_outer_right (h : var1 < var0) : defect (.poly var0 left0 right0) (.poly var1 left1 right1) = fun n =>
    defect left0 (.poly var1 left1 right1) n + stepsMissed var0 right0.eval (Chrec.poly var1 left1 right1).eval n := by
  rw [defect, if_neg (nested_iff.not.mpr h.not_gt), if_pos (nested_iff.mpr h)]

theorem defect_same : defect (.poly var left0 right0) (.poly var left1 right1) = chain var (defect left0 left1) fun n =>
    partsMissed var (defect left0 right1) (defect right0 left1) (defect right0 right1) n + formulaMissed var right0.eval right1.eval n := by
  rw [defect, if_neg (nested_iff.not.mpr (lt_irrefl _)), if_neg (nested_iff.not.mpr (lt_irrefl _))]

theorem fixed_stepsMissed {right outer : (ℕ → ℕ) → BitVec p} (hne : var ≠ v) (hright : Fixed v right) (houter : Fixed v outer) :
    Fixed v (stepsMissed var right outer) := fun n j => by
  rw [stepsMissed, stepsMissed, fixed_steps hne hright, houter]

theorem fixed_partsMissed {ad bc bd : (ℕ → ℕ) → BitVec p} (hne : var ≠ v) (had : Fixed v ad) (hbc : Fixed v bc) (hbd : Fixed v bd) :
    Fixed v (partsMissed var ad bc bd) :=
  ((had.add hbc).add hbd).add (fixed_steps hne (hbd.mul fun _ _ => rfl))

theorem fixed_formulaMissed {b d : (ℕ → ℕ) → BitVec p} (hne : var ≠ v) (hb : Fixed v b) (hd : Fixed v d) :
    Fixed v (formulaMissed var b d) := fun n j => by
  rw [formulaMissed, formulaMissed, fixed_steps hne ((hb.mul hd).mul fun _ _ => rfl), fixed_steps hne hb, fixed_steps hne hd, hb,
    hd]

/-- Nothing that is missed depends on a loop that is not in the operands. -/
theorem fixed_defect (hP : P.InNest m) (hQ : Q.InNest m) (hle : m ≤ v) : Fixed v (defect P Q) := by
  induction hsize : P.size + Q.size using Nat.strong_induction_on generalizing P Q m with
  | _ size ih =>
    have ihAt {P' Q' : Chrec p} (hlt : P'.size + Q'.size < size) (hP' : P'.InNest m) (hQ' : Q'.InNest m) : Fixed v (defect P' Q') :=
      ih _ hlt hP' hQ' hle rfl
    rcases P with c | ⟨var0, left0, right0⟩ <;> rcases Q with d | ⟨var1, left1, right1⟩
    · exact defect_cst_left c _ ▸ fun _ _ => rfl
    · exact defect_cst_left c _ ▸ fun _ _ => rfl
    · exact defect_cst_right _ d ▸ fun _ _ => rfl
    · obtain ⟨hvar0, hleft0, hright0⟩ := id hP
      obtain ⟨hvar1, hleft1, hright1⟩ := id hQ
      simp only [Chrec.size] at hsize
      obtain hlt | rfl | hlt := lt_trichotomy var0 var1
      · rw [defect_outer_left hlt]
        exact (ihAt (by simp only [Chrec.size]; omega) (hleft1.mono hvar1.le) hP).add
          (fixed_stepsMissed (by omega) (fixed_of_inNest hright1 (by omega)) (fixed_of_inNest hP hle))
      · rw [defect_same]
        refine fixed_chain (by omega) (ihAt (by omega) (hleft0.mono hvar0.le) (hleft1.mono hvar0.le)) ?_
        refine (fixed_partsMissed (by omega) ?_ ?_ ?_).add
          (fixed_formulaMissed (by omega) (fixed_of_inNest hright0 (by omega)) (fixed_of_inNest hright1 (by omega)))
        · exact ihAt (by omega) (hleft0.mono hvar0.le) (hright1.mono hvar0)
        · exact ihAt (by omega) (hright0.mono hvar0) (hleft1.mono hvar0.le)
        · exact ihAt (by omega) (hright0.mono hvar0) (hright1.mono hvar0)
      · rw [defect_outer_right hlt]
        exact (ihAt (by simp only [Chrec.size]; omega) (hleft0.mono hvar0.le) hQ).add
          (fixed_stepsMissed (by omega) (fixed_of_inNest hright0 (by omega)) (fixed_of_inNest hQ hle))

/-- Nothing is missed at the first iteration of the inner loop. -/
theorem stepsMissed_zero (right outer : (ℕ → ℕ) → BitVec p) : stepsMissed var right outer (Function.update n var 0) = 0 := by
  rw [stepsMissed, steps_update, Finset.sum_range_zero, zero_mul, sub_zero]

/-- **The condition** says that the rules miss nothing. Source: `tree-chrec.c` `chrec_fold_multiply_poly_poly`. Kind: L -/
theorem defect_eq_zero_iff (hP : P.InNest m) (hQ : Q.InNest m) : (∀ n, defect P Q n = 0) ↔ MultiplyHolds P Q := by
  induction hsize : P.size + Q.size using Nat.strong_induction_on generalizing P Q m with
  | _ size ih =>
    have ihAt {P' Q' : Chrec p} (hlt : P'.size + Q'.size < size) (hP' : P'.InNest m) (hQ' : Q'.InNest m) :
        (∀ n, defect P' Q' n = 0) ↔ MultiplyHolds P' Q' := ih _ hlt hP' hQ' rfl
    rcases P with c | ⟨var0, left0, right0⟩ <;> rcases Q with d | ⟨var1, left1, right1⟩
    · simp only [defect, MultiplyHolds, implies_true]
    · simp only [defect, MultiplyHolds, implies_true]
    · simp only [defect, MultiplyHolds, implies_true]
    · obtain ⟨hvar0, hleft0, hright0⟩ := id hP
      obtain ⟨hvar1, hleft1, hright1⟩ := id hQ
      simp only [Chrec.size] at hsize
      obtain hlt | rfl | hlt := lt_trichotomy var0 var1
      · rw [defect_outer_left hlt, MultiplyHolds, if_pos (nested_iff.mpr hlt),
          ← ihAt (by simp only [Chrec.size]; omega) (hleft1.mono hvar1.le) hP]
        exact add_eq_zero_iff_of_fixed (fixed_defect hleft1 ⟨hlt, hleft0, hright0⟩ le_rfl) fun _ => stepsMissed_zero _ _
      · rw [defect_same, MultiplyHolds, if_neg (nested_iff.not.mpr (lt_irrefl _)), if_neg (nested_iff.not.mpr (lt_irrefl _)),
          ← ihAt (by omega) (hleft0.mono hvar0.le) (hleft1.mono hvar0.le)]
        exact chain_eq_zero_iff (fixed_defect hleft0 hleft1 le_rfl)
      · rw [defect_outer_right hlt, MultiplyHolds, if_neg (nested_iff.not.mpr hlt.not_gt), if_pos (nested_iff.mpr hlt),
          ← ihAt (by simp only [Chrec.size]; omega) (hleft0.mono hvar0.le) hQ]
        exact add_eq_zero_iff_of_fixed (fixed_defect hleft0 ⟨hlt, hleft1, hright1⟩ le_rfl) fun _ => stepsMissed_zero _ _

end Defect

/-! ## Values -/

section Values

variable {p maxExprSize m var : ℕ} {P Q R : Chrec p}

/-- The recurrence of two parts that is not deeper than the outer factor. Source: `tree-chrec.c` `chrec_fold_multiply_poly_poly`. Kind: L -/
theorem eval_nested {left right : Chrec p} {outer e : (ℕ → ℕ) → BitVec p} {first : Option (Chrec p)}
    (hfirst : ∀ c, first = some c → c.eval = fun n => left.eval n * outer n + e n)
    (h : buildPolynomialChrec var first (some right) = some R) :
    R.eval = fun n => chain var left.eval right.eval n * outer n + (e n + stepsMissed var right.eval outer n) := by
  obtain ⟨l, r, hl, hr, -, hc⟩ := eval_build h
  rw [hc, hfirst l hl, ← Option.some.inj hr]
  funext n
  rw [chain, chain, stepsMissed]
  ring

/-- **A product** that is known has the product of the values, and what the rules miss.
Source: `tree-chrec.c` `chrec_fold_multiply`
Kind: L -/
theorem eval_chrecFoldMultiply (hP : P.InNest m) (hQ : Q.InNest m) (h : chrecFoldMultiply maxExprSize P Q = some R) :
    R.eval = fun n => P.eval n * Q.eval n + defect P Q n := by
  induction hsize : P.size + Q.size using Nat.strong_induction_on generalizing P Q R m with
  | _ size ih =>
    have ihAt {P' Q' R' : Chrec p} (hlt : P'.size + Q'.size < size) (hP' : P'.InNest m) (hQ' : Q'.InNest m)
        (h' : chrecFoldMultiply maxExprSize P' Q' = some R') : R'.eval = fun n => P'.eval n * Q'.eval n + defect P' Q' n :=
      ih _ hlt hP' hQ' h' rfl
    rcases P with c | ⟨var0, left0, right0⟩ <;> rcases Q with d | ⟨var1, left1, right1⟩ <;> rw [chrecFoldMultiply] at h
    · rw [eval_mulCst h, defect_cst_left]
      funext n
      rw [add_zero, eval_cst d]
    · rw [eval_mulCst h, defect_cst_left]
      funext n
      rw [add_zero, eval_cst, mul_comm]
    · rw [eval_mulCst h, defect_cst_right]
      funext n
      rw [add_zero, eval_cst]
    · obtain ⟨hvar0, hleft0, hright0⟩ := id hP
      obtain ⟨hvar1, hleft1, hright1⟩ := id hQ
      simp only [Chrec.size] at hsize
      obtain hlt | rfl | hlt := lt_trichotomy var0 var1
      · rw [if_pos (nested_iff.mpr hlt)] at h
        rw [eval_nested (fun c hc => ihAt (by simp only [Chrec.size]; omega) (hleft1.mono hvar1.le) hP hc) h, defect_outer_left hlt]
        funext n
        rw [mul_comm, eval_poly var1]
      · rw [if_neg (nested_iff.not.mpr (lt_irrefl _)), if_neg (nested_iff.not.mpr (lt_irrefl _))] at h
        obtain ⟨t0, t, ht0, ht, -, hR⟩ := eval_build h
        obtain ⟨t1, t2, ht1, ht2, -, hstep⟩ := eval_build ht
        obtain ⟨t1', bd, ht1', hbd, ht1⟩ := eval_chrecFoldPlus ht1
        obtain ⟨ad, bc, had, hbc, ht1'⟩ := eval_chrecFoldPlus ht1'
        obtain ⟨bd', hbd', ht2⟩ := Option.bind_eq_some_iff.mp ht2
        obtain rfl : bd = bd' := Option.some.inj (hbd.symm.trans hbd')
        -- the values of the parts
        have hadEval := ihAt (by omega) (hleft0.mono hvar0.le) (hright1.mono hvar0) had
        have hbcEval := ihAt (by omega) (hright0.mono hvar0) (hleft1.mono hvar0.le) hbc
        have hbdEval := ihAt (by omega) (hright0.mono hvar0) (hright1.mono hvar0) hbd
        have ht2Eval := eval_mulCst ht2
        rw [hR, ihAt (by omega) (hleft0.mono hvar0.le) (hleft1.mono hvar0.le) ht0, hstep, ht1, ht1', ht2Eval, hadEval, hbcEval, hbdEval,
          eval_poly, eval_poly, defect_same]
        funext n
        rw [chain_mul_chain (fixed_of_inNest hleft0 le_rfl) (fixed_of_inNest hleft1 le_rfl), chain_add]
        refine congrArg₂ (· + ·) rfl (congrArg (steps var0 · n) (funext fun n => ?_))
        have hsplit : steps var0 (fun n => (right0.eval n * right1.eval n + defect right0 right1 n) * 2) n =
            steps var0 (fun n => right0.eval n * right1.eval n * 2) n + steps var0 (fun n => defect right0 right1 n * 2) n := by
          rw [← steps_add]
          simp only [add_mul]
        rw [chain, hsplit, partsMissed, formulaMissed]
        ring
      · rw [if_neg (nested_iff.not.mpr hlt.not_gt), if_pos (nested_iff.mpr hlt)] at h
        rw [eval_nested (fun c hc => ihAt (by simp only [Chrec.size]; omega) (hleft0.mono hvar0.le) hQ hc) h, defect_outer_right hlt]
        rfl

/-- **Products**: a product that is known has the product of the values at every iteration exactly under the condition on its operands.
Source: `tree-chrec.c` `chrec_fold_multiply`
Kind: P -/
theorem chrecFoldMultiply_iff (hP : P.InNest m) (hQ : Q.InNest m) (h : chrecFoldMultiply maxExprSize P Q = some R) :
    (∀ n, R.eval n = P.eval n * Q.eval n) ↔ MultiplyHolds P Q := by
  rw [← defect_eq_zero_iff hP hQ, eval_chrecFoldMultiply hP hQ h]
  simp only [add_eq_left]

theorem multiplyHolds_cst_left (c : BitVec p) (Q : Chrec p) : MultiplyHolds (.cst c) Q := by
  simp only [MultiplyHolds]

theorem inNest_affine {a b : BitVec p} (h : var < m) : (Chrec.poly var (.cst a) (.cst b)).InNest m := ⟨h, trivial, trivial⟩

/-- The product of `{1, +, 2}` and `{3, +, 4}`. Source: `tree-chrec.c` `chrec_fold_multiply_poly_poly`. Kind: L -/
theorem chrecFoldMultiply_one_two : chrecFoldMultiply 20 (.poly 1 (.cst 1) (.cst 2)) (.poly 1 (.cst 3) (.cst (4 : BitVec 32))) =
    some (.poly 1 (.cst 3) (.poly 1 (.cst 18) (.cst 16))) := by
  simp [chrecFoldMultiply, flowLoopNestedP, mulCst, chrecFoldPlus, chrecFold, chrecFoldPlus1, chrecZerop, AddCode.op,
    buildPolynomialChrec, evolvesInLoop]

/-- **First degree** in a single loop: the formula is right. Source: `tree-chrec.c` `chrec_fold_multiply_poly_poly` (comment). Kind: P -/
theorem multiplyHolds_affine (a b c d : BitVec p) : MultiplyHolds (.poly var (.cst a) (.cst b)) (.poly var (.cst c) (.cst d)) := by
  rw [MultiplyHolds, if_neg (nested_iff.not.mpr (lt_irrefl _)), if_neg (nested_iff.not.mpr (lt_irrefl _))]
  refine ⟨multiplyHolds_cst_left a _, fun n => ?_⟩
  simp only [partsMissed, formulaMissed, defect_cst_left, steps, eval_cst, Finset.sum_const, Finset.card_range, nsmul_eq_mul]
  ring

/-- Source: `tree-chrec.c` `chrec_fold_multiply`. Kind: C -/
theorem chrecFoldMultiply_iff_one_two :
    (Chrec.poly 1 (.cst 3) (.poly 1 (.cst 18) (.cst (16 : BitVec 32)))).eval (fun _ => 5) =
      (Chrec.poly 1 (.cst 1) (.cst 2)).eval (fun _ => 5) * (Chrec.poly 1 (.cst 3) (.cst 4)).eval (fun _ => 5) :=
  (chrecFoldMultiply_iff (inNest_affine (by decide)) (inNest_affine (by decide)) chrecFoldMultiply_one_two (m := 2)).mpr
    (multiplyHolds_affine 1 2 3 4) fun _ => 5

/-- The steps of the inner recurrence are not multiplied: `{1, +, 1}` in the outer loop is two at its iteration 1.
Source: `tree-chrec.c` `chrec_fold_multiply_poly_poly`
Kind: C -/
theorem not_forall_chrecFoldMultiply : ¬ ∀ P Q R : Chrec 32, P.InNest 3 → Q.InNest 3 → chrecFoldMultiply 20 P Q = some R →
    ∀ n, R.eval n = P.eval n * Q.eval n := by
  intro h
  have hmul : chrecFoldMultiply 20 (.poly 1 (.cst 1) (.cst 1)) (.poly 2 (.cst 0) (.cst (1 : BitVec 32))) =
      some (.poly 2 (.cst 0) (.cst 1)) := by
    simp [chrecFoldMultiply, flowLoopNestedP, mulCst, chrecZerop, buildPolynomialChrec, evolvesInLoop]
  have hvalue := h _ _ _ (inNest_affine (by decide)) (inNest_affine (by decide)) hmul fun _ => 1
  exact absurd hvalue (by decide)

end Values

end GccCore.Gcc.TreeChrec
