import GccCore.Gcc.DataRef.Steps
import GccCore.Gcc.Lambda.Echelon

/-!
# `gcc/tree-data-ref.c`: subscripts that are affine on both sides

The iterations that meet solve a Diophantine equation, by the unimodular matrix of a Hermite decomposition of the column of the
steps. Integers are without bounds.

* **The decomposition of two steps** (`rightHermite_column`): the second row of the unimodular factor is positive for steps of one
  sign.
* **One loop** (`analyzeSubscriptAffineAffine_spec`): the overlaps reported are all, and none is missed.
* **Two loops** (`analyzeMivSubscript_sound_iff`): both iterations are compared with the smaller count.
-/

namespace GccCore.Gcc.DataRef

open Matrix
open GccCore.Gcc.Lambda
open GccCore.Lib.ElementaryMatrix

/-! ## The code -/

section Code

/-- A column has an entry. -/
local instance neZeroOne : NeZero 1 := ⟨Nat.one_ne_zero⟩

/-- Two steps have a first one. -/
local instance neZeroTwo : NeZero 2 := ⟨Nat.succ_ne_zero 1⟩

/-- `{{init, +, step}_loop, +, step'}_loop'`, with the loops and steps from the outermost node on. Source: `tree-chrec.h`. -/
structure AffineChrec where
  init : ℤ
  steps : List (ℕ × ℤ)
  deriving DecidableEq, Repr

/-- Source: `system.h` `CEIL`. -/
def ceilMacro (x y : ℤ) : ℤ := (x + y - 1).tdiv y

/-- Both access functions are univariate, where `S` and `U` are the decomposition of their steps, and the step of the second one is
negated there.
Source: `tree-data-ref.c` `analyze_subscript_affine_affine` ("Both access functions are univariate.") -/
def analyzeUnivariate (stepA stepB gamma niterA niterB : ℤ) (gcdAlphaBeta : ℤ) (U : LambdaMatrix 2 2) : Overlaps :=
  if SameSign stepA stepB then
    let i0 := (U 0 0 * gamma).tdiv gcdAlphaBeta
    let j0 := (U 0 1 * gamma).tdiv gcdAlphaBeta
    let i1 := U 1 0
    let j1 := U 1 1
    if (i1 = 0 ∧ i0 < 0) ∨ (j1 = 0 ∧ j0 < 0) then .noDependence
    else if 0 < i1 ∧ 0 < j1 then
      let niter := min niterA niterB
      let tau1 := max (ceilMacro (-i0) i1) (ceilMacro (-j0) j1)
      let x0 := i1 * tau1 + i0
      let y0 := j1 * tau1 + j0
      let minMultiple := min (x0.tdiv i1) (y0.tdiv j1)
      let x1 := x0 - i1 * minMultiple
      let y1 := y0 - j1 * minMultiple
      let tau2 := min (floorDiv (niter - i0) i1) (floorDiv (niter - j0) j1)
      let lastConflict := tau2 - (x1 - i0).tdiv i1
      if 0 < niter ∧ (niter ≤ x1 ∨ niter ≤ y1) then .noDependence
      else ⟨.fns [affineFnUnivar x1 1 i1], .fns [affineFnUnivar y1 1 j1], if 0 < niter then some lastConflict else none⟩
    else .notKnown
  else .notKnown

/-- What is answered for the entry `S[0][0]` that is left. Source: `tree-data-ref.c` `analyze_subscript_affine_affine` ("gcd-test"). -/
def gcdTest (gcdAlphaBeta gamma : ℤ) (solve : Overlaps) : Overlaps :=
  if gcdAlphaBeta = 0 then .notKnown else if gamma.tmod gcdAlphaBeta ≠ 0 then .noDependence else solve

/-- The negated first row, if `S[0][0]` is negative. Source: `tree-data-ref.c` `analyze_subscript_affine_affine`. -/
def normalizeRow {m : ℕ} (s00 : ℤ) (r : Fin m) (U : LambdaMatrix m m) : LambdaMatrix m m :=
  if s00 < 0 then lambdaMatrixRowNegate U r else U

/-- The evolutions start alike. Source: `tree-data-ref.c` `analyze_subscript_affine_affine` (`gamma == 0`). -/
def analyzeEqualInit (niterOf : ℕ → ℤ) (chrecA chrecB : AffineChrec) : Overlaps :=
  match chrecA.steps, chrecB.steps with
  | [(x, stepA)], [(y, stepB)] =>
    let c := computeOverlapStepsForAffineUnivar (min (niterOf x) (niterOf y)) stepA stepB 1
    ⟨.fns [c.1], .fns [c.2.1], c.2.2⟩
  | [(y, stepY), (x, stepX)], [(z, stepZ)] => computeOverlapStepsForAffine12 stepX stepY stepZ (niterOf x) (niterOf y) (niterOf z)
  | [(z, stepZ)], [(y, stepY), (x, stepX)] =>
    let o := computeOverlapStepsForAffine12 stepX stepY stepZ (niterOf x) (niterOf y) (niterOf z)
    ⟨o.overlapsB, o.overlapsA, o.lastConflicts⟩
  | _, _ => .notKnown

/-- The column of the steps, those of the second access negated. Source: `tree-data-ref.c` `initialize_matrix_A`. -/
def initializeMatrixA (steps : List ℤ) : LambdaMatrix steps.length 1 := fun i _ => steps.get i

/-- The estimates of the numbers of iterations are those of the loops, negative if there is none; no answer if the fuel is not
enough.
Source: `tree-data-ref.c` `analyze_subscript_affine_affine` -/
def analyzeSubscriptAffineAffine (fuel : ℕ) (niterOf : ℕ → ℤ) (chrecA chrecB : AffineChrec) : Option Overlaps :=
  if chrecA = chrecB then some ⟨.fns [affineFnCst 0], .fns [affineFnCst 0], none⟩
  else
    let gamma := chrecB.init - chrecA.init
    if gamma = 0 then some (analyzeEqualInit niterOf chrecA chrecB)
    else
      match chrecA.steps, chrecB.steps with
      | [(x, stepA)], [(y, stepB)] =>
        (lambdaMatrixRightHermite fuel !![stepA; -1 * stepB]).map fun s =>
          gcdTest |s.1 0 0| gamma
            (analyzeUnivariate stepA stepB gamma (niterOf x) (niterOf y) |s.1 0 0| (normalizeRow (s.1 0 0) 0 s.2))
      | stepsA, stepsB =>
        (lambdaMatrixRightHermite fuel (initializeMatrixA (stepsA.map Prod.snd ++ stepsB.map fun p => -1 * p.2))).bind fun s =>
          (rowCells s.1 0 0).map fun s00 => gcdTest |s00| gamma .notKnown

/-- The difference, if it is constant: for nonzero steps, those of both are the same.
Source: `tree-data-ref.c` `analyze_miv_subscript` (`difference`) -/
def constantDifference (chrecA chrecB : AffineChrec) : Option ℤ :=
  if chrecA.steps = chrecB.steps then some (chrecA.init - chrecB.init) else none

/-- Source: `tree-data-ref.c` `gcd_of_steps_may_divide_p`. -/
def gcdOfStepsMayDivideP (chrec : AffineChrec) (cst : ℤ) : Bool :=
  cst.tmod (chrec.steps.foldl (fun cd step => gcd cd step.2) 0) = 0

/-- The bounds are those of the numbers of iterations, if they are known.
Source: `tree-data-ref.c` `analyze_miv_subscript` -/
def analyzeMivSubscript (fuel : ℕ) (niterOf : ℕ → ℤ) (upperBound : Option ℤ) (chrecA chrecB : AffineChrec) : Option Overlaps :=
  if chrecA = chrecB then some ⟨.fns [affineFnCst 0], .fns [affineFnCst 0], upperBound⟩
  else if (constantDifference chrecA chrecB).any fun d => !gcdOfStepsMayDivideP chrecA d then some .noDependence
  else if chrecA.steps ≠ [] ∧ chrecB.steps ≠ [] then analyzeSubscriptAffineAffine fuel niterOf chrecA chrecB
  else some .notKnown

end Code

/-! ## The decomposition of two steps -/

section Hermite

variable {stepA stepB : ℤ}

/-- **The loop over a row, run by run**: what a step keeps is kept. Source: `lambda-mat.c` `lambda_matrix_right_hermite` (`while`). Kind: L -/
theorem eliminate_keeps {m n : ℕ} {β : Type} {mirror : Elementary (Fin m) ℤ → β → β} {j : Fin n} {i : Fin m}
    {Q : LambdaMatrix m n × β → Prop}
    (hstep : ∀ s, Q s → s.1 i j ≠ 0 → Q (rowBoth mirror (.exchange i (before i))
      (rowBoth mirror (.add (before i) i (-eliminateFactor (s.1 (before i) j) (s.1 i j))) s))) :
    ∀ (fuel : ℕ) (s t : LambdaMatrix m n × β), Q s → eliminate mirror j i fuel s = some t → Q t := by
  intro fuel
  induction fuel with
  | zero => exact fun s t _ h => absurd h (by rw [eliminate]; exact Option.some_ne_none t |>.symm)
  | succ fuel ih =>
    intro s t hs h
    rw [eliminate] at h
    split_ifs at h with hne
    · exact ih _ t (hstep s hs hne) h
    · exact Option.some.inj h ▸ hs

/-- A column of two entries is reduced in its second row. Source: `lambda-mat.c` `lambda_matrix_right_hermite`. Kind: L -/
theorem rightHermite_eq_eliminate {A : LambdaMatrix 2 1} (hA : A 0 0 ≠ 0) (fuel : ℕ) :
    lambdaMatrixRightHermite fuel A = eliminate rowOp 0 1 fuel (A, 1) := by
  have htest : rowTest A 0 0 = some 0 := by
    have hcell : rowCells A 0 0 = some (A 0 0) := dif_pos ⟨Nat.two_pos, Nat.one_pos⟩
    rw [rowTest, Fin.val_zero, if_pos Nat.two_pos, lambdaVectorFirstNz, if_pos Nat.two_pos, hcell, Option.bind_some, if_neg hA]
  have hclear : clearColumn rowOp fuel (0 : Fin 1) (0 + 1) (A, (1 : LambdaMatrix 2 2)) = eliminate rowOp 0 1 fuel (A, 1) := by
    have hrows : ((List.finRange 2).drop (0 + 1)).reverse = [1] := rfl
    rw [clearColumn, hrows, List.foldlM_cons]
    cases eliminate rowOp 0 1 fuel (A, (1 : LambdaMatrix 2 2)) <;> rfl
  have hstep : columnStep rowOp fuel ⟨0, A, (1 : LambdaMatrix 2 2)⟩ (0 : Fin 1) =
      (eliminate rowOp 0 1 fuel (A, 1)).map fun s => ⟨1, s⟩ := by
    rw [columnStep, htest, Option.bind_some, if_pos Nat.two_pos, hclear]
  have hlist : List.finRange 1 = [0] := rfl
  rw [lambdaMatrixRightHermite, hermiteColumns, hlist, List.foldlM_cons, hstep]
  cases eliminate rowOp 0 1 fuel (A, (1 : LambdaMatrix 2 2)) <;> rfl

/-- The determinant changes its sign with every step. Source: `lambda-mat.c` `lambda_matrix_right_hermite`. Kind: L -/
theorem det_step (k : ℤ) (U : LambdaMatrix 2 2) : (rowOp (.exchange 1 0) (rowOp (.add 0 1 k) U)).det = -U.det := by
  have hadd (r c : Fin 2) : (rowOp (.add 0 1 k) U) r c = if r = 0 then U 0 c + k * U 1 c else U r c :=
    (congrFun₂ (rowOp_eq (.add 0 1 k) U) r c).trans (Elementary.add_mul_apply _ _ _ _ _ _)
  have hex (V : LambdaMatrix 2 2) (r c : Fin 2) : (rowOp (.exchange 1 0) V) r c = if r = 1 then V 0 c else if r = 0 then V 1 c else V r c :=
    (congrFun₂ (rowOp_eq (.exchange 1 0) V) r c).trans (Elementary.exchange_mul_apply _ _ _ _ _)
  rw [det_fin_two, det_fin_two]
  simp only [hex, hadd, if_true, zero_ne_one, one_ne_zero, if_false]
  ring

/-- The remainder has the sign of the dividend. Source: `lambda-mat.c` (`factor`). Kind: L -/
theorem mul_sub_eliminateFactor_nonneg {c a : ℤ} (hca : 0 < c * a) (b : ℤ) : 0 ≤ c * (a + -eliminateFactor a b * b) := by
  have hmod : a + -eliminateFactor a b * b = a.tmod b := by
    rw [eliminateFactor_eq, Int.tmod_def]
    ring
  rw [hmod]
  rcases pos_and_pos_or_neg_and_neg_of_mul_pos hca with ⟨hc, ha⟩ | ⟨hc, ha⟩
  · exact mul_nonneg hc.le (Int.tmod_nonneg b ha.le)
  · refine mul_nonneg_of_nonpos_of_nonpos hc.le ?_
    have hneg := Int.tmod_nonneg b (neg_nonneg.mpr ha.le)
    rw [Int.neg_tmod] at hneg
    omega

/-- **The decomposition of two steps.** The first entry that is left is positive, up to the sign of the determinant and of the first
step, if the steps have the same sign: remainders alternate in sign, and so does the determinant.
Source: `tree-data-ref.c` `analyze_subscript_affine_affine` ("U.A = S")
Kind: L -/
theorem rightHermite_column (hA : stepA ≠ 0) :
    ∃ S U, (∃ N, ∀ fuel ≥ N, lambdaMatrixRightHermite fuel !![stepA; -1 * stepB] = some (S, U)) ∧
      U 0 0 * stepA - U 0 1 * stepB = S 0 0 ∧ U 1 0 * stepA = U 1 1 * stepB ∧ (U.det = 1 ∨ U.det = -1) ∧ S 0 0 ≠ 0 ∧
      (SameSign stepA stepB → 0 < U.det * stepA * S 0 0) := by
  obtain ⟨A, hdef⟩ : ∃ A : LambdaMatrix 2 1, A = !![stepA; -1 * stepB] := ⟨_, rfl⟩
  have hA00 : A 0 0 = stepA := by rw [hdef]; rfl
  have hA10 : A 1 0 = -1 * stepB := by rw [hdef]; rfl
  have hb : before (1 : Fin 2) = 0 := rfl
  obtain ⟨⟨S, U⟩, hrun, ⟨hmul, hunit⟩, hcleared⟩ := @eliminate_spec 2 1 (LambdaMatrix 2 2) rowOp
    (fun s => s.2 * A = s.1 ∧ IsUnit s.2.det) 0 1 (A, 1)
    (fun e s he hs => by
      rw [rowBoth, rowOp_eq, rowOp_eq, Matrix.mul_assoc, hs.1, det_mul]
      exact ⟨rfl, (Elementary.isUnit_det he).mul hs.2⟩) Nat.one_pos ⟨Matrix.one_mul A, by rw [det_one]; exact isUnit_one⟩
  dsimp only at hrun hcleared hmul hunit
  have hentry (r : Fin 2) : U r 0 * stepA - U r 1 * stepB = S r 0 := by
    have h := congrFun₂ hmul r 0
    rw [Matrix.mul_apply, Fin.sum_univ_two, hA00, hA10] at h
    linear_combination h
  have hkeep := hcleared.keep (Or.inr (by rw [hb, hA00]; exact hA))
  rw [hb] at hkeep
  refine ⟨S, U, ⟨(A 1 0).natAbs + 1, fun fuel hfuel => ?_⟩, hentry 0, ?_, Int.isUnit_iff.mp hunit, hkeep, fun hsame => ?_⟩
  · rw [← hdef, rightHermite_eq_eliminate (by rw [hA00]; exact hA)]
    exact hrun fuel (Nat.lt_of_succ_le hfuel)
  · have h1 := hentry 1
    rw [hcleared.clear] at h1
    omega
  · -- what a step keeps: the signs of the two entries
    have hkept := @eliminate_keeps 2 1 (LambdaMatrix 2 2) rowOp 0 1
      (fun s => 0 < s.2.det * stepA * s.1 0 0 ∧ s.2.det * stepA * s.1 1 0 ≤ 0) (fun s hs hne => by
        have hupper : (rowBoth rowOp (.exchange 1 (before 1)) (rowBoth rowOp (.add (before 1) 1 (-eliminateFactor (s.1 (before 1) 0) (s.1 1 0))) s)).1 0 0 =
            s.1 1 0 := by
          rw [rowBoth_exchange, rowBoth_add, rowBoth_add, hb, if_neg zero_ne_one, if_pos rfl, if_neg one_ne_zero]
        have hlower : (rowBoth rowOp (.exchange 1 (before 1)) (rowBoth rowOp (.add (before 1) 1 (-eliminateFactor (s.1 (before 1) 0) (s.1 1 0))) s)).1 1 0 =
            s.1 0 0 + -eliminateFactor (s.1 0 0) (s.1 1 0) * s.1 1 0 := by
          rw [rowBoth_exchange, rowBoth_add, hb, if_pos rfl, if_pos rfl]
        have hdet : (rowBoth rowOp (.exchange 1 (before 1)) (rowBoth rowOp (.add (before 1) 1 (-eliminateFactor (s.1 (before 1) 0) (s.1 1 0))) s)).2.det =
            -s.2.det := det_step _ s.2
        rw [hupper, hlower, hdet]
        have hne' : s.2.det * stepA * s.1 1 0 ≠ 0 := by
          refine mul_ne_zero (fun hzero => ?_) hne
          rw [hzero, zero_mul] at hs
          exact absurd hs.1 (Int.lt_irrefl 0)
        have hrem := mul_sub_eliminateFactor_nonneg hs.1 (s.1 1 0)
        refine ⟨?_, ?_⟩
        · have hlt := lt_of_le_of_ne hs.2 hne'
          rw [neg_mul, neg_mul]
          omega
        · rw [neg_mul, neg_mul]
          omega)
    have hstart : 0 < (1 : LambdaMatrix 2 2).det * stepA * A 0 0 ∧ (1 : LambdaMatrix 2 2).det * stepA * A 1 0 ≤ 0 := by
      rw [det_one, one_mul, hA00, hA10, mul_left_comm, neg_one_mul]
      refine ⟨mul_self_pos.mpr hA, ?_⟩
      obtain ⟨h1, h2⟩ | ⟨h1, h2⟩ := hsame
      · exact neg_nonpos.mpr (mul_pos h1 h2).le
      · exact neg_nonpos.mpr (mul_pos_of_neg_of_neg h1 h2).le
    exact (hkept ((A 1 0).natAbs + 1) (A, 1) (S, U) hstart (hrun _ (Nat.lt_succ_self _))).1

end Hermite

/-! ## The equation -/

section Equation

variable {stepA stepB g u₀₀ u₀₁ u₁₀ u₁₁ : ℤ}

/-- **The solutions** are those of a unimodular matrix that turns the steps into their common divisor and zero.
Source: `tree-data-ref.c` `analyze_subscript_affine_affine` ("The solutions are given by")
Kind: L -/
theorem solutions_iff (hB : stepB ≠ 0) (h₀ : u₀₀ * stepA - u₀₁ * stepB = g) (h₁ : u₁₀ * stepA = u₁₁ * stepB)
    (hdet : u₀₀ * u₁₁ - u₀₁ * u₁₀ = 1 ∨ u₀₀ * u₁₁ - u₀₁ * u₁₀ = -1) (c x y : ℤ) :
    stepA * x - stepB * y = g * c ↔ ∃ t, x = u₀₀ * c + u₁₀ * t ∧ y = u₀₁ * c + u₁₁ * t := by
  constructor
  · intro h
    obtain ⟨d, hd, hdd⟩ : ∃ d, u₀₀ * u₁₁ - u₀₁ * u₁₀ = d ∧ d * d = 1 := by
      refine ⟨_, rfl, ?_⟩
      obtain h | h := hdet <;> rw [h] <;> rfl
    have hdiff : stepA * (x - u₀₀ * c) = stepB * (y - u₀₁ * c) := by linear_combination h - c * h₀
    have hcross : u₁₀ * (y - u₀₁ * c) = u₁₁ * (x - u₀₀ * c) := by
      refine mul_right_cancel₀ hB ?_
      linear_combination (x - u₀₀ * c) * h₁ - u₁₀ * hdiff
    refine ⟨d * (u₀₀ * (y - u₀₁ * c) - u₀₁ * (x - u₀₀ * c)), ?_, ?_⟩
    · linear_combination (-1) * (x - u₀₀ * c) * hdd - d * (x - u₀₀ * c) * hd - d * u₀₀ * hcross
    · linear_combination (-1) * (y - u₀₁ * c) * hdd - d * (y - u₀₁ * c) * hd - d * u₀₁ * hcross
  · rintro ⟨t, rfl, rfl⟩
    linear_combination c * h₀ + t * h₁

/-- The macro is not less than the quotient rounded up, for every numerator. Source: `system.h` `CEIL`. Kind: L -/
theorem le_mul_ceilMacro {y : ℤ} (hy : 0 < y) (x : ℤ) : x ≤ y * ceilMacro x y := by
  have hdiv : (x + y - 1) / y ≤ ceilMacro x y := Int.le_tdiv_of_mul_le hy (Int.ediv_mul_le _ hy.ne')
  have hmod := Int.emod_lt_of_pos (x + y - 1) hy
  have hsplit := Int.mul_ediv_add_emod (x + y - 1) y
  calc x ≤ y * ((x + y - 1) / y) := by omega
    _ ≤ y * ceilMacro x y := Int.mul_le_mul_of_nonneg_left hdiv hy.le

/-- **The first solution without negative numbers**, by going on until both are nonnegative and back again as far as possible.
Source: `tree-data-ref.c` `analyze_subscript_affine_affine` (`tau1`, `min_multiple`)
Kind: L -/
theorem first_solution {i₀ j₀ i₁ j₁ : ℤ} (hi : 0 < i₁) (hj : 0 < j₁) {tau x₀ y₀ m : ℤ}
    (htau : tau = max (ceilMacro (-i₀) i₁) (ceilMacro (-j₀) j₁)) (hx₀ : x₀ = i₁ * tau + i₀) (hy₀ : y₀ = j₁ * tau + j₀)
    (hm : m = min (x₀.tdiv i₁) (y₀.tdiv j₁)) :
    x₀ - i₁ * m = i₀ + i₁ * (tau - m) ∧ y₀ - j₁ * m = j₀ + j₁ * (tau - m) ∧ 0 ≤ x₀ - i₁ * m ∧ 0 ≤ y₀ - j₁ * m ∧
      ∀ t, 0 ≤ i₀ + i₁ * t → 0 ≤ j₀ + j₁ * t → tau - m ≤ t := by
  have hge (i j : ℤ) (hi : 0 < i) (hle : ceilMacro (-j) i ≤ tau) : 0 ≤ i * tau + j := by
    have h1 := le_mul_ceilMacro hi (-j)
    have h2 := Int.mul_le_mul_of_nonneg_left hle hi.le
    omega
  have hx : 0 ≤ x₀ := hx₀ ▸ hge i₁ i₀ hi (htau ▸ le_max_left _ _)
  have hy : 0 ≤ y₀ := hy₀ ▸ hge j₁ j₀ hj (htau ▸ le_max_right _ _)
  rw [Int.tdiv_eq_ediv_of_nonneg hx, Int.tdiv_eq_ediv_of_nonneg hy] at hm
  have hback (i x : ℤ) (hi : 0 < i) (hx : 0 ≤ x) (hle : m ≤ x / i) : 0 ≤ x - i * m := by
    have h1 := Int.mul_le_mul_of_nonneg_left hle hi.le
    have h2 := @Int.mul_ediv_self_le x i hi.ne'
    omega
  refine ⟨by rw [hx₀]; ring, by rw [hy₀]; ring, hback i₁ x₀ hi hx (hm ▸ min_le_left _ _),
    hback j₁ y₀ hj hy (hm ▸ min_le_right _ _), fun t ht ht' => ?_⟩
  -- one of the two quotients is exhausted
  have hstop (i j x : ℤ) (hi : 0 < i) (hx : x = i * tau + j) (ht : 0 ≤ j + i * t) (heq : m = x / i) : tau - m ≤ t := by
    have hle : tau - t ≤ x / i := by
      rw [Int.le_ediv_iff_mul_le hi, hx, mul_comm]
      linarith
    omega
  rcases min_choice (x₀ / i₁) (y₀ / j₁) with h | h
  · exact hstop i₁ i₀ x₀ hi hx₀ ht (hm.trans h)
  · exact hstop j₁ j₀ y₀ hj hy₀ ht' (hm.trans h)

end Equation

/-! ## Univariate subscripts -/

section Univariate

variable {initA initB stepA stepB : ℤ}

/-- The iterations of two accesses that meet. Source: `tree-data-ref.c` `analyze_subscript_affine_affine`. -/
def Meets (initA stepA initB stepB x y : ℤ) : Prop := initA + stepA * x = initB + stepB * y

/-- **The answer for nonempty solutions**: the overlaps are all iterations that meet, from the first ones on, unless these are beyond
the smaller count.
Source: `tree-data-ref.c` `analyze_subscript_affine_affine` -/
structure ReportsAll (initA stepA initB stepB niter : ℤ) (o : Overlaps) (x₁ i₁ y₁ j₁ : ℤ) : Prop where
  all : ∀ x y, (0 ≤ x ∧ 0 ≤ y ∧ Meets initA stepA initB stepB x y) ↔ ∃ k, 0 ≤ k ∧ x = x₁ + i₁ * k ∧ y = y₁ + j₁ * k
  posA : 0 < i₁
  posB : 0 < j₁
  clipped : 0 < niter ∧ (niter ≤ x₁ ∨ niter ≤ y₁) → o = .noDependence
  reported : ¬ (0 < niter ∧ (niter ≤ x₁ ∨ niter ≤ y₁)) →
    o.overlapsA = .fns [affineFnUnivar x₁ 1 i₁] ∧ o.overlapsB = .fns [affineFnUnivar y₁ 1 j₁]

/-- The matrix, with its first row negated if need be. Source: `tree-data-ref.c` `analyze_subscript_affine_affine`. Kind: L -/
theorem normalizeRow_spec {U : LambdaMatrix 2 2} {s00 : ℤ} (h₀ : U 0 0 * stepA - U 0 1 * stepB = s00) (hdet : U.det = 1 ∨ U.det = -1) :
    normalizeRow s00 0 U 0 0 * stepA - normalizeRow s00 0 U 0 1 * stepB = |s00| ∧ normalizeRow s00 0 U 1 0 = U 1 0 ∧
      normalizeRow s00 0 U 1 1 = U 1 1 ∧
      (normalizeRow s00 0 U 0 0 * U 1 1 - normalizeRow s00 0 U 0 1 * U 1 0 = 1 ∨
        normalizeRow s00 0 U 0 0 * U 1 1 - normalizeRow s00 0 U 0 1 * U 1 0 = -1) := by
  rw [det_fin_two] at hdet
  unfold normalizeRow
  split_ifs with hneg
  · have hrow (c : Fin 2) : lambdaMatrixRowNegate U 0 0 c = -U 0 c := by
      rw [lambdaMatrixRowNegate, updateRow_self, neg_one_mul]
    have hother (c : Fin 2) : lambdaMatrixRowNegate U 0 1 c = U 1 c := congrFun (updateRow_ne one_ne_zero) c
    rw [hrow, hrow, hother, hother, abs_of_neg hneg]
    refine ⟨by linear_combination -h₀, rfl, rfl, ?_⟩
    obtain hdet | hdet := hdet
    · exact Or.inr (by linear_combination -hdet)
    · exact Or.inl (by linear_combination -hdet)
  · rw [abs_of_nonneg (not_lt.mp hneg)]
    exact ⟨h₀, rfl, rfl, hdet⟩

/-- **Steps of one sign.** Source: `tree-data-ref.c` `analyze_subscript_affine_affine`. Kind: L -/
theorem analyzeUnivariate_spec (hsame : SameSign stepA stepB) {g : ℤ} (hg : 0 < g) {U : LambdaMatrix 2 2}
    (h₀ : U 0 0 * stepA - U 0 1 * stepB = g) (h₁ : U 1 0 * stepA = U 1 1 * stepB)
    (hdet : U 0 0 * U 1 1 - U 0 1 * U 1 0 = 1 ∨ U 0 0 * U 1 1 - U 0 1 * U 1 0 = -1) (hi : 0 < U 1 0) (hj : 0 < U 1 1)
    (hdvd : g ∣ initB - initA) (niterA niterB : ℤ) :
    ∃ x₁ i₁ y₁ j₁, ReportsAll initA stepA initB stepB (min niterA niterB)
      (analyzeUnivariate stepA stepB (initB - initA) niterA niterB g U) x₁ i₁ y₁ j₁ := by
  obtain ⟨c, hc⟩ := hdvd
  have hB : stepB ≠ 0 := by rintro rfl; obtain h | h := hsame <;> exact absurd h.2 (Int.lt_irrefl 0)
  have hi₀ : (U 0 0 * (initB - initA)).tdiv g = U 0 0 * c := by rw [hc, mul_left_comm, Int.mul_tdiv_cancel_left _ hg.ne']
  have hj₀ : (U 0 1 * (initB - initA)).tdiv g = U 0 1 * c := by rw [hc, mul_left_comm, Int.mul_tdiv_cancel_left _ hg.ne']
  obtain ⟨tau, htau⟩ : ∃ tau, tau = max (ceilMacro (-(U 0 0 * c)) (U 1 0)) (ceilMacro (-(U 0 1 * c)) (U 1 1)) := ⟨_, rfl⟩
  obtain ⟨x₀, hx₀⟩ : ∃ x₀, x₀ = U 1 0 * tau + U 0 0 * c := ⟨_, rfl⟩
  obtain ⟨y₀, hy₀⟩ : ∃ y₀, y₀ = U 1 1 * tau + U 0 1 * c := ⟨_, rfl⟩
  obtain ⟨m, hm⟩ : ∃ m, m = min (x₀.tdiv (U 1 0)) (y₀.tdiv (U 1 1)) := ⟨_, rfl⟩
  obtain ⟨hx₁, hy₁, hxpos, hypos, hleast⟩ := first_solution hi hj htau hx₀ hy₀ hm
  refine ⟨x₀ - U 1 0 * m, U 1 0, y₀ - U 1 1 * m, U 1 1, fun x y => ?_, hi, hj, fun hclip => ?_, fun hclip => ?_⟩
  · have hmeets : Meets initA stepA initB stepB x y ↔ stepA * x - stepB * y = g * c := by
      rw [← hc, Meets]
      exact ⟨fun h => by linear_combination h, fun h => by linear_combination h⟩
    rw [hmeets, solutions_iff hB h₀ h₁ hdet]
    constructor
    · rintro ⟨hx, hy, t, rfl, rfl⟩
      refine ⟨t - (tau - m), sub_nonneg.mpr (hleast t hx hy), ?_, ?_⟩
      · rw [hx₁]
        ring
      · rw [hy₁]
        ring
    · rintro ⟨k, hk, rfl, rfl⟩
      refine ⟨Int.add_nonneg hxpos (mul_nonneg hi.le hk), Int.add_nonneg hypos (mul_nonneg hj.le hk), tau - m + k, ?_, ?_⟩
      · rw [hx₁]
        ring
      · rw [hy₁]
        ring
  all_goals
    simp only [analyzeUnivariate, if_pos hsame, hi₀, hj₀, hi.ne', hj.ne', false_and, or_self, if_false, hi, hj, and_self, if_true,
      ← htau, ← hx₀, ← hy₀, ← hm]
  · rw [if_pos hclip]
  · rw [if_neg hclip]
    exact ⟨rfl, rfl⟩

/-- An answer, with enough fuel. -/
def Answers (run : ℕ → Option Overlaps) (o : Overlaps) : Prop := ∃ N, ∀ fuel ≥ N, run fuel = some o

theorem Answers.eq {run : ℕ → Option Overlaps} {o o' : Overlaps} (h : Answers run o) (h' : Answers run o') : o = o' := by
  obtain ⟨N, hN⟩ := h
  obtain ⟨N', hN'⟩ := h'
  exact Option.some.inj ((hN _ (le_max_left N N')).symm.trans (hN' _ (le_max_right N N')))

/-- The steps, by the second row. -/
theorem secondRow_mul {U : LambdaMatrix 2 2} {g : ℤ} (h₀ : U 0 0 * stepA - U 0 1 * stepB = g) (h₁ : U 1 0 * stepA = U 1 1 * stepB) :
    U 1 1 * g = U.det * stepA ∧ U 1 0 * g = U.det * stepB := by
  rw [det_fin_two]
  exact ⟨by linear_combination (-1) * U 1 1 * h₀ + U 0 1 * h₁, by linear_combination (-1) * U 1 0 * h₀ + U 0 0 * h₁⟩

/-- **Univariate subscripts with different initial values.** Source: `tree-data-ref.c` `analyze_subscript_affine_affine`. Kind: L -/
theorem analyze_univariate (hA : stepA ≠ 0) (hinit : initA ≠ initB) (niterOf : ℕ → ℤ) (lx ly : ℕ) :
    ∃ o, Answers (fun fuel => analyzeSubscriptAffineAffine fuel niterOf ⟨initA, [(lx, stepA)]⟩ ⟨initB, [(ly, stepB)]⟩) o ∧
      ((o = .noDependence ∧ ∀ x y, ¬ Meets initA stepA initB stepB x y) ∨ (¬ SameSign stepA stepB ∧ o = .notKnown) ∨
        SameSign stepA stepB ∧ ∃ x₁ i₁ y₁ j₁, ReportsAll initA stepA initB stepB (min (niterOf lx) (niterOf ly)) o x₁ i₁ y₁ j₁) := by
  obtain ⟨S, U, ⟨N, hN⟩, h₀, h₁, hdet, hS, hsign⟩ := @rightHermite_column stepA stepB hA
  obtain ⟨h₀', hU10, hU11, hdet'⟩ := normalizeRow_spec h₀ hdet
  have hg : 0 < |S 0 0| := abs_pos.mpr hS
  have hgamma : initB - initA ≠ 0 := fun h => hinit (by omega)
  obtain ⟨hj, hi⟩ := secondRow_mul h₀ h₁
  refine ⟨gcdTest |S 0 0| (initB - initA) (analyzeUnivariate stepA stepB (initB - initA) (niterOf lx) (niterOf ly) |S 0 0|
    (normalizeRow (S 0 0) 0 U)), ⟨N, fun fuel hfuel => ?_⟩, ?_⟩
  · simp only [analyzeSubscriptAffineAffine, hN fuel hfuel, Option.map_some, if_neg hgamma, AffineChrec.mk.injEq, hinit, false_and, if_false]
  · rw [gcdTest, if_neg hg.ne']
    by_cases hdvd : |S 0 0| ∣ initB - initA
    · rw [if_neg (not_not.mpr (Int.tmod_eq_zero_of_dvd hdvd))]
      by_cases hsame : SameSign stepA stepB
      · -- the second row has the signs of the steps
        have hsq : 0 < S 0 0 * S 0 0 := mul_self_pos.mpr hS
        have hjpos : 0 < U 1 1 := by
          refine pos_of_mul_pos_left ?_ hsq.le
          rw [← mul_assoc, hj]
          exact hsign hsame
        have hipos : 0 < U 1 0 := by
          obtain ⟨hA', hB'⟩ | ⟨hA', hB'⟩ := hsame
          · exact pos_of_mul_pos_left (h₁ ▸ mul_pos hjpos hB') hA'.le
          · by_contra hle
            have h2 := mul_neg_of_pos_of_neg hjpos hB'
            have h3 := mul_nonneg_of_nonpos_of_nonpos (not_lt.mp hle) hA'.le
            omega
        refine Or.inr (Or.inr ⟨hsame, analyzeUnivariate_spec hsame hg h₀' ?_ ?_ ?_ ?_ hdvd _ _⟩)
        · rw [hU10, hU11, h₁]
        · rw [hU10, hU11]
          exact hdet'
        · rw [hU10]
          exact hipos
        · rw [hU11]
          exact hjpos
      · exact Or.inr (Or.inl ⟨hsame, by rw [analyzeUnivariate, if_neg hsame]⟩)
    · refine Or.inl ⟨if_pos fun h => hdvd (Int.dvd_of_tmod_eq_zero h), fun x y h => hdvd ?_⟩
      -- the divisor divides both steps
      have hd : U.det * U.det = 1 := by obtain h | h := hdet <;> rw [h] <;> rfl
      refine (abs_dvd _ _).mpr ⟨U.det * (U 1 1 * x - U 1 0 * y), ?_⟩
      rw [Meets] at h
      linear_combination (-1) * h - U.det * x * hj + U.det * y * hi - (stepA * x - stepB * y) * hd

/-- The first of all iterations that meet. Source: `tree-data-ref.c` `analyze_subscript_affine_affine` (`x1`, `y1`). Kind: L -/
theorem ReportsAll.least {niter x₁ i₁ y₁ j₁ : ℤ} {o : Overlaps} (h : ReportsAll initA stepA initB stepB niter o x₁ i₁ y₁ j₁) :
    (0 ≤ x₁ ∧ 0 ≤ y₁ ∧ Meets initA stepA initB stepB x₁ y₁) ∧
      ∀ x y, 0 ≤ x → 0 ≤ y → Meets initA stepA initB stepB x y → x₁ ≤ x ∧ y₁ ≤ y := by
  refine ⟨(h.all x₁ y₁).mpr ⟨0, le_rfl, by rw [mul_zero, add_zero], by rw [mul_zero, add_zero]⟩, fun x y hx hy hmeets => ?_⟩
  obtain ⟨k, hk, rfl, rfl⟩ := (h.all x y).mp ⟨hx, hy, hmeets⟩
  exact ⟨le_add_of_nonneg_right (mul_nonneg h.posA.le hk), le_add_of_nonneg_right (mul_nonneg h.posB.le hk)⟩

/-- No dependence means that no iterations below the smaller count meet. Source: `tree-data-ref.c`. Kind: L -/
theorem ReportsAll.not_meets {niter x₁ i₁ y₁ j₁ : ℤ} {o : Overlaps} (h : ReportsAll initA stepA initB stepB niter o x₁ i₁ y₁ j₁)
    (ho : o.overlapsA = .noDependence ∨ o.overlapsB = .noDependence) :
    0 < niter ∧ ∀ x y, 0 ≤ x → x < niter → 0 ≤ y → y < niter → ¬ Meets initA stepA initB stepB x y := by
  by_cases hclip : 0 < niter ∧ (niter ≤ x₁ ∨ niter ≤ y₁)
  · refine ⟨hclip.1, fun x y hx hxlt hy hylt hmeets => ?_⟩
    obtain ⟨hx₁, hy₁⟩ := h.least.2 x y hx hy hmeets
    omega
  · obtain ⟨hA, hB⟩ := h.reported hclip
    rw [hA, hB] at ho
    exact absurd ho (by simp only [reduceCtorEq, or_self, not_false_eq_true])

end Univariate

/-! ## One loop -/

section OneLoop

variable {initA initB stepA stepB : ℤ}

/-- **Two accesses in one loop**: no dependence is answered only if no iterations meet, or none below a known count; and the overlaps
that are reported are all iterations that meet, from the smallest ones on.
Source: `tree-data-ref.c` `analyze_subscript_affine_affine`; `lambda-mat.c` `lambda_matrix_right_hermite`
Kind: P -/
theorem analyzeSubscriptAffineAffine_spec (hsame : SameSign stepA stepB) (hinit : initA ≠ initB) (niterOf : ℕ → ℤ) (l : ℕ) :
    ∃ o, Answers (fun fuel => analyzeSubscriptAffineAffine fuel niterOf ⟨initA, [(l, stepA)]⟩ ⟨initB, [(l, stepB)]⟩) o ∧
      (o.overlapsA = .noDependence ∨ o.overlapsB = .noDependence →
        (niterOf l ≤ 0 → ∀ x y, 0 ≤ x → 0 ≤ y → ¬ Meets initA stepA initB stepB x y) ∧
        ∀ x y, 0 ≤ x → x < niterOf l → 0 ≤ y → y < niterOf l → ¬ Meets initA stepA initB stepB x y) ∧
      ∀ fa fb, o.overlapsA = .fns fa → o.overlapsB = .fns fb → ∃ x₁ i₁ y₁ j₁,
        fa = [affineFnUnivar x₁ 1 i₁] ∧ fb = [affineFnUnivar y₁ 1 j₁] ∧
        (∀ x y, (0 ≤ x ∧ 0 ≤ y ∧ Meets initA stepA initB stepB x y) ↔ ∃ k, 0 ≤ k ∧ x = x₁ + i₁ * k ∧ y = y₁ + j₁ * k) ∧
        ∀ x y, 0 ≤ x → 0 ≤ y → Meets initA stepA initB stepB x y → x₁ ≤ x ∧ y₁ ≤ y := by
  have hA : stepA ≠ 0 := by rintro rfl; obtain h | h := hsame <;> exact absurd h.1 (Int.lt_irrefl 0)
  obtain ⟨o, hrun, hcases⟩ := @analyze_univariate initA initB stepA stepB hA hinit niterOf l l
  refine ⟨o, hrun, fun ho => ?_, fun fa fb hfa hfb => ?_⟩
  · obtain ⟨-, hnone⟩ | ⟨hdiff, -⟩ | ⟨-, x₁, i₁, y₁, j₁, hall⟩ := hcases
    · exact ⟨fun _ x y _ _ => hnone x y, fun x y _ _ _ _ => hnone x y⟩
    · exact absurd hsame hdiff
    · rw [min_self] at hall
      obtain ⟨hpos, hnone⟩ := hall.not_meets ho
      exact ⟨fun hle => absurd hpos (not_lt.mpr hle), hnone⟩
  · obtain ⟨rfl, -⟩ | ⟨hdiff, -⟩ | ⟨-, x₁, i₁, y₁, j₁, hall⟩ := hcases
    · exact absurd hfa (by simp only [Overlaps.noDependence, reduceCtorEq, not_false_eq_true])
    · exact absurd hsame hdiff
    · have hclip : ¬ (0 < min (niterOf l) (niterOf l) ∧ (min (niterOf l) (niterOf l) ≤ x₁ ∨ min (niterOf l) (niterOf l) ≤ y₁)) := by
        intro hclip
        rw [hall.clipped hclip] at hfa
        exact absurd hfa (by simp only [Overlaps.noDependence, reduceCtorEq, not_false_eq_true])
      obtain ⟨hA', hB'⟩ := hall.reported hclip
      exact ⟨x₁, i₁, y₁, j₁, ConflictFunction.fns.inj (hfa.symm.trans hA'), ConflictFunction.fns.inj (hfb.symm.trans hB'), hall.all,
        hall.least.2⟩

/-- `{0, +, 2}` and `{7, +, 3}`. Source: `tree-data-ref.c` `analyze_subscript_affine_affine`. Kind: C -/
theorem analyzeSubscriptAffineAffine_spec_two_three :
    ∃ o, Answers (fun fuel => analyzeSubscriptAffineAffine fuel (fun _ => 100) ⟨0, [(1, 2)]⟩ ⟨7, [(1, 3)]⟩) o ∧
      (o.overlapsA = .noDependence ∨ o.overlapsB = .noDependence →
        ((100 : ℤ) ≤ 0 → ∀ x y, 0 ≤ x → 0 ≤ y → ¬ Meets 0 2 7 3 x y) ∧
        ∀ x y, 0 ≤ x → x < 100 → 0 ≤ y → y < 100 → ¬ Meets 0 2 7 3 x y) ∧
      ∀ fa fb, o.overlapsA = .fns fa → o.overlapsB = .fns fb → ∃ x₁ i₁ y₁ j₁,
        fa = [affineFnUnivar x₁ 1 i₁] ∧ fb = [affineFnUnivar y₁ 1 j₁] ∧
        (∀ x y, (0 ≤ x ∧ 0 ≤ y ∧ Meets 0 2 7 3 x y) ↔ ∃ k, 0 ≤ k ∧ x = x₁ + i₁ * k ∧ y = y₁ + j₁ * k) ∧
        ∀ x y, 0 ≤ x → 0 ≤ y → Meets 0 2 7 3 x y → x₁ ≤ x ∧ y₁ ≤ y :=
  analyzeSubscriptAffineAffine_spec (Or.inl ⟨by decide, by decide⟩) (by decide) (fun _ => 100) 1

end OneLoop

/-! ## Two loops -/

section TwoLoops

variable {initA initB stepA stepB : ℤ} {lx ly : ℕ}

/-- No dependence is answered only if no iterations of the two loops meet. Source: `tree-data-ref.c` `analyze_miv_subscript`. -/
def SoundlyIndependent (initA stepA initB stepB : ℤ) (lx ly : ℕ) (niterOf : ℕ → ℤ) (upperBound : Option ℤ) : Prop :=
  ∃ o, Answers (fun fuel => analyzeMivSubscript fuel niterOf upperBound ⟨initA, [(lx, stepA)]⟩ ⟨initB, [(ly, stepB)]⟩) o ∧
    (o.overlapsA = .noDependence ∨ o.overlapsB = .noDependence →
      ∀ x y, 0 ≤ x → x < niterOf lx → 0 ≤ y → y < niterOf ly → ¬ Meets initA stepA initB stepB x y)

/-- Iterations that meet, if there are any, are also found below the smaller count, for steps with one sign.
Source: `tree-data-ref.c` `analyze_subscript_affine_affine` (`MIN (niter_a, niter_b)`) -/
def MeetsBelowBoth (initA stepA initB stepB niterA niterB : ℤ) : Prop :=
  SameSign stepA stepB → ∀ x y, 0 ≤ x → x < niterA → 0 ≤ y → y < niterB → Meets initA stepA initB stepB x y →
    ∃ x' y', 0 ≤ x' ∧ x' < min niterA niterB ∧ 0 ≤ y' ∧ y' < min niterA niterB ∧ Meets initA stepA initB stepB x' y'

/-- Subscripts in different loops are affine on both sides. Source: `tree-data-ref.c` `analyze_miv_subscript`. Kind: L -/
theorem analyzeMivSubscript_eq (hloops : lx ≠ ly) (fuel : ℕ) (niterOf : ℕ → ℤ) (upperBound : Option ℤ) :
    analyzeMivSubscript fuel niterOf upperBound ⟨initA, [(lx, stepA)]⟩ ⟨initB, [(ly, stepB)]⟩ =
      analyzeSubscriptAffineAffine fuel niterOf ⟨initA, [(lx, stepA)]⟩ ⟨initB, [(ly, stepB)]⟩ := by
  have hsteps : [(lx, stepA)] ≠ [(ly, stepB)] := by
    simp only [ne_eq, List.cons.injEq, Prod.mk.injEq, hloops, false_and, not_false_eq_true]
  have hne : (⟨initA, [(lx, stepA)]⟩ : AffineChrec) ≠ ⟨initB, [(ly, stepB)]⟩ := fun h => hsteps (congrArg AffineChrec.steps h)
  have hdiff : constantDifference ⟨initA, [(lx, stepA)]⟩ ⟨initB, [(ly, stepB)]⟩ = none := if_neg hsteps
  rw [analyzeMivSubscript, if_neg hne, hdiff, if_neg (by simp only [Option.any_none, Bool.false_eq_true, not_false_eq_true]),
    if_pos ⟨List.cons_ne_nil _ _, List.cons_ne_nil _ _⟩]

/-- A conflict that is found only between the two counts is missed. Source: `tree-data-ref.c` (`x1 >= niter || y1 >= niter`). Kind: L -/
theorem meetsBelowBoth_of_sound (hA : stepA ≠ 0) (hloops : lx ≠ ly) {niterOf : ℕ → ℤ} {upperBound : Option ℤ}
    (h : SoundlyIndependent initA stepA initB stepB lx ly niterOf upperBound) :
    MeetsBelowBoth initA stepA initB stepB (niterOf lx) (niterOf ly) := by
  intro hsame x y hx hxlt hy hylt hmeets
  by_cases hinit : initA = initB
  · -- the first iterations meet
    exact ⟨0, 0, le_rfl, by omega, le_rfl, by omega, by rw [Meets, mul_zero, mul_zero, hinit]⟩
  · obtain ⟨o', hrun', hsound⟩ := h
    simp only [analyzeMivSubscript_eq hloops] at hrun'
    obtain ⟨o, hrun, hcases⟩ := @analyze_univariate initA initB stepA stepB hA hinit niterOf lx ly
    obtain rfl := hrun.eq hrun'
    obtain ⟨-, hnone⟩ | ⟨hdiff, -⟩ | ⟨-, x₁, i₁, y₁, j₁, hall⟩ := hcases
    · exact absurd hmeets (hnone x y)
    · exact absurd hsame hdiff
    · by_cases hclip : 0 < min (niterOf lx) (niterOf ly) ∧ (min (niterOf lx) (niterOf ly) ≤ x₁ ∨ min (niterOf lx) (niterOf ly) ≤ y₁)
      · refine absurd hmeets (hsound ?_ x y hx hxlt hy hylt)
        rw [hall.clipped hclip]
        exact Or.inl rfl
      · obtain ⟨hx₁, hy₁, hfirst⟩ := hall.least.1
        exact ⟨x₁, y₁, hx₁, by omega, hy₁, by omega, hfirst⟩

/-- A conflict below both counts is not missed. Source: `tree-data-ref.c` `analyze_subscript_affine_affine`. Kind: L -/
theorem sound_of_meetsBelowBoth (hA : stepA ≠ 0) (hloops : lx ≠ ly) {niterOf : ℕ → ℤ} (upperBound : Option ℤ)
    (h : MeetsBelowBoth initA stepA initB stepB (niterOf lx) (niterOf ly)) :
    SoundlyIndependent initA stepA initB stepB lx ly niterOf upperBound := by
  simp only [SoundlyIndependent, analyzeMivSubscript_eq hloops]
  by_cases hinit : initA = initB
  · have hgamma : initB - initA = 0 := by omega
    have hne : (⟨initA, [(lx, stepA)]⟩ : AffineChrec) ≠ ⟨initB, [(ly, stepB)]⟩ := by
      simp only [ne_eq, AffineChrec.mk.injEq, List.cons.injEq, Prod.mk.injEq, hloops, false_and, and_false, not_false_eq_true]
    refine ⟨analyzeEqualInit niterOf ⟨initA, [(lx, stepA)]⟩ ⟨initB, [(ly, stepB)]⟩, ⟨0, fun fuel _ => ?_⟩, fun ho => ?_⟩
    · simp only [analyzeSubscriptAffineAffine, if_neg hne, hgamma, if_true]
    · exact absurd ho (by simp only [analyzeEqualInit, reduceCtorEq, or_self, not_false_eq_true])
  · obtain ⟨o, hrun, hcases⟩ := @analyze_univariate initA initB stepA stepB hA hinit niterOf lx ly
    refine ⟨o, hrun, fun ho x y hx hxlt hy hylt hmeets => ?_⟩
    obtain ⟨-, hnone⟩ | ⟨-, rfl⟩ | ⟨hsame, x₁, i₁, y₁, j₁, hall⟩ := hcases
    · exact hnone x y hmeets
    · exact absurd ho (by simp only [Overlaps.notKnown, reduceCtorEq, or_self, not_false_eq_true])
    · obtain ⟨x', y', hx', hxlt', hy', hylt', hmeets'⟩ := h hsame x y hx hxlt hy hylt hmeets
      exact (hall.not_meets ho).2 x' y' hx' hxlt' hy' hylt' hmeets'

/-- **Two accesses in different loops**: the answer is sound exactly where the smaller count is enough.
Source: `tree-data-ref.c` `analyze_miv_subscript`, `analyze_subscript_affine_affine`
Kind: P -/
theorem analyzeMivSubscript_sound_iff (hA : stepA ≠ 0) (hloops : lx ≠ ly) (niterOf : ℕ → ℤ) (upperBound : Option ℤ) :
    SoundlyIndependent initA stepA initB stepB lx ly niterOf upperBound ↔
      MeetsBelowBoth initA stepA initB stepB (niterOf lx) (niterOf ly) :=
  ⟨meetsBelowBoth_of_sound hA hloops, sound_of_meetsBelowBoth hA hloops upperBound⟩

/-- `{0, +, 1}_1` and `{0, +, 1}_2`. Source: `tree-data-ref.c` `analyze_miv_subscript` (comment). Kind: C -/
theorem analyzeMivSubscript_sound_iff_comment :
    SoundlyIndependent 0 1 0 1 1 2 (fun _ => 10) none ↔ MeetsBelowBoth 0 1 0 1 10 10 :=
  analyzeMivSubscript_sound_iff (by decide) (by decide) (fun _ => 10) none

/-- **`{50, +, 1}_1` and `{0, +, 1}_2`** meet in the first iteration of loop 1 and the fifty-first of loop 2, but with 5 and 100
iterations the answer is that they do not.
Source: `tree-data-ref.c` `analyze_subscript_affine_affine` (`y1 >= niter`)
Kind: C -/
theorem analyzeMivSubscript_counterexample : ¬ ∀ (initA stepA initB stepB : ℤ) (lx ly : ℕ) (niterOf : ℕ → ℤ), stepA ≠ 0 → stepB ≠ 0 →
    lx ≠ ly → SoundlyIndependent initA stepA initB stepB lx ly niterOf none := by
  intro h
  have hsound := h 50 1 0 1 1 2 (fun l => if l = 1 then 5 else 100) (by decide) (by decide) (by decide)
  obtain ⟨x, y, hx, hxlt, hy, hylt, hmeets⟩ := meetsBelowBoth_of_sound (by decide) (by decide) hsound
    (Or.inl ⟨by decide, by decide⟩) 0 50 (by decide) (by decide) (by decide) (by decide) (by unfold Meets; decide)
  simp only [Meets, if_true, OfNat.ofNat_ne_one, if_false] at hmeets hxlt hylt
  omega

end TwoLoops

end GccCore.Gcc.DataRef
