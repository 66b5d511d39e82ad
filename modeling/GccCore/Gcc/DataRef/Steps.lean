import Mathlib.Algebra.Order.Ring.Int
import Mathlib.Data.Int.GCD

/-!
# `gcc/tree-data-ref.c`: overlaps of evolutions with equal initial values

The iterations of two accesses that meet are described by affine functions of new variables (`AffineFn`), for one variable on each side
(`computeOverlapStepsForAffineUnivar`) and for two on one side (`computeOverlapStepsForAffine12`). Iterations, steps and counts are
integers without bounds.
-/

namespace GccCore.Gcc.DataRef

/-! ## The code -/

section Code

/-- The constant, and the coefficients of the variables from one on. Source: `tree-data-ref.h` `affine_fn`. -/
abbrev AffineFn := List ℤ

/-- The functions are those of the loops. Source: `tree-data-ref.h` `conflict_function`. -/
inductive ConflictFunction
  | notKnown
  | noDependence
  | fns (l : List AffineFn)
  deriving DecidableEq, Repr

/-- What a test of a subscript finds; no number of conflicts is `chrec_dont_know`.
Source: `tree-data-ref.c` (`overlaps_a`, `overlaps_b`, `last_conflicts`) -/
structure Overlaps where
  overlapsA : ConflictFunction
  overlapsB : ConflictFunction
  lastConflicts : Option ℤ
  deriving DecidableEq, Repr

/-- Source: `tree-data-ref.c` (`conflict_fn_not_known`). -/
def Overlaps.notKnown : Overlaps := ⟨.notKnown, .notKnown, none⟩

/-- Source: `tree-data-ref.c` (`conflict_fn_no_dependence`). -/
def Overlaps.noDependence : Overlaps := ⟨.noDependence, .noDependence, some 0⟩

/-- Source: `tree-data-ref.c` `affine_fn_cst`. -/
def affineFnCst (cst : ℤ) : AffineFn := [cst]

/-- `cst + coef * x_dim`. Source: `tree-data-ref.c` `affine_fn_univar`. -/
def affineFnUnivar (cst : ℤ) (dim : ℕ) (coef : ℤ) : AffineFn := cst :: (List.replicate (dim - 1) 0 ++ [coef])

/-- Source: `tree-data-ref.c` `affine_fn_plus`, `affine_fn_op`. -/
def affineFnPlus : AffineFn → AffineFn → AffineFn
  | [], fnb => fnb
  | fna, [] => fna
  | a :: fna, b :: fnb => (a + b) :: affineFnPlus fna fnb

/-- Euclid's algorithm on the absolute values. Source: `lambda.h` `gcd`. -/
def gcd (a b : ℤ) : ℤ := Int.gcd a b

/-- Source: `tree-data-ref.c` `FLOOR_DIV`. -/
def floorDiv (x y : ℤ) : ℤ := x.tdiv y

/-- The two steps have the same sign. Source: `tree-data-ref.c` `compute_overlap_steps_for_affine_univar`. -/
def SameSign (stepA stepB : ℤ) : Prop := (0 < stepA ∧ 0 < stepB) ∨ (stepA < 0 ∧ stepB < 0)

instance (stepA stepB : ℤ) : Decidable (SameSign stepA stepB) := inferInstanceAs (Decidable (_ ∨ _))

/-- The overlaps, and the number of conflicts. Source: `tree-data-ref.c` `compute_overlap_steps_for_affine_univar`. -/
def computeOverlapStepsForAffineUnivar (niter stepA stepB : ℤ) (dim : ℕ) : AffineFn × AffineFn × Option ℤ :=
  if SameSign stepA stepB then
    let gcdStepsAB := gcd stepA stepB
    let stepOverlapsA := stepB.tdiv gcdStepsAB
    let stepOverlapsB := stepA.tdiv gcdStepsAB
    (affineFnUnivar 0 dim stepOverlapsA, affineFnUnivar 0 dim stepOverlapsB,
      if 0 < niter then some (min (floorDiv niter stepOverlapsA) (floorDiv niter stepOverlapsB)) else none)
  else (affineFnCst 0, affineFnCst 0, some 0)

/-- The steps are those of the loops `x` and `y` of the first access and `z` of the second one, and the counts are the estimates
for these loops, which are negative if there is none.
Source: `tree-data-ref.c` `compute_overlap_steps_for_affine_1_2` -/
def computeOverlapStepsForAffine12 (stepX stepY stepZ niterX niterY niterZ : ℤ) : Overlaps :=
  if niterX < 0 ∨ niterY < 0 ∨ niterZ < 0 then .notKnown
  else
    let xz := computeOverlapStepsForAffineUnivar (min niterX niterZ) stepX stepZ 1
    let yz := computeOverlapStepsForAffineUnivar (min niterY niterZ) stepY stepZ 2
    let xyz := computeOverlapStepsForAffineUnivar (min niterY (min niterX niterZ)) (stepX + stepY) stepZ 3
    let xzP := xz.2.2 ≠ some 0
    let yzP := yz.2.2 ≠ some 0
    let xyzP := xyz.2.2 ≠ some 0
    if xzP ∨ yzP ∨ xyzP then
      let ova1 := if xzP then affineFnPlus (affineFnCst 0) xz.1 else affineFnCst 0
      let ovb := if xzP then affineFnPlus (affineFnCst 0) xz.2.1 else affineFnCst 0
      let ova2 := if yzP then affineFnPlus (affineFnCst 0) yz.1 else affineFnCst 0
      let ovb := if yzP then affineFnPlus ovb yz.2.1 else ovb
      let ova1 := if xyzP then affineFnPlus ova1 xyz.1 else ova1
      let ova2 := if xyzP then affineFnPlus ova2 xyz.1 else ova2
      let ovb := if xyzP then affineFnPlus ovb xyz.2.1 else ovb
      ⟨.fns [ova1, ova2], .fns [ovb], if xyzP then xyz.2.2 else if yzP then yz.2.2 else xz.2.2⟩
    else ⟨.fns [affineFnCst 0], .fns [affineFnCst 0], some 0⟩

end Code

end GccCore.Gcc.DataRef
