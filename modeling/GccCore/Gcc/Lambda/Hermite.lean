import GccCore.Gcc.Lambda.Triangular

/-!
# `gcc/lambda-mat.c`: Hermite decomposition

The columns of `H` are reduced, and each operation is undone on the rows of `U`.

* **The decomposition** (`lambdaMatrixHermite_spec`): the product stays the matrix, `U` stays unimodular, and the loops end.
-/

namespace GccCore.Gcc.Lambda

open Matrix
open GccCore.Lib.ElementaryMatrix

variable {n : ℕ}

/-! ## The code -/

/-- What follows an operation on the columns of `H`: the rows of `U` are exchanged and negated as well; where a multiple of column
`j` is added to column `i`, the negated multiple of row `i` is added to row `j`.
Source: `lambda-mat.c` `lambda_matrix_hermite` -/
def hermiteMirror (e : Elementary (Fin n) ℤ) (U : LambdaMatrix n n) : LambdaMatrix n n := rowOp e.inv U

/-- `-1 * factor`, where `factor = row[i] / row[j]`. Source: `lambda-mat.c` `lambda_matrix_hermite`. -/
def hermiteAmount (x d : ℤ) : ℤ := -1 * x.tdiv d

/-- The matrices `H` and `U`, if `fuel` is enough. Source: `lambda-mat.c` `lambda_matrix_hermite`. -/
def lambdaMatrixHermite (fuel : ℕ) (mat : LambdaMatrix n n) : Option (LambdaMatrix n n × LambdaMatrix n n) :=
  triangularize hermiteMirror hermiteAmount fuel (mat, 1)

/-! ## The decomposition -/

/-- **What an operation keeps**: the product, and that the second factor is unimodular.
Source: `lambda-mat.c` `lambda_matrix_hermite`
Kind: L -/
theorem hermiteMirror_kept {mat : LambdaMatrix n n} {e : Elementary (Fin n) ℤ} {s : LambdaMatrix n n × LambdaMatrix n n}
    (he : e.Proper) (hs : mat = s.1 * s.2 ∧ IsUnit s.2.det) :
    mat = (both hermiteMirror e s).1 * (both hermiteMirror e s).2 ∧ IsUnit (both hermiteMirror e s).2.det := by
  have hinv : e.inv.Proper := by cases e <;> exact he
  rw [both, hermiteMirror, colOp_eq, rowOp_eq]
  refine ⟨hs.1.trans (Elementary.mul_matrix_mul_inv_mul he _ _).symm, ?_⟩
  rw [det_mul]
  exact (Elementary.isUnit_det hinv).mul hs.2

/-- **`lambda_matrix_hermite`** ends, with a lower triangular matrix whose diagonal is not negative and a unimodular matrix whose
product is the matrix.
Source: `lambda-mat.c` `lambda_matrix_hermite`
Kind: P -/
theorem lambdaMatrixHermite_spec (mat : LambdaMatrix n n) :
    ∃ H U, (∃ N, ∀ fuel ≥ N, lambdaMatrixHermite fuel mat = some (H, U)) ∧ mat = H * U ∧ (∀ i j, i < j → H i j = 0) ∧
      (∀ i, 0 ≤ H i i) ∧ (U.det = 1 ∨ U.det = -1) := by
  have hamount (x d : ℤ) (hx : 0 ≤ x) (_ : 0 < d) : hermiteAmount x d = -(x / d) := by
    rw [hermiteAmount, Int.tdiv_eq_ediv_of_nonneg hx, neg_one_mul]
  obtain ⟨⟨H, U⟩, hrun, ⟨hmul, hunit⟩, hdone⟩ := triangularize_spec (P := fun s => mat = s.1 * s.2 ∧ IsUnit s.2.det)
    (fun e s he hs => hermiteMirror_kept he hs) hamount (s := (mat, 1)) ⟨(Matrix.mul_one mat).symm, by rw [det_one]; exact isUnit_one⟩
  exact ⟨H, U, hrun, hmul, fun i j hij => hdone.zero i j i.isLt hij, fun i => hdone.nonneg i i.isLt, Int.isUnit_iff.mp hunit⟩

end GccCore.Gcc.Lambda
