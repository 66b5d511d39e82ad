import Mathlib.LinearAlgebra.Matrix.NonsingularInverse
import Mathlib.LinearAlgebra.Matrix.Swap
import Mathlib.LinearAlgebra.Matrix.Transvection

/-!
# Elementary matrices

The three operations that reduce a matrix without changing its determinant up to a unit.

* **Operations** (`Elementary`): a sign is changed, two indices are exchanged, a multiple of one is added to another. As a matrix,
  an operation acts on the columns of what it follows and on the rows of what it precedes.
* **Inverses** (`matrix_mul_inv`): what an operation on the columns does is undone by its inverse on the rows.
-/

namespace GccCore.Lib.ElementaryMatrix

open Matrix

/-- An operation. The last one adds to column `j` column `i` times `c`, and to row `i` row `j` times `c`. -/
inductive Elementary (ι R : Type*)
  | negate (i : ι)
  | exchange (i j : ι)
  | add (i j : ι) (c : R)

namespace Elementary

variable {ι κ κ' R : Type*} [DecidableEq ι] [CommRing R]

/-- The matrix of an operation. -/
def matrix : Elementary ι R → Matrix ι ι R
  | negate i => diagonal (Function.update 1 i (-1))
  | exchange i j => Matrix.swap R i j
  | add i j c => transvection i j c

/-- The operation that undoes one. -/
def inv : Elementary ι R → Elementary ι R
  | negate i => negate i
  | exchange i j => exchange i j
  | add i j c => add i j (-c)

/-- A row or column is not added to itself. -/
def Proper : Elementary ι R → Prop
  | add i j _ => i ≠ j
  | _ => True

variable [Fintype ι] {e : Elementary ι R}

/-- **An operation and its inverse.** -/
theorem matrix_mul_inv (h : e.Proper) : e.matrix * e.inv.matrix = 1 := by
  cases e with
  | negate i =>
    rw [matrix, inv, matrix, diagonal_mul_diagonal, ← diagonal_one]
    congr 1
    funext k
    by_cases hk : k = i
    · rw [hk, Function.update_self, neg_mul_neg, one_mul]
    · rw [Function.update_of_ne hk, Pi.one_apply, one_mul]
  | exchange i j => exact swap_mul_self i j
  | add i j c =>
    change transvection i j c * transvection i j (-c) = 1
    rw [transvection_mul_transvection_same _ _ h, add_neg_cancel, transvection_zero]

theorem isUnit_det (h : e.Proper) : IsUnit e.matrix.det := by
  refine IsUnit.of_mul_eq_one e.inv.matrix.det ?_
  rw [← det_mul, matrix_mul_inv h, det_one]

/-- **Operations on the columns of one factor and the rows of the other.** -/
theorem mul_matrix_mul_inv_mul (h : e.Proper) (A : Matrix κ ι R) (B : Matrix ι κ' R) :
    A * e.matrix * (e.inv.matrix * B) = A * B := by
  rw [Matrix.mul_assoc, ← Matrix.mul_assoc e.matrix, matrix_mul_inv h, Matrix.one_mul]

/-- The columns of a product with an operation. -/
theorem mul_negate_apply (A : Matrix κ ι R) (i : ι) (a : κ) (k : ι) :
    (A * (negate i : Elementary ι R).matrix) a k = if k = i then -A a i else A a k := by
  rw [matrix, mul_diagonal]
  split_ifs with hk
  · rw [hk, Function.update_self, mul_neg_one]
  · rw [Function.update_of_ne hk, Pi.one_apply, mul_one]

theorem mul_exchange_apply (A : Matrix κ ι R) (i j : ι) (a : κ) (k : ι) :
    (A * (exchange i j : Elementary ι R).matrix) a k = if k = i then A a j else if k = j then A a i else A a k := by
  rw [matrix]
  split_ifs with hi hj
  · rw [hi, mul_swap_apply_left]
  · rw [hj, mul_swap_apply_right]
  · exact mul_swap_of_ne hi hj A

theorem mul_add_apply (A : Matrix κ ι R) (i j : ι) (c : R) (a : κ) (k : ι) :
    (A * (add i j c).matrix) a k = if k = j then A a j + c * A a i else A a k := by
  rw [matrix]
  split_ifs with hj
  · rw [hj, mul_transvection_apply_same]
  · exact mul_transvection_apply_of_ne _ _ _ _ hj c A

/-- The rows of a product with an operation. -/
theorem negate_mul_apply (A : Matrix ι κ R) (i k : ι) (a : κ) :
    ((negate i : Elementary ι R).matrix * A) k a = if k = i then -A i a else A k a := by
  rw [matrix, diagonal_mul]
  split_ifs with hk
  · rw [hk, Function.update_self, neg_one_mul]
  · rw [Function.update_of_ne hk, Pi.one_apply, one_mul]

theorem exchange_mul_apply (A : Matrix ι κ R) (i j k : ι) (a : κ) :
    ((exchange i j : Elementary ι R).matrix * A) k a = if k = i then A j a else if k = j then A i a else A k a := by
  rw [matrix]
  split_ifs with hi hj
  · rw [hi, swap_mul_apply_left]
  · rw [hj, swap_mul_apply_right]
  · exact swap_mul_of_ne hi hj A

theorem add_mul_apply (A : Matrix ι κ R) (i j k : ι) (c : R) (a : κ) :
    ((add i j c).matrix * A) k a = if k = i then A i a + c * A j a else A k a := by
  rw [matrix]
  split_ifs with hi
  · rw [hi, transvection_mul_apply_same]
  · exact transvection_mul_apply_of_ne _ _ _ _ hi c A

end Elementary

end GccCore.Lib.ElementaryMatrix
