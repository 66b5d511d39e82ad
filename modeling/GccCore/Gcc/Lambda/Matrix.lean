import GccCore.Lib.ElementaryMatrix

/-!
# `gcc/lambda.h`, `gcc/lambda-mat.c`: operations on integer matrices

Matrices of integers without bounds, changed column by column or row by row.

* **Columns and rows** (`colOp_eq`, `rowOp_eq`): the operations are products with elementary matrices.
* **Searches** (`lambdaVectorFirstNz_spec`, `lambdaVectorMinNz_spec`) for a first and a least entry that is not zero.
-/

namespace GccCore.Gcc.Lambda

open Matrix
open GccCore.Lib.ElementaryMatrix

/-- Source: `lambda.h` `lambda_matrix`. -/
abbrev LambdaMatrix (m n : ℕ) := Matrix (Fin m) (Fin n) ℤ

section Code

variable {m n : ℕ}

/-! ## Columns and rows -/

/-- Source: `lambda-mat.c` `lambda_matrix_col_negate`. -/
def lambdaMatrixColNegate (mat : LambdaMatrix m n) (c1 : Fin n) : LambdaMatrix m n :=
  mat.updateCol c1 fun i => mat i c1 * -1

/-- Source: `lambda-mat.c` `lambda_matrix_col_exchange`. -/
def lambdaMatrixColExchange (mat : LambdaMatrix m n) (col1 col2 : Fin n) : LambdaMatrix m n :=
  (mat.updateCol col1 fun i => mat i col2).updateCol col2 fun i => mat i col1

/-- Source: `lambda-mat.c` `lambda_matrix_col_add`. -/
def lambdaMatrixColAdd (mat : LambdaMatrix m n) (c1 c2 : Fin n) (const1 : ℤ) : LambdaMatrix m n :=
  if const1 = 0 then mat else mat.updateCol c2 fun i => mat i c2 + const1 * mat i c1

/-- Source: `lambda-mat.c` `lambda_matrix_col_mc`. -/
def lambdaMatrixColMc (mat : LambdaMatrix m n) (c1 : Fin n) (const1 : ℤ) : LambdaMatrix m n :=
  mat.updateCol c1 fun i => mat i c1 * const1

/-- Source: `lambda-mat.c` `lambda_matrix_row_negate`; `lambda.h` `lambda_vector_negate`. -/
def lambdaMatrixRowNegate (mat : LambdaMatrix m n) (r1 : Fin m) : LambdaMatrix m n :=
  mat.updateRow r1 fun i => -1 * mat r1 i

/-- Source: `lambda-mat.c` `lambda_matrix_row_exchange`. -/
def lambdaMatrixRowExchange (mat : LambdaMatrix m n) (r1 r2 : Fin m) : LambdaMatrix m n :=
  (mat.updateRow r1 (mat r2)).updateRow r2 (mat r1)

/-- Source: `lambda-mat.c` `lambda_matrix_row_add`. -/
def lambdaMatrixRowAdd (mat : LambdaMatrix m n) (r1 r2 : Fin m) (const1 : ℤ) : LambdaMatrix m n :=
  if const1 = 0 then mat else mat.updateRow r2 fun i => mat r2 i + const1 * mat r1 i

/-- The operations on columns. Source: `lambda-mat.c`. -/
def colOp : Elementary (Fin n) ℤ → LambdaMatrix m n → LambdaMatrix m n
  | .negate i, mat => lambdaMatrixColNegate mat i
  | .exchange i j, mat => lambdaMatrixColExchange mat i j
  | .add i j c, mat => lambdaMatrixColAdd mat i j c

/-- The operations on rows. Source: `lambda-mat.c`. -/
def rowOp : Elementary (Fin m) ℤ → LambdaMatrix m n → LambdaMatrix m n
  | .negate i, mat => lambdaMatrixRowNegate mat i
  | .exchange i j, mat => lambdaMatrixRowExchange mat i j
  | .add i j c, mat => lambdaMatrixRowAdd mat j i c

/-! ## Searches -/

/-- The cells of a row, as far as there are any. Source: `lambda-mat.c` (`mat[j]`). -/
def rowCells (mat : LambdaMatrix m n) (j k : ℕ) : Option ℤ := if h : j < m ∧ k < n then some (mat ⟨j, h.1⟩ ⟨k, h.2⟩) else none

/-- Source: `lambda.h` `lambda_vector_first_nz`. -/
def lambdaVectorFirstNz (vec1 : ℕ → Option ℤ) (n j : ℕ) : Option ℕ :=
  if j < n then (vec1 j).bind fun x => if x = 0 then lambdaVectorFirstNz vec1 n (j + 1) else some j else some j
termination_by n - j

/-- Source: `lambda.h` `lambda_vector_min_nz` (body of the loop). -/
def minNzStep (vec1 : Fin n → ℤ) (min : Option (Fin n)) (j : Fin n) : Option (Fin n) :=
  if vec1 j = 0 then min else if min.all fun k => vec1 j < vec1 k then some j else min

/-- No answer if there is no entry, which the function asserts. Source: `lambda.h` `lambda_vector_min_nz`. -/
def lambdaVectorMinNz (vec1 : Fin n → ℤ) (start : ℕ) : Option (Fin n) :=
  ((List.finRange n).filter fun j => start ≤ j.val).foldl (minNzStep vec1) none

end Code

/-! ## What they compute -/

section Specs

variable {m n : ℕ}

/-- **Operations on columns are products.** Source: `lambda-mat.c`. Kind: L -/
theorem colOp_eq (e : Elementary (Fin n) ℤ) (mat : LambdaMatrix m n) : colOp e mat = mat * e.matrix := by
  ext a k
  cases e with
  | negate i =>
    rw [Elementary.mul_negate_apply, colOp, lambdaMatrixColNegate, updateCol_apply, mul_neg_one]
  | exchange i j =>
    rw [Elementary.mul_exchange_apply, colOp, lambdaMatrixColExchange, updateCol_apply, updateCol_apply]
    by_cases hj : k = j
    · subst hj
      by_cases hi : k = i
      · rw [if_pos rfl, if_pos hi, hi]
      · rw [if_pos rfl, if_neg hi, if_pos rfl]
    · rw [if_neg hj, if_neg hj]
  | add i j c =>
    rw [Elementary.mul_add_apply, colOp, lambdaMatrixColAdd]
    by_cases hc : c = 0
    · rw [if_pos hc, hc, zero_mul, add_zero]
      split_ifs with hj
      · rw [hj]
      · rfl
    · rw [if_neg hc, updateCol_apply]

/-- **Operations on rows are products.** Source: `lambda-mat.c`. Kind: L -/
theorem rowOp_eq (e : Elementary (Fin m) ℤ) (mat : LambdaMatrix m n) : rowOp e mat = e.matrix * mat := by
  ext k a
  cases e with
  | negate i =>
    rw [Elementary.negate_mul_apply, rowOp, lambdaMatrixRowNegate, updateRow_apply, neg_one_mul]
  | exchange i j =>
    rw [Elementary.exchange_mul_apply, rowOp, lambdaMatrixRowExchange, updateRow_apply, updateRow_apply]
    by_cases hj : k = j
    · subst hj
      by_cases hi : k = i
      · rw [if_pos rfl, if_pos hi, hi]
      · rw [if_pos rfl, if_neg hi, if_pos rfl]
    · rw [if_neg hj, if_neg hj]
  | add i j c =>
    rw [Elementary.add_mul_apply, rowOp, lambdaMatrixRowAdd]
    by_cases hc : c = 0
    · rw [if_pos hc, hc, zero_mul, add_zero]
      split_ifs with hi
      · rw [hi]
      · rfl
    · rw [if_neg hc, updateRow_apply]

/-- The search ends at the first entry that is not zero. Source: `lambda.h` `lambda_vector_first_nz`. Kind: L -/
theorem lambdaVectorFirstNz_spec (mat : LambdaMatrix m n) (j : Fin m) {start : ℕ} (hstart : start ≤ n) :
    ∃ k, lambdaVectorFirstNz (rowCells mat j) n start = some k ∧ (k < n ↔ ∃ i : Fin n, start ≤ i.val ∧ mat j i ≠ 0) := by
  induction hk : n - start generalizing start with
  | zero =>
    have hge : ¬ start < n := by omega
    rw [lambdaVectorFirstNz, if_neg hge]
    exact ⟨start, rfl, iff_of_false hge fun ⟨i, hi, _⟩ => hge (hi.trans_lt i.isLt)⟩
  | succ d ih =>
    have hlt : start < n := by omega
    have hcell : rowCells mat j start = some (mat j ⟨start, hlt⟩) := dif_pos ⟨j.isLt, hlt⟩
    rw [lambdaVectorFirstNz, if_pos hlt, hcell, Option.bind_some]
    split_ifs with hzero
    · obtain ⟨k, hfirst, hiff⟩ := ih hlt (by omega)
      refine ⟨k, hfirst, hiff.trans ⟨fun ⟨i, hi, hne⟩ => ⟨i, by omega, hne⟩, fun ⟨i, hi, hne⟩ => ⟨i, ?_, hne⟩⟩⟩
      refine lt_of_le_of_ne hi fun heq => hne ?_
      rw [← hzero]
      congr 1
      exact Fin.ext heq.symm
    · exact ⟨start, rfl, iff_of_true hlt ⟨⟨start, hlt⟩, le_rfl, hzero⟩⟩

/-- The loop keeps a least entry of those it has seen. Source: `lambda.h` `lambda_vector_min_nz`. Kind: L -/
theorem foldl_minNzStep {vec1 : Fin n → ℤ} (js : List (Fin n)) :
    (∀ k ∈ js.foldl (minNzStep vec1) none, k ∈ js ∧ vec1 k ≠ 0 ∧ ∀ i ∈ js, vec1 i ≠ 0 → vec1 k ≤ vec1 i) ∧
      (js.foldl (minNzStep vec1) none = none → ∀ i ∈ js, vec1 i = 0) := by
  induction js using List.reverseRecOn with
  | nil => exact ⟨fun k hk => (nomatch hk), fun _ i hi => (nomatch hi)⟩
  | append_singleton js j ih =>
    rw [List.foldl_append, List.foldl_cons, List.foldl_nil]
    generalize js.foldl (minNzStep vec1) none = min at ih
    obtain ⟨hmin, hnone⟩ := ih
    simp only [minNzStep, List.mem_append, List.mem_singleton]
    split_ifs with hzero hless
    · -- an entry that is zero changes nothing
      refine ⟨fun k hk => ?_, fun h i hi => hi.elim (hnone h i) fun hij => hij ▸ hzero⟩
      obtain ⟨hmem, hne, hle⟩ := hmin k hk
      exact ⟨Or.inl hmem, hne, fun i hi hi0 => hi.elim (fun him => hle i him hi0) fun hij => absurd (hij ▸ hzero) hi0⟩
    · refine ⟨fun k hk => ?_, fun h => nomatch h⟩
      obtain rfl := Option.some.inj hk
      refine ⟨Or.inr rfl, hzero, fun i hi hi0 => hi.elim (fun him => ?_) fun hij => (congrArg vec1 hij).ge⟩
      cases min with
      | none => exact absurd (hnone rfl i him) hi0
      | some k =>
        have hlt : vec1 j < vec1 k := by simpa using hless
        exact hlt.le.trans ((hmin k rfl).2.2 i him hi0)
    · refine ⟨fun k hk => ?_, fun h => absurd (h ▸ rfl : Option.all (fun k => decide (vec1 j < vec1 k)) min = true) hless⟩
      obtain ⟨hmem, hne, hle⟩ := hmin k hk
      refine ⟨Or.inl hmem, hne, fun i hi hi0 => hi.elim (fun him => hle i him hi0) fun hij => ?_⟩
      rw [Option.mem_def.mp hk] at hless
      rw [hij]
      simpa using hless

/-- **The least entry that is not zero**, if there is one. Source: `lambda.h` `lambda_vector_min_nz`. Kind: L -/
theorem lambdaVectorMinNz_spec {vec1 : Fin n → ℤ} {start : ℕ} (hex : ∃ i : Fin n, start ≤ i.val ∧ vec1 i ≠ 0) :
    ∃ k, lambdaVectorMinNz vec1 start = some k ∧ start ≤ k.val ∧ vec1 k ≠ 0 ∧
      ∀ i : Fin n, start ≤ i.val → vec1 i ≠ 0 → vec1 k ≤ vec1 i := by
  have hmem (i : Fin n) : (i ∈ (List.finRange n).filter fun j => start ≤ j.val) ↔ start ≤ i.val := by simp
  obtain ⟨hmin, hnone⟩ := @foldl_minNzStep n vec1 ((List.finRange n).filter fun j => start ≤ j.val)
  cases hfold : ((List.finRange n).filter fun j => start ≤ j.val).foldl (minNzStep vec1) none with
  | none =>
    obtain ⟨i, hi, hne⟩ := hex
    exact absurd (hnone hfold i ((hmem i).mpr hi)) hne
  | some k =>
    obtain ⟨hk, hne, hle⟩ := hmin k hfold
    exact ⟨k, hfold, (hmem k).mp hk, hne, fun i hi => hle i ((hmem i).mpr hi)⟩

/-- A loop over the indices from the first one on, one step longer. -/
theorem foldlM_take_succ {σ : Type} (f : σ → Fin n → Option σ) (s : σ) {k : ℕ} (hk : k < n) :
    ((List.finRange n).take (k + 1)).foldlM f s = (((List.finRange n).take k).foldlM f s).bind fun s => f s ⟨k, hk⟩ := by
  have htake : (List.finRange n).take (k + 1) = (List.finRange n).take k ++ [⟨k, hk⟩] := by
    rw [List.take_succ_eq_append_getElem (by simpa using hk), List.getElem_finRange]
    rfl
  rw [htake, List.foldlM_append]
  refine congrArg (Option.bind _) (funext fun t => ?_)
  rw [List.foldlM_cons]
  exact bind_pure (f t ⟨k, hk⟩)

/-- A loop over the indices from the last one down, one step longer. -/
theorem foldlM_drop_reverse {σ : Type} (f : σ → Fin n → Option σ) (s : σ) {k : ℕ} (hk : k < n) :
    ((List.finRange n).drop k).reverse.foldlM f s =
      (((List.finRange n).drop (k + 1)).reverse.foldlM f s).bind fun s => f s ⟨k, hk⟩ := by
  have hdrop : (List.finRange n).drop k = ⟨k, hk⟩ :: (List.finRange n).drop (k + 1) := by
    rw [List.drop_eq_getElem_cons (by simpa using hk), List.getElem_finRange]
    rfl
  rw [hdrop, List.reverse_cons, List.foldlM_append]
  refine congrArg (Option.bind _) (funext fun t => ?_)
  rw [List.foldlM_cons]
  exact bind_pure (f t ⟨k, hk⟩)

end Specs

end GccCore.Gcc.Lambda
