import GccCore.Gcc.Lambda.Triangular
import Mathlib.LinearAlgebra.Matrix.Determinant.Basic
import Mathlib.LinearAlgebra.Matrix.Block
import Mathlib.Tactic.FinCases

/-!
# `gcc/lambda-mat.c`: the inverse of an integer matrix

The columns are reduced to a lower triangular matrix and then to the identity; the same operations turn the identity into a
multiple of the inverse. Where a diagonal element is not one, the other columns are multiplied by it.

* **The reduction to the identity** (`backStep_spec`, `reduceToId_spec`): the matrix times `INV` is the partial determinant times
  `TEMP`, and the partial determinant times the diagonal of `TEMP` stays the same.
* **The inverse** (`lambdaMatrixInverse_spec`) times the matrix, and the assertion.
-/

namespace GccCore.Gcc.Lambda

open Matrix
open GccCore.Lib.ElementaryMatrix

variable {n : ℕ}

/-! ## The code -/

section Code

/-- `factor`. Source: `lambda-mat.c` `lambda_matrix_inverse_hard`. -/
def inverseAmount (x d : ℤ) : ℤ := if d ≠ 1 then (-1 * x).tdiv d else -1 * x

/-- The variables of the second part. Source: `lambda-mat.c` `lambda_matrix_inverse_hard`. -/
structure BackState (n : ℕ) where
  determinant : ℤ
  temp : LambdaMatrix n n
  inv : LambdaMatrix n n

/-- The columns but the one on the diagonal. Source: `lambda-mat.c` `lambda_matrix_inverse_hard` (`if (diagonal != 1)`). -/
def scaleOthers (j : Fin n) (diagonal : ℤ) (inv : LambdaMatrix n n) : LambdaMatrix n n :=
  ((List.finRange n).filter fun i => j < i).foldl (fun inv i => lambdaMatrixColMc inv i diagonal)
    (((List.finRange n).filter fun i => i < j).foldl (fun inv i => lambdaMatrixColMc inv i diagonal) inv)

/-- Source: `lambda-mat.c` `lambda_matrix_inverse_hard` ("Sweep the lower triangle"). -/
def sweepLower (j : Fin n) (s : LambdaMatrix n n × LambdaMatrix n n) : LambdaMatrix n n × LambdaMatrix n n :=
  ((List.finRange n).filter fun i => i < j).reverse.foldl
    (fun s i => if s.1 j i ≠ 0 then both colOp (.add j i (-s.1 j i)) s else s) s

/-- A row of the second part; the assertion fails for a diagonal element that is zero.
Source: `lambda-mat.c` `lambda_matrix_inverse_hard` (`for (j = n - 1; ...)`) -/
def backStep (st : BackState n) (j : Fin n) : Option (BackState n) :=
  let diagonal := st.temp j j
  if diagonal = 0 then none
  else
    let determinant := st.determinant * diagonal
    let s := if diagonal ≠ 1 then (st.temp.updateRow j (Function.update (st.temp j) j 1), scaleOthers j diagonal st.inv)
      else (st.temp, st.inv)
    let s := sweepLower j s
    some ⟨determinant, s.1, s.2⟩

/-- The determinant and `INV`; no inner answer if the assertion fails, no outer one if `fuel` is not enough.
Source: `lambda-mat.c` `lambda_matrix_inverse_hard` -/
def lambdaMatrixInverseHard (fuel : ℕ) (mat : LambdaMatrix n n) : Option (Option (ℤ × LambdaMatrix n n)) :=
  (triangularize colOp inverseAmount fuel (mat, 1)).map fun s =>
    ((List.finRange n).reverse.foldlM backStep ⟨1, s.1, s.2⟩).map fun st => (st.determinant, st.inv)

/-- Source: `lambda-mat.c` `lambda_matrix_inverse` (`n == 2`). -/
def lambdaMatrixInverseTwo (mat : LambdaMatrix 2 2) : ℤ × LambdaMatrix 2 2 :=
  let a := mat 0 0
  let b := mat 1 0
  let c := mat 0 1
  let d := mat 1 1
  let det := a * d - b * c
  if det < 0 then (det * -1, !![d * -1, -c * -1; -b * -1, a * -1]) else (det, !![d, -c; -b, a])

/-- Source: `lambda-mat.c` `lambda_matrix_inverse`. -/
def lambdaMatrixInverse : (n : ℕ) → ℕ → LambdaMatrix n n → Option (Option (ℤ × LambdaMatrix n n))
  | 2, _, mat => some (some (lambdaMatrixInverseTwo mat))
  | _, fuel, mat => lambdaMatrixInverseHard fuel mat

end Code

/-! ## The steps of the second part -/

section Steps

variable {mat : LambdaMatrix n n} {j : Fin n} {δ : ℤ}

/-- Columns that are multiplied. Source: `lambda-mat.c` `lambda_matrix_col_mc`. Kind: L -/
theorem foldl_colMc (d : ℤ) (inv : LambdaMatrix n n) (is : List (Fin n)) (hnodup : is.Nodup) (a k : Fin n) :
    is.foldl (fun inv i => lambdaMatrixColMc inv i d) inv a k = if k ∈ is then inv a k * d else inv a k := by
  induction is generalizing inv with
  | nil => rfl
  | cons i is ih =>
    obtain ⟨hi, hnodup⟩ := List.nodup_cons.mp hnodup
    rw [List.foldl_cons, ih _ hnodup, lambdaMatrixColMc, updateCol_apply]
    by_cases hk : k = i
    · subst hk
      rw [if_neg hi, if_pos rfl, if_pos List.mem_cons_self]
    · rw [if_neg hk]
      simp only [List.mem_cons, hk, false_or]

theorem scaleOthers_apply (d : ℤ) (inv : LambdaMatrix n n) (a k : Fin n) :
    scaleOthers j d inv a k = if k = j then inv a k else inv a k * d := by
  have hnodup (p : Fin n → Bool) : ((List.finRange n).filter p).Nodup := (List.nodup_finRange n).filter p
  rw [scaleOthers, foldl_colMc _ _ _ (hnodup _), foldl_colMc _ _ _ (hnodup _)]
  simp only [List.mem_filter, List.mem_finRange, true_and, decide_eq_true_eq]
  rcases lt_trichotomy k j with h | h | h
  · rw [if_neg h.asymm, if_pos h, if_neg h.ne]
  · rw [h, if_neg (lt_irrefl j), if_neg (lt_irrefl j), if_pos rfl]
  · rw [if_pos h, if_neg h.asymm, if_neg h.ne']

/-- **The columns before the diagonal** lose their entry of the row. Source: `lambda-mat.c` ("Sweep the lower triangle"). Kind: L -/
theorem sweepLower_spec {s : LambdaMatrix n n × LambdaMatrix n n} (hmul : mat * s.2 = δ • s.1)
    (hcol : ∀ a, s.1 a j = if a = j then 1 else 0) :
    mat * (sweepLower j s).2 = δ • (sweepLower j s).1 ∧
      ∀ a b, (sweepLower j s).1 a b = if a = j ∧ b < j then 0 else s.1 a b := by
  have hrun (is : List (Fin n)) (his : ∀ i ∈ is, i < j) : ∃ t, is.foldl
      (fun s i => if s.1 j i ≠ 0 then both colOp (.add j i (-s.1 j i)) s else s) s = t ∧ mat * t.2 = δ • t.1 ∧
        ∀ a b, t.1 a b = if a = j ∧ b ∈ is then 0 else s.1 a b := by
    induction is using List.reverseRecOn with
    | nil => exact ⟨s, rfl, hmul, fun a b => by simp⟩
    | append_singleton is k ih =>
      obtain ⟨t, ht, hmul, hentry⟩ := ih fun i hi => his i (List.mem_append_left [k] hi)
      have hk := his k (List.mem_append_right is (List.mem_singleton_self k))
      have hcol' (a : Fin n) : t.1 a j = if a = j then 1 else 0 := by
        rw [hentry, if_neg fun h => (his j (List.mem_append_left [k] h.2)).false, hcol]
      rw [List.foldl_append, List.foldl_cons, List.foldl_nil, ht]
      refine ⟨_, rfl, ?_, fun a b => ?_⟩
      · split_ifs
        · rw [both, colOp_eq, colOp_eq, ← Matrix.mul_assoc, hmul, Matrix.smul_mul]
        · exact hmul
      · -- column `k` changes in row `j` only, where the entry becomes zero
        have hzero : (if t.1 j k ≠ 0 then both colOp (.add j k (-t.1 j k)) t else t).1 a b =
            if a = j ∧ b = k then 0 else t.1 a b := by
          split_ifs with hne hab hab
          · obtain ⟨rfl, rfl⟩ := hab
            rw [both_add, if_pos rfl, hcol', if_pos rfl, mul_one, add_neg_cancel]
          · rw [both_add]
            split_ifs with hb
            · rw [hcol', if_neg fun ha => hab ⟨ha, hb⟩, mul_zero, add_zero, hb]
            · rfl
          · obtain ⟨rfl, rfl⟩ := hab
            exact not_not.mp hne
          · rfl
        rw [hzero, hentry]
        by_cases ha : a = j <;> by_cases hb : b = k <;> simp [ha, hb]
  obtain ⟨t, ht, hmul, hentry⟩ := hrun ((List.finRange n).filter fun i => i < j).reverse (by simp)
  rw [sweepLower, ht]
  exact ⟨hmul, fun a b => by simpa using hentry a b⟩

/-- **The rows from `k` on are those of the identity**: the matrix times `INV` is the determinant so far times `TEMP`, and the
determinant so far times the diagonal is what it was.
Source: `lambda-mat.c` `lambda_matrix_inverse_hard` -/
structure BackInv (mat : LambdaMatrix n n) (D : ℤ) (k : ℕ) (st : BackState n) : Prop where
  mul : mat * st.inv = st.determinant • st.temp
  ne_zero : st.determinant ≠ 0
  diag : st.determinant * ∏ i, st.temp i i = D
  upper : ∀ a b, a < b → st.temp a b = 0
  row : ∀ a b : Fin n, k ≤ a.val → st.temp a b = if a = b then 1 else 0

/-- The scaled state: column `j` of `TEMP` becomes a column of the identity. Source: `lambda-mat.c` (`if (diagonal != 1)`). Kind: L -/
theorem BackInv.scale {D : ℤ} {st : BackState n} (h : BackInv mat D (j + 1) st) (hdiag : st.temp j j ≠ 0) :
    BackInv mat D (j + 1) ⟨st.determinant * st.temp j j, st.temp.updateRow j (Function.update (st.temp j) j 1),
      scaleOthers j (st.temp j j) st.inv⟩ ∧
      ∀ a, st.temp.updateRow j (Function.update (st.temp j) j 1) a j = if a = j then 1 else 0 := by
  have hentry (a b : Fin n) : st.temp.updateRow j (Function.update (st.temp j) j 1) a b =
      if a = j ∧ b = j then 1 else st.temp a b := by
    rw [updateRow_apply]
    by_cases ha : a = j
    · subst ha
      rw [if_pos rfl, Function.update_apply]
      simp only [true_and]
    · simp only [ha, if_false, false_and]
  generalize st.temp.updateRow j (Function.update (st.temp j) j 1) = T at hentry ⊢
  have hcol (a : Fin n) (ha : a ≠ j) : st.temp a j = 0 := by
    obtain hlt | hgt := lt_or_gt_of_ne ha
    · exact h.upper a j hlt
    · rw [h.row a j (Nat.succ_le_of_lt hgt), if_neg ha]
  refine ⟨⟨?_, mul_ne_zero h.ne_zero hdiag, ?_, fun a b hab => ?_, fun a b ha => ?_⟩, fun a => ?_⟩
  · ext a k
    dsimp only
    have hmul := congrFun₂ h.mul a k
    rw [Matrix.mul_apply, Matrix.smul_apply, smul_eq_mul] at hmul ⊢
    simp only [scaleOthers_apply]
    rw [hentry]
    by_cases hk : k = j
    · simp only [hk, if_true, and_true] at hmul ⊢
      rw [hmul]
      split_ifs with ha
      · rw [ha, mul_one]
      · rw [hcol a ha, mul_zero, mul_zero]
    · simp only [hk, if_false, and_false, ← mul_assoc, ← Finset.sum_mul]
      rw [hmul]
      exact mul_right_comm _ _ _
  · dsimp only
    rw [← h.diag, ← Finset.mul_prod_erase _ _ (Finset.mem_univ j), ← Finset.mul_prod_erase _ _ (Finset.mem_univ j), hentry,
      if_pos ⟨rfl, rfl⟩, one_mul, mul_assoc]
    congr 2
    refine Finset.prod_congr rfl fun i hi => ?_
    rw [hentry, if_neg fun hij => Finset.ne_of_mem_erase hi hij.1]
  · dsimp only
    rw [hentry, if_neg fun h => hab.ne (h.1.trans h.2.symm)]
    exact h.upper a b hab
  · dsimp only
    rw [hentry, if_neg fun h => by rw [h.1] at ha; exact Nat.not_succ_le_self _ ha]
    exact h.row a b ha
  · rw [hentry]
    split_ifs with ha ha' ha'
    · rfl
    · exact absurd ha.1 ha'
    · exact absurd ⟨ha', rfl⟩ ha
    · exact hcol a ha'

/-- **A row of the second part.** Source: `lambda-mat.c` `lambda_matrix_inverse_hard` (`for (j = n - 1; ...)`). Kind: L -/
theorem backStep_spec {D : ℤ} {st : BackState n} (h : BackInv mat D (j + 1) st) :
    (backStep st j = none ∧ D = 0) ∨ ∃ st', backStep st j = some st' ∧ BackInv mat D j st' := by
  by_cases hdiag : st.temp j j = 0
  · refine Or.inl ⟨if_pos hdiag, ?_⟩
    have hprod : ∏ i, st.temp i i = 0 := Finset.prod_eq_zero (Finset.mem_univ j) hdiag
    rw [← h.diag, hprod, mul_zero]
  · obtain ⟨s, hs, hinv, hcol⟩ : ∃ s : LambdaMatrix n n × LambdaMatrix n n,
        (if st.temp j j ≠ 1 then (st.temp.updateRow j (Function.update (st.temp j) j 1), scaleOthers j (st.temp j j) st.inv)
          else (st.temp, st.inv)) = s ∧ BackInv mat D (j + 1) ⟨st.determinant * st.temp j j, s.1, s.2⟩ ∧
          ∀ a, s.1 a j = if a = j then 1 else 0 := by
      obtain ⟨hscale, hcol⟩ := h.scale hdiag
      by_cases hone : st.temp j j = 1
      · refine ⟨_, if_neg (not_not.mpr hone), ?_, fun a => ?_⟩
        · rw [hone, mul_one]
          exact h
        · have hcol' := hcol a
          rwa [← hone, Function.update_eq_self, updateRow_eq_self, hone] at hcol'
      · exact ⟨_, if_pos hone, hscale, hcol⟩
    obtain ⟨hmul, hentry⟩ := sweepLower_spec hinv.mul hcol
    have hrow (a b : Fin n) (ha : j ≤ a) : (sweepLower j s).1 a b = if a = b then 1 else 0 := by
      rw [hentry]
      obtain rfl | hlt := ha.eq_or_lt
      · rcases lt_trichotomy b j with hb | rfl | hb
        · rw [if_pos ⟨rfl, hb⟩, if_neg hb.ne']
        · rw [if_neg fun h => h.2.false, hcol]
        · rw [if_neg fun h => h.2.asymm hb, if_neg hb.ne]
          exact hinv.upper j b hb
      · rw [if_neg fun h => hlt.ne' h.1]
        exact hinv.row a b (Nat.succ_le_of_lt hlt)
    have hstep : backStep st j = some ⟨st.determinant * st.temp j j, (sweepLower j s).1, (sweepLower j s).2⟩ := by
      rw [← hs]
      exact if_neg hdiag
    refine Or.inr ⟨_, hstep, hmul, hinv.ne_zero, ?_, fun a b hab => ?_, hrow⟩
    · rw [← hinv.diag]
      congr 1
      refine Finset.prod_congr rfl fun i _ => ?_
      dsimp only
      rw [hentry, if_neg fun h : i = j ∧ i < j => h.2.ne h.1]
    · dsimp only
      rw [hentry]
      split_ifs
      · rfl
      · exact hinv.upper a b hab

/-- **The reduction to the identity**, or a diagonal element that is zero. Source: `lambda-mat.c` `lambda_matrix_inverse_hard`. Kind: L -/
theorem reduceToId_spec {D : ℤ} {st : BackState n} (h : BackInv mat D n st) :
    ((List.finRange n).reverse.foldlM backStep st = none ∧ D = 0) ∨
      ∃ st', (List.finRange n).reverse.foldlM backStep st = some st' ∧ BackInv mat D 0 st' := by
  have hrun (d : ℕ) (hd : d ≤ n) : (((List.finRange n).drop (n - d)).reverse.foldlM backStep st = none ∧ D = 0) ∨
      ∃ st', ((List.finRange n).drop (n - d)).reverse.foldlM backStep st = some st' ∧ BackInv mat D (n - d) st' := by
    induction d with
    | zero =>
      have hdrop : (List.finRange n).drop (n - 0) = [] := List.drop_of_length_le (by simp)
      exact Or.inr ⟨st, by rw [hdrop]; rfl, h⟩
    | succ d ih =>
      have hlt : n - (d + 1) < n := by omega
      have hsucc : n - (d + 1) + 1 = n - d := by omega
      rw [foldlM_drop_reverse _ _ hlt, hsucc]
      obtain ⟨hnone, hD⟩ | ⟨st', hsome, hinv⟩ := ih (Nat.le_of_succ_le hd)
      · exact Or.inl ⟨by rw [hnone]; rfl, hD⟩
      · rw [hsome, Option.bind_some]
        have hinv' : BackInv mat D ((⟨n - (d + 1), hlt⟩ : Fin n) + 1) st' := by rwa [hsucc]
        exact backStep_spec hinv'
  have hall := hrun n le_rfl
  rwa [Nat.sub_self, List.drop_zero] at hall

end Steps

/-! ## The inverse -/

section Inverse

/-- The first part keeps what `INV` is of the matrix. Source: `lambda-mat.c` `lambda_matrix_inverse_hard`. Kind: L -/
theorem inverseMirror_kept {mat : LambdaMatrix n n} {e : Elementary (Fin n) ℤ} {s : LambdaMatrix n n × LambdaMatrix n n}
    (he : e.Proper) (hs : mat * s.2 = s.1 ∧ IsUnit s.2.det) :
    mat * (both colOp e s).2 = (both colOp e s).1 ∧ IsUnit (both colOp e s).2.det := by
  rw [both, colOp_eq, colOp_eq, ← Matrix.mul_assoc, hs.1, det_mul]
  exact ⟨rfl, hs.2.mul (Elementary.isUnit_det he)⟩

/-- **The elimination** ends; its assertion fails for singular matrices, and only for them.
Source: `lambda-mat.c` `lambda_matrix_inverse_hard`
Kind: L -/
theorem lambdaMatrixInverseHard_spec (mat : LambdaMatrix n n) :
    ((∃ N, ∀ fuel ≥ N, lambdaMatrixInverseHard fuel mat = some none) ∧ mat.det = 0) ∨
      ∃ inv, (∃ N, ∀ fuel ≥ N, lambdaMatrixInverseHard fuel mat = some (some (|mat.det|, inv))) ∧ mat.det ≠ 0 ∧
        mat * inv = |mat.det| • (1 : LambdaMatrix n n) := by
  have hamount (x d : ℤ) (hx : 0 ≤ x) (_ : 0 < d) : inverseAmount x d = -(x / d) := by
    rw [inverseAmount, neg_one_mul]
    split_ifs with h1
    · rw [Int.neg_tdiv, Int.tdiv_eq_ediv_of_nonneg hx]
    · rw [not_not.mp h1, Int.ediv_one]
  obtain ⟨⟨T, I⟩, ⟨N, hN⟩, ⟨hmul, hunit⟩, hdone⟩ := triangularize_spec (P := fun s => mat * s.2 = s.1 ∧ IsUnit s.2.det)
    (fun e s he hs => inverseMirror_kept he hs) hamount (s := (mat, 1)) ⟨Matrix.mul_one mat, by rw [det_one]; exact isUnit_one⟩
  dsimp only at hmul hunit hdone
  -- the diagonal is the determinant, up to its sign
  have hD : ∏ i, T i i = |mat.det| := by
    have hT : T.det = ∏ i, T i i :=
      det_of_isLowerTriangular T fun a b hab => hdone.zero a b a.isLt hab
    have hnonneg : 0 ≤ ∏ i, T i i := Finset.prod_nonneg fun i _ => hdone.nonneg i i.isLt
    rw [← abs_of_nonneg hnonneg, ← hT, ← hmul, det_mul, abs_mul]
    obtain h | h := Int.isUnit_iff.mp hunit <;> simp [h]
  have hinv : BackInv mat |mat.det| n ⟨1, T, I⟩ :=
    ⟨by rw [one_smul]; exact hmul, one_ne_zero, by rw [one_mul, hD], fun a b hab => hdone.zero a b a.isLt hab,
      fun a b ha => absurd a.isLt (not_lt.mpr ha)⟩
  have hrun (r : Option (BackState n)) (hr : (List.finRange n).reverse.foldlM backStep ⟨1, T, I⟩ = r) :
      ∀ fuel ≥ N, lambdaMatrixInverseHard fuel mat = some (r.map fun st => (st.determinant, st.inv)) := by
    intro fuel hfuel
    rw [lambdaMatrixInverseHard, hN fuel hfuel, ← hr]
    rfl
  obtain ⟨hnone, hzero⟩ | ⟨st, hsome, hid⟩ := reduceToId_spec hinv
  · exact Or.inl ⟨⟨N, hrun none hnone⟩, abs_eq_zero.mp hzero⟩
  · have htemp : st.temp = 1 := by
      ext a b
      rw [hid.row a b (Nat.zero_le _), one_apply]
    have hdet : st.determinant = |mat.det| := by
      have hdiag := hid.diag
      simp only [htemp, one_apply_eq, Finset.prod_const_one, mul_one] at hdiag
      exact hdiag
    refine Or.inr ⟨st.inv, ⟨N, hdet ▸ hrun (some st) hsome⟩, fun hzero => hid.ne_zero ?_, ?_⟩
    · rw [hdet, hzero, abs_zero]
    · rw [hid.mul, htemp, hdet]

/-- **Two by two.** Source: `lambda-mat.c` `lambda_matrix_inverse` (`n == 2`). Kind: L -/
theorem lambdaMatrixInverseTwo_spec (mat : LambdaMatrix 2 2) :
    (lambdaMatrixInverseTwo mat).1 = |mat.det| ∧ mat * (lambdaMatrixInverseTwo mat).2 = |mat.det| • (1 : LambdaMatrix 2 2) := by
  have hdet : mat 0 0 * mat 1 1 - mat 1 0 * mat 0 1 = mat.det := by
    rw [det_fin_two]
    ring
  simp only [lambdaMatrixInverseTwo, hdet]
  split_ifs with hneg
  · rw [abs_of_neg hneg]
    refine ⟨mul_neg_one _, ?_⟩
    ext a b
    fin_cases a <;> fin_cases b <;> simp [Matrix.mul_apply, ← hdet] <;> ring
  · rw [abs_of_nonneg (not_lt.mp hneg)]
    refine ⟨rfl, ?_⟩
    ext a b
    fin_cases a <;> fin_cases b <;> simp [Matrix.mul_apply, ← hdet] <;> ring

/-- A nonsingular matrix has one multiple of the inverse. -/
theorem eq_of_mul_eq {mat X Y : LambdaMatrix n n} (hdet : mat.det ≠ 0) (h : mat * X = mat * Y) : X = Y := by
  have hadj := congrArg (mat.adjugate * ·) h
  simp only [← Matrix.mul_assoc, adjugate_mul, Matrix.smul_mul, Matrix.one_mul] at hadj
  exact smul_right_injective _ hdet hadj

/-- **`lambda_matrix_inverse`** for nonsingular matrices; the case of two rows agrees with the elimination, which ends for every
matrix and whose assertion holds exactly for nonsingular ones.
Source: `lambda-mat.c` `lambda_matrix_inverse`, `lambda_matrix_inverse_hard`
Kind: P -/
theorem lambdaMatrixInverse_spec :
    (∀ (n : ℕ) (mat : LambdaMatrix n n), mat.det ≠ 0 →
      ∃ inv, (∃ N, ∀ fuel ≥ N, lambdaMatrixInverse n fuel mat = some (some (|mat.det|, inv))) ∧
        mat * inv = |mat.det| • (1 : LambdaMatrix n n)) ∧
    (∀ mat : LambdaMatrix 2 2, mat.det ≠ 0 →
      ∃ N, ∀ fuel ≥ N, lambdaMatrixInverseHard fuel mat = some (some (lambdaMatrixInverseTwo mat))) ∧
    ∀ (n : ℕ) (mat : LambdaMatrix n n),
      ∃ r N, (∀ fuel ≥ N, lambdaMatrixInverseHard fuel mat = some r) ∧ (r.isSome ↔ mat.det ≠ 0) := by
  have hhard {n : ℕ} {mat : LambdaMatrix n n} (hdet : mat.det ≠ 0) :
      ∃ inv, (∃ N, ∀ fuel ≥ N, lambdaMatrixInverseHard fuel mat = some (some (|mat.det|, inv))) ∧
        mat * inv = |mat.det| • (1 : LambdaMatrix n n) := by
    obtain ⟨-, hzero⟩ | ⟨inv, hrun, -, hmul⟩ := lambdaMatrixInverseHard_spec mat
    · exact absurd hzero hdet
    · exact ⟨inv, hrun, hmul⟩
  refine ⟨fun n mat hdet => ?_, fun mat hdet => ?_, fun n mat => ?_⟩
  · by_cases htwo : n = 2
    · subst htwo
      obtain ⟨hfst, hmul⟩ := lambdaMatrixInverseTwo_spec mat
      exact ⟨_, ⟨0, fun _ _ => congrArg (fun r => some (some r)) (Prod.ext hfst rfl)⟩, hmul⟩
    · obtain ⟨inv, ⟨N, hN⟩, hmul⟩ := hhard hdet
      refine ⟨inv, ⟨N, fun fuel hfuel => ?_⟩, hmul⟩
      rw [lambdaMatrixInverse]
      · exact hN fuel hfuel
      · exact fun _ h _ => htwo h
  · obtain ⟨inv, ⟨N, hN⟩, hmul⟩ := hhard hdet
    obtain ⟨hfst, hmul'⟩ := lambdaMatrixInverseTwo_spec mat
    refine ⟨N, fun fuel hfuel => ?_⟩
    rw [hN fuel hfuel, ← hfst, eq_of_mul_eq hdet (hmul.trans hmul'.symm)]
  · obtain ⟨⟨N, hN⟩, hzero⟩ | ⟨inv, ⟨N, hN⟩, hdet, -⟩ := lambdaMatrixInverseHard_spec mat
    · exact ⟨none, N, hN, iff_of_false (by simp) (not_not.mpr hzero)⟩
    · exact ⟨_, N, hN, iff_of_true rfl hdet⟩

end Inverse

end GccCore.Gcc.Lambda
