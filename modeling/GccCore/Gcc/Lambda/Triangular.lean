import GccCore.Gcc.Lambda.Matrix
import Mathlib.Algebra.Order.BigOperators.Group.Finset

/-!
# `gcc/lambda-mat.c`: reduction to a lower triangular matrix

Row by row, the columns from the diagonal on are reduced like the numbers of Euclid's algorithm until one entry is left. A second
matrix follows the operations.

* **A row** (`sweepRow_spec`): the entries behind the diagonal become smaller with every sweep, so that the loop ends.
* **All rows** (`triangularize_spec`): a lower triangular matrix whose diagonal is not negative; what every operation keeps holds
  at the end.
-/

namespace GccCore.Gcc.Lambda

open Matrix
open GccCore.Lib.ElementaryMatrix

variable {n : ℕ} {β : Type}

/-! ## The code -/

section Code

variable (mirror : Elementary (Fin n) ℤ → β → β) (amount : ℤ → ℤ → ℤ)

/-- An operation on the columns, and what follows it on the other matrix. Source: `lambda-mat.c`. -/
def both (e : Elementary (Fin n) ℤ) (s : LambdaMatrix n n × β) : LambdaMatrix n n × β := (colOp e s.1, mirror e s.2)

/-- Source: `lambda-mat.c` `lambda_matrix_inverse_hard`, `lambda_matrix_hermite` ("Make every element ... positive"). -/
def makePositive (j : Fin n) (s : LambdaMatrix n n × β) : LambdaMatrix n n × β :=
  ((List.finRange n).filter fun i => j ≤ i).foldl (fun s i => if s.1 j i < 0 then both mirror (.negate i) s else s) s

/-- The columns behind the diagonal; `amount` is what is added of the column on the diagonal, by the two entries of the row.
Source: `lambda-mat.c` `lambda_matrix_inverse_hard`, `lambda_matrix_hermite` (`for (i = j + 1; ...)`) -/
def reduceColumns (j : Fin n) (s : LambdaMatrix n n × β) : LambdaMatrix n n × β :=
  ((List.finRange n).filter fun i => j < i).foldl (fun s i => both mirror (.add j i (amount (s.1 j i) (s.1 j j))) s) s

/-- The loop until the diagonal element is the only one, with at most `fuel` tests.
Source: `lambda-mat.c` `lambda_matrix_inverse_hard`, `lambda_matrix_hermite` (`while`) -/
def sweepRow (j : Fin n) : ℕ → LambdaMatrix n n × β → Option (LambdaMatrix n n × β)
  | 0, _ => none
  | fuel + 1, s =>
    (lambdaVectorFirstNz (rowCells s.1 j) n (j + 1)).bind fun nz =>
      if nz < n then
        (lambdaVectorMinNz (s.1 j) j).bind fun minCol =>
          sweepRow j fuel (reduceColumns mirror amount j (both mirror (.exchange j minCol) s))
      else some s

/-- All rows. Source: `lambda-mat.c` `lambda_matrix_inverse_hard`, `lambda_matrix_hermite` (`for (j = 0; ...)`). -/
def triangularize (fuel : ℕ) (s : LambdaMatrix n n × β) : Option (LambdaMatrix n n × β) :=
  (List.finRange n).foldlM (fun s j => sweepRow mirror amount j fuel (makePositive mirror j s)) s

end Code

/-! ## The rows that are done -/

section Done

variable {H : LambdaMatrix n n} {j : ℕ} {e : Elementary (Fin n) ℤ}

/-- **The first rows are those of a lower triangular matrix** with a diagonal that is not negative.
Source: `lambda-mat.c` `lambda_matrix_hermite` -/
structure Done (H : LambdaMatrix n n) (j : ℕ) : Prop where
  zero : ∀ a b : Fin n, a.val < j → a < b → H a b = 0
  nonneg : ∀ a : Fin n, a.val < j → 0 ≤ H a a

/-- The operation leaves the columns before `j` alone. -/
def Behind (j : ℕ) : Elementary (Fin n) ℤ → Prop
  | .negate a => j ≤ a.val
  | .exchange a b => j ≤ a.val ∧ j ≤ b.val
  | .add a b _ => j ≤ a.val ∧ j ≤ b.val

/-- **The rows that are done stay as they are.** Source: `lambda-mat.c` `lambda_matrix_hermite`. Kind: L -/
theorem Done.colOp (h : Done H j) (he : Behind j e) : Done (colOp e H) j := by
  have hsame (a b : Fin n) (ha : a.val < j) : (Lambda.colOp e H) a b = H a b := by
    have hz (b : Fin n) (hb : j ≤ b.val) : H a b = 0 := h.zero a b ha (by omega)
    rw [colOp_eq]
    cases e with
    | negate i =>
      rw [Elementary.mul_negate_apply]
      split_ifs with hb
      · rw [hb, hz i he, neg_zero]
      · rfl
    | exchange i k =>
      rw [Elementary.mul_exchange_apply]
      split_ifs with hb hb
      · rw [hb, hz i he.1, hz k he.2]
      · rw [hb, hz i he.1, hz k he.2]
      · rfl
    | add i k c =>
      rw [Elementary.mul_add_apply]
      split_ifs with hb
      · rw [hb, hz i he.1, mul_zero, add_zero]
      · rfl
  exact ⟨fun a b ha hab => (hsame a b ha).trans (h.zero a b ha hab), fun a ha => (h.nonneg a ha).trans_eq (hsame a a ha).symm⟩

end Done

/-! ## One row -/

section Row

variable {mirror : Elementary (Fin n) ℤ → β → β} {amount : ℤ → ℤ → ℤ} {P : LambdaMatrix n n × β → Prop} {j : Fin n}
  {s : LambdaMatrix n n × β}

/-- The entries after an operation. Source: `lambda-mat.c`. Kind: L -/
theorem both_negate (i a k : Fin n) : (both mirror (.negate i) s).1 a k = if k = i then -s.1 a i else s.1 a k :=
  (congrFun₂ (colOp_eq (.negate i) s.1) a k).trans (Elementary.mul_negate_apply _ _ _ _)

theorem both_exchange (i i' a k : Fin n) :
    (both mirror (.exchange i i') s).1 a k = if k = i then s.1 a i' else if k = i' then s.1 a i else s.1 a k :=
  (congrFun₂ (colOp_eq (.exchange i i') s.1) a k).trans (Elementary.mul_exchange_apply _ _ _ _ _)

theorem both_add (i i' a k : Fin n) (c : ℤ) :
    (both mirror (.add i i' c) s).1 a k = if k = i' then s.1 a i' + c * s.1 a i else s.1 a k :=
  (congrFun₂ (colOp_eq (.add i i' c) s.1) a k).trans (Elementary.mul_add_apply _ _ _ _ _ _)

/-- What an operation keeps. -/
def Kept (P : LambdaMatrix n n × β → Prop) (j : ℕ) (s : LambdaMatrix n n × β) : Prop := P s ∧ Done s.1 j

theorem Kept.both (hP : ∀ e s, e.Proper → P s → P (both mirror e s)) (h : Kept P j s) {e : Elementary (Fin n) ℤ}
    (he : e.Proper) (hb : Behind j e) : Kept P j (both mirror e s) := ⟨hP e s he h.1, h.2.colOp hb⟩

/-- **All entries from the diagonal on become nonnegative.** Source: `lambda-mat.c` ("Make every element ... positive"). Kind: L -/
theorem makePositive_spec (hP : ∀ e s, e.Proper → P s → P (both mirror e s)) (hs : Kept P j s) :
    Kept P j (makePositive mirror j s) ∧ ∀ i, j ≤ i → 0 ≤ (makePositive mirror j s).1 j i := by
  have hrun (is : List (Fin n)) (his : ∀ i ∈ is, j ≤ i) :
      Kept P j (is.foldl (fun s i => if s.1 j i < 0 then both mirror (.negate i) s else s) s) ∧
        ∀ i ∈ is, 0 ≤ (is.foldl (fun s i => if s.1 j i < 0 then both mirror (.negate i) s else s) s).1 j i := by
    induction is using List.reverseRecOn with
    | nil => exact ⟨hs, fun i hi => nomatch hi⟩
    | append_singleton is k ih =>
      obtain ⟨hkept, hnonneg⟩ := ih fun i hi => his i (List.mem_append_left [k] hi)
      rw [List.foldl_append, List.foldl_cons, List.foldl_nil]
      generalize is.foldl (fun s i => if s.1 j i < 0 then both mirror (.negate i) s else s) s = t at hkept hnonneg
      have hk := his k (List.mem_append_right is (List.mem_singleton_self k))
      split_ifs with hneg
      · refine ⟨hkept.both hP trivial (Fin.le_def.mp hk), fun i hi => ?_⟩
        rw [both_negate]
        split_ifs with hik
        · exact neg_nonneg.mpr hneg.le
        · exact hnonneg i ((List.mem_append.mp hi).resolve_right fun h => hik (List.mem_singleton.mp h))
      · refine ⟨hkept, fun i hi => (List.mem_append.mp hi).elim (hnonneg i) fun h => ?_⟩
        rw [List.mem_singleton.mp h]
        exact not_lt.mp hneg
  obtain ⟨hkept, hnonneg⟩ := hrun ((List.finRange n).filter fun i => j ≤ i) (by simp)
  exact ⟨hkept, fun i hi => hnonneg i (by simpa using hi)⟩

/-- **The columns behind the diagonal** keep the remainders. Source: `lambda-mat.c` (`for (i = j + 1; ...)`). Kind: L -/
theorem reduceColumns_spec (hP : ∀ e s, e.Proper → P s → P (both mirror e s))
    (hamount : ∀ x d, 0 ≤ x → 0 < d → amount x d = -(x / d)) (hs : Kept P j s) (hpos : 0 < s.1 j j)
    (hnonneg : ∀ i, j ≤ i → 0 ≤ s.1 j i) :
    Kept P j (reduceColumns mirror amount j s) ∧ (reduceColumns mirror amount j s).1 j j = s.1 j j ∧
      ∀ i, j < i → (reduceColumns mirror amount j s).1 j i = s.1 j i % s.1 j j := by
  have hrun (is : List (Fin n)) (his : ∀ i ∈ is, j < i) :
      ∃ t, is.foldl (fun s i => both mirror (.add j i (amount (s.1 j i) (s.1 j j))) s) s = t ∧ Kept P j t ∧
        t.1 j j = s.1 j j ∧ ∀ i, j < i → t.1 j i = if i ∈ is then s.1 j i % s.1 j j else s.1 j i := by
    induction is using List.reverseRecOn with
    | nil => exact ⟨s, rfl, hs, rfl, fun i _ => rfl⟩
    | append_singleton is k ih =>
      obtain ⟨t, ht, hkept, hdiag, hrow⟩ := ih fun i hi => his i (List.mem_append_left [k] hi)
      have hk := his k (List.mem_append_right is (List.mem_singleton_self k))
      rw [List.foldl_append, List.foldl_cons, List.foldl_nil, ht]
      refine ⟨_, rfl, hkept.both hP hk.ne ⟨le_rfl, Fin.le_def.mp hk.le⟩, ?_, fun i hi => ?_⟩
      · rw [both_add, if_neg hk.ne, hdiag]
      · rw [both_add]
        by_cases hik : i = k
        · -- the remainder, also of a remainder
          have hmod : t.1 j k % s.1 j j = s.1 j k % s.1 j j := by
            rw [hrow k hk]
            split_ifs
            · exact Int.emod_emod_of_dvd _ (dvd_refl _)
            · rfl
          have hnn : 0 ≤ t.1 j k := by
            rw [hrow k hk]
            split_ifs
            · exact Int.emod_nonneg _ hpos.ne'
            · exact hnonneg k hk.le
          have hdm := Int.emod_add_mul_ediv (t.1 j k) (s.1 j j)
          rw [if_pos hik, hik, if_pos (List.mem_append_right is (List.mem_singleton_self k)), hdiag,
            hamount _ _ hnn hpos, ← hmod]
          linear_combination -hdm
        · rw [if_neg hik, hrow i hi]
          simp [hik]
  obtain ⟨t, ht, hkept, hdiag, hrow⟩ := hrun ((List.finRange n).filter fun i => j < i) (by simp)
  rw [reduceColumns, ht]
  exact ⟨hkept, hdiag, fun i hi => (hrow i hi).trans (if_pos (by simpa using hi))⟩

/-- What the sweeps make smaller. Source: `lambda-mat.c` (`while`). -/
def rest (j : Fin n) (H : LambdaMatrix n n) : ℕ := ∑ i ∈ Finset.univ.filter fun i => j < i, (H j i).toNat

/-- **A sweep makes the rest smaller.** The least entry `m` comes to the diagonal, the others are reduced by it.
Source: `lambda-mat.c` (`while`)
Kind: L -/
theorem rest_lt {H H' : LambdaMatrix n n} (hnonneg : ∀ i, j ≤ i → 0 ≤ H j i) {m i₀ : Fin n} (hm : j ≤ m) (hm0 : H j m ≠ 0)
    (hle : ∀ i, j ≤ i → H j i ≠ 0 → H j m ≤ H j i) (hi₀ : j < i₀) (hne : H j i₀ ≠ 0)
    (h : ∀ i, j < i → H' j i = (if i = m then H j j else H j i) % H j m) : rest j H' < rest j H := by
  have hpos : 0 < H j m := lt_of_le_of_ne (hnonneg m hm) hm0.symm
  have hm' : j < m → H' j m < H j m := fun hlt => (h m hlt).trans_lt (Int.emod_lt_of_pos _ hpos)
  have hother : ∀ i, j < i → i ≠ m → H' j i = H j i % H j m := fun i hi him => by rw [h i hi, if_neg him]
  refine Finset.sum_lt_sum (fun i hi => Int.toNat_le_toNat ?_) ?_
  · have hji : j < i := by simpa using hi
    by_cases him : i = m
    · rw [him] at hji ⊢
      exact (hm' hji).le
    · rw [hother i hji him]
      rw [← Int.toNat_of_nonneg (hnonneg i hji.le), ← Int.toNat_of_nonneg hpos.le]
      exact_mod_cast Nat.mod_le _ _
  · obtain rfl | hlt := hm.eq_or_lt
    · refine ⟨i₀, by simpa using hi₀, (Int.toNat_lt_toNat (hpos.trans_le (hle i₀ hi₀.le hne))).mpr ?_⟩
      rw [hother i₀ hi₀ hi₀.ne']
      exact (Int.emod_lt_of_pos _ hpos).trans_le (hle i₀ hi₀.le hne)
    · exact ⟨m, by simpa using hlt, (Int.toNat_lt_toNat hpos).mpr (hm' hlt)⟩

/-- **A row.** Induction on the rest. Source: `lambda-mat.c` (`while`). Kind: L -/
theorem sweepRow_spec (hP : ∀ e s, e.Proper → P s → P (both mirror e s))
    (hamount : ∀ x d, 0 ≤ x → 0 < d → amount x d = -(x / d)) (hs : Kept P j s) (hnonneg : ∀ i, j ≤ i → 0 ≤ s.1 j i) :
    ∃ t, (∀ fuel, rest j s.1 < fuel → sweepRow mirror amount j fuel s = some t) ∧ Kept P (j + 1) t := by
  induction hrest : rest j s.1 using Nat.strong_induction_on generalizing s with
  | h r ih =>
    obtain ⟨k, hfirst, hiff⟩ := @lambdaVectorFirstNz_spec n n s.1 j (j + 1) j.isLt
    by_cases hk : k < n
    · obtain ⟨i₀, hi₀, hne⟩ := hiff.mp hk
      obtain ⟨m, hmin, hm, hm0, hle⟩ := @lambdaVectorMinNz_spec n (s.1 j) j ⟨i₀, by omega, hne⟩
      have hpos : 0 < s.1 j m := lt_of_le_of_ne (hnonneg m hm) hm0.symm
      have hswap (i : Fin n) (hi : j ≤ i) : 0 ≤ (both mirror (.exchange j m) s).1 j i := by
        rw [both_exchange]
        split_ifs
        · exact hpos.le
        · exact hnonneg j le_rfl
        · exact hnonneg i hi
      have hdiag : (both mirror (.exchange j m) s).1 j j = s.1 j m := by rw [both_exchange, if_pos rfl]
      have hexchange : Kept P j (both mirror (.exchange j m) s) :=
        Kept.both (e := .exchange j m) hP hs trivial ⟨le_rfl, hm⟩
      obtain ⟨hkept, hdiag', hrow⟩ := reduceColumns_spec hP hamount hexchange (hdiag ▸ hpos) hswap
      rw [hdiag] at hdiag'
      have hrow' (i : Fin n) (hi : j < i) :
          (reduceColumns mirror amount j (both mirror (.exchange j m) s)).1 j i = (if i = m then s.1 j j else s.1 j i) % s.1 j m := by
        rw [hrow i hi, hdiag, both_exchange, if_neg hi.ne']
      have hlt := rest_lt hnonneg hm hm0 hle hi₀ hne hrow'
      obtain ⟨t, ht, hdone⟩ := ih _ (hrest ▸ hlt) hkept (fun i hi => by
        obtain rfl | hi := hi.eq_or_lt
        · exact hdiag' ▸ hpos.le
        · exact hrow' i hi ▸ Int.emod_nonneg _ hm0) rfl
      refine ⟨t, fun fuel hfuel => ?_, hdone⟩
      obtain ⟨f, rfl⟩ := Nat.exists_eq_succ_of_ne_zero (Nat.ne_zero_of_lt hfuel)
      rw [sweepRow, hfirst, Option.bind_some, if_pos hk, hmin, Option.bind_some]
      exact ht f (by omega)
    · have hzero (i : Fin n) (hi : j < i) : s.1 j i = 0 := by
        by_contra hne
        exact hk (hiff.mpr ⟨i, hi, hne⟩)
      refine ⟨s, fun fuel hfuel => ?_, hs.1, fun a b ha hab => ?_, fun a ha => ?_⟩
      · obtain ⟨f, rfl⟩ := Nat.exists_eq_succ_of_ne_zero (Nat.ne_zero_of_lt hfuel)
        rw [sweepRow, hfirst, Option.bind_some, if_neg hk]
      · obtain hlt | heq := Nat.lt_succ_iff_lt_or_eq.mp ha
        · exact hs.2.zero a b hlt hab
        · obtain rfl := Fin.ext heq
          exact hzero b hab
      · obtain hlt | heq := Nat.lt_succ_iff_lt_or_eq.mp ha
        · exact hs.2.nonneg a hlt
        · obtain rfl := Fin.ext heq
          exact hnonneg a le_rfl

/-- **All rows.** Source: `lambda-mat.c` (`for (j = 0; ...)`). Kind: L -/
theorem triangularize_spec (hP : ∀ e s, e.Proper → P s → P (both mirror e s))
    (hamount : ∀ x d, 0 ≤ x → 0 < d → amount x d = -(x / d)) (hs : P s) :
    ∃ t, (∃ N, ∀ fuel ≥ N, triangularize mirror amount fuel s = some t) ∧ P t ∧ Done t.1 n := by
  -- along the rows
  have hrun (k : ℕ) (hk : k ≤ n) : ∃ t, (∃ N, ∀ fuel ≥ N, ((List.finRange n).take k).foldlM
      (fun s j => sweepRow mirror amount j fuel (makePositive mirror j s)) s = some t) ∧ Kept P k t := by
    induction k with
    | zero =>
      exact ⟨s, ⟨0, fun _ _ => by rw [List.take_zero]; rfl⟩, hs, fun a b ha => absurd ha (Nat.not_lt_zero _),
        fun a ha => absurd ha (Nat.not_lt_zero _)⟩
    | succ k ih =>
      obtain ⟨t, ⟨N, hN⟩, hkept⟩ := ih (Nat.le_of_succ_le hk)
      obtain ⟨hkept', hnonneg⟩ := makePositive_spec (j := ⟨k, hk⟩) hP hkept
      obtain ⟨u, hu, hdone⟩ := sweepRow_spec hP hamount hkept' hnonneg
      refine ⟨u, ⟨max N (rest ⟨k, hk⟩ (makePositive mirror ⟨k, hk⟩ t).1 + 1), fun fuel hfuel => ?_⟩, hdone⟩
      rw [foldlM_take_succ _ _ hk, hN fuel (le_of_max_le_left hfuel)]
      exact hu fuel (le_of_max_le_right hfuel)
  obtain ⟨t, ⟨N, hN⟩, hkept⟩ := hrun n le_rfl
  refine ⟨t, ⟨N, fun fuel hfuel => ?_⟩, hkept⟩
  rw [triangularize, ← hN fuel hfuel, List.take_of_length_le (by simp)]

end Row

end GccCore.Gcc.Lambda
