import GccCore.Gcc.Lambda.Matrix

/-!
# `gcc/lambda-mat.c`: echelon decompositions

Column by column, the rows from `i0` on are reduced by Euclid's algorithm from the last one up, if the column has an entry there.
Whether it has one is tested on the row `S[j]` instead of the column `j`.

* **A row** (`eliminate_spec`) and **a column** (`clearColumn_spec`): the loops end and leave one entry.
* **The decompositions** (`echelon_of_agrees`): an echelon matrix with a unimodular factor, if every test answers what the column
  would, and for one column only then (`echelon_of_agrees_column`).
-/

namespace GccCore.Gcc.Lambda

open Matrix
open GccCore.Lib.ElementaryMatrix

variable {m n : ℕ} {β : Type}

/-! ## The code -/

section Code

variable (mirror : Elementary (Fin m) ℤ → β → β)

/-- An operation on the rows, and what follows it on the other matrix. Source: `lambda-mat.c`. -/
def rowBoth (e : Elementary (Fin m) ℤ) (s : LambdaMatrix m n × β) : LambdaMatrix m n × β := (rowOp e s.1, mirror e s.2)

/-- The row before one. Source: `lambda-mat.c` (`i - 1`). -/
def before (i : Fin m) : Fin m := ⟨i.val - 1, (Nat.sub_le _ _).trans_lt i.isLt⟩

/-- Source: `lambda-mat.c` `lambda_matrix_right_hermite` (`factor`). -/
def eliminateFactor (a b : ℤ) : ℤ := (if a * b < 0 then -1 else 1) * (|a| / |b|)

/-- The loop until `S[i][j]` is zero, with at most `fuel` tests.
Source: `lambda-mat.c` `lambda_matrix_right_hermite`, `lambda_matrix_left_hermite` (`while`) -/
def eliminate (j : Fin n) (i : Fin m) : ℕ → LambdaMatrix m n × β → Option (LambdaMatrix m n × β)
  | 0, _ => none
  | fuel + 1, s =>
    if s.1 i j ≠ 0 then
      let factor := eliminateFactor (s.1 (before i) j) (s.1 i j)
      eliminate j i fuel (rowBoth mirror (.exchange i (before i)) (rowBoth mirror (.add (before i) i (-factor)) s))
    else some s

/-- Source: `lambda-mat.c` `lambda_matrix_right_hermite` (`for (i = m - 1; i >= i0; i--)`). -/
def clearColumn (fuel : ℕ) (j : Fin n) (i0 : ℕ) (s : LambdaMatrix m n × β) : Option (LambdaMatrix m n × β) :=
  ((List.finRange m).drop i0).reverse.foldlM (fun s i => eliminate mirror j i fuel s) s

/-- The variables of the loop over the columns. Source: `lambda-mat.c` `lambda_matrix_right_hermite`. -/
structure EchelonState (m n : ℕ) (β : Type) where
  i0 : ℕ
  s : LambdaMatrix m n × β

/-- `lambda_vector_first_nz (S[j], m, i0)`; no answer where it reads outside of `S`.
Source: `lambda-mat.c` `lambda_matrix_right_hermite`, `lambda_matrix_left_hermite` -/
def rowTest (S : LambdaMatrix m n) (j : Fin n) (i0 : ℕ) : Option ℕ :=
  if j.val < m then lambdaVectorFirstNz (rowCells S j) m i0 else none

/-- A column. Source: `lambda-mat.c` `lambda_matrix_right_hermite` (`for (j = 0; ...)`). -/
def columnStep (fuel : ℕ) (st : EchelonState m n β) (j : Fin n) : Option (EchelonState m n β) :=
  (rowTest st.s.1 j st.i0).bind fun k =>
    if k < m then (clearColumn mirror fuel j (st.i0 + 1) st.s).map fun s => ⟨st.i0 + 1, s⟩ else some st

/-- All columns. Source: `lambda-mat.c` `lambda_matrix_right_hermite`, `lambda_matrix_left_hermite`. -/
def hermiteColumns (fuel : ℕ) (A : LambdaMatrix m n) (id : β) : Option (LambdaMatrix m n × β) :=
  ((List.finRange n).foldlM (columnStep mirror fuel) ⟨0, A, id⟩).map fun st => st.s

end Code

/-- `S` and `U`: the same operations on the rows of both. Source: `lambda-mat.c` `lambda_matrix_right_hermite`. -/
def lambdaMatrixRightHermite (fuel : ℕ) (A : LambdaMatrix m n) : Option (LambdaMatrix m n × LambdaMatrix m m) :=
  hermiteColumns rowOp fuel A 1

/-- `S` and `V`: the columns of `V` undo the operations on the rows of `S`. Source: `lambda-mat.c` `lambda_matrix_left_hermite`. -/
def lambdaMatrixLeftHermite (fuel : ℕ) (A : LambdaMatrix m n) : Option (LambdaMatrix m n × LambdaMatrix m m) :=
  hermiteColumns (fun e => colOp e.inv) fuel A 1

/-! ## A row -/

section Row

variable {mirror : Elementary (Fin m) ℤ → β → β} {P : LambdaMatrix m n × β → Prop} {j : Fin n} {i : Fin m}
  {s : LambdaMatrix m n × β}

/-- The factor is the quotient, rounded to zero. Source: `lambda-mat.c` (`factor`). Kind: L -/
theorem eliminateFactor_eq (a b : ℤ) : eliminateFactor a b = a.tdiv b := by
  -- a product of the numbers that is not negative where the signs differ is zero
  have hdiff (x y : ℕ) : (if -((x : ℤ) * y) < 0 then -1 else 1) * ((x : ℤ) / y) = -((x : ℤ) / y) := by
    split_ifs with h
    · exact neg_one_mul _
    · obtain hx | hy := mul_eq_zero.mp (le_antisymm (by omega) (mul_nonneg (Int.natCast_nonneg x) (Int.natCast_nonneg y)))
      · rw [hx, Int.zero_ediv, mul_zero, neg_zero]
      · rw [hy, Int.ediv_zero, mul_zero, neg_zero]
  have hsame (x y : ℕ) : ¬ (x : ℤ) * y < 0 := not_lt.mpr (mul_nonneg (Int.natCast_nonneg x) (Int.natCast_nonneg y))
  obtain ⟨x, rfl | rfl⟩ := Int.eq_nat_or_neg a <;> obtain ⟨y, rfl | rfl⟩ := Int.eq_nat_or_neg b
  all_goals
    simp only [eliminateFactor, abs_neg, Nat.abs_cast, neg_mul, mul_neg, neg_neg, Int.neg_tdiv, Int.tdiv_neg, Int.ediv_neg,
      Int.tdiv_eq_ediv_of_nonneg (Int.natCast_nonneg x), hdiff, if_neg (hsame x y), one_mul]

/-- The remainder is smaller. Source: `lambda-mat.c` (`factor`). Kind: L -/
theorem natAbs_sub_lt {a b : ℤ} (hb : b ≠ 0) : (a - eliminateFactor a b * b).natAbs < b.natAbs := by
  have hmod : a - eliminateFactor a b * b = a.tmod b := by rw [eliminateFactor_eq, Int.tmod_def, mul_comm]
  rw [hmod, Int.natAbs_tmod]
  exact Nat.mod_lt _ (Int.natAbs_pos.mpr hb)

/-- The entries after an operation. Source: `lambda-mat.c`. Kind: L -/
theorem rowBoth_add (i i' r : Fin m) (k : ℤ) (c : Fin n) :
    (rowBoth mirror (.add i i' k) s).1 r c = if r = i then s.1 i c + k * s.1 i' c else s.1 r c :=
  (congrFun₂ (rowOp_eq (.add i i' k) s.1) r c).trans (Elementary.add_mul_apply _ _ _ _ _ _)

theorem rowBoth_exchange (i i' r : Fin m) (c : Fin n) :
    (rowBoth mirror (.exchange i i') s).1 r c = if r = i then s.1 i' c else if r = i' then s.1 i c else s.1 r c :=
  (congrFun₂ (rowOp_eq (.exchange i i') s.1) r c).trans (Elementary.exchange_mul_apply _ _ _ _ _)

/-- **What the loop over a row does**: the other rows stay, columns that are zero in both rows stay so, and the entry moves up.
Source: `lambda-mat.c` `lambda_matrix_right_hermite` (`while`) -/
structure Cleared (i : Fin m) (j : Fin n) (S T : LambdaMatrix m n) : Prop where
  other : ∀ r, r ≠ i → r ≠ before i → ∀ c, T r c = S r c
  zero : ∀ c, S i c = 0 → S (before i) c = 0 → T i c = 0 ∧ T (before i) c = 0
  clear : T i j = 0
  keep : S i j ≠ 0 ∨ S (before i) j ≠ 0 → T (before i) j ≠ 0

/-- **A row.** Induction on the entry. Source: `lambda-mat.c` `lambda_matrix_right_hermite` (`while`). Kind: L -/
theorem eliminate_spec (hP : ∀ e s, e.Proper → P s → P (rowBoth mirror e s)) (hi : 0 < i.val) (hs : P s) :
    ∃ t, (∀ fuel, (s.1 i j).natAbs < fuel → eliminate mirror j i fuel s = some t) ∧ P t ∧ Cleared i j s.1 t.1 := by
  have hne : before i ≠ i := fun h => by
    have := congrArg Fin.val h
    simp only [before] at this
    omega
  induction hd : (s.1 i j).natAbs using Nat.strong_induction_on generalizing s with
  | h d ih =>
    by_cases hzero : s.1 i j = 0
    · refine ⟨s, fun fuel hfuel => ?_, hs, fun r _ _ c => rfl, fun c h h' => ⟨h, h'⟩, hzero, fun h => h.resolve_left (not_not.mpr hzero)⟩
      obtain ⟨f, rfl⟩ := Nat.exists_eq_succ_of_ne_zero (Nat.ne_zero_of_lt hfuel)
      rw [eliminate, if_neg (not_not.mpr hzero)]
    · obtain ⟨k, hk⟩ : ∃ k, k = eliminateFactor (s.1 (before i) j) (s.1 i j) := ⟨_, rfl⟩
      have hentry (r : Fin m) (c : Fin n) :
          (rowBoth mirror (.exchange i (before i)) (rowBoth mirror (.add (before i) i (-k)) s)).1 r c =
            if r = i then s.1 (before i) c + -k * s.1 i c else if r = before i then s.1 i c else s.1 r c := by
        rw [rowBoth_exchange, rowBoth_add, rowBoth_add, rowBoth_add, if_pos rfl, if_neg hne.symm]
        split_ifs <;> rfl
      have hP' : P (rowBoth mirror (.exchange i (before i)) (rowBoth mirror (.add (before i) i (-k)) s)) :=
        hP (.exchange i (before i)) _ trivial (hP (.add (before i) i (-k)) s hne hs)
      have hstep (f : ℕ) : eliminate mirror j i (f + 1) s =
          eliminate mirror j i f (rowBoth mirror (.exchange i (before i)) (rowBoth mirror (.add (before i) i (-k)) s)) := by
        rw [eliminate, if_pos hzero, hk]
      generalize rowBoth mirror (.exchange i (before i)) (rowBoth mirror (.add (before i) i (-k)) s) = u at hentry hP' hstep
      have hui (c : Fin n) : u.1 i c = s.1 (before i) c + -k * s.1 i c := by rw [hentry, if_pos rfl]
      have hub (c : Fin n) : u.1 (before i) c = s.1 i c := by rw [hentry, if_neg hne, if_pos rfl]
      have hlt : (u.1 i j).natAbs < d := by
        rw [hui, neg_mul, ← sub_eq_add_neg, hk, ← hd]
        exact natAbs_sub_lt hzero
      obtain ⟨t, ht, hPt, hcleared⟩ := ih _ hlt hP' rfl
      refine ⟨t, fun fuel hfuel => ?_, hPt, fun r hr hr' c => ?_, fun c h h' => ?_, hcleared.clear, fun _ => ?_⟩
      · obtain ⟨f, rfl⟩ := Nat.exists_eq_succ_of_ne_zero (Nat.ne_zero_of_lt hfuel)
        rw [hstep]
        exact ht f (by omega)
      · rw [hcleared.other r hr hr', hentry, if_neg hr, if_neg hr']
      · exact hcleared.zero c (by rw [hui, h, h', mul_zero, add_zero]) (by rw [hub, h])
      · exact hcleared.keep (Or.inr (by rw [hub]; exact hzero))

end Row

/-! ## A column -/

section Column

variable {mirror : Elementary (Fin m) ℤ → β → β} {P : LambdaMatrix m n × β → Prop} {j : Fin n} {o : ℕ} {s : LambdaMatrix m n × β}

/-- **What the loop over the rows of a column does** to the rows from `o` on, where those from `b` on are done.
Source: `lambda-mat.c` `lambda_matrix_right_hermite` (`for (i = m - 1; ...)`) -/
structure ClearedFrom (o b : ℕ) (j : Fin n) (S T : LambdaMatrix m n) : Prop where
  other : ∀ r : Fin m, r.val < o → ∀ c, T r c = S r c
  zero : ∀ c, (∀ r : Fin m, o ≤ r.val → S r c = 0) → ∀ r : Fin m, o ≤ r.val → T r c = 0
  clear : ∀ r : Fin m, b ≤ r.val → T r j = 0
  keep : (∃ r : Fin m, o ≤ r.val ∧ S r j ≠ 0) → ∃ r : Fin m, o ≤ r.val ∧ T r j ≠ 0

/-- One more row. Source: `lambda-mat.c` `lambda_matrix_right_hermite` (`for (i = m - 1; ...)`). Kind: L -/
theorem ClearedFrom.row {S T T' : LambdaMatrix m n} {i : Fin m} (hi : o < i.val) (h : ClearedFrom o (i + 1) j S T)
    (h' : Cleared i j T T') : ClearedFrom o i j S T' := by
  have hbefore : (before i).val = i.val - 1 := rfl
  have hlow (r : Fin m) (hr : r.val < o) : r ≠ i ∧ r ≠ before i := by
    refine ⟨fun heq => ?_, fun heq => ?_⟩ <;>
    · rw [heq] at hr
      omega
  refine ⟨fun r hr c => ?_, fun c hc r hr => ?_, fun r hr => ?_, fun hex => ?_⟩
  · rw [h'.other r (hlow r hr).1 (hlow r hr).2, h.other r hr]
  · have hz := h.zero c hc
    obtain ⟨hzi, hzb⟩ := h'.zero c (hz i hi.le) (hz (before i) (by omega))
    by_cases hri : r = i
    · rw [hri, hzi]
    · by_cases hrb : r = before i
      · rw [hrb, hzb]
      · rw [h'.other r hri hrb, hz r hr]
  · by_cases hri : r = i
    · rw [hri, h'.clear]
    · have hlt : i.val < r.val := lt_of_le_of_ne hr fun heq => hri (Fin.ext heq.symm)
      rw [h'.other r hri fun heq => by rw [heq] at hlt; omega, h.clear r hlt]
  · obtain ⟨r, hr, hne⟩ := h.keep hex
    by_cases hri : r = i ∨ r = before i
    · refine ⟨before i, by omega, h'.keep ?_⟩
      obtain rfl | rfl := hri
      · exact Or.inl hne
      · exact Or.inr hne
    · rw [not_or] at hri
      exact ⟨r, hr, by rw [h'.other r hri.1 hri.2]; exact hne⟩

/-- **A column.** Source: `lambda-mat.c` `lambda_matrix_right_hermite` (`for (i = m - 1; ...)`). Kind: L -/
theorem clearColumn_spec (hP : ∀ e s, e.Proper → P s → P (rowBoth mirror e s)) (ho : o < m) (hs : P s) :
    ∃ t, (∃ N, ∀ fuel ≥ N, clearColumn mirror fuel j (o + 1) s = some t) ∧ P t ∧ ClearedFrom o (o + 1) j s.1 t.1 := by
  have hrun (d : ℕ) (hd : d + o < m) : ∃ t, (∃ N, ∀ fuel ≥ N,
      ((List.finRange m).drop (m - d)).reverse.foldlM (fun s i => eliminate mirror j i fuel s) s = some t) ∧ P t ∧
        ClearedFrom o (m - d) j s.1 t.1 := by
    induction d with
    | zero =>
      have hdrop : (List.finRange m).drop (m - 0) = [] := List.drop_of_length_le (by simp)
      exact ⟨s, ⟨0, fun _ _ => by rw [hdrop]; rfl⟩, hs, fun _ _ _ => rfl, fun _ h => h, fun r hr => absurd r.isLt (by omega),
        fun h => h⟩
    | succ d ih =>
      obtain ⟨t, ⟨N, hN⟩, hPt, hcleared⟩ := ih (by omega)
      have hlt : m - (d + 1) < m := by omega
      have hsucc : m - (d + 1) + 1 = m - d := by omega
      obtain ⟨u, hu, hPu, hcleared'⟩ := eliminate_spec (i := ⟨m - (d + 1), hlt⟩) (j := j) hP (by dsimp only; omega) hPt
      refine ⟨u, ⟨max N ((t.1 ⟨m - (d + 1), hlt⟩ j).natAbs + 1), fun fuel hfuel => ?_⟩, hPu, ?_⟩
      · rw [foldlM_drop_reverse _ _ hlt, hsucc, hN fuel (le_of_max_le_left hfuel)]
        exact hu fuel (le_of_max_le_right hfuel)
      · exact ClearedFrom.row (i := ⟨m - (d + 1), hlt⟩) (by dsimp only; omega) (hsucc ▸ hcleared) hcleared'
  have hall := hrun (m - (o + 1)) (by omega)
  rwa [Nat.sub_sub_self ho] at hall

end Column

/-! ## All columns -/

section Columns

variable {mirror : Elementary (Fin m) ℤ → β → β} {P : LambdaMatrix m n × β → Prop} {S T : LambdaMatrix m n} {k o : ℕ}

/-- The first entry of a row that is not zero. Source: `lambda-mat.c` (comments). -/
def IsLead (S : LambdaMatrix m n) (i : Fin m) (c : Fin n) : Prop := S i c ≠ 0 ∧ ∀ c' < c, S i c' = 0

/-- **An echelon matrix**: a row that is not zero comes after rows that are not zero and lead further to the left.
Source: `lambda-mat.c` (comments) -/
def Echelon (S : LambdaMatrix m n) : Prop := ∀ i i', i < i' → ∀ c', IsLead S i' c' → ∃ c < c', IsLead S i c

/-- **The first `k` columns are those of an echelon matrix** with `o` rows that are not zero.
Source: `lambda-mat.c` `lambda_matrix_right_hermite` -/
structure EchelonTo (k o : ℕ) (S : LambdaMatrix m n) : Prop where
  zero : ∀ i : Fin m, o ≤ i.val → ∀ c : Fin n, c.val < k → S i c = 0
  lead : ∀ i : Fin m, i.val < o → ∃ c : Fin n, c.val < k ∧ IsLead S i c
  increase : ∀ i i' : Fin m, i < i' → i'.val < o → ∀ c', IsLead S i' c' → ∃ c < c', IsLead S i c

/-- A column without an entry. Source: `lambda-mat.c` `lambda_matrix_right_hermite`. Kind: L -/
theorem EchelonTo.skip (h : EchelonTo k o S) (hk : k < n) (hzero : ∀ i : Fin m, o ≤ i.val → S i ⟨k, hk⟩ = 0) :
    EchelonTo (k + 1) o S := by
  refine ⟨fun i hi c hc => ?_, fun i hi => ?_, h.increase⟩
  · obtain hlt | heq := Nat.lt_succ_iff_lt_or_eq.mp hc
    · exact h.zero i hi c hlt
    · obtain rfl : c = ⟨k, hk⟩ := Fin.ext heq
      exact hzero i hi
  · obtain ⟨c, hc, hlead⟩ := h.lead i hi
    exact ⟨c, Nat.lt_succ_of_lt hc, hlead⟩

/-- A column with an entry, of which one is left. Source: `lambda-mat.c` `lambda_matrix_right_hermite`. Kind: L -/
theorem EchelonTo.pivot (h : EchelonTo k o S) (hk : k < n) (hcleared : ClearedFrom o (o + 1) ⟨k, hk⟩ S T)
    (hex : ∃ i : Fin m, o ≤ i.val ∧ S i ⟨k, hk⟩ ≠ 0) : EchelonTo (k + 1) (o + 1) T := by
  have hbefore (i : Fin m) (hi : o ≤ i.val) (c : Fin n) (hc : c.val < k) : T i c = 0 :=
    hcleared.zero c (fun r hr => h.zero r hr c hc) i hi
  have hrow (i : Fin m) (hi : i.val < o) (c : Fin n) : IsLead T i c ↔ IsLead S i c := by
    simp only [IsLead, hcleared.other i hi]
  refine ⟨fun i hi c hc => ?_, fun i hi => ?_, fun i i' hlt hi' c' hlead => ?_⟩
  · obtain hlt | heq := Nat.lt_succ_iff_lt_or_eq.mp hc
    · exact hbefore i (Nat.le_of_succ_le hi) c hlt
    · obtain rfl : c = ⟨k, hk⟩ := Fin.ext heq
      exact hcleared.clear i hi
  · obtain hlt | heq := Nat.lt_succ_iff_lt_or_eq.mp hi
    · obtain ⟨c, hc, hlead⟩ := h.lead i hlt
      exact ⟨c, Nat.lt_succ_of_lt hc, (hrow i hlt c).mpr hlead⟩
    · -- the entry that is left is in this row
      obtain ⟨r, hr, hne⟩ := hcleared.keep hex
      obtain rfl : r = i := by
        refine Fin.ext (Nat.le_antisymm ?_ (heq ▸ hr))
        by_contra hgt
        exact hne (hcleared.clear r (by omega))
      exact ⟨⟨k, hk⟩, Nat.lt_succ_self k, hne, fun c' hc' => hbefore r hr c' hc'⟩
  · obtain hlt' | heq := Nat.lt_succ_iff_lt_or_eq.mp hi'
    · obtain ⟨c, hc, hlead'⟩ := h.increase i i' hlt hlt' c' ((hrow i' hlt' c').mp hlead)
      exact ⟨c, hc, (hrow i (Nat.lt_trans hlt hlt') c).mpr hlead'⟩
    · have hi : i.val < o := heq ▸ hlt
      obtain ⟨c, hc, hlead'⟩ := h.lead i hi
      refine ⟨c, ?_, (hrow i hi c).mpr hlead'⟩
      by_contra hge
      exact hlead.1 (hbefore i' heq.ge c' (lt_of_le_of_lt (not_lt.mp hge) hc))

theorem EchelonTo.echelon (h : EchelonTo n o S) : Echelon S := by
  intro i i' hlt c' hlead
  by_cases hi' : i'.val < o
  · exact h.increase i i' hlt hi' c' hlead
  · exact absurd (h.zero i' (not_lt.mp hi') c' c'.isLt) hlead.1

/-- The state before column `k`, in a run with enough fuel. Source: `lambda-mat.c` `lambda_matrix_right_hermite`. -/
def Reaches (mirror : Elementary (Fin m) ℤ → β → β) (A : LambdaMatrix m n) (id : β) (k : ℕ) (st : EchelonState m n β) : Prop :=
  ∃ N, ∀ fuel ≥ N, ((List.finRange n).take k).foldlM (columnStep mirror fuel) ⟨0, A, id⟩ = some st

/-- **The tests answer what the column would**: in the state before each column, the test reads within the matrix, and succeeds if
and only if the column has an entry in the rows from `i0` on.
Source: `lambda-mat.c` `lambda_matrix_right_hermite` (`lambda_vector_first_nz (S[j], m, i0) < m`) -/
def Agrees (mirror : Elementary (Fin m) ℤ → β → β) (A : LambdaMatrix m n) (id : β) : Prop :=
  ∀ k st (hk : k < n), Reaches mirror A id k st →
    ∃ q, rowTest st.s.1 ⟨k, hk⟩ st.i0 = some q ∧ (q < m ↔ ∃ i : Fin m, st.i0 ≤ i.val ∧ st.s.1 i ⟨k, hk⟩ ≠ 0)

/-- **The columns**, if the tests agree. Source: `lambda-mat.c` `lambda_matrix_right_hermite`. Kind: L -/
theorem hermiteColumns_spec (hP : ∀ e s, e.Proper → P s → P (rowBoth mirror e s)) {A : LambdaMatrix m n} {id : β} (h0 : P (A, id))
    (hagrees : Agrees mirror A id) :
    ∃ s, (∃ N, ∀ fuel ≥ N, hermiteColumns mirror fuel A id = some s) ∧ P s ∧ Echelon s.1 := by
  have hrun (k : ℕ) (hk : k ≤ n) : ∃ st, Reaches mirror A id k st ∧ P st.s ∧ EchelonTo k st.i0 st.s.1 := by
    induction k with
    | zero =>
      exact ⟨⟨0, A, id⟩, ⟨0, fun _ _ => by rw [List.take_zero]; rfl⟩, h0, fun _ _ c hc => absurd hc (Nat.not_lt_zero _),
        fun i hi => absurd hi (Nat.not_lt_zero _), fun _ i' _ hi' => absurd hi' (Nat.not_lt_zero _)⟩
    | succ k ih =>
      obtain ⟨st, hreach, hPst, hech⟩ := ih (Nat.le_of_succ_le hk)
      obtain ⟨q, hq, hiff⟩ := hagrees k st hk hreach
      obtain ⟨N, hN⟩ := hreach
      by_cases hex : ∃ i : Fin m, st.i0 ≤ i.val ∧ st.s.1 i ⟨k, hk⟩ ≠ 0
      · have ho : st.i0 < m := by
          obtain ⟨i, hi, -⟩ := hex
          exact hi.trans_lt i.isLt
        obtain ⟨t, ⟨N', hN'⟩, hPt, hcleared⟩ := clearColumn_spec (j := ⟨k, hk⟩) hP ho hPst
        refine ⟨⟨st.i0 + 1, t⟩, ⟨max N N', fun fuel hfuel => ?_⟩, hPt, hech.pivot hk hcleared hex⟩
        rw [foldlM_take_succ _ _ hk, hN fuel (le_of_max_le_left hfuel), Option.bind_some, columnStep, hq, Option.bind_some,
          if_pos (hiff.mpr hex), hN' fuel (le_of_max_le_right hfuel)]
        rfl
      · have hzero (i : Fin m) (hi : st.i0 ≤ i.val) : st.s.1 i ⟨k, hk⟩ = 0 := by
          by_contra hne
          exact hex ⟨i, hi, hne⟩
        refine ⟨st, ⟨N, fun fuel hfuel => ?_⟩, hPst, hech.skip hk hzero⟩
        rw [foldlM_take_succ _ _ hk, hN fuel hfuel, Option.bind_some, columnStep, hq, Option.bind_some, if_neg (mt hiff.mp hex)]
  obtain ⟨st, ⟨N, hN⟩, hPst, hech⟩ := hrun n le_rfl
  refine ⟨st.s, ⟨N, fun fuel hfuel => ?_⟩, hPst, hech.echelon⟩
  have hall := hN fuel hfuel
  rw [List.take_of_length_le (by simp)] at hall
  rw [hermiteColumns, hall]
  rfl

end Columns

/-! ## The decompositions -/

section Decompositions

variable {A : LambdaMatrix m n}

/-- A unimodular `U` and an echelon matrix `S` with `U * A = S`. Source: `lambda-mat.c` `lambda_matrix_right_hermite` (comment). -/
def RightDecomposes (A : LambdaMatrix m n) : Prop :=
  ∃ S U, (∃ N, ∀ fuel ≥ N, lambdaMatrixRightHermite fuel A = some (S, U)) ∧ U * A = S ∧ (U.det = 1 ∨ U.det = -1) ∧ Echelon S

/-- A unimodular `V` and an echelon matrix `S` with `A = V * S`. Source: `lambda-mat.c` `lambda_matrix_left_hermite` (comment). -/
def LeftDecomposes (A : LambdaMatrix m n) : Prop :=
  ∃ S V, (∃ N, ∀ fuel ≥ N, lambdaMatrixLeftHermite fuel A = some (S, V)) ∧ A = V * S ∧ (V.det = 1 ∨ V.det = -1) ∧ Echelon S

/-- The tests of both functions agree with the columns. Source: `lambda-mat.c`. -/
def TestsAgree (A : LambdaMatrix m n) : Prop := Agrees rowOp A (1 : LambdaMatrix m m) ∧ Agrees (fun e => colOp e.inv) A (1 : LambdaMatrix m m)

theorem rightDecomposes_of_agrees (h : Agrees rowOp A (1 : LambdaMatrix m m)) : RightDecomposes A := by
  obtain ⟨⟨S, U⟩, hrun, ⟨hmul, hunit⟩, hech⟩ := hermiteColumns_spec (P := fun s => s.2 * A = s.1 ∧ IsUnit s.2.det)
    (fun e s he hs => by
      rw [rowBoth, rowOp_eq, rowOp_eq, Matrix.mul_assoc, hs.1, det_mul]
      exact ⟨rfl, (Elementary.isUnit_det he).mul hs.2⟩) ⟨Matrix.one_mul A, by rw [det_one]; exact isUnit_one⟩ h
  exact ⟨S, U, hrun, hmul, Int.isUnit_iff.mp hunit, hech⟩

theorem leftDecomposes_of_agrees (h : Agrees (fun e => colOp e.inv) A (1 : LambdaMatrix m m)) : LeftDecomposes A := by
  obtain ⟨⟨S, V⟩, hrun, ⟨hmul, hunit⟩, hech⟩ := hermiteColumns_spec (P := fun s => s.2 * s.1 = A ∧ IsUnit s.2.det)
    (fun e s he hs => by
      have hinv : e.inv.Proper := by cases e <;> exact he
      have hinv' : e.inv.inv = e := by
        cases e with
        | add i j c => exact congrArg _ (neg_neg c)
        | _ => rfl
      have hmul := Elementary.mul_matrix_mul_inv_mul hinv s.2 s.1
      rw [hinv'] at hmul
      rw [rowBoth, rowOp_eq, colOp_eq, det_mul]
      exact ⟨hmul.trans hs.1, hs.2.mul (Elementary.isUnit_det hinv)⟩) ⟨Matrix.one_mul A, by rw [det_one]; exact isUnit_one⟩ h
  exact ⟨S, V, hrun, hmul.symm, Int.isUnit_iff.mp hunit, hech⟩

/-- A column has an entry. -/
local instance neZeroOne : NeZero 1 := ⟨Nat.one_ne_zero⟩

/-- The first entry of a column. Source: `lambda-mat.c` `lambda_matrix_right_hermite`. -/
def ColumnFits (A : LambdaMatrix m 1) : Prop := m = 1 ∨ ∃ h : 0 < m, A ⟨0, h⟩ 0 ≠ 0

/-- The test of a single column reads one entry, and may read no other. Source: `lambda-mat.c`. Kind: L -/
theorem rowTest_column (A : LambdaMatrix m 1) :
    (ColumnFits A → ∃ q, rowTest A 0 0 = some q ∧ (q < m ↔ ∃ i : Fin m, 0 ≤ i.val ∧ A i 0 ≠ 0)) ∧
      (rowTest A 0 0 ≠ none → ColumnFits A) := by
  obtain rfl | hm := Nat.eq_zero_or_pos m
  · refine ⟨fun h => ?_, fun h => absurd rfl h⟩
    obtain h | ⟨h, -⟩ := h
    · exact absurd h (by decide)
    · exact absurd h (Nat.lt_irrefl 0)
  · have hcell : rowCells A 0 0 = some (A ⟨0, hm⟩ 0) := dif_pos ⟨hm, Nat.one_pos⟩
    have hnext : rowCells A 0 1 = none := dif_neg fun h => absurd h.2 (Nat.lt_irrefl 1)
    have htest : rowTest A 0 0 = if A ⟨0, hm⟩ 0 = 0 then (if 1 < m then none else some 1) else some 0 := by
      rw [rowTest, Fin.val_zero, if_pos hm, lambdaVectorFirstNz, if_pos hm, hcell, Option.bind_some, lambdaVectorFirstNz, hnext]
      rfl
    rw [htest]
    by_cases hzero : A ⟨0, hm⟩ 0 = 0
    · rw [if_pos hzero]
      by_cases hone : 1 < m
      · refine ⟨fun h => ?_, fun h => absurd (if_pos hone) h⟩
        obtain rfl | ⟨_, hne⟩ := h
        · exact absurd hone (Nat.lt_irrefl 1)
        · exact absurd hzero hne
      · obtain rfl : m = 1 := by omega
        refine ⟨fun _ => ⟨1, rfl, iff_of_false (Nat.lt_irrefl 1) ?_⟩, fun _ => Or.inl rfl⟩
        rintro ⟨i, -, hne⟩
        rw [Subsingleton.elim i ⟨0, hm⟩] at hne
        exact hne hzero
    · rw [if_neg hzero]
      exact ⟨fun _ => ⟨0, rfl, iff_of_true hm ⟨⟨0, hm⟩, le_rfl, hzero⟩⟩, fun _ => Or.inr ⟨hm, hzero⟩⟩

/-- A single column: the first state is the only one that is tested. Source: `lambda-mat.c`. Kind: L -/
theorem agrees_column {β : Type} {mirror : Elementary (Fin m) ℤ → β → β} {A : LambdaMatrix m 1} {id : β} (h : ColumnFits A) :
    Agrees mirror A id := by
  intro k st hk ⟨N, hN⟩
  obtain rfl : k = 0 := Nat.lt_one_iff.mp hk
  have hst := hN N le_rfl
  rw [List.take_zero] at hst
  obtain rfl := Option.some.inj hst
  exact (rowTest_column A).1 h

theorem columnFits_of_run {β : Type} {mirror : Elementary (Fin m) ℤ → β → β} {A : LambdaMatrix m 1} {id : β} {fuel : ℕ}
    (h : hermiteColumns mirror fuel A id ≠ none) : ColumnFits A := by
  refine (rowTest_column A).2 fun hnone => h ?_
  have hstep : columnStep mirror fuel ⟨0, A, id⟩ 0 = none := by rw [columnStep, hnone]; rfl
  have hlist : List.finRange 1 = [0] := rfl
  rw [hermiteColumns, hlist, List.foldlM_cons, hstep]
  rfl

/-- **Echelon decompositions**: where the tests agree with the columns, both functions decompose the matrix; a single column is
decomposed exactly if there is one row or its first entry is not zero.
Source: `lambda-mat.c` `lambda_matrix_right_hermite`, `lambda_matrix_left_hermite`
Kind: P -/
theorem echelon_of_agrees (m n : ℕ) (A : LambdaMatrix m n) :
    (TestsAgree A → RightDecomposes A ∧ LeftDecomposes A) ∧
      ∀ B : LambdaMatrix m 1, (RightDecomposes B ∧ LeftDecomposes B) ↔ ColumnFits B := by
  have hagrees {n : ℕ} {A : LambdaMatrix m n} (h : TestsAgree A) : RightDecomposes A ∧ LeftDecomposes A :=
    ⟨rightDecomposes_of_agrees h.1, leftDecomposes_of_agrees h.2⟩
  refine ⟨hagrees, fun B => ⟨fun h => ?_, fun h => hagrees ⟨agrees_column h, agrees_column h⟩⟩⟩
  obtain ⟨S, U, ⟨N, hN⟩, -⟩ := h.1
  refine @columnFits_of_run m _ rowOp B (1 : LambdaMatrix m m) N ?_
  rw [← lambdaMatrixRightHermite, hN N le_rfl]
  exact Option.some_ne_none _

/-- A column whose first entry is not zero. Source: `lambda-mat.c`. Kind: C -/
theorem echelon_of_agrees_column : RightDecomposes !![2; 3] ∧ LeftDecomposes !![2; 3] :=
  (echelon_of_agrees 2 1 !![2; 3]).1
    ⟨agrees_column (Or.inr ⟨by decide, by decide⟩), agrees_column (Or.inr ⟨by decide, by decide⟩)⟩

/-- **Row zero of this matrix is tested for column zero**, whose entry in row one is missed. Source: `lambda-mat.c`. Kind: C -/
theorem echelon_counterexample : ¬ ∀ (m n : ℕ) (A : LambdaMatrix m n), RightDecomposes A ∧ LeftDecomposes A := by
  intro h
  obtain ⟨S, U, ⟨N, hN⟩, -, -, hech⟩ := (h 2 2 !![0, 0; 1, 0]).1
  obtain ⟨q, hq, hiff⟩ := @lambdaVectorFirstNz_spec 2 2 !![0, 0; 1, 0] 0 0 (by decide)
  obtain ⟨q', hq', hiff'⟩ := @lambdaVectorFirstNz_spec 2 2 !![0, 0; 1, 0] 1 0 (by decide)
  have hzero : columnStep rowOp (N + 1) ⟨0, !![0, 0; 1, 0], (1 : LambdaMatrix 2 2)⟩ (0 : Fin 2) =
      some ⟨0, !![0, 0; 1, 0], (1 : LambdaMatrix 2 2)⟩ := by
    have htest : rowTest !![0, 0; 1, 0] (0 : Fin 2) 0 = some q := hq
    rw [columnStep, htest, Option.bind_some, if_neg (mt hiff.mp (by decide))]
  have hone : columnStep rowOp (N + 1) ⟨0, !![0, 0; 1, 0], (1 : LambdaMatrix 2 2)⟩ (1 : Fin 2) =
      some ⟨1, !![0, 0; 1, 0], (1 : LambdaMatrix 2 2)⟩ := by
    have htest : rowTest !![0, 0; 1, 0] (1 : Fin 2) 0 = some q' := hq'
    rw [columnStep, htest, Option.bind_some, if_pos (hiff'.mpr (by decide))]
    rfl
  have hrun : lambdaMatrixRightHermite (N + 1) !![0, 0; 1, 0] = some (!![0, 0; 1, 0], (1 : LambdaMatrix 2 2)) := by
    have hlist : List.finRange 2 = [0, 1] := rfl
    rw [lambdaMatrixRightHermite, hermiteColumns, hlist, List.foldlM_cons, hzero]
    change (Option.bind (columnStep rowOp (N + 1) ⟨0, !![0, 0; 1, 0], (1 : LambdaMatrix 2 2)⟩ 1) _).map _ = _
    rw [hone]
    rfl
  rw [hN (N + 1) (Nat.le_succ N)] at hrun
  obtain ⟨rfl, -⟩ := Prod.mk.inj (Option.some.inj hrun)
  obtain ⟨c, hc, -⟩ := hech 0 1 (by decide) 0 ⟨by decide, fun c' hc' => absurd hc' (Nat.not_lt_zero _)⟩
  exact absurd hc (Nat.not_lt_zero _)

end Decompositions

end GccCore.Gcc.Lambda
