import GccCore.Gcc.SwitchLower.Basic

/-!
# `gcc/stmt.c`: which code is used for a switch

One pass over the list of the cases finds the number of compares, the number of targets, and the least and the greatest
value. By these a switch becomes bit tests, a table or a tree.

* **The pass** (`scan`, `scan_spec`) and the guards (`useBitTests`, `useTree`).
* **The window** (`Window`) that bit tests and tables look at, also when its start is replaced by zero (`Window.fromZero`).
* **The index** (`dispatchIndex_modEq`): less the start of the window, it is in range if the value is in the window.
-/

set_option linter.unusedSectionVars false

namespace GccCore.Gcc.SwitchLower

open GccCore.Lib.MachineInt

variable {L : Type} [DecidableEq L]

/-! ## The target -/

/-- What is known of the host and the target. Shifts are cheap only on targets whose words fit in one or two wide integers
of the host; if two are needed then these have the size of an `int` (`SPU` has wider words, but its shifts cost four
instructions).
Source: `hwint.h` `HOST_BITS_PER_WIDE_INT`, `HOST_BITS_PER_INT`; `stmt.c` `CASE_USE_BIT_TESTS`, `lshift_cheap_p` -/
structure Target where
  bitsPerWideInt : ℕ
  bitsPerInt : ℕ
  wordBits : ℕ
  caseUseBitTests : Bool
  lshiftCheap : Bool
  haveCasesi : Bool
  haveTablejump : Bool
  caseValuesThreshold : ℕ
  word_le : wordBits ≤ 128
  word_fits : lshiftCheap = true → wordBits ≤ bitsPerWideInt ∨ wordBits = 2 * bitsPerWideInt ∧ bitsPerInt = bitsPerWideInt

/-- What else the choice depends on. Source: `stmt.c` `expand_case`. -/
structure Options where
  indexConstant : Bool
  optimizeForSize : Bool
  flagPic : Bool
  asmOutputAddrDiffElt : Bool
  flagJumpTables : Bool

/-! ## The pass over the list -/

/-- What is known of the cases that were seen. Source: `stmt.c` `expand_case`. -/
structure Scan (L : Type) where
  count : ℕ
  uniq : ℕ
  minval : ℤ
  maxval : ℤ
  seen : List L

/-- Source: `stmt.c` `expand_case`. -/
def Scan.add (s : Scan L) (n : CaseNode L) : Scan L where
  minval := if s.count = 0 ∨ n.low < s.minval then n.low else s.minval
  maxval := if s.count = 0 ∨ s.maxval < n.high then n.high else s.maxval
  -- a range counts double, since it requires two compares
  count := s.count + 1 + if n.low = n.high then 0 else 1
  uniq := if n.codeLabel ∈ s.seen then s.uniq else s.uniq + 1
  seen := if n.codeLabel ∈ s.seen then s.seen else n.codeLabel :: s.seen

/-- Source: `stmt.c` `expand_case`. -/
def scan (node : ℕ → CaseNode L) (ids : List ℕ) : Scan L := ids.foldl (fun s i => s.add (node i)) ⟨0, 0, 0, 0, []⟩

/-- Source: `tree.c` `compare_tree_int`. -/
def compareTreeInt (z : ℤ) (u : ℕ) : ℤ := if z < 0 then -1 else if z = u then 0 else if z < u then -1 else 1

/-- The span of the values, in the index type. Source: `stmt.c` `expand_case` (`range`). -/
def Scan.range (s : Scan L) (t : IndexType) : ℤ := t.wrap (s.maxval - s.minval)

/-- Source: `stmt.c` `expand_case`. -/
def useBitTests (tg : Target) (o : Options) (t : IndexType) (s : Scan L) : Bool :=
  tg.caseUseBitTests && !o.indexConstant && decide (compareTreeInt (s.range t) tg.wordBits < 0) &&
    decide (compareTreeInt (s.range t) 0 > 0) && tg.lshiftCheap &&
    decide (s.uniq = 1 ∧ 3 ≤ s.count ∨ s.uniq = 2 ∧ 5 ≤ s.count ∨ s.uniq = 3 ∧ 6 ≤ s.count)

/-- Source: `stmt.c` `expand_case`. -/
def useTree (tg : Target) (o : Options) (t : IndexType) (s : Scan L) : Bool :=
  decide (s.count < tg.caseValuesThreshold) ||
    decide (compareTreeInt (s.range t) ((if o.optimizeForSize then 3 else 10) * s.count % 2 ^ 32) > 0) ||
    decide (compareTreeInt (s.range t) 0 < 0) || (!o.asmOutputAddrDiffElt && o.flagPic) || !o.flagJumpTables ||
    o.indexConstant || (!tg.haveCasesi && !tg.haveTablejump)

/-- What holds of the cases that were seen. Source: `stmt.c` `expand_case`. -/
structure Scanned (node : ℕ → CaseNode L) (ids : List ℕ) (s : Scan L) : Prop where
  count_eq_zero : s.count = 0 ↔ ids = []
  minval_le : ∀ i ∈ ids, s.minval ≤ (node i).low
  le_maxval : ∀ i ∈ ids, (node i).high ≤ s.maxval
  minval_mem : ids ≠ [] → ∃ i ∈ ids, s.minval = (node i).low
  maxval_mem : ids ≠ [] → ∃ i ∈ ids, s.maxval = (node i).high
  mem_seen : ∀ i ∈ ids, (node i).codeLabel ∈ s.seen
  uniq_eq : s.uniq = s.seen.length

theorem scan_concat (node : ℕ → CaseNode L) (ids : List ℕ) (k : ℕ) :
    scan node (ids ++ [k]) = (scan node ids).add (node k) := by
  unfold scan
  rw [List.foldl_append]
  rfl

/-- **The pass over the list** finds the least and the greatest value, and all targets. Source: `stmt.c` `expand_case`. Kind: L -/
theorem scan_spec (node : ℕ → CaseNode L) (ids : List ℕ) : Scanned node ids (scan node ids) := by
  induction ids using List.reverseRecOn with
  | nil =>
    refine ⟨⟨fun _ => rfl, fun _ => rfl⟩, ?_, ?_, fun h => absurd rfl h, fun h => absurd rfl h, ?_, rfl⟩ <;>
      exact fun i hi => absurd hi List.not_mem_nil
  | append_singleton ids k ih =>
    rw [scan_concat]
    generalize scan node ids = s at ih
    have hmem : ∀ {q : ℕ → Prop}, (s.count ≠ 0 → ∀ i ∈ ids, q i) → q k → ∀ i ∈ ids ++ [k], q i := by
      intro q hold hnew i hi
      rcases List.mem_append.mp hi with hi | hi
      · apply hold _ i hi
        rw [Ne, ih.count_eq_zero]
        rintro rfl
        exact absurd hi List.not_mem_nil
      · rw [List.mem_singleton.mp hi]
        exact hnew
    refine ⟨?_, ?_, ?_, ?_, ?_, ?_, ?_⟩ <;> unfold Scan.add <;> dsimp only
    · constructor
      · intro hzero
        omega
      · intro hnil
        simp at hnil
    · split_ifs with hfirst
      · refine hmem ?_ (le_refl (node k).low)
        intro hcount i hi
        have := ih.minval_le i hi
        omega
      · exact hmem (fun _ i hi => ih.minval_le i hi) (by omega)
    · split_ifs with hfirst
      · refine hmem ?_ (le_refl (node k).high)
        intro hcount i hi
        have := ih.le_maxval i hi
        omega
      · exact hmem (fun _ i hi => ih.le_maxval i hi) (by omega)
    · intro _
      split_ifs with hfirst
      · exact ⟨k, by simp, rfl⟩
      · rw [not_or, ih.count_eq_zero] at hfirst
        obtain ⟨i, hi, heq⟩ := ih.minval_mem hfirst.1
        exact ⟨i, by simp [hi], heq⟩
    · intro _
      split_ifs with hfirst
      · exact ⟨k, by simp, rfl⟩
      · rw [not_or, ih.count_eq_zero] at hfirst
        obtain ⟨i, hi, heq⟩ := ih.maxval_mem hfirst.1
        exact ⟨i, by simp [hi], heq⟩
    · split_ifs with hseen
      · exact hmem (fun _ i hi => ih.mem_seen i hi) hseen
      · exact hmem (fun _ i hi => List.mem_cons_of_mem _ (ih.mem_seen i hi)) List.mem_cons_self
    · split_ifs
      · exact ih.uniq_eq
      · rw [List.length_cons, ih.uniq_eq]

/-! ## The window -/

/-- The values from `minval` on that bit tests or a table look at. Source: `stmt.c` `expand_case` (`minval`, `range`). -/
structure Window (t : IndexType) (node : ℕ → CaseNode L) (ids : List ℕ) (minval range : ℤ) : Prop where
  range_nonneg : 0 ≤ range
  min_inType : inType t.prec t.unsigned minval
  last_inType : inType t.prec t.unsigned (minval + range)
  range_inType : inType t.prec t.unsigned range
  minval_le : ∀ i ∈ ids, minval ≤ (node i).low
  le_last : ∀ i ∈ ids, (node i).high ≤ minval + range

section WindowLemmas

variable {t : IndexType} {node : ℕ → CaseNode L} {ids : List ℕ} {head : Option ℕ} {minval range : ℤ}

/-- Zero is in every integer type. -/
theorem inType_zero (p : ℕ) (unsigned : Bool) : inType p unsigned 0 := by
  unfold inType
  split
  · exact ⟨le_refl _, by positivity⟩
  · exact ⟨by simp, by positivity⟩

/-- What the guards say about a value. Source: `tree.c` `compare_tree_int`. Kind: L -/
theorem compareTreeInt_lt_zero {z : ℤ} {u : ℕ} : compareTreeInt z u < 0 ↔ z < u := by
  unfold compareTreeInt
  split_ifs <;> constructor <;> omega

theorem zero_lt_compareTreeInt {z : ℤ} {u : ℕ} : 0 < compareTreeInt z u ↔ (u : ℤ) < z := by
  unfold compareTreeInt
  split_ifs <;> constructor <;> omega

/-- **The span of the values**, if it is not negative in the index type, did not wrap. Source: `stmt.c` `expand_case`. Kind: L -/
theorem CaseList.window (hlist : CaseList t node head ids) (hne : ids ≠ []) (h : 0 ≤ (scan node ids).range t) :
    Window t node ids (scan node ids).minval ((scan node ids).range t) ∧
      (scan node ids).minval + (scan node ids).range t = (scan node ids).maxval := by
  have hscan := scan_spec node ids
  generalize scan node ids = s at *
  obtain ⟨i, hi, hmin⟩ := hscan.minval_mem hne
  obtain ⟨j, hj, hmax⟩ := hscan.maxval_mem hne
  have hminIn : inType t.prec t.unsigned s.minval := by
    rw [hmin]
    exact (hlist.has_low i hi).inType
  have hmaxIn : inType t.prec t.unsigned s.maxval := by
    rw [hmax]
    exact (hlist.has_high j hj).inType
  have hrangeIn : inType t.prec t.unsigned (s.range t) := inType_valueIn _ _
  have hle : s.minval ≤ s.maxval := by
    have := hlist.low_le_high i hi
    have := hscan.le_maxval i hi
    omega
  have hmod : s.range t ≡ s.maxval - s.minval [ZMOD 2 ^ t.prec] :=
    (valueIn_modEq _ _).trans (toNat_ofInt_modEq _)
  have hspan := sub_lt_of_inType t.prec_pos hmaxIn hminIn
  have hlt : s.range t < 2 ^ t.prec := by
    have := sub_lt_of_inType t.prec_pos hrangeIn (inType_zero t.prec t.unsigned)
    linarith
  have heq : s.range t = s.maxval - s.minval := by
    have h1 := Int.emod_eq_of_lt h hlt
    have h2 := Int.emod_eq_of_lt (by omega : 0 ≤ s.maxval - s.minval) hspan
    rw [← h1, ← h2]
    exact hmod
  have hlast : s.minval + s.range t = s.maxval := by
    rw [heq]
    ring
  refine ⟨⟨h, hminIn, ?_, hrangeIn, hscan.minval_le, ?_⟩, hlast⟩
  · rw [hlast]
    exact hmaxIn
  · intro k hk
    rw [hlast]
    exact hscan.le_maxval k hk

/-- **The start of the window is replaced by zero**, if it is positive. Source: `stmt.c` `expand_case` (`build_int_cst`). Kind: L -/
theorem Window.fromZero (h : Window t node ids minval range) (hpos : 0 < minval) :
    Window t node ids 0 (minval + range) := by
  have hrange := h.range_nonneg
  refine ⟨by omega, inType_zero _ _, ?_, h.last_inType, ?_, ?_⟩
  · rw [zero_add]
    exact h.last_inType
  · intro i hi
    have := h.minval_le i hi
    omega
  · intro i hi
    rw [zero_add]
    exact h.le_last i hi

/-- A constant that is not negative. Source: `tree.c` `tree_low_cst`. -/
def treeLowCst (z : ℤ) : Option ℕ := if z < 0 then none else some z.toNat

/-- A value of the window, less the start. Source: `stmt.c` `expand_case` (`fold_build2 (MINUS_EXPR, ...)`). Kind: L -/
theorem Window.wrap_sub (h : Window t node ids minval range) {z : ℤ} (hlow : minval ≤ z) (hhigh : z ≤ minval + range) :
    t.wrap (z - minval) = z - minval := by
  apply valueIn_ofInt t.prec_pos
  exact inType_of_le (inType_zero _ _) h.range_inType (by omega) (by omega)

theorem Window.treeLowCst_eq (h : Window t node ids minval range) {z : ℤ} (hlow : minval ≤ z) (hhigh : z ≤ minval + range) :
    treeLowCst (t.wrap (z - minval)) = some (z - minval).toNat := by
  rw [h.wrap_sub hlow hhigh]
  exact if_neg (by omega)

/-! ## The index -/

/-- The index, less the start of the window, in a mode of `m` bits; it is reduced if the type is narrower than its mode.
Source: `expr.c` `expand_expr_real_1` (`MINUS_EXPR`), `reduce_to_bit_field_precision` -/
def dispatchIndex (t : IndexType) (m : ℕ) (integerType : Bool) (x minval : ℤ) : BitVec m :=
  if integerType && decide (t.prec < m) then BitVec.ofInt m (t.wrap (x - minval)) else BitVec.ofInt m (x - minval)

/-- Modulo the width of the type the index is the difference. -/
theorem dispatchIndex_modEq {m : ℕ} (hm : t.prec ≤ m) (integerType : Bool) (x : ℤ) :
    ((dispatchIndex t m integerType x minval).toNat : ℤ) ≡ x - minval [ZMOD 2 ^ t.prec] := by
  have hdvd : (2 : ℤ) ^ t.prec ∣ 2 ^ m := pow_dvd_pow 2 hm
  unfold dispatchIndex
  split
  · apply ((toNat_ofInt_modEq _).of_dvd hdvd).trans
    exact (valueIn_modEq _ _).trans (toNat_ofInt_modEq _)
  · exact (toNat_ofInt_modEq _).of_dvd hdvd

/-- **The index is in range** if the value is in the window, and then it is the difference. Source: `expr.c` `do_tablejump`. Kind: L -/
theorem Window.index_spec (h : Window t node ids minval range) {m : ℕ} (hm : t.prec ≤ m) (integerType : Bool) {x : ℤ}
    (hx : t.Has x) :
    (((dispatchIndex t m integerType x minval).toNat : ℤ) ≤ range ↔ minval ≤ x ∧ x ≤ minval + range) ∧
      (minval ≤ x ∧ x ≤ minval + range → ((dispatchIndex t m integerType x minval).toNat : ℤ) = x - minval) := by
  have hinside : minval ≤ x ∧ x ≤ minval + range →
      ((dispatchIndex t m integerType x minval).toNat : ℤ) = x - minval := by
    rintro ⟨hlow, hhigh⟩
    have hbits : dispatchIndex t m integerType x minval = BitVec.ofInt m (x - minval) := by
      unfold dispatchIndex
      rw [h.wrap_sub hlow hhigh, ite_self]
    have hspan := sub_lt_of_inType t.prec_pos hx.inType h.min_inType
    have hpow : (2 : ℤ) ^ t.prec ≤ 2 ^ m := pow_le_pow_right₀ (by norm_num) hm
    have hvalue := valueIn_true_ofInt (p := m) (x - minval)
    rw [Int.emod_eq_of_lt (by omega) (by linarith)] at hvalue
    rw [hbits]
    exact hvalue
  refine ⟨⟨?_, ?_⟩, hinside⟩
  · -- a small index is the difference also where the difference wrapped
    intro hle
    have hmod : ((dispatchIndex t m integerType x minval).toNat : ℤ) ≡ x - minval [ZMOD 2 ^ t.prec] :=
      dispatchIndex_modEq hm integerType x
    have hnonneg := Int.natCast_nonneg (dispatchIndex t m integerType x minval).toNat
    generalize ((dispatchIndex t m integerType x minval).toNat : ℤ) = n at hmod hle hnonneg
    have hsum : minval + n ≡ x [ZMOD 2 ^ t.prec] := by
      have h := hmod.add_left minval
      rwa [show minval + (x - minval) = x by ring] at h
    have hin : inType t.prec t.unsigned (minval + n) :=
      inType_of_le h.min_inType h.last_inType (by omega) (by omega)
    have heq := eq_of_inType hin hx.inType hsum t.prec_pos
    omega
  · intro hx'
    rw [hinside hx']
    omega

/-- The length of the window in a mode. Source: `expr.c` `do_tablejump` (`range`). Kind: L -/
theorem Window.toNat_range (h : Window t node ids minval range) {m : ℕ} (hm : t.prec ≤ m) :
    ((BitVec.ofInt m range).toNat : ℤ) = range := by
  have hlt := sub_lt_of_inType t.prec_pos h.range_inType (inType_zero t.prec t.unsigned)
  have hpow : (2 : ℤ) ^ t.prec ≤ 2 ^ m := pow_le_pow_right₀ (by norm_num) hm
  have hvalue := valueIn_true_ofInt (p := m) range
  rw [Int.emod_eq_of_lt h.range_nonneg (by linarith)] at hvalue
  exact hvalue

/-- Outside of the window there are no cases. -/
theorem Window.dispatchNodes_outside (h : Window t node ids minval range) {x : ℤ}
    (hx : ¬ (minval ≤ x ∧ x ≤ minval + range)) (d : L) : dispatchNodes node ids d x = d := by
  apply dispatchNodes_eq_default
  rintro i hi ⟨hlow, hhigh⟩
  have := h.minval_le i hi
  have := h.le_last i hi
  omega

end WindowLemmas

end GccCore.Gcc.SwitchLower
