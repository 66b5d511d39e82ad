import GccCore.Gcc.SwitchLower.Strategy

/-!
# `gcc/stmt.c`, `gcc/expr.c`: switches as jump tables

A switch over many values becomes a table with one label for each value of the window; gaps are filled with the default.

* **The table** (`labelvec`, `labelvec_spec`): the entry of a value is the label of the case that contains it.
* **The jump**: by a `casesi` instruction, or by a range check and an indirect jump (`TableCode`, `TableCode.run_eq`).
-/

set_option linter.unusedSectionVars false

namespace GccCore.Gcc.SwitchLower

open GccCore.Lib.MachineInt

variable {L : Type} [DecidableEq L]

/-! ## The table -/

/-- An entry outside of the table is an error. Source: `stmt.c` `expand_case` (`labelvec[i] = ...`). -/
def setEntry (l : L) (v : List (Option L)) (i : ℕ) : Option (List (Option L)) :=
  if i < v.length then some (v.set i (some l)) else none

/-- The entries of a node. Source: `stmt.c` `expand_case` (`for (i = i_low; i <= i_high; i++)`). -/
def setEntries (l : L) (lo hi : ℕ) (v : List (Option L)) : Option (List (Option L)) :=
  (List.range' lo (hi + 1 - lo)).foldlM (setEntry l) v

/-- The entries of all nodes; those that are left are null. Source: `stmt.c` `expand_case` (`for (n = case_list; ...)`). -/
def fillEntries (t : IndexType) (node : ℕ → CaseNode L) (minval : ℤ) (v : List (Option L)) (ids : List ℕ) :
    Option (List (Option L)) :=
  ids.foldlM (fun v i =>
    (treeLowCst (t.wrap ((node i).low - minval))).bind fun lo =>
      (treeLowCst (t.wrap ((node i).high - minval))).bind fun hi => setEntries (node i).codeLabel lo hi v) v

/-- The table: the gaps are filled with the default. Source: `stmt.c` `expand_case` (`ncases`, `labelvec`). -/
def labelvec (t : IndexType) (node : ℕ → CaseNode L) (minval range : ℤ) (ids : List ℕ) (d : L) : Option (List L) :=
  (treeLowCst range).bind fun last =>
    (fillEntries t node minval (List.replicate (last + 1) none) ids).map fun v => v.map fun e => e.getD d

/-- An instruction that compares with both bounds and jumps through a table. Source: `expr.c` `gen_casesi`. -/
def casesi (index lower range : BitVec 32) (table : List L) (d : L) : Option L :=
  if range.toNat < (index - lower).toNat then some d else table[(index - lower).toNat]?

/-- The code for a table. Source: `expr.c` `try_casesi`, `try_tablejump`. -/
inductive TableCode (L : Type)
  | casesi (minval range : ℤ) (table : List L) (defaultLabel : L)
  | tablejump (minval range : ℤ) (table : List L) (defaultLabel : L)

/-- Running the code, for an index in a mode of `m` bits; a wider index is compared in its own mode and truncated.
Source: `expr.c` `try_casesi`, `do_tablejump` -/
def TableCode.run (t : IndexType) (m : ℕ) (integerType : Bool) (x : ℤ) : TableCode L → Option L
  | .casesi minval range table d =>
    if 32 < m then
      let index := dispatchIndex t m integerType x minval
      if (BitVec.ofInt m range).toNat < index.toNat then some d
      else SwitchLower.casesi (index.setWidth 32) 0 (BitVec.ofInt 32 range) table d
    else SwitchLower.casesi (BitVec.ofInt 32 x) (BitVec.ofInt 32 minval) (BitVec.ofInt 32 range) table d
  | .tablejump minval range table d =>
    let index := dispatchIndex t m integerType x minval
    if (BitVec.ofInt m range).toNat < index.toNat then some d else table[index.toNat]?

/-- The code for a switch whose cases were seen. Source: `stmt.c` `expand_case` (`try_casesi`, `try_tablejump`). -/
def expandTable (tg : Target) (o : Options) (t : IndexType) (node : ℕ → CaseNode L) (s : Scan L) (ids : List ℕ) (d : L) :
    Option (TableCode L) :=
  if tg.haveCasesi then
    (labelvec t node s.minval (s.range t) ids d).map fun table => .casesi s.minval (s.range t) table d
  else
    -- jump tables are indexed from zero if that avoids a subtraction
    let (minval, range) :=
      if !o.optimizeForSize && decide (compareTreeInt s.minval 0 > 0) && decide (compareTreeInt s.minval 3 < 0) then
        (0, s.maxval)
      else (s.minval, s.range t)
    if tg.haveTablejump then (labelvec t node minval range ids d).map fun table => .tablejump minval range table d
    else none

/-! ## The entries -/

section Entries

variable {t : IndexType} {node : ℕ → CaseNode L} {ids : List ℕ} {head : Option ℕ} {minval range : ℤ} {d l : L}

theorem setEntry_list (l : L) : ∀ (js : List ℕ) (v : List (Option L)), (∀ j ∈ js, j < v.length) →
    ∃ v', js.foldlM (setEntry l) v = some v' ∧ v'.length = v.length ∧
      ∀ k < v.length, v'[k]? = if k ∈ js then some (some l) else v[k]?
  | [], v, _ => ⟨v, rfl, rfl, fun k _ => by simp⟩
  | j :: js, v, h => by
    obtain ⟨hj, hjs⟩ := List.forall_mem_cons.mp h
    have hlen : (v.set j (some l)).length = v.length := List.length_set
    obtain ⟨v', hfold, hlen', hget⟩ := setEntry_list l js (v.set j (some l)) (by rw [hlen]; exact hjs)
    refine ⟨v', ?_, hlen'.trans hlen, ?_⟩
    · rw [List.foldlM_cons, setEntry, if_pos hj]
      exact hfold
    · intro k hk
      rw [hget k (by rw [hlen]; exact hk), List.getElem?_set]
      by_cases hkj : k ∈ js
      · rw [if_pos hkj, if_pos (List.mem_cons_of_mem j hkj)]
      · rw [if_neg hkj]
        by_cases heq : j = k
        · subst heq
          rw [if_pos rfl, if_pos hk, if_pos List.mem_cons_self]
        · rw [if_neg heq, if_neg]
          rw [List.mem_cons, not_or]
          exact ⟨Ne.symm heq, hkj⟩

/-- **The entries of a node** are inside of the table. Source: `stmt.c` `expand_case`. Kind: L -/
theorem setEntries_spec (l : L) (lo : ℕ) {hi : ℕ} (v : List (Option L)) (hhi : hi < v.length) :
    ∃ v', setEntries l lo hi v = some v' ∧ v'.length = v.length ∧
      ∀ k < v.length, v'[k]? = if lo ≤ k ∧ k ≤ hi then some (some l) else v[k]? := by
  have hmem : ∀ k, k ∈ List.range' lo (hi + 1 - lo) ↔ lo ≤ k ∧ k ≤ hi := by
    intro k
    rw [List.mem_range'_1]
    omega
  obtain ⟨v', hset, hlen, hget⟩ := setEntry_list l (List.range' lo (hi + 1 - lo)) v (by
    intro j hj
    have := (hmem j).mp hj
    omega)
  refine ⟨v', hset, hlen, ?_⟩
  intro k hk
  rw [hget k hk]
  simp only [hmem]

/-- What holds of the table for some of the nodes. Source: `stmt.c` `expand_case`. -/
structure Filled (node : ℕ → CaseNode L) (minval : ℤ) (size : ℕ) (js : List ℕ) (v : List (Option L)) : Prop where
  length_eq : v.length = size
  entry : ∀ k < size, ∃ e, v[k]? = some e ∧
    (∀ j ∈ js, (node j).Contains (minval + k) → e = some (node j).codeLabel) ∧
    ((∀ j ∈ js, ¬ (node j).Contains (minval + k)) → e = none)

/-- **All nodes** fill their own entries. Source: `stmt.c` `expand_case`. Kind: L -/
theorem fillEntries_spec (hlist : CaseList t node head ids) (hwindow : Window t node ids minval range) {size : ℕ}
    (hsize : range < size) :
    ∃ v, fillEntries t node minval (List.replicate size none) ids = some v ∧ Filled node minval size ids v := by
  suffices h : ∀ js : List ℕ, js ⊆ ids → ∃ v, fillEntries t node minval (List.replicate size none) js = some v ∧
      Filled node minval size js v from h ids (List.Subset.refl ids)
  intro js
  induction js using List.reverseRecOn with
  | nil =>
    intro _
    refine ⟨_, rfl, List.length_replicate, ?_⟩
    intro k hk
    refine ⟨none, ?_, fun j hj => absurd hj List.not_mem_nil, fun _ => rfl⟩
    rw [List.getElem?_replicate, if_pos hk]
  | append_singleton js j ih =>
    intro hsub
    obtain ⟨v, hfill, hfilled⟩ := ih fun i hi => hsub (List.mem_append_left _ hi)
    have hj : j ∈ ids := hsub (by simp)
    have hlow := hwindow.minval_le j hj
    have hhigh := hwindow.le_last j hj
    have hle := hlist.low_le_high j hj
    have hlen := hfilled.length_eq
    have hhi : ((node j).high - minval).toNat < v.length := by omega
    obtain ⟨v', hset, hlen', hget⟩ := setEntries_spec (node j).codeLabel ((node j).low - minval).toNat v hhi
    refine ⟨v', ?_, hlen'.trans hlen, ?_⟩
    · unfold fillEntries at hfill ⊢
      rw [List.foldlM_append, hfill]
      simp only [List.foldlM_cons, List.foldlM_nil, Option.bind_eq_bind, Option.bind_some,
        hwindow.treeLowCst_eq hlow (by omega), hwindow.treeLowCst_eq (by omega) hhigh, hset]
      rfl
    · intro k hk
      obtain ⟨e, he, hfound, hnone⟩ := hfilled.entry k hk
      rw [hget k (by omega)]
      have hiff : ((node j).low - minval).toNat ≤ k ∧ k ≤ ((node j).high - minval).toNat ↔
          (node j).Contains (minval + k) := by
        unfold CaseNode.Contains
        omega
      by_cases hin : (node j).Contains (minval + k)
      · rw [if_pos (hiff.mpr hin)]
        refine ⟨_, rfl, ?_, fun hno => absurd hin (hno j (by simp))⟩
        intro i hi hix
        rw [eq_of_contains hlist.sorted (hsub hi) hj hix hin]
      · rw [if_neg (fun h => hin (hiff.mp h))]
        refine ⟨e, he, ?_, ?_⟩
        · intro i hi hix
          rcases List.mem_append.mp hi with hi | hi
          · exact hfound i hi hix
          · rw [List.mem_singleton.mp hi] at hix
            exact absurd hix hin
        · intro hno
          exact hnone fun i hi => hno i (List.mem_append_left _ hi)

/-- **The table** has the label of every value of the window. Source: `stmt.c` `expand_case` (`labelvec`). Kind: L -/
theorem labelvec_spec (hlist : CaseList t node head ids) (hwindow : Window t node ids minval range) (d : L) :
    ∃ table, labelvec t node minval range ids d = some table ∧
      ∀ x, minval ≤ x → x ≤ minval + range → table[(x - minval).toNat]? = some (dispatchNodes node ids d x) := by
  have hnonneg := hwindow.range_nonneg
  obtain ⟨v, hfill, hfilled⟩ := fillEntries_spec hlist hwindow (by omega : range < (range.toNat + 1 : ℕ))
  refine ⟨v.map fun e => e.getD d, ?_, ?_⟩
  · unfold labelvec treeLowCst
    rw [if_neg (not_lt.mpr hnonneg), Option.bind_some, hfill]
    rfl
  · intro x hlow hhigh
    obtain ⟨e, he, hfound, hnone⟩ := hfilled.entry (x - minval).toNat (by omega)
    have hx : minval + (x - minval).toNat = x := by omega
    rw [hx] at hfound hnone
    rw [List.getElem?_map, he, Option.map_some]
    congr 1
    unfold dispatchNodes
    cases hfind : ids.find? (fun i => decide ((node i).Contains x)) with
    | none =>
      have hno : ∀ j ∈ ids, ¬ (node j).Contains x := by simpa using List.find?_eq_none.mp hfind
      rw [hnone hno]
      rfl
    | some i =>
      have hix : (node i).Contains x := by simpa using List.find?_some hfind
      rw [hfound i (List.mem_of_find?_eq_some hfind) hix]
      rfl

end Entries

/-! ## The jump -/

section Jump

variable {t : IndexType} {m : ℕ} {node : ℕ → CaseNode L} {ids : List ℕ} {head : Option ℕ} {minval range : ℤ} {d : L}

/-- **A range check and a table** lead to the right case. Source: `expr.c` `do_tablejump`. Kind: L -/
theorem Window.check_table (h : Window t node ids minval range) (hm : t.prec ≤ m) (integerType : Bool) {table : List L}
    (htable : ∀ x, minval ≤ x → x ≤ minval + range → table[(x - minval).toNat]? = some (dispatchNodes node ids d x))
    {x : ℤ} (hx : t.Has x) :
    (if (BitVec.ofInt m range).toNat < (dispatchIndex t m integerType x minval).toNat then some d
      else table[(dispatchIndex t m integerType x minval).toNat]?) = some (dispatchNodes node ids d x) := by
  obtain ⟨hinside, hvalue⟩ := h.index_spec hm integerType hx
  have hbound := h.toNat_range hm
  by_cases hx' : minval ≤ x ∧ x ≤ minval + range
  · have hindex := hvalue hx'
    have hle := hinside.mpr hx'
    rw [if_neg (by omega), ← htable x hx'.1 hx'.2]
    congr 1
    omega
  · have hgt : ¬ ((dispatchIndex t m integerType x minval).toNat : ℤ) ≤ range := fun hle => hx' (hinside.mp hle)
    rw [if_pos (by omega), h.dispatchNodes_outside hx' d]

/-- **The instruction for tables** leads to the right case, also if the index is truncated. Source: `expr.c` `try_casesi`. Kind: L -/
theorem Window.run_casesi (h : Window t node ids minval range) (hm : t.prec ≤ m) (hrange : range < 2 ^ 32)
    (integerType : Bool) {table : List L}
    (htable : ∀ x, minval ≤ x → x ≤ minval + range → table[(x - minval).toNat]? = some (dispatchNodes node ids d x))
    {x : ℤ} (hx : t.Has x) :
    (TableCode.casesi minval range table d).run t m integerType x = some (dispatchNodes node ids d x) := by
  have hcheck := h.check_table hm integerType htable hx
  dsimp only [TableCode.run]
  by_cases hwide : 32 < m
  · rw [if_pos hwide]
    by_cases hout : (BitVec.ofInt m range).toNat < (dispatchIndex t m integerType x minval).toNat
    · rw [if_pos hout] at hcheck ⊢
      exact hcheck
    · rw [if_neg hout] at hcheck ⊢
      rw [← hcheck]
      -- an index in range is not changed by the truncation
      have hbound := h.toNat_range hm
      have hnonneg := h.range_nonneg
      have hbound' : ((BitVec.ofInt 32 range).toNat : ℤ) = range := by
        have hvalue := valueIn_true_ofInt (p := 32) range
        rw [Int.emod_eq_of_lt hnonneg hrange] at hvalue
        exact hvalue
      have hindex : ((dispatchIndex t m integerType x minval).setWidth 32 - 0).toNat =
          (dispatchIndex t m integerType x minval).toNat := by
        have hsub : (dispatchIndex t m integerType x minval).setWidth 32 - 0 =
            (dispatchIndex t m integerType x minval).setWidth 32 := BitVec.sub_zero _
        rw [hsub, BitVec.toNat_setWidth]
        apply Nat.mod_eq_of_lt
        zify
        linarith
      unfold SwitchLower.casesi
      rw [hindex, if_neg (by omega)]
  · rw [if_neg hwide]
    have hnarrow := h.check_table (m := 32) (le_trans hm (not_lt.mp hwide)) false htable hx
    unfold SwitchLower.casesi
    rw [← ofInt_sub]
    exact hnarrow

/-- What the guards for a table say. Source: `stmt.c` `expand_case`. Kind: L -/
theorem useTree_eq_false {tg : Target} {o : Options} {s : Scan L} (h : useTree tg o t s = false) :
    0 ≤ s.range t ∧ s.range t < 2 ^ 32 ∧ (tg.haveCasesi = false → tg.haveTablejump = true) := by
  unfold useTree at h
  simp only [Bool.or_eq_false_iff, decide_eq_false_iff_not, gt_iff_lt] at h
  obtain ⟨⟨⟨⟨⟨⟨_, hlarge⟩, hneg⟩, _⟩, _⟩, _⟩, hinsn⟩ := h
  rw [compareTreeInt_lt_zero] at hneg
  rw [zero_lt_compareTreeInt] at hlarge
  generalize (if o.optimizeForSize then 3 else 10) * s.count = n at hlarge
  have hmod : n % 2 ^ 32 < 2 ^ 32 := Nat.mod_lt n (by norm_num)
  refine ⟨by simpa using hneg, ?_, ?_⟩
  · have hcast : ((n % 2 ^ 32 : ℕ) : ℤ) < 2 ^ 32 := by exact_mod_cast hmod
    linarith
  · intro hcasesi
    rw [hcasesi] at hinsn
    simpa using hinsn

/-- **Tables agree with the case list**, and no entry is outside of the table. Source: `stmt.c` `expand_case`. Kind: L -/
theorem expandTable_spec (tg : Target) (o : Options) (hlist : CaseList t node head ids) (hne : ids ≠ []) (hm : t.prec ≤ m)
    (hguard : useTree tg o t (scan node ids) = false) (integerType : Bool) :
    ∃ code, expandTable tg o t node (scan node ids) ids d = some code ∧
      ∀ x, t.Has x → code.run t m integerType x = some (dispatchNodes node ids d x) := by
  obtain ⟨hnonneg, hrange, hinsn⟩ := useTree_eq_false hguard
  obtain ⟨hwindow, hlast⟩ := hlist.window hne hnonneg
  obtain ⟨table, htable, hentries⟩ := labelvec_spec hlist hwindow d
  unfold expandTable
  by_cases hcasesi : tg.haveCasesi = true
  · rw [if_pos hcasesi, htable]
    exact ⟨_, rfl, fun x hx => hwindow.run_casesi hm hrange integerType hentries hx⟩
  · have htablejump := hinsn (Bool.eq_false_iff.mpr hcasesi)
    rw [if_neg hcasesi]
    by_cases hzero : (!o.optimizeForSize && decide (compareTreeInt (scan node ids).minval 0 > 0) &&
        decide (compareTreeInt (scan node ids).minval 3 < 0)) = true
    · rw [if_pos hzero]
      simp only [Bool.and_eq_true, decide_eq_true_eq, gt_iff_lt, zero_lt_compareTreeInt] at hzero
      have hwindow' := hwindow.fromZero (by simpa using hzero.1.2)
      rw [hlast] at hwindow'
      obtain ⟨table', htable', hentries'⟩ := labelvec_spec hlist hwindow' d
      dsimp only
      rw [if_pos htablejump, htable']
      exact ⟨_, rfl, fun x hx => hwindow'.check_table hm integerType hentries' hx⟩
    · rw [if_neg hzero]
      dsimp only
      rw [if_pos htablejump, htable]
      exact ⟨_, rfl, fun x hx => hwindow.check_table hm integerType hentries hx⟩

end Jump

end GccCore.Gcc.SwitchLower
