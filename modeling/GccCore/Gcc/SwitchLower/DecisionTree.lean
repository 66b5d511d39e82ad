import GccCore.Gcc.SwitchLower.Shapes

/-!
# Lowering a switch to a decision tree keeps the dispatch

* **The code for a tree** (`emitCaseNodes_spec`), by induction over the tree.
* **The whole switch** (`expandCaseTree_dispatch`), for any index type, labels and costs.
-/

set_option linter.unusedSectionVars false

namespace GccCore.Gcc.SwitchLower

open GccCore.Lib GccCore.Lib.MachineInt GccCore.Lib.LabelledCode

variable {L : Type} [DecidableEq L] {t : IndexType} {m : ℕ} {node : ℕ → CaseNode L} {d : L} {x : ℤ}

/-! ## The tree -/

section Tree

variable {path ls rs : List ℕ} {i depth fuel : ℕ}

/-- What is known of a child and the tree below it. -/
structure ChildOk (t : IndexType) (m : ℕ) (node : ℕ → CaseNode L) (d : L) (depth fuel : ℕ) (path : List ℕ) (j : ℕ)
    (ids : List ℕ) : Prop where
  mem : j ∈ ids
  toRoot : Path node (node j).parent path
  length_le : path.length ≤ depth
  leaf : (node j).isSingleLeaf = true → ids = [j]
  emits : ∀ n, ∃ code n', emitCaseNodes t m node d depth fuel j n = some (code, n') ∧
    Emitted t node d path ids n code n'

theorem ChildOk.nodeIsBounded_eq {j : ℕ} {ids : List ℕ} (h : ChildOk t m node d depth fuel path j ids) :
    nodeIsBounded t node depth j = some (hasLow t node path j && hasHigh t node path j) :=
  SwitchLower.nodeIsBounded_eq h.toRoot h.length_le

theorem ChildOk.value_of_leaf {j : ℕ} {ids : List ℕ} (h : ChildOk t m node d depth fuel path j ids)
    (hleaf : (node j).isSingleLeaf = true) : ids = [j] ∧ (node j).low = (node j).high := by
  refine ⟨h.leaf hleaf, ?_⟩
  unfold CaseNode.isSingleLeaf at hleaf
  simp only [Bool.and_eq_true, decide_eq_true_eq] at hleaf
  exact hleaf.1.1

section Step

variable (hm : t.prec ≤ m) (hok : NodesOk t node path (ls ++ i :: rs)) (hpath : Path node (node i).parent path)
  (hlen : path.length ≤ depth) (hno : (hasLow t node path i && hasHigh t node path i) = false)
  (hleft : ∀ l, (node i).left = some l → ChildOk t m node d depth fuel (i :: path) l ls)
  (hleft' : (node i).left = none → ls = [])
  (hright : ∀ r, (node i).right = some r → ChildOk t m node d depth fuel (i :: path) r rs)
  (hright' : (node i).right = none → rs = [])

include hm hok hpath hlen hno hleft hleft' hright hright'

/-- The code for a single value. Source: `stmt.c` `emit_case_nodes`. Kind: L -/
theorem emitCaseNodes_value (hval : (node i).low = (node i).high) (n : ℕ) :
    ∃ code n', emitCaseNodes t m node d depth (fuel + 1) i n = some (code, n') ∧
      Emitted t node d path (ls ++ i :: rs) n code n' := by
  unfold emitCaseNodes
  dsimp only
  rw [nodeIsBounded_eq hpath hlen, Option.bind_some, if_neg (by rw [hno]; exact Bool.false_ne_true), if_pos hval]
  rcases hl : (node i).left with _ | l <;> rcases hr : (node i).right with _ | r <;> dsimp only
  · -- a leaf
    refine ⟨_, n, rfl, ?_⟩
    apply emitted_values [i] hm hok
    · simp [hleft' hl, hright' hr]
    · simpa using hval
  · -- a tree above
    have hchild := hright r hr
    by_cases hleaf : (node r).isSingleLeaf = true
    · obtain ⟨hrs, hrval⟩ := hchild.value_of_leaf hleaf
      rw [if_pos hleaf]
      refine ⟨_, n, rfl, ?_⟩
      apply emitted_values [i, r] hm hok
      · simp [hleft' hl, hrs]
      · simp [hval, hrval]
    · obtain ⟨code, n', hcode, hemitted⟩ := hchild.emits n
      rw [if_neg hleaf, nodeHasLowBound_eq hpath hlen, Option.bind_some, hcode]
      exact ⟨_, n', rfl, emitted_value_right hm hok hval (hleft' hl) hemitted⟩
  · -- a tree below
    have hchild := hleft l hl
    by_cases hleaf : (node l).isSingleLeaf = true
    · obtain ⟨hls, hlval⟩ := hchild.value_of_leaf hleaf
      rw [if_pos hleaf]
      refine ⟨_, n, rfl, ?_⟩
      apply emitted_values [i, l] hm hok
      · simp [hright' hr, hls, or_comm]
      · simp [hval, hlval]
    · obtain ⟨code, n', hcode, hemitted⟩ := hchild.emits n
      rw [if_neg hleaf, nodeHasHighBound_eq hpath hlen, Option.bind_some, hcode]
      exact ⟨_, n', rfl, emitted_value_left hm hok hval (hright' hr) hemitted⟩
  · -- trees on both sides
    have hchildl := hleft l hl
    have hchildr := hright r hr
    rw [hchildr.nodeIsBounded_eq, Option.bind_some]
    by_cases hbr : (hasLow t node (i :: path) r && hasHigh t node (i :: path) r) = true
    · obtain ⟨code, n', hcode, hemitted⟩ := hchildl.emits n
      rw [if_pos hbr, hcode]
      rw [Bool.and_eq_true] at hbr
      exact ⟨_, n', rfl, emitted_value_rightBounded hm hok hval hemitted hchildr.mem hbr.1 hbr.2⟩
    rw [if_neg hbr, hchildl.nodeIsBounded_eq, Option.bind_some]
    by_cases hbl : (hasLow t node (i :: path) l && hasHigh t node (i :: path) l) = true
    · obtain ⟨code, n', hcode, hemitted⟩ := hchildr.emits n
      rw [if_pos hbl, hcode]
      rw [Bool.and_eq_true] at hbl
      exact ⟨_, n', rfl, emitted_value_leftBounded hm hok hval hemitted hchildl.mem hbl.1 hbl.2⟩
    rw [if_neg hbl]
    by_cases hleaf : ((node r).isSingleLeaf && (node l).isSingleLeaf) = true
    · rw [if_pos hleaf]
      rw [Bool.and_eq_true] at hleaf
      obtain ⟨hrs, hrval⟩ := hchildr.value_of_leaf hleaf.1
      obtain ⟨hls, hlval⟩ := hchildl.value_of_leaf hleaf.2
      refine ⟨_, n, rfl, ?_⟩
      apply emitted_values [i, r, l] hm hok
      · intro j
        simp only [hls, hrs, List.mem_cons, List.mem_append, List.not_mem_nil, or_false]
        tauto
      · simp [hval, hrval, hlval]
    · obtain ⟨codeLeft, n₁, hcodel, hemittedl⟩ := hchildl.emits (n + 1)
      obtain ⟨codeRight, n₂, hcoder, hemittedr⟩ := hchildr.emits n₁
      rw [if_neg hleaf, hcodel, Option.bind_some, hcoder]
      exact ⟨_, n₂, rfl, emitted_value_both hm hok hval hemittedl hemittedr⟩

/-- The code for a range. Source: `stmt.c` `emit_case_nodes`. Kind: L -/
theorem emitCaseNodes_range (hval : ¬ (node i).low = (node i).high) (n : ℕ) :
    ∃ code n', emitCaseNodes t m node d depth (fuel + 1) i n = some (code, n') ∧
      Emitted t node d path (ls ++ i :: rs) n code n' := by
  unfold emitCaseNodes
  dsimp only
  rw [nodeIsBounded_eq hpath hlen, Option.bind_some, if_neg (by rw [hno]; exact Bool.false_ne_true), if_neg hval]
  rcases hl : (node i).left with _ | l <;> rcases hr : (node i).right with _ | r <;> dsimp only
  · -- a leaf
    rw [nodeHasHighBound_eq hpath hlen, nodeHasLowBound_eq hpath hlen, Option.bind_some, Option.map_some]
    have hemitted := emitted_range_leaf (d := d) (n := n) hm hok (hleft' hl) (hright' hr)
    refine ⟨_, n, rfl, ?_⟩
    cases hlow : hasLow t node path i <;> cases hhigh : hasHigh t node path i <;> rw [hlow, hhigh] at hemitted <;>
      exact hemitted
  · -- a tree above
    obtain ⟨code, n', hcode, hemitted⟩ := (hright r hr).emits n
    rw [nodeHasLowBound_eq hpath hlen, Option.bind_some, hcode]
    exact ⟨_, n', rfl, emitted_range_right hm hok (hleft' hl) hemitted⟩
  · -- a tree below
    obtain ⟨code, n', hcode, hemitted⟩ := (hleft l hl).emits n
    rw [nodeHasHighBound_eq hpath hlen, Option.bind_some, hcode]
    exact ⟨_, n', rfl, emitted_range_left hm hok (hright' hr) hemitted⟩
  · -- trees on both sides
    have hchildl := hleft l hl
    have hchildr := hright r hr
    rw [hchildr.nodeIsBounded_eq, Option.bind_some]
    by_cases hbr : (hasLow t node (i :: path) r && hasHigh t node (i :: path) r) = true
    · obtain ⟨code, n', hcode, hemitted⟩ := hchildl.emits n
      rw [if_pos hbr, hcode]
      rw [Bool.and_eq_true] at hbr
      exact ⟨_, n', rfl, emitted_range_rightBounded hm hok hemitted hchildr.mem hbr.1 hbr.2⟩
    · obtain ⟨codeLeft, n₁, hcodel, hemittedl⟩ := hchildl.emits (n + 1)
      obtain ⟨codeRight, n₂, hcoder, hemittedr⟩ := hchildr.emits n₁
      rw [if_neg hbr, hcodel, Option.bind_some, hcoder]
      exact ⟨_, n₂, rfl, emitted_range_both hm hok hemittedl hemittedr⟩

end Step

theorem IsTree.eq_nil {parent : Option ℕ} : ∀ {tree : BinTree ℕ}, IsTree node none parent tree → tree.toList = []
  | .nil, _ => rfl

/-- A node without children. -/
theorem IsTree.toList_of_leaf {parent : Option ℕ} {j : ℕ} : ∀ {tree : BinTree ℕ}, IsTree node (some j) parent tree →
    (node j).isSingleLeaf = true → tree.toList = [j]
  | .node l k r, h, hleaf => by
    obtain ⟨rfl, _, hl, hr⟩ := h
    unfold CaseNode.isSingleLeaf at hleaf
    simp only [Bool.and_eq_true, decide_eq_true_eq, Option.isNone_iff_eq_none] at hleaf
    rw [hleaf.1.2] at hl
    rw [hleaf.2] at hr
    rw [BinTree.toList_node, hl.eq_nil, hr.eq_nil]
    rfl

theorem IsTree.root {parent : Option ℕ} {j : ℕ} : ∀ {tree : BinTree ℕ}, IsTree node (some j) parent tree →
    j ∈ tree.toList ∧ (node j).parent = parent
  | .node _ k _, h => by
    obtain ⟨rfl, hparent, _, _⟩ := h
    exact ⟨by simp, hparent⟩

/-- **The code for a tree**: it is found, and leads to the right case. Source: `stmt.c` `emit_case_nodes`. Kind: L -/
theorem emitCaseNodes_spec (hm : t.prec ≤ m) : ∀ {tree : BinTree ℕ} {i fuel : ℕ} {parent : Option ℕ} {path : List ℕ},
    IsTree node (some i) parent tree → Path node parent path → NodesOk t node path tree.toList →
    path.length + tree.toList.length ≤ depth → tree.toList.length ≤ fuel → ∀ n,
    ∃ code n', emitCaseNodes t m node d depth fuel i n = some (code, n') ∧
      Emitted t node d path tree.toList n code n'
  | .node tl i' tr, i, fuel, parent, path, htree, hpath, hok, hdepth, hfuel, n => by
    obtain ⟨rfl, rfl, hl, hr⟩ := htree
    rw [BinTree.toList_node] at hok hdepth hfuel ⊢
    rw [List.length_append, List.length_cons] at hdepth hfuel
    obtain ⟨fuel, rfl⟩ : ∃ k, fuel = k + 1 := ⟨fuel - 1, by omega⟩
    have hlen : path.length ≤ depth := by omega
    have hup : Path node (some i) (i :: path) := ⟨rfl, hpath⟩
    have hcons : (i :: path).length = path.length + 1 := rfl
    have hleft : ∀ l, (node i).left = some l → ChildOk t m node d depth fuel (i :: path) l tl.toList := by
      intro l hsome
      rw [hsome] at hl
      refine ⟨hl.root.1, ?_, by omega, hl.toList_of_leaf, ?_⟩
      · rw [hl.root.2]
        exact hup
      · exact emitCaseNodes_spec hm hl hup hok.left (by omega) (by omega)
    have hright : ∀ r, (node i).right = some r → ChildOk t m node d depth fuel (i :: path) r tr.toList := by
      intro r hsome
      rw [hsome] at hr
      refine ⟨hr.root.1, ?_, by omega, hr.toList_of_leaf, ?_⟩
      · rw [hr.root.2]
        exact hup
      · exact emitCaseNodes_spec hm hr hup hok.right (by omega) (by omega)
    have hleft' : (node i).left = none → tl.toList = [] := by
      intro hnone
      rw [hnone] at hl
      exact hl.eq_nil
    have hright' : (node i).right = none → tr.toList = [] := by
      intro hnone
      rw [hnone] at hr
      exact hr.eq_nil
    by_cases hbounded : (hasLow t node path i && hasHigh t node path i) = true
    · refine ⟨[.jump (.case (node i).codeLabel)], n, ?_, ?_⟩
      · unfold emitCaseNodes
        dsimp only
        rw [nodeIsBounded_eq hpath hlen, Option.bind_some, if_pos hbounded]
      · rw [Bool.and_eq_true] at hbounded
        exact emitted_bounded hok hbounded.1 hbounded.2
    · have hno := Bool.eq_false_iff.mpr hbounded
      by_cases hval : (node i).low = (node i).high
      · exact emitCaseNodes_value hm hok hpath hlen hno hleft hleft' hright hright' hval n
      · exact emitCaseNodes_range hm hok hpath hlen hno hleft hleft' hright hright' hval n

end Tree

/-! ## The whole switch -/

/-- The switch as a decision tree; `isEnum` says if the type was an enumeration.
Source: `stmt.c` `expand_case` -/
def expandCaseTree (t : IndexType) (m : ℕ) (isEnum : Bool) (labels : List (CaseLabel L)) (d : L) : Option (Code m L) :=
  let (pool, caseList) := addCaseNodes t (emptyPool d) labels
  if caseList.isNone then some [.jump (.case d)]
  else
    (spine pool.node pool.used caseList).bind fun ids =>
      let useCostTable := !isEnum && estimateCaseCosts pool.node ids
      (balanceCaseNodes useCostTable (pool.used + 1) pool.node caseList none).bind fun (node, root) =>
        root.bind fun i =>
          (emitCaseNodes t m node d pool.used pool.used i 0).map fun (code, _) => code ++ [.jump (.case d)]

section Whole

variable {labels : List (CaseLabel L)} {pool : Pool L} {head : Option ℕ} {ids : List ℕ}

theorem Built.length_le (h : Built t labels pool head ids) : ids.length ≤ pool.used := by
  have hsub : ids ⊆ List.range pool.used := fun i hi => List.mem_range.mpr (h.lt_used i hi)
  have hle := (h.list.nodup.subperm hsub).length_le
  rwa [List.length_range] at hle

/-- **The tree of a switch**: the rearrangement ends, with the costs in use or not, and the tree has the nodes of the list in
their order.
Source: `stmt.c` `balance_case_nodes`
Kind: L -/
theorem Built.balanced (h : Built t labels pool head ids) (useCostTable : Bool)
    (hcost : useCostTable = true → estimateCaseCosts pool.node ids = true) :
    ∃ node root tree, balanceCaseNodes useCostTable (pool.used + 1) pool.node head none = some (node, root) ∧
      Balanced pool.node none ids node root tree := by
  apply balanceCaseNodes_spec useCostTable _ none h.list.chain h.list.nodup (Nat.lt_succ_of_le h.length_le)
  intro huse i hi
  exact cost_nonneg_of_estimate (hcost huse) hi (h.list.low_le_high i hi)

/-- The nodes of the tree have the ranges of the list. -/
theorem Built.nodesOk (h : Built t labels pool head ids) (hdata : ∀ j, SameData (node j) (pool.node j)) :
    NodesOk t node [] ids := by
  have hlow : ∀ j, (node j).low = (pool.node j).low := fun j => (hdata j).1
  have hhigh : ∀ j, (node j).high = (pool.node j).high := fun j => (hdata j).2.1
  refine ⟨?_, ?_, ?_, ?_, fun p hp => absurd hp List.not_mem_nil⟩
  · intro j hj
    rw [hlow, hhigh]
    exact h.list.low_le_high j hj
  · intro j hj
    rw [hlow]
    exact h.list.has_low j hj
  · intro j hj
    rw [hhigh]
    exact h.list.has_high j hj
  · apply h.list.sorted.imp
    intro i j hlt
    rw [hlow, hhigh]
    exact hlt

theorem dispatchNodes_congr (hdata : ∀ j, SameData (node j) (pool.node j)) :
    dispatchNodes node ids d x = dispatchNodes pool.node ids d x := by
  have hfind : ids.find? (fun i => decide ((node i).Contains x)) =
      ids.find? (fun i => decide ((pool.node i).Contains x)) := by
    apply List.find?_congr
    intro i _
    apply decide_eq_decide.mpr
    unfold CaseNode.Contains
    rw [(hdata i).1, (hdata i).2.1]
  unfold dispatchNodes
  rw [hfind]
  cases ids.find? (fun i => decide ((pool.node i).Contains x)) with
  | none => rfl
  | some i => exact (hdata i).2.2

/-- The code for the tree and the jump to the default lead where the list of nodes leads.
Source: `stmt.c` `expand_case`
Kind: L -/
theorem Emitted.ends {code : Code m L} {n : ℕ} (h : Emitted t node d [] ids 0 code n) (hx : t.Has x) :
    Ends (Cond.eval (BitVec.ofInt m x)) (code ++ [.jump (.case d)]) (code ++ [.jump (.case d)])
      (.case (dispatchNodes node ids d x)) := by
  have hprog : InProgram (code ++ [.jump (.case d)]) [] 0 (code ++ [.jump (.case d)]) := by
    refine ⟨rfl, ?_, fun k hk => absurd hk List.not_mem_nil⟩
    intro l hl
    rw [labels_append, List.mem_append] at hl
    rcases hl with hl | hl
    · obtain ⟨k, hk, _⟩ := h.labels_lt _ hl
      cases hk
    · exact absurd hl List.not_mem_nil
  have hleads := h.leads x hx (fun p hp => absurd hp List.not_mem_nil) _ _ _ hprog
  unfold dispatchNodes
  cases hfind : ids.find? (fun i => decide ((node i).Contains x)) with
  | none =>
    have hno : ∀ j ∈ ids, ¬ (node j).Contains x := by simpa using List.find?_eq_none.mp hfind
    exact hleads.notFound hno (Ends.jump_out (hprog.after_case d))
  | some i =>
    have hix : (node i).Contains x := by simpa using List.find?_some hfind
    exact hleads.found i (List.mem_of_find?_eq_some hfind) hix

/-- **The code for the tree of a switch** leads every value to its case. Source: `stmt.c` `expand_case`. Kind: L -/
theorem expandCaseTree_ends (hm : t.prec ≤ m) (isEnum : Bool) {d : L}
    (hbuilt : Built t labels (addCaseNodes t (emptyPool d) labels).1 (addCaseNodes t (emptyPool d) labels).2 ids) :
    ∃ code, expandCaseTree t m isEnum labels d = some code ∧ ∀ x, t.Has x →
      Ends (Cond.eval (BitVec.ofInt m x)) code code (.case (dispatch labels d x)) := by
  unfold expandCaseTree
  dsimp only
  generalize addCaseNodes t (emptyPool d) labels = list at hbuilt
  obtain ⟨pool, head⟩ := list
  dsimp only at hbuilt ⊢
  cases head with
  | none =>
    refine ⟨_, if_pos rfl, ?_⟩
    intro x hx
    have hnil : ids = [] := hbuilt.list.chain.eq_nil
    rw [hbuilt.dispatch_eq d x hx, hnil]
    exact Ends.jump_out rfl
  | some first =>
    rw [if_neg (by simp), hbuilt.list.chain.spine_eq hbuilt.length_le, Option.bind_some]
    have hestimate : (!isEnum && estimateCaseCosts pool.node ids) = true → estimateCaseCosts pool.node ids = true :=
      fun h => (Bool.and_eq_true_iff.mp h).2
    obtain ⟨node, root, tree, hbalance, hbalanced⟩ := hbuilt.balanced _ hestimate
    rw [hbalance, Option.bind_some]
    have hok : NodesOk t node [] ids := hbuilt.nodesOk hbalanced.data
    have hlen := hbuilt.length_le
    obtain ⟨i, rfl⟩ : ∃ i, root = some i := by
      cases root with
      | some i => exact ⟨i, rfl⟩
      | none =>
        have hnil := hbalanced.tree.eq_nil
        rw [hbalanced.toList_eq] at hnil
        rw [hnil] at hbuilt
        exact absurd hbuilt.list.chain id
    rw [← hbalanced.toList_eq] at hok hlen
    have hroot : Path node none [] := trivial
    obtain ⟨code, n, hcode, hemitted⟩ := emitCaseNodes_spec (d := d) hm hbalanced.tree hroot hok
      (by simpa using hlen) hlen 0
    dsimp only
    rw [Option.bind_some, hcode]
    refine ⟨_, rfl, ?_⟩
    intro x hx
    rw [hbuilt.dispatch_eq d x hx, ← dispatchNodes_congr hbalanced.data, ← hbalanced.toList_eq]
    exact hemitted.ends hx

/-- **Lowering a switch to a decision tree keeps the dispatch**: for every index type, every vector of sorted labels, and
costs in use or not, the list of cases is rearranged into a tree of the same nodes in the same order, code is found for it,
and this code leads every value of the type to the case that contains it, or else to the default.
Source: `stmt.c` `expand_case`, `balance_case_nodes`, `emit_case_nodes`
Kind: P -/
theorem expandCaseTree_dispatch (t : IndexType) (m : ℕ) (hm : t.prec ≤ m) (isEnum : Bool) (labels : List (CaseLabel L))
    (hsorted : Sorted labels) (d : L) :
    (∃ code, expandCaseTree t m isEnum labels d = some code ∧ ∀ x, t.Has x →
      Ends (Cond.eval (BitVec.ofInt m x)) code code (.case (dispatch labels d x))) ∧
    ∃ ids, Built t labels (addCaseNodes t (emptyPool d) labels).1 (addCaseNodes t (emptyPool d) labels).2 ids ∧
      ∀ useCostTable, (useCostTable = true → estimateCaseCosts (addCaseNodes t (emptyPool d) labels).1.node ids = true) →
        ∃ node root tree, balanceCaseNodes useCostTable ((addCaseNodes t (emptyPool d) labels).1.used + 1)
            (addCaseNodes t (emptyPool d) labels).1.node (addCaseNodes t (emptyPool d) labels).2 none =
              some (node, root) ∧
          IsTree node root none tree ∧ tree.toList = ids ∧ Ascending node ids := by
  obtain ⟨ids, hbuilt⟩ := addCaseNodes_spec (t := t) (emptyPool d) labels hsorted
  refine ⟨expandCaseTree_ends hm isEnum hbuilt, ids, hbuilt, ?_⟩
  intro useCostTable hcost
  obtain ⟨node, root, tree, hbalance, hbalanced⟩ := hbuilt.balanced useCostTable hcost
  exact ⟨node, root, tree, hbalance, hbalanced.tree, hbalanced.toList_eq, (hbuilt.nodesOk hbalanced.data).ascending⟩

end Whole

/-- The type `signed char`. Source: `tree.c` `build_common_tree_nodes`. -/
def signedChar : IndexType :=
  ⟨8, false, -128, 127, by decide, by unfold inType; decide, by unfold inType; decide, by decide⟩

/-- A range that reaches outside of the type is cut down. Source: `stmt.c` `expand_case`. Kind: C -/
theorem expandCaseTree_signedChar :
    ∃ code, expandCaseTree (L := ℕ) signedChar 32 false [⟨-3, none, 1⟩, ⟨0, some 5, 2⟩, ⟨100, some 300, 3⟩] 0 = some code ∧
      Ends (Cond.eval (BitVec.ofInt 32 120)) code code (.case 3) := by
  have hsorted : Sorted (L := ℕ) [⟨-3, none, 1⟩, ⟨0, some 5, 2⟩, ⟨100, some 300, 3⟩] := by
    unfold Sorted
    decide
  obtain ⟨⟨code, hcode, hends⟩, _⟩ := expandCaseTree_dispatch signedChar 32 (by decide) false _ hsorted 0
  refine ⟨code, hcode, ?_⟩
  apply hends 120
  unfold IndexType.Has
  decide

end GccCore.Gcc.SwitchLower
