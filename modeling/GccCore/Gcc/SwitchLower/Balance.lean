import GccCore.Gcc.SwitchLower.Basic
import GccCore.Lib.BinTree

/-!
# `gcc/stmt.c`: the case tree

The list of the cases is rearranged into a binary tree: a node near the middle, by number or by cost, becomes the root, and
the two parts are rearranged in the same way.

* **Costs** (`costTable`, `estimateCaseCosts`) and the search for the middle (`bisect`, `pivotOf`).
* **Rearrangement** (`balanceCaseNodes`): links are changed in place.
* **The tree** (`balanceCaseNodes_spec`): it ends, and has the nodes of the list in their order, with links to the parents.
-/

namespace GccCore.Gcc.SwitchLower

open GccCore.Lib

variable {L : Type}

/-! ## Costs -/

/-- Source: `safe-ctype.h` `ISALNUM`. -/
def isAlnum (c : ℤ) : Bool := decide (48 ≤ c ∧ c ≤ 57 ∨ 65 ≤ c ∧ c ≤ 90 ∨ 97 ≤ c ∧ c ≤ 122)

/-- Source: `safe-ctype.h` `ISPUNCT`. -/
def isPunct (c : ℤ) : Bool := decide (33 ≤ c ∧ c ≤ 126) && !isAlnum c

/-- Source: `safe-ctype.h` `ISCNTRL`. -/
def isCntrl (c : ℤ) : Bool := decide (0 ≤ c ∧ c ≤ 31 ∨ c = 127)

/-- The cost of a case value; the table begins at `-1`. Source: `stmt.c` `COST_TABLE`, `estimate_case_costs`. -/
def costTable (c : ℤ) : ℤ :=
  if c = 32 then 8
  else if c = 9 then 4
  else if c = 0 then 4
  else if c = 10 then 2
  else if c = 12 then 1
  else if c = 11 then 1
  else if c = 8 then 1
  else if isAlnum c then 16
  else if isPunct c then 8
  else if isCntrl c then -1
  else 0

/-- Do all cases look like text? Source: `stmt.c` `estimate_case_costs`. -/
def estimateCaseCosts (node : ℕ → CaseNode L) (ids : List ℕ) : Bool :=
  ids.all fun i =>
    decide (¬ (node i).low < -1 ∧ ¬ 127 < (node i).high) &&
      (List.range ((node i).high - (node i).low + 1).toNat).all fun k => decide (¬ costTable ((node i).low + k) < 0)

/-- Is a node a range? Source: `stmt.c` (`tree_int_cst_equal`). -/
def CaseNode.isRange (n : CaseNode L) : Bool := decide (n.low ≠ n.high)

/-- The cost of a node. Source: `stmt.c` `balance_case_nodes` (`COST_TABLE`). -/
def CaseNode.cost (n : CaseNode L) : ℤ := (if n.isRange then costTable n.high else 0) + costTable n.low

/-- The number of tests of a node. Source: `stmt.c` `balance_case_nodes` (`i--`). -/
def CaseNode.tests (n : CaseNode L) : ℤ := (if n.isRange then 1 else 0) + 1

/-- The number of nodes that are skipped before the weights reach an amount; there is no answer behind the end.
Source: `stmt.c` `balance_case_nodes` (`while (1)`) -/
def bisect (weight : ℕ → ℤ) : ℤ → List ℕ → Option ℕ
  | _, [] => none
  | i, id :: ids => if i - weight id ≤ 0 then some 0 else (bisect weight (i - weight id) ids).map (· + 1)

/-- The place of the root in the list. Source: `stmt.c` `balance_case_nodes`. -/
def pivotOf (useCostTable : Bool) (node : ℕ → CaseNode L) (ids : List ℕ) : Option ℕ :=
  if useCostTable then bisect (fun i => (node i).cost) (((ids.map fun i => (node i).cost).sum + 1).tdiv 2) ids
  else if ids.length = 3 then some 1
  else
    bisect (fun i => (node i).tests) (((ids.length : ℤ) + (ids.countP fun i => (node i).isRange) + 1).tdiv 2) ids

/-! ## Rearrangement -/

/-- Source: `stmt.c` (`np->parent = parent`). -/
def setParent (node : ℕ → CaseNode L) (i : ℕ) (p : Option ℕ) : ℕ → CaseNode L :=
  Function.update node i { node i with parent := p }

/-- Source: `stmt.c` (`np->left = left`). -/
def setLeft (node : ℕ → CaseNode L) (i : ℕ) (l : Option ℕ) : ℕ → CaseNode L :=
  Function.update node i { node i with left := l }

/-- Source: `stmt.c` (`*npp = 0`). -/
def setRight (node : ℕ → CaseNode L) (i : ℕ) (r : Option ℕ) : ℕ → CaseNode L :=
  Function.update node i { node i with right := r }

/-- The nodes that are reached by the links to the right. Source: `stmt.c` (`np = np->right`). -/
def spine (node : ℕ → CaseNode L) : ℕ → Option ℕ → Option (List ℕ)
  | _, none => some []
  | 0, some _ => none
  | fuel + 1, some i => (spine node fuel (node i).right).map (i :: ·)

/-- The links to the parents along the right. Source: `stmt.c` (`np->right->parent = np`). -/
def linkParents (node : ℕ → CaseNode L) : List ℕ → ℕ → CaseNode L
  | i :: j :: ids => linkParents (setParent node j (some i)) (j :: ids)
  | _ => node

/-- The list that begins at `head` becomes a tree below `parent`; the new root is returned, which the caller stores.
Source: `stmt.c` `balance_case_nodes` -/
def balanceCaseNodes (useCostTable : Bool) :
    ℕ → (ℕ → CaseNode L) → Option ℕ → Option ℕ → Option ((ℕ → CaseNode L) × Option ℕ)
  | 0, _, _, _ => none
  | _ + 1, node, none, _ => some (node, none)
  | fuel + 1, node, some first, parent =>
    (spine node fuel (some first)).bind fun ids =>
      if ids.length > 2 then
        (pivotOf useCostTable node ids).bind fun moved =>
          if useCostTable = true ∧ moved = 0 then
            let node := setParent node first parent
            (balanceCaseNodes useCostTable fuel node (node first).left (some first)).bind fun (node, left) =>
              some (linkParents (setLeft node first left) ids, some first)
          else
            ids[moved]?.bind fun np =>
              -- the place that held the root is cleared: it is `*head` itself if no node was skipped
              let (node, head) :=
                match moved with
                | 0 => (node, none)
                | prev + 1 => (setRight node (ids.getD prev 0) none, some np)
              let node := setLeft (setParent node np parent) np (some first)
              (balanceCaseNodes useCostTable fuel node (node np).left (some np)).bind fun (node, left) =>
                let node := setLeft node np left
                (balanceCaseNodes useCostTable fuel node (node np).right (some np)).bind fun (node, right) =>
                  some (setRight node np right, head)
      else some (linkParents (setParent node first parent) ids, some first)

/-! ## The search for the middle -/

section Middle

variable {node : ℕ → CaseNode L} {ids : List ℕ}

/-- The search ends inside the list if the amount is at most the sum. Source: `stmt.c` `balance_case_nodes`. Kind: L -/
theorem bisect_spec (weight : ℕ → ℤ) : ∀ (ids : List ℕ) (i : ℤ), ids ≠ [] → i ≤ (ids.map weight).sum →
    ∃ k, bisect weight i ids = some k ∧ k < ids.length
  | [], _, hne, _ => absurd rfl hne
  | id :: ids, i, _, hle => by
    rw [List.map_cons, List.sum_cons] at hle
    unfold bisect
    by_cases hstop : i - weight id ≤ 0
    · exact ⟨0, if_pos hstop, Nat.zero_lt_succ _⟩
    · have hne : ids ≠ [] := by
        rintro rfl
        rw [List.map_nil, List.sum_nil] at hle
        omega
      obtain ⟨k, hk, hlt⟩ := bisect_spec weight ids (i - weight id) hne (by omega)
      rw [if_neg hstop, hk]
      exact ⟨k + 1, rfl, Nat.succ_lt_succ hlt⟩

/-- The number of tests of a list. Source: `stmt.c` `balance_case_nodes` (`ranges`). Kind: L -/
theorem sum_tests (node : ℕ → CaseNode L) (ids : List ℕ) :
    (ids.map fun i => (node i).tests).sum = (ids.length : ℤ) + (ids.countP fun i => (node i).isRange) := by
  induction ids with
  | nil => rfl
  | cons i ids ih =>
    rw [List.map_cons, List.sum_cons, ih, List.length_cons, List.countP_cons]
    unfold CaseNode.tests
    split <;> push_cast <;> ring

/-- **The root** is a node of the list, and not the first one unless costs are used.
Source: `stmt.c` `balance_case_nodes`
Kind: L -/
theorem pivotOf_spec (useCostTable : Bool) (hlen : ids.length > 2)
    (hcost : useCostTable = true → ∀ i ∈ ids, 0 ≤ (node i).cost) :
    ∃ k, pivotOf useCostTable node ids = some k ∧ k < ids.length ∧ (useCostTable = false → k ≠ 0) := by
  have hne : ids ≠ [] := by
    rintro rfl
    exact absurd hlen (by simp)
  unfold pivotOf
  cases useCostTable with
  | true =>
    have hsum : 0 ≤ (ids.map fun i => (node i).cost).sum := by
      apply List.sum_nonneg
      intro c hc
      obtain ⟨i, hi, rfl⟩ := List.mem_map.mp hc
      exact hcost rfl i hi
    rw [if_pos rfl, Int.tdiv_eq_ediv_of_nonneg (by omega)]
    obtain ⟨k, hk, hlt⟩ := bisect_spec (fun i => (node i).cost) ids
      (((ids.map fun i => (node i).cost).sum + 1) / 2) hne (by omega)
    exact ⟨k, hk, hlt, fun h => by cases h⟩
  | false =>
    rw [if_neg Bool.false_ne_true]
    by_cases hthree : ids.length = 3
    · rw [if_pos hthree]
      exact ⟨1, rfl, by omega, fun _ => by decide⟩
    · rw [if_neg hthree, Int.tdiv_eq_ediv_of_nonneg (by omega)]
      have hsum := sum_tests node ids
      obtain ⟨k, hk, hlt⟩ := bisect_spec (fun i => (node i).tests) ids
        (((ids.length : ℤ) + (ids.countP fun i => (node i).isRange) + 1) / 2) hne (by omega)
      refine ⟨k, hk, hlt, ?_⟩
      rintro _ rfl
      -- four nodes or more weigh more than twice the first one
      obtain ⟨i, js, rfl⟩ := List.exists_cons_of_ne_nil hne
      unfold bisect at hk
      split at hk
      · rename_i hstop
        rw [List.countP_cons, List.length_cons] at hstop
        rw [List.length_cons] at hlen hthree
        unfold CaseNode.tests at hstop
        split at hstop <;> omega
      · rw [Option.map_eq_some_iff] at hk
        obtain ⟨k, _, hk⟩ := hk
        exact absurd hk (Nat.succ_ne_zero k)

end Middle

/-! ## Trees of nodes -/

section Trees

variable {node node' : ℕ → CaseNode L} {ids : List ℕ}

/-- The links are those of a tree, also those to the parents. Source: `stmt.c` `struct case_node`. -/
def IsTree (node : ℕ → CaseNode L) : Option ℕ → Option ℕ → BinTree ℕ → Prop
  | none, _, .nil => True
  | some i, parent, .node l j r =>
    i = j ∧ (node i).parent = parent ∧ IsTree node (node i).left (some i) l ∧ IsTree node (node i).right (some i) r
  | _, _, _ => False

/-- Nodes outside of the tree do not matter. -/
theorem IsTree.congr : ∀ {t : BinTree ℕ} {root parent : Option ℕ}, IsTree node root parent t →
    (∀ i ∈ t.toList, node' i = node i) → IsTree node' root parent t
  | .nil, none, _, _, _ => trivial
  | .node l j r, some i, _, h, hsame => by
    obtain ⟨rfl, hparent, hl, hr⟩ := h
    have hi := hsame i (by simp)
    refine ⟨rfl, ?_, ?_, ?_⟩
    · rw [hi]
      exact hparent
    · rw [hi]
      exact hl.congr fun k hk => hsame k (by simp [hk])
    · rw [hi]
      exact hr.congr fun k hk => hsame k (by simp [hk])

/-- Only links changed. -/
def SameData (n n' : CaseNode L) : Prop := n.low = n'.low ∧ n.high = n'.high ∧ n.codeLabel = n'.codeLabel

theorem SameData.trans {n n' n'' : CaseNode L} (h : SameData n n') (h' : SameData n' n'') : SameData n n'' :=
  ⟨h.1.trans h'.1, h.2.1.trans h'.2.1, h.2.2.trans h'.2.2⟩

theorem SameData.cost_eq {n n' : CaseNode L} (h : SameData n n') : n.cost = n'.cost := by
  obtain ⟨hlow, hhigh, _⟩ := h
  unfold CaseNode.cost CaseNode.isRange
  rw [hlow, hhigh]

theorem sameData_update {i : ℕ} {n : CaseNode L} (h : SameData n (node i)) (j : ℕ) :
    SameData (Function.update node i n j) (node j) := by
  by_cases hj : j = i
  · subst hj
    rw [Function.update_self]
    exact h
  · rw [Function.update_of_ne hj]
    exact ⟨rfl, rfl, rfl⟩

theorem setParent_data (node : ℕ → CaseNode L) (i : ℕ) (p : Option ℕ) (j : ℕ) :
    SameData (setParent node i p j) (node j) := by
  unfold setParent
  apply sameData_update
  exact ⟨rfl, rfl, rfl⟩

theorem setLeft_data (node : ℕ → CaseNode L) (i : ℕ) (l : Option ℕ) (j : ℕ) :
    SameData (setLeft node i l j) (node j) := by
  unfold setLeft
  apply sameData_update
  exact ⟨rfl, rfl, rfl⟩

theorem setRight_data (node : ℕ → CaseNode L) (i : ℕ) (r : Option ℕ) (j : ℕ) :
    SameData (setRight node i r j) (node j) := by
  unfold setRight
  apply sameData_update
  exact ⟨rfl, rfl, rfl⟩

/-- The nodes of a list are found by its links. -/
theorem Chain.spine_eq : ∀ {fuel : ℕ} {head : Option ℕ} {ids : List ℕ}, Chain node head ids → ids.length ≤ fuel →
    spine node fuel head = some ids
  | _, none, [], _, _ => by
    unfold spine
    rfl
  | 0, some _, _ :: _, _, hlen => absurd hlen (by simp)
  | fuel + 1, some i, j :: js, h, hlen => by
    obtain ⟨rfl, _, hrest⟩ := h
    unfold spine
    rw [hrest.spine_eq (Nat.le_of_succ_le_succ hlen)]
    rfl

/-- A tree that is a list to the right. -/
def spineTree : List ℕ → BinTree ℕ
  | [] => .nil
  | i :: ids => .node .nil i (spineTree ids)

theorem toList_spineTree (ids : List ℕ) : (spineTree ids).toList = ids := by
  induction ids with
  | nil => rfl
  | cons i ids ih => rw [spineTree, BinTree.toList_node, ih]; rfl

/-- What rearranging a list does: the new links are those of a tree with the nodes of the list, in their order. -/
structure Balanced (node : ℕ → CaseNode L) (parent : Option ℕ) (ids : List ℕ) (node' : ℕ → CaseNode L)
    (root : Option ℕ) (t : BinTree ℕ) : Prop where
  tree : IsTree node' root parent t
  toList_eq : t.toList = ids
  outside : ∀ j, j ∉ ids → node' j = node j
  data : ∀ j, SameData (node' j) (node j)

/-- **A list that is left as it is**: only the links to the parents are filled in. Source: `stmt.c`. Kind: L -/
theorem linkParents_spec : ∀ (ids : List ℕ) {node : ℕ → CaseNode L} {i : ℕ}, Chain node (some i) (i :: ids) →
    (i :: ids).Nodup →
      IsTree (linkParents node (i :: ids)) (some i) (node i).parent (spineTree (i :: ids)) ∧
        (∀ j, j ∉ ids → linkParents node (i :: ids) j = node j) ∧
        ∀ j, SameData (linkParents node (i :: ids) j) (node j)
  | [], node, i, h, _ => by
    obtain ⟨_, hleft, hright⟩ := h
    unfold linkParents
    refine ⟨⟨rfl, rfl, ?_, ?_⟩, fun _ _ => rfl, fun _ => ⟨rfl, rfl, rfl⟩⟩
    · rw [hleft]
      trivial
    · cases hr : (node i).right with
      | none => trivial
      | some k =>
        rw [hr] at hright
        exact absurd hright id
  | j :: ids, node, i, h, hnodup => by
    obtain ⟨_, hleft, hrest⟩ := h
    obtain ⟨hnot, hnodup'⟩ := List.nodup_cons.mp hnodup
    have hij : i ≠ j := fun heq => hnot (heq ▸ List.mem_cons_self)
    have hright : (node i).right = some j := by
      cases hr : (node i).right with
      | none =>
        rw [hr] at hrest
        exact absurd hrest id
      | some k =>
        rw [hr] at hrest
        rw [hrest.1]
    rw [hright] at hrest
    have hchain : Chain (setParent node j (some i)) (some j) (j :: ids) := by
      refine hrest.congr ?_
      intro k _
      unfold setParent
      by_cases hk : k = j
      · subst hk
        rw [Function.update_self]
        exact ⟨rfl, rfl⟩
      · rw [Function.update_of_ne hk]
        exact ⟨rfl, rfl⟩
    obtain ⟨htree, houtside, hdata⟩ := linkParents_spec ids hchain hnodup'
    have hself : linkParents (setParent node j (some i)) (j :: ids) i = node i := by
      rw [houtside i fun hmem => hnot (List.mem_cons_of_mem j hmem)]
      exact Function.update_of_ne hij _ _
    have hparent : (setParent node j (some i) j).parent = some i := by
      unfold setParent
      rw [Function.update_self]
    rw [hparent] at htree
    change IsTree (linkParents (setParent node j (some i)) (j :: ids)) _ _ (.node .nil i (spineTree (j :: ids))) ∧
      (∀ k, _ → linkParents (setParent node j (some i)) (j :: ids) k = _) ∧ _
    refine ⟨⟨rfl, ?_, ?_, ?_⟩, ?_, ?_⟩
    · rw [hself]
    · rw [hself, hleft]
      trivial
    · rw [hself, hright]
      exact htree
    · intro k hk
      rw [List.mem_cons, not_or] at hk
      rw [houtside k hk.2]
      exact Function.update_of_ne hk.1 _ _
    · intro k
      exact (hdata k).trans (setParent_data node j (some i) k)

/-- Other nodes are not changed. -/
@[simp]
theorem setParent_of_ne {i j : ℕ} (h : j ≠ i) (p : Option ℕ) : setParent node i p j = node j :=
  Function.update_of_ne h _ _

@[simp]
theorem setLeft_of_ne {i j : ℕ} (h : j ≠ i) (l : Option ℕ) : setLeft node i l j = node j := Function.update_of_ne h _ _

@[simp]
theorem setRight_of_ne {i j : ℕ} (h : j ≠ i) (r : Option ℕ) : setRight node i r j = node j := Function.update_of_ne h _ _

@[simp]
theorem setParent_self (i : ℕ) (p : Option ℕ) : setParent node i p i = { node i with parent := p } :=
  Function.update_self _ _ _

@[simp]
theorem setLeft_self (i : ℕ) (l : Option ℕ) : setLeft node i l i = { node i with left := l } := Function.update_self _ _ _

@[simp]
theorem setRight_self (i : ℕ) (r : Option ℕ) : setRight node i r i = { node i with right := r } :=
  Function.update_self _ _ _

/-- A list that is not empty begins with its first node. -/
theorem Chain.head_eq {head : Option ℕ} {i : ℕ} (h : Chain node head (i :: ids)) : head = some i := by
  cases head with
  | none => exact absurd h id
  | some k => rw [h.1]

/-- A list of no nodes has no head. -/
theorem Chain.eq_nil (h : Chain node none ids) : ids = [] := by
  cases ids with
  | nil => rfl
  | cons i ids => exact absurd h id

/-- **A list that is cut** before a node. Source: `stmt.c` `balance_case_nodes` (`*npp = 0`). Kind: L -/
theorem Chain.cut {a np : ℕ} {bs : List ℕ} : ∀ {as : List ℕ} {head : Option ℕ}, Chain node head (as ++ a :: np :: bs) →
    (as ++ a :: np :: bs).Nodup →
      Chain (setRight node a none) head (as ++ [a]) ∧ Chain node (some np) (np :: bs)
  | [], some i, h, hnodup => by
    obtain ⟨rfl, hleft, hrest⟩ := h
    have hright := hrest.head_eq
    rw [hright] at hrest
    refine ⟨⟨rfl, ?_, ?_⟩, hrest⟩
    · rw [setRight_self]
      exact hleft
    · rw [setRight_self]
      trivial
  | j :: as, some i, h, hnodup => by
    obtain ⟨rfl, hleft, hrest⟩ := h
    obtain ⟨hnot, hnodup'⟩ := List.nodup_cons.mp hnodup
    obtain ⟨hfront, hback⟩ := Chain.cut hrest hnodup'
    have hne : i ≠ a := by
      rintro rfl
      exact hnot (by simp)
    refine ⟨⟨rfl, ?_, ?_⟩, hback⟩
    · rw [setRight_of_ne hne]
      exact hleft
    · rw [setRight_of_ne hne]
      exact hfront

/-- Two neighbours in a list. -/
theorem exists_split {k : ℕ} (h : k + 1 < ids.length) :
    ∃ as a np bs, ids = as ++ a :: np :: bs ∧ ids.getD k 0 = a ∧ ids[k + 1]? = some np := by
  have hk : k < ids.length := by omega
  refine ⟨ids.take k, ids.getD k 0, ids.get ⟨k + 1, h⟩, ids.drop (k + 2), ?_, rfl, ?_⟩
  · have hfirst : ids.getD k 0 = ids.get ⟨k, hk⟩ := by
      rw [List.getD_eq_getElem?_getD, List.getElem?_eq_getElem hk]
      rfl
    rw [hfirst]
    have h1 : ids.drop k = ids.get ⟨k, hk⟩ :: ids.drop (k + 1) := List.drop_eq_getElem_cons hk
    have h2 : ids.drop (k + 1) = ids.get ⟨k + 1, h⟩ :: ids.drop (k + 2) := List.drop_eq_getElem_cons h
    rw [← h2, ← h1, List.take_append_drop]
  · exact List.getElem?_eq_getElem h

/-- **Rearranging in place** below the root. Source: `stmt.c` `balance_case_nodes`. Kind: L -/
theorem Balanced.join {node node₂ node₃ node₅ : ℕ → CaseNode L} {parent left right : Option ℕ} {as bs : List ℕ}
    {np : ℕ} {tl tr : BinTree ℕ} (hnodup : (as ++ np :: bs).Nodup) (hparent : (node₂ np).parent = parent)
    (hsame : ∀ j, j ∉ as ++ np :: bs → node₂ j = node j) (hdata : ∀ j, SameData (node₂ j) (node j))
    (hl : Balanced node₂ (some np) as node₃ left tl) (hr : Balanced (setLeft node₃ np left) (some np) bs node₅ right tr) :
    Balanced node parent (as ++ np :: bs) (setRight node₅ np right) (some np) (.node tl np tr) := by
  obtain ⟨hnodupa, hnodupb, hdisj⟩ := List.nodup_append'.mp hnodup
  obtain ⟨hnotb, hnodupb'⟩ := List.nodup_cons.mp hnodupb
  have hnota : np ∉ as := fun hmem => hdisj hmem List.mem_cons_self
  have hroot : node₅ np = { node₃ np with left := left } := by
    rw [hr.outside np hnotb, setLeft_self]
  refine ⟨⟨rfl, ?_, ?_, ?_⟩, ?_, ?_, ?_⟩
  · rw [setRight_self, hroot, hl.outside np hnota]
    exact hparent
  · rw [setRight_self, hroot]
    apply hl.tree.congr
    intro i hi
    rw [hl.toList_eq] at hi
    have hne : i ≠ np := fun heq => hnota (heq ▸ hi)
    have hib : i ∉ bs := fun hmem => hdisj hi (List.mem_cons_of_mem np hmem)
    rw [setRight_of_ne hne, hr.outside i hib, setLeft_of_ne hne]
  · rw [setRight_self]
    apply hr.tree.congr
    intro i hi
    rw [hr.toList_eq] at hi
    have hne : i ≠ np := fun heq => hnotb (heq ▸ hi)
    exact setRight_of_ne hne _
  · rw [BinTree.toList_node, hl.toList_eq, hr.toList_eq]
  · intro j hj
    have hall := hj
    rw [List.mem_append, List.mem_cons, not_or, not_or] at hj
    rw [setRight_of_ne hj.2.1, hr.outside j hj.2.2, setLeft_of_ne hj.2.1, hl.outside j hj.1]
    exact hsame j hall
  · intro j
    exact (setRight_data _ _ _ j).trans ((hr.data j).trans ((setLeft_data _ _ _ j).trans ((hl.data j).trans (hdata j))))

/-- A list that is not split becomes a tree to the right. Source: `stmt.c` `balance_case_nodes`. Kind: L -/
theorem Chain.balanced_spine {first : ℕ} {js : List ℕ} {parent : Option ℕ} (hchain : Chain node (some first) (first :: js))
    (hnodup : (first :: js).Nodup) {node₁ : ℕ → CaseNode L} (hother : ∀ k, k ≠ first → node₁ k = node k)
    (hleft : (node₁ first).left = none) (hright : (node₁ first).right = (node first).right)
    (hparent : (node₁ first).parent = parent) (hdata : SameData (node₁ first) (node first)) :
    Balanced node parent (first :: js) (linkParents node₁ (first :: js)) (some first) (spineTree (first :: js)) := by
  have hchain₁ : Chain node₁ (some first) (first :: js) := by
    refine hchain.congr ?_
    intro k _
    by_cases hk : k = first
    · rw [hk, hleft, hright, hchain.2.1]
      exact ⟨rfl, rfl⟩
    · rw [hother k hk]
      exact ⟨rfl, rfl⟩
  obtain ⟨htree, houtside, hdata'⟩ := linkParents_spec js hchain₁ hnodup
  rw [hparent] at htree
  refine ⟨htree, toList_spineTree _, ?_, ?_⟩
  · intro k hk
    rw [List.mem_cons, not_or] at hk
    rw [houtside k hk.2, hother k hk.1]
  · intro k
    refine (hdata' k).trans ?_
    by_cases hk : k = first
    · rw [hk]
      exact hdata
    · rw [hother k hk]
      exact ⟨rfl, rfl, rfl⟩

/-- **The case tree**: rearranging a list ends, with a tree that has the nodes of the list in their order.
Source: `stmt.c` `balance_case_nodes`
Kind: L -/
theorem balanceCaseNodes_spec (useCostTable : Bool) (fuel : ℕ) : ∀ {node : ℕ → CaseNode L} {head : Option ℕ}
    {ids : List ℕ} (parent : Option ℕ), Chain node head ids → ids.Nodup → ids.length < fuel →
      (useCostTable = true → ∀ i ∈ ids, 0 ≤ (node i).cost) →
        ∃ node' root t, balanceCaseNodes useCostTable fuel node head parent = some (node', root) ∧
          Balanced node parent ids node' root t := by
  induction fuel with
  | zero =>
    intro node head ids parent _ _ hlen _
    exact absurd hlen (Nat.not_lt_zero _)
  | succ fuel ih =>
    intro node head ids parent hchain hnodup hlen hcost
    cases head with
    | none =>
      have hnil := hchain.eq_nil
      subst hnil
      exact ⟨node, none, .nil, rfl, trivial, rfl, fun _ _ => rfl, fun _ => ⟨rfl, rfl, rfl⟩⟩
    | some first =>
      obtain ⟨j, js, rfl⟩ : ∃ j js, ids = j :: js := by
        cases ids with
        | nil => exact absurd hchain id
        | cons j js => exact ⟨j, js, rfl⟩
      obtain rfl : first = j := hchain.1
      unfold balanceCaseNodes
      rw [hchain.spine_eq (Nat.le_of_lt_succ hlen), Option.bind_some]
      by_cases hlong : (first :: js).length > 2
      · obtain ⟨k, hpivot, hk, hnotfirst⟩ := pivotOf_spec useCostTable hlong hcost
        rw [if_pos hlong, hpivot, Option.bind_some]
        by_cases hlop : useCostTable = true ∧ k = 0
        · rw [if_pos hlop]
          have hleft : (setParent node first parent first).left = none := by
            rw [setParent_self]
            exact hchain.2.1
          have hrec : balanceCaseNodes useCostTable fuel (setParent node first parent) none (some first) =
              some (setParent node first parent, none) := by
            cases fuel with
            | zero => exact absurd hlen (by simp)
            | succ fuel => rfl
          dsimp only
          rw [hleft, hrec, Option.bind_some]
          dsimp only
          refine ⟨_, _, _, rfl, hchain.balanced_spine hnodup ?_ ?_ ?_ ?_ ?_⟩
          · intro k hne
            rw [setLeft_of_ne hne, setParent_of_ne hne]
          · rw [setLeft_self]
          · rw [setLeft_self, setParent_self]
          · rw [setLeft_self, setParent_self]
          · rw [setLeft_self, setParent_self]
            exact ⟨rfl, rfl, rfl⟩
        · rw [if_neg hlop]
          have hkpos : k ≠ 0 := by
            cases huse : useCostTable with
            | true => exact fun hzero => hlop ⟨huse, hzero⟩
            | false => exact hnotfirst huse
          obtain ⟨prev, rfl⟩ := Nat.exists_eq_succ_of_ne_zero hkpos
          obtain ⟨as, a, np, bs, hsplit, hprev, hnp⟩ := exists_split hk
          rw [hnp, Option.bind_some]
          dsimp only
          rw [hprev]
          rw [hsplit] at hchain hnodup hcost hlen ⊢
          obtain ⟨hfront, hback⟩ := hchain.cut hnodup
          have hjoin : as ++ a :: np :: bs = (as ++ [a]) ++ np :: bs := by simp
          rw [hjoin] at hnodup hcost hlen ⊢
          obtain ⟨hnodupa, hnodupb, hdisj⟩ := List.nodup_append'.mp hnodup
          obtain ⟨hnotb, hnodupb'⟩ := List.nodup_cons.mp hnodupb
          have hnota : np ∉ as ++ [a] := fun hmem => hdisj hmem List.mem_cons_self
          have hnea : np ≠ a := fun heq => hnota (by rw [heq]; simp)
          rw [List.length_append, List.length_cons] at hlen
          -- the part before the root
          have hleft : (setLeft (setParent (setRight node a none) np parent) np (some first) np).left = some first := by
            rw [setLeft_self]
          have hchainl : Chain (setLeft (setParent (setRight node a none) np parent) np (some first)) (some first)
              (as ++ [a]) := by
            refine hfront.congr ?_
            intro k hk
            have hne : k ≠ np := fun heq => hnota (heq ▸ hk)
            rw [setLeft_of_ne hne, setParent_of_ne hne]
            exact ⟨rfl, rfl⟩
          have hdata : ∀ k, SameData (setLeft (setParent (setRight node a none) np parent) np (some first) k) (node k) :=
            fun k => (setLeft_data _ _ _ k).trans ((setParent_data _ _ _ k).trans (setRight_data _ _ _ k))
          obtain ⟨node₃, left, tl, hrecl, hbl⟩ := ih (some np) hchainl hnodupa (by omega) (by
            intro huse k hk
            rw [(hdata k).cost_eq]
            exact hcost huse k (List.mem_append_left _ hk))
          rw [hleft, hrecl, Option.bind_some]
          -- the part behind the root
          have hright : (setLeft node₃ np left np).right = (node np).right := by
            rw [setLeft_self, hbl.outside np hnota, setLeft_self, setParent_self, setRight_of_ne hnea]
          have hold : ∀ k, k ∉ as ++ [a] → k ≠ np → setLeft node₃ np left k = node k := by
            intro k hk hne
            have hka : k ≠ a := fun heq => hk (by rw [heq]; simp)
            rw [setLeft_of_ne hne, hbl.outside k hk, setLeft_of_ne hne, setParent_of_ne hne, setRight_of_ne hka]
          have hchainr : Chain (setLeft node₃ np left) (node np).right bs := by
            refine hback.2.2.congr ?_
            intro k hk
            rw [hold k (fun hmem => hdisj hmem (List.mem_cons_of_mem np hk)) (fun heq => hnotb (heq ▸ hk))]
            exact ⟨rfl, rfl⟩
          obtain ⟨node₅, right, tr, hrecr, hbr⟩ := ih (some np) hchainr hnodupb' (by omega) (by
            intro huse k hk
            rw [((setLeft_data _ _ _ k).trans ((hbl.data k).trans (hdata k))).cost_eq]
            exact hcost huse k (List.mem_append_right _ (List.mem_cons_of_mem np hk)))
          dsimp only
          rw [hright, hrecr, Option.bind_some]
          refine ⟨_, _, _, rfl, Balanced.join hnodup ?_ ?_ hdata hbl hbr⟩
          · rw [setLeft_self, setParent_self]
          · intro k hk
            rw [List.mem_append, List.mem_cons, not_or, not_or] at hk
            have hka : k ≠ a := fun heq => hk.1 (by rw [heq]; simp)
            rw [setLeft_of_ne hk.2.1, setParent_of_ne hk.2.1, setRight_of_ne hka]
      · rw [if_neg hlong]
        refine ⟨_, _, _, rfl, hchain.balanced_spine hnodup ?_ ?_ ?_ ?_ ?_⟩
        · intro k hne
          exact setParent_of_ne hne _
        · rw [setParent_self]
          exact hchain.2.1
        · rw [setParent_self]
        · rw [setParent_self]
        · rw [setParent_self]
          exact ⟨rfl, rfl, rfl⟩

/-- Cases that look like text have costs that are not negative. Source: `stmt.c` `estimate_case_costs`. Kind: L -/
theorem cost_nonneg_of_estimate (h : estimateCaseCosts node ids = true) {i : ℕ} (hi : i ∈ ids)
    (hle : (node i).low ≤ (node i).high) : 0 ≤ (node i).cost := by
  obtain ⟨_, hall⟩ := Bool.and_eq_true_iff.mp (List.all_eq_true.mp h i hi)
  have hvalue : ∀ z, (node i).low ≤ z → z ≤ (node i).high → 0 ≤ costTable z := by
    intro z hlow hhigh
    have hk := List.all_eq_true.mp hall (z - (node i).low).toNat (List.mem_range.mpr (by omega))
    have hz : (node i).low + ((z - (node i).low).toNat : ℤ) = z := by omega
    rw [hz] at hk
    exact not_lt.mp (of_decide_eq_true hk)
  have hlow := hvalue _ (le_refl _) hle
  have hhigh := hvalue _ hle (le_refl _)
  unfold CaseNode.cost
  split <;> omega

end Trees

end GccCore.Gcc.SwitchLower
