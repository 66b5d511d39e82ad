import GccCore.Lib.MachineInt
import Mathlib.Data.List.Find

/-!
# `gcc/stmt.c`: the cases of a switch

The labels of a switch come as a sorted vector of values and ranges. They are cut down to the index type and linked into a
list of nodes, from the last to the first.

* **Labels** (`CaseLabel`) and what a switch means (`dispatch`).
* **Nodes** (`CaseNode`, `Pool`) and their list (`addCaseNode`, `addCaseNodes`).
* **The list** (`addCaseNodes_spec`): it has the clipped ranges in ascending order, and a value of the index type is in one
  of them if it is in a label's range (`find_clip`).
-/

namespace GccCore.Gcc.SwitchLower

open GccCore.Lib.MachineInt

/-! ## Labels -/

/-- An integer type with its least and greatest value; these may lie inside of what its bits allow.
Source: `tree.h` `TYPE_PRECISION`, `TYPE_UNSIGNED`, `TYPE_MIN_VALUE`, `TYPE_MAX_VALUE` -/
structure IndexType where
  prec : ℕ
  unsigned : Bool
  minValue : ℤ
  maxValue : ℤ
  prec_pos : 0 < prec
  min_inType : inType prec unsigned minValue
  max_inType : inType prec unsigned maxValue
  min_le_max : minValue ≤ maxValue

/-- The values of an index type. Source: `tree.h` `TYPE_MIN_VALUE`, `TYPE_MAX_VALUE`. -/
def IndexType.Has (t : IndexType) (x : ℤ) : Prop := t.minValue ≤ x ∧ x ≤ t.maxValue

theorem IndexType.Has.inType {t : IndexType} {x : ℤ} (h : t.Has x) : inType t.prec t.unsigned x :=
  inType_of_le t.min_inType t.max_inType h.1 h.2

/-- A constant in the index type. Source: `fold-const.c` `fold_build2`. -/
def IndexType.wrap (t : IndexType) (z : ℤ) : ℤ := valueIn t.unsigned (BitVec.ofInt t.prec z)

/-- A label of a switch: a value, or a range. Source: `tree.def` `CASE_LABEL_EXPR`. -/
structure CaseLabel (L : Type) where
  low : ℤ
  high : Option ℤ
  label : L

/-- The last value of a label. Source: `tree.def` `CASE_LABEL_EXPR`. -/
def CaseLabel.last {L : Type} (c : CaseLabel L) : ℤ := c.high.getD c.low

/-- Is the value in the range of the label? Source: `tree.def` `CASE_LABEL_EXPR`. -/
def CaseLabel.contains {L : Type} (c : CaseLabel L) (x : ℤ) : Bool := decide (c.low ≤ x ∧ x ≤ c.last)

/-- What a switch means: the label of the range that contains the value, or the default.
Source: `tree.def` `SWITCH_EXPR` -/
def dispatch {L : Type} (labels : List (CaseLabel L)) (defaultLabel : L) (x : ℤ) : L :=
  match labels.find? (fun c => c.contains x) with
  | some c => c.label
  | none => defaultLabel

/-- The ranges that are not empty are sorted and disjoint. Source: `gimplify.c` `sort_case_labels`. -/
def Sorted {L : Type} (labels : List (CaseLabel L)) : Prop :=
  (labels.filter fun c => decide (c.low ≤ c.last)).Pairwise fun c d => c.last < d.low

/-! ## Nodes -/

/-- A node of the case list or the case tree. Source: `stmt.c` `struct case_node`. -/
structure CaseNode (L : Type) where
  left : Option ℕ
  right : Option ℕ
  parent : Option ℕ
  low : ℤ
  high : ℤ
  codeLabel : L

/-- The nodes that were allocated, by their number. Source: `stmt.c` `case_node_pool`. -/
structure Pool (L : Type) where
  node : ℕ → CaseNode L
  used : ℕ

/-- No node is allocated. Source: `stmt.c` `expand_case` (`create_alloc_pool`). -/
def emptyPool (d : L) : Pool L := ⟨fun _ => ⟨none, none, none, 0, 0, d⟩, 0⟩

/-- The part of a label that lies in the index type. Source: `stmt.c` `add_case_node`. -/
def clip {L : Type} (t : IndexType) (c : CaseLabel L) : Option (ℤ × ℤ) :=
  match c.high with
  | none => if c.low < t.minValue ∨ t.maxValue < c.low then none else some (c.low, c.low)
  | some high =>
    if c.low = high then
      if c.low < t.minValue ∨ t.maxValue < c.low then none else some (c.low, c.low)
    else if high < t.minValue ∨ t.maxValue < c.low then none
    else
      some (if c.low < t.minValue then t.minValue else c.low, if t.maxValue < high then t.maxValue else high)

/-- A node for a label goes to the front of the list. Source: `stmt.c` `add_case_node`. -/
def addCaseNode {L : Type} (t : IndexType) (pool : Pool L) (head : Option ℕ) (c : CaseLabel L) :
    Pool L × Option ℕ :=
  match clip t c with
  | none => (pool, head)
  | some (low, high) =>
    (⟨Function.update pool.node pool.used ⟨none, head, none, low, high, c.label⟩, pool.used + 1⟩, some pool.used)

/-- The labels are added from the last to the first; empty ranges are left out.
Source: `stmt.c` `expand_case` -/
def addCaseNodes {L : Type} (t : IndexType) (pool : Pool L) (labels : List (CaseLabel L)) : Pool L × Option ℕ :=
  labels.foldr
    (fun c acc => if c.last < c.low then acc else addCaseNode t acc.1 acc.2 c)
    (pool, none)

/-! ## The list -/

section Lists

variable {L : Type} {t : IndexType}

/-- A list of nodes linked to the right. Source: `stmt.c` `struct case_node`. -/
def Chain (node : ℕ → CaseNode L) : Option ℕ → List ℕ → Prop
  | none, [] => True
  | some i, j :: js => i = j ∧ (node i).left = none ∧ Chain node (node i).right js
  | _, _ => False

/-- Nodes outside of the list do not matter. -/
theorem Chain.congr {node node' : ℕ → CaseNode L} : ∀ {head : Option ℕ} {ids : List ℕ}, Chain node head ids →
    (∀ i ∈ ids, (node' i).left = (node i).left ∧ (node' i).right = (node i).right) → Chain node' head ids
  | none, [], _, _ => trivial
  | some i, j :: js, h, hsame => by
    obtain ⟨rfl, hleft, hrest⟩ := h
    obtain ⟨hl, hr⟩ := hsame i List.mem_cons_self
    refine ⟨rfl, hl.trans hleft, ?_⟩
    rw [hr]
    exact hrest.congr fun k hk => hsame k (List.mem_cons_of_mem i hk)

/-- The range of a node contains the value. Source: `stmt.c` `struct case_node`. -/
def CaseNode.Contains (n : CaseNode L) (x : ℤ) : Prop := n.low ≤ x ∧ x ≤ n.high

instance (n : CaseNode L) (x : ℤ) : Decidable (n.Contains x) := inferInstanceAs (Decidable (_ ∧ _))

/-- Where a list of nodes leads. -/
def dispatchNodes (node : ℕ → CaseNode L) (ids : List ℕ) (defaultLabel : L) (x : ℤ) : L :=
  match ids.find? (fun i => decide ((node i).Contains x)) with
  | some i => (node i).codeLabel
  | none => defaultLabel

/-- A list of nodes with ranges of the type, in ascending order. Source: `stmt.c` `add_case_node`. -/
structure CaseList (t : IndexType) (node : ℕ → CaseNode L) (head : Option ℕ) (ids : List ℕ) : Prop where
  chain : Chain node head ids
  nodup : ids.Nodup
  low_le_high : ∀ i ∈ ids, (node i).low ≤ (node i).high
  has_low : ∀ i ∈ ids, t.Has (node i).low
  has_high : ∀ i ∈ ids, t.Has (node i).high
  sorted : ids.Pairwise fun i j => (node i).high < (node j).low

/-- **A clipped range** lies in the type and in the label's range, and contains the same values of the type.
Source: `stmt.c` `add_case_node`
Kind: L -/
theorem clip_eq_some {c : CaseLabel L} {low high : ℤ} (hc : c.low ≤ c.last) (h : clip t c = some (low, high)) :
    (c.low ≤ low ∧ high ≤ c.last) ∧ low ≤ high ∧ t.Has low ∧ t.Has high ∧
      ∀ x, t.Has x → (low ≤ x ∧ x ≤ high ↔ c.low ≤ x ∧ x ≤ c.last) := by
  have hmm := t.min_le_max
  obtain ⟨first, last, label⟩ := c
  unfold clip at h
  unfold CaseLabel.last at hc ⊢
  unfold IndexType.Has
  cases last with
  | none =>
    dsimp only [Option.getD_none] at h hc ⊢
    split_ifs at h with hout
    cases h
    push Not at hout
    exact ⟨⟨le_refl _, le_refl _⟩, le_refl _, hout, hout, fun x _ => Iff.rfl⟩
  | some last =>
    dsimp only [Option.getD_some] at h hc ⊢
    split_ifs at h <;> cases h <;>
      refine ⟨⟨by omega, by omega⟩, by omega, ⟨by omega, by omega⟩, ⟨by omega, by omega⟩, fun x hx => ?_⟩ <;> omega

/-- A label that is left out contains no value of the type. Source: `stmt.c` `add_case_node`. Kind: L -/
theorem clip_eq_none {c : CaseLabel L} (h : clip t c = none) {x : ℤ} (hx : t.Has x) : c.contains x = false := by
  obtain ⟨first, last, label⟩ := c
  unfold clip at h
  unfold CaseLabel.contains CaseLabel.last
  unfold IndexType.Has at hx
  apply decide_eq_false
  cases last with
  | none =>
    dsimp only [Option.getD_none] at h ⊢
    split_ifs at h with hout
    omega
  | some last =>
    dsimp only [Option.getD_some] at h ⊢
    split_ifs at h <;> omega

/-- What holds of the list that was built from some labels: it has new nodes only, each inside the range of a label, and
leads where the labels lead.
Source: `stmt.c` `expand_case` -/
structure Built (t : IndexType) (labels : List (CaseLabel L)) (pool : Pool L) (head : Option ℕ) (ids : List ℕ) : Prop where
  list : CaseList t pool.node head ids
  lt_used : ∀ i ∈ ids, i < pool.used
  inside : ∀ i ∈ ids, ∃ c ∈ labels, c.low ≤ c.last ∧ c.low ≤ (pool.node i).low ∧ (pool.node i).high ≤ c.last
  dispatch_eq : ∀ d x, t.Has x → dispatch labels d x = dispatchNodes pool.node ids d x

/-- A label that contains no value of the type, or none at all, may be left out. -/
theorem Built.skip {labels : List (CaseLabel L)} {pool : Pool L} {head : Option ℕ} {ids : List ℕ}
    (h : Built t labels pool head ids) {c : CaseLabel L} (hc : ∀ x, t.Has x → c.contains x = false) :
    Built t (c :: labels) pool head ids := by
  refine ⟨h.list, h.lt_used, ?_, ?_⟩
  · intro i hi
    obtain ⟨d, hd, hrange⟩ := h.inside i hi
    exact ⟨d, List.mem_cons_of_mem c hd, hrange⟩
  · intro d x hx
    rw [← h.dispatch_eq d x hx]
    unfold dispatch
    rw [List.find?_cons_of_neg (by rw [hc x hx]; exact Bool.false_ne_true)]

/-- A node in front of the list. Source: `stmt.c` `add_case_node`. Kind: L -/
theorem Built.cons {labels : List (CaseLabel L)} {pool : Pool L} {head : Option ℕ} {ids : List ℕ}
    (h : Built t labels pool head ids) {c : CaseLabel L} (hc : c.low ≤ c.last)
    (hbefore : ∀ d ∈ labels, d.low ≤ d.last → c.last < d.low) {low high : ℤ} (hclip : clip t c = some (low, high))
    {node : ℕ → CaseNode L} (hold : ∀ i ∈ ids, node i = pool.node i)
    (hnew : node pool.used = ⟨none, head, none, low, high, c.label⟩) :
    Built t (c :: labels) ⟨node, pool.used + 1⟩ (some pool.used) (pool.used :: ids) := by
  obtain ⟨⟨hlow, hhigh⟩, hle, hhas, hhas', hiff⟩ := clip_eq_some hc hclip
  have hnot : pool.used ∉ ids := fun hmem => absurd (h.lt_used _ hmem) (lt_irrefl _)
  have hlist : CaseList t node (some pool.used) (pool.used :: ids) := by
    refine ⟨⟨rfl, ?_, ?_⟩, ?_, ?_, ?_, ?_, ?_⟩
    · rw [hnew]
    · rw [hnew]
      exact h.list.chain.congr fun i hi => by rw [hold i hi]; exact ⟨rfl, rfl⟩
    · exact List.nodup_cons.mpr ⟨hnot, h.list.nodup⟩
    · rw [List.forall_mem_cons, hnew]
      exact ⟨hle, fun i hi => by rw [hold i hi]; exact h.list.low_le_high i hi⟩
    · rw [List.forall_mem_cons, hnew]
      exact ⟨hhas, fun i hi => by rw [hold i hi]; exact h.list.has_low i hi⟩
    · rw [List.forall_mem_cons, hnew]
      exact ⟨hhas', fun i hi => by rw [hold i hi]; exact h.list.has_high i hi⟩
    · -- the new range ends before the ranges of the labels behind it
      apply List.pairwise_cons.mpr
      refine ⟨?_, ?_⟩
      · intro i hi
        obtain ⟨d, hd, hne, hstart, _⟩ := h.inside i hi
        rw [hnew, hold i hi]
        have := hbefore d hd hne
        dsimp only
        omega
      · refine h.list.sorted.imp_of_mem ?_
        intro i j hi hj hlt
        rw [hold i hi, hold j hj]
        exact hlt
  refine ⟨hlist, ?_, ?_, ?_⟩
  · rw [List.forall_mem_cons]
    exact ⟨Nat.lt_succ_self _, fun i hi => Nat.lt_succ_of_lt (h.lt_used i hi)⟩
  · rw [List.forall_mem_cons]
    dsimp only
    rw [hnew]
    refine ⟨⟨c, List.mem_cons_self, hc, hlow, hhigh⟩, ?_⟩
    intro i hi
    obtain ⟨d, hd, hrange⟩ := h.inside i hi
    rw [hold i hi]
    exact ⟨d, List.mem_cons_of_mem c hd, hrange⟩
  · intro d x hx
    have hfirst : c.contains x = decide ((node pool.used).Contains x) := by
      unfold CaseLabel.contains CaseNode.Contains
      rw [hnew]
      exact decide_eq_decide.mpr (hiff x hx).symm
    have hrest : ids.find? (fun i => decide ((node i).Contains x)) =
        ids.find? (fun i => decide ((pool.node i).Contains x)) := by
      apply List.find?_congr
      intro i hi
      rw [hold i hi]
    have heq := h.dispatch_eq d x hx
    unfold dispatch dispatchNodes at heq ⊢
    rw [List.find?_cons, List.find?_cons, hfirst]
    cases decide ((node pool.used).Contains x) with
    | true =>
      dsimp only
      rw [hnew]
    | false =>
      dsimp only
      rw [hrest, heq]
      cases hfind : ids.find? (fun i => decide ((pool.node i).Contains x)) with
      | none => rfl
      | some i =>
        dsimp only
        rw [hold i (List.mem_of_find?_eq_some hfind)]

/-- **One label** in front of those that are in the list. Source: `stmt.c` `add_case_node`. Kind: L -/
theorem Built.addCaseNode {labels : List (CaseLabel L)} {pool : Pool L} {head : Option ℕ} {ids : List ℕ}
    (h : Built t labels pool head ids) {c : CaseLabel L} (hc : c.low ≤ c.last)
    (hbefore : ∀ d ∈ labels, d.low ≤ d.last → c.last < d.low) :
    ∃ ids', Built t (c :: labels) (addCaseNode t pool head c).1 (addCaseNode t pool head c).2 ids' := by
  unfold SwitchLower.addCaseNode
  rcases hclip : clip t c with _ | ⟨low, high⟩
  · exact ⟨ids, h.skip fun x hx => clip_eq_none hclip hx⟩
  · refine ⟨pool.used :: ids, h.cons hc hbefore hclip ?_ (Function.update_self _ _ _)⟩
    intro i hi
    apply Function.update_of_ne
    rintro rfl
    exact absurd (h.lt_used _ hi) (lt_irrefl _)

/-- **The list of the labels**. Source: `stmt.c` `expand_case`. Kind: L -/
theorem addCaseNodes_spec (pool : Pool L) (labels : List (CaseLabel L)) (h : Sorted labels) :
    ∃ ids, Built t labels (addCaseNodes t pool labels).1 (addCaseNodes t pool labels).2 ids := by
  induction labels with
  | nil =>
    refine ⟨[], ⟨⟨trivial, List.nodup_nil, ?_, ?_, ?_, List.Pairwise.nil⟩, ?_, ?_, fun _ _ _ => rfl⟩⟩ <;>
      exact fun i hi => absurd hi List.not_mem_nil
  | cons c labels ih =>
    unfold Sorted at h
    change ∃ ids, Built t _ (if c.last < c.low then addCaseNodes t pool labels else _).1
      (if c.last < c.low then addCaseNodes t pool labels else _).2 ids
    by_cases hempty : c.last < c.low
    · rw [List.filter_cons_of_neg (by simpa using hempty)] at h
      obtain ⟨ids, hbuilt⟩ := ih h
      rw [if_pos hempty]
      refine ⟨ids, hbuilt.skip ?_⟩
      intro x _
      unfold CaseLabel.contains
      exact decide_eq_false (by omega)
    · have hc : c.low ≤ c.last := not_lt.mp hempty
      rw [List.filter_cons_of_pos (by simpa using hc), List.pairwise_cons] at h
      obtain ⟨ids, hbuilt⟩ := ih h.2
      rw [if_neg hempty]
      apply hbuilt.addCaseNode hc
      intro d hd hne
      exact h.1 d (List.mem_filter.mpr ⟨hd, decide_eq_true hne⟩)

/-- Ranges of a sorted list that contain the same value are the same. -/
theorem eq_of_contains {node : ℕ → CaseNode L} {ids : List ℕ} (h : ids.Pairwise fun i j => (node i).high < (node j).low)
    {x : ℤ} {i j : ℕ} (hi : i ∈ ids) (hj : j ∈ ids) (hix : (node i).Contains x) (hjx : (node j).Contains x) : i = j := by
  have hcases : i = j ∨ (node i).high < (node j).low ∨ (node j).high < (node i).low :=
    List.Pairwise.forall_of_forall_of_flip (R := fun i j => i = j ∨ (node i).high < (node j).low ∨
      (node j).high < (node i).low) (fun _ _ => Or.inl rfl) (h.imp fun hlt => Or.inr (Or.inl hlt))
      (h.imp fun hlt => Or.inr (Or.inr hlt)) hi hj
  unfold CaseNode.Contains at hix hjx
  omega

/-- The range that contains the value decides. -/
theorem CaseList.dispatchNodes_eq {node : ℕ → CaseNode L} {head : Option ℕ} {ids : List ℕ} (h : CaseList t node head ids)
    {x : ℤ} {i : ℕ} (hi : i ∈ ids) (hix : (node i).Contains x) (d : L) :
    dispatchNodes node ids d x = (node i).codeLabel := by
  unfold dispatchNodes
  cases hfind : ids.find? (fun i => decide ((node i).Contains x)) with
  | none => exact absurd (decide_eq_true hix) (List.find?_eq_none.mp hfind i hi)
  | some j =>
    have hjx : (node j).Contains x := by
      have hbool := List.find?_some hfind
      exact of_decide_eq_true hbool
    rw [eq_of_contains h.sorted hi (List.mem_of_find?_eq_some hfind) hix hjx]

/-- Without such a range the default decides. -/
theorem dispatchNodes_eq_default {node : ℕ → CaseNode L} {ids : List ℕ} {x : ℤ}
    (hno : ∀ i ∈ ids, ¬ (node i).Contains x) (d : L) : dispatchNodes node ids d x = d := by
  unfold dispatchNodes
  rw [List.find?_eq_none.mpr fun i hi => by simpa using hno i hi]

end Lists

end GccCore.Gcc.SwitchLower
