import GccCore.Gcc.SwitchLower.Balance
import GccCore.Lib.LabelledCode

/-!
# `gcc/stmt.c`: the decision tree

Code is emitted for the case tree from the root on. Tests are left out where a test of an ancestor, or the index type, has
settled them.

* **Conditions** (`Cond`): comparisons of the index in a machine mode.
* **Bounds** (`nodeHasLowBound`, `nodeHasHighBound`, `nodeIsBounded`), found on the way to the root.
* **Code** (`emitCaseNodes`) for every shape of a node.
* **What settled bounds say** (`le_of_hasLow`, `le_of_hasHigh`): they hold for every value that gets to the node.
-/

namespace GccCore.Gcc.SwitchLower

open GccCore.Lib GccCore.Lib.MachineInt GccCore.Lib.LabelledCode

variable {L : Type}

/-! ## Conditions -/

/-- Source: `rtl.def` (`EQ`, `GT`, `LT`, `GE`, `LE`). -/
inductive Cmp
  | EQ
  | GT
  | LT
  | GE
  | LE
  deriving DecidableEq

/-- Source: `rtl.def` (`EQ`, `GT`, `LT`, `GE`, `LE`). -/
def Cmp.holds (op : Cmp) (a b : ℤ) : Bool :=
  match op with
  | .EQ => decide (a = b)
  | .GT => decide (b < a)
  | .LT => decide (a < b)
  | .GE => decide (b ≤ a)
  | .LE => decide (a ≤ b)

/-- A comparison in a mode of `m` bits: the index, less `sub`, with a bound.
Source: `optabs.c` `emit_cmp_and_jump_insns` -/
structure Cond (m : ℕ) where
  op : Cmp
  unsignedp : Bool
  sub : BitVec m
  bound : BitVec m

/-- Source: `optabs.c` `emit_cmp_and_jump_insns`. -/
def Cond.eval {m : ℕ} (index : BitVec m) (c : Cond m) : Bool :=
  c.op.holds (valueIn c.unsignedp (index - c.sub)) (valueIn c.unsignedp c.bound)

/-- The index is compared with a constant of its type. Source: `stmt.c` `emit_case_nodes` (`convert_modes`). -/
def cmpIndex (t : IndexType) (m : ℕ) (op : Cmp) (v : ℤ) : Cond m := ⟨op, t.unsigned, 0, BitVec.ofInt m v⟩

/-- One unsigned comparison for both bounds. Source: `stmt.c` `emit_case_nodes` (`new_index`, `new_bound`). -/
def cmpOutside (m : ℕ) (low high : ℤ) : Cond m := ⟨.GT, true, BitVec.ofInt m low, BitVec.ofInt m (high - low)⟩

/-- A label of a case, or one that was made for a test. Source: `stmt.c` `emit_case_nodes` (`test_label`). -/
inductive Label (L : Type)
  | case (l : L)
  | test (n : ℕ)
  deriving DecidableEq

/-! ## Bounds -/

/-- Does one of the ancestors have the property? Source: `stmt.c` (`pnode = pnode->parent`). -/
def parentHas (node : ℕ → CaseNode L) (q : CaseNode L → Bool) : ℕ → Option ℕ → Option Bool
  | _, none => some false
  | 0, some _ => none
  | fuel + 1, some p => if q (node p) then some true else parentHas node q fuel (node p).parent

/-- Source: `stmt.c` `node_has_low_bound`. -/
def nodeHasLowBound (t : IndexType) (node : ℕ → CaseNode L) (fuel i : ℕ) : Option Bool :=
  if (node i).low = t.minValue then some true
  else if (node i).left.isSome then some false
  else if ¬ t.wrap ((node i).low - 1) < (node i).low then some false
  else parentHas node (fun p => decide (t.wrap ((node i).low - 1) = p.high)) fuel (node i).parent

/-- Source: `stmt.c` `node_has_high_bound`. -/
def nodeHasHighBound (t : IndexType) (node : ℕ → CaseNode L) (fuel i : ℕ) : Option Bool :=
  if (node i).high = t.maxValue then some true
  else if (node i).right.isSome then some false
  else if ¬ (node i).high < t.wrap ((node i).high + 1) then some false
  else parentHas node (fun p => decide (t.wrap ((node i).high + 1) = p.low)) fuel (node i).parent

/-- Source: `stmt.c` `node_is_bounded`. -/
def nodeIsBounded (t : IndexType) (node : ℕ → CaseNode L) (fuel i : ℕ) : Option Bool :=
  (nodeHasLowBound t node fuel i).bind fun low => if low then nodeHasHighBound t node fuel i else some false

/-! ## Code -/

/-- Instructions with comparisons in a mode of `m` bits. Source: `rtl.def`. -/
abbrev Code (m : ℕ) (L : Type) := List (Insn (Cond m) (Label L))

/-- A single value without children. Source: `stmt.c` `emit_case_nodes`. -/
def CaseNode.isSingleLeaf (n : CaseNode L) : Bool := decide (n.low = n.high) && n.left.isNone && n.right.isNone

section Emit

variable (t : IndexType) (m : ℕ) (node : ℕ → CaseNode L) (defaultLabel : L) (depth : ℕ)

/-- A jump to the label of a node if the index compares so. Source: `stmt.c` `emit_case_nodes`. -/
def jumpTo (op : Cmp) (v : ℤ) (l : L) : Insn (Cond m) (Label L) := .branch (cmpIndex t m op v) (.case l)

/-- The code for a node and the trees below it. The last argument counts the labels that were made; the count after the
code is returned with it.
Source: `stmt.c` `emit_case_nodes` -/
def emitCaseNodes : ℕ → ℕ → ℕ → Option (Code m L × ℕ)
  | 0, _, _ => none
  | fuel + 1, i, n =>
    let nd := node i
    (nodeIsBounded t node depth i).bind fun bounded =>
      if bounded then some ([.jump (.case nd.codeLabel)], n)
      else if nd.low = nd.high then
        -- a single value is compared first
        let first := jumpTo t m .EQ nd.low nd.codeLabel
        match nd.left, nd.right with
        | some l, some r =>
          (nodeIsBounded t node depth r).bind fun rightBounded =>
            if rightBounded then
              (emitCaseNodes fuel l n).map fun (code, n) =>
                (first :: jumpTo t m .GT nd.high (node r).codeLabel :: code, n)
            else
              (nodeIsBounded t node depth l).bind fun leftBounded =>
                if leftBounded then
                  (emitCaseNodes fuel r n).map fun (code, n) =>
                    (first :: jumpTo t m .LT nd.high (node l).codeLabel :: code, n)
                else if (node r).isSingleLeaf && (node l).isSingleLeaf then
                  some ([first, jumpTo t m .EQ (node r).low (node r).codeLabel,
                    jumpTo t m .EQ (node l).low (node l).codeLabel], n)
                else
                  (emitCaseNodes fuel l (n + 1)).bind fun (codeLeft, n') =>
                    (emitCaseNodes fuel r n').map fun (codeRight, n'') =>
                      (first :: .branch (cmpIndex t m .GT nd.high) (.test n) ::
                        (codeLeft ++ .jump (.case defaultLabel) :: .label (.test n) :: codeRight), n'')
        | none, some r =>
          if (node r).isSingleLeaf then some ([first, jumpTo t m .EQ (node r).low (node r).codeLabel], n)
          else
            (nodeHasLowBound t node depth i).bind fun low =>
              (emitCaseNodes fuel r n).map fun (code, n) =>
                (first :: ((if low then [] else [jumpTo t m .LT nd.high defaultLabel]) ++ code), n)
        | some l, none =>
          if (node l).isSingleLeaf then some ([first, jumpTo t m .EQ (node l).low (node l).codeLabel], n)
          else
            (nodeHasHighBound t node depth i).bind fun high =>
              (emitCaseNodes fuel l n).map fun (code, n) =>
                (first :: ((if high then [] else [jumpTo t m .GT nd.high defaultLabel]) ++ code), n)
        | none, none => some ([first], n)
      else
        match nd.left, nd.right with
        | some l, some r =>
          (nodeIsBounded t node depth r).bind fun rightBounded =>
            if rightBounded then
              (emitCaseNodes fuel l n).map fun (code, n) =>
                (jumpTo t m .GT nd.high (node r).codeLabel :: jumpTo t m .GE nd.low nd.codeLabel :: code, n)
            else
              (emitCaseNodes fuel l (n + 1)).bind fun (codeLeft, n') =>
                (emitCaseNodes fuel r n').map fun (codeRight, n'') =>
                  (.branch (cmpIndex t m .GT nd.high) (.test n) :: jumpTo t m .GE nd.low nd.codeLabel ::
                    (codeLeft ++ .jump (.case defaultLabel) :: .label (.test n) :: codeRight), n'')
        | none, some r =>
          (nodeHasLowBound t node depth i).bind fun low =>
            (emitCaseNodes fuel r n).map fun (code, n) =>
              ((if low then [] else [jumpTo t m .LT nd.low defaultLabel]) ++
                jumpTo t m .LE nd.high nd.codeLabel :: code, n)
        | some l, none =>
          (nodeHasHighBound t node depth i).bind fun high =>
            (emitCaseNodes fuel l n).map fun (code, n) =>
              ((if high then [] else [jumpTo t m .GT nd.high defaultLabel]) ++
                jumpTo t m .GE nd.low nd.codeLabel :: code, n)
        | none, none =>
          (nodeHasHighBound t node depth i).bind fun high =>
            (nodeHasLowBound t node depth i).map fun low =>
              ((match low, high with
                | true, false => [jumpTo t m .GT nd.high defaultLabel]
                | false, true => [jumpTo t m .LT nd.low defaultLabel]
                | false, false => [.branch (cmpOutside m nd.low nd.high) (.case defaultLabel)]
                | true, true => []) ++ [.jump (.case nd.codeLabel)], n)

end Emit

/-! ## What conditions and bounds say -/

section Conditions

variable {t : IndexType} {m : ℕ}

/-- **A comparison in the mode** is one of integers. Source: `stmt.c` `emit_case_nodes`. Kind: L -/
theorem eval_cmpIndex (hm : t.prec ≤ m) {x v : ℤ} (hx : t.Has x) (hv : t.Has v) (op : Cmp) :
    (cmpIndex t m op v).eval (BitVec.ofInt m x) = op.holds x v := by
  have hpos : 0 < m := lt_of_lt_of_le t.prec_pos hm
  unfold Cond.eval cmpIndex
  dsimp only
  have hsub : BitVec.ofInt m x - 0 = BitVec.ofInt m x := BitVec.sub_zero _
  rw [hsub, valueIn_ofInt hpos (inType_mono hm hx.inType), valueIn_ofInt hpos (inType_mono hm hv.inType)]

/-- **The unsigned comparison** tests both bounds. Source: `stmt.c` `emit_case_nodes` (`new_bound`). Kind: L -/
theorem eval_cmpOutside (hm : t.prec ≤ m) {x low high : ℤ} (hx : t.Has x) (hlow : t.Has low) (hhigh : t.Has high)
    (hle : low ≤ high) : (cmpOutside m low high).eval (BitVec.ofInt m x) = decide (x < low ∨ high < x) := by
  have hpos : 0 < m := lt_of_lt_of_le t.prec_pos hm
  have hspan : ∀ a b : ℤ, t.Has a → t.Has b → a - b < 2 ^ m := by
    intro a b ha hb
    exact sub_lt_of_inType hpos (inType_mono hm ha.inType) (inType_mono hm hb.inType)
  unfold Cond.eval cmpOutside Cmp.holds
  dsimp only
  rw [← ofInt_sub, valueIn_true_ofInt, valueIn_true_ofInt, Int.emod_eq_of_lt (by omega) (hspan high low hhigh hlow)]
  apply decide_eq_decide.mpr
  by_cases hneg : x < low
  · have hwrap : (x - low) % 2 ^ m = x - low + 2 ^ m := by
      have := hspan low x hlow hx
      rw [← Int.add_emod_right, Int.emod_eq_of_lt (by linarith) (by linarith)]
    rw [hwrap]
    have := hspan high x hhigh hx
    constructor
    · intro _
      exact Or.inl hneg
    · intro _
      linarith
  · rw [Int.emod_eq_of_lt (by omega) (hspan x low hx hlow)]
    omega

end Conditions

section Bounds

variable {t : IndexType} {node : ℕ → CaseNode L} {parent : Option ℕ} {path ids : List ℕ} {x : ℤ} {i : ℕ}

/-- The ancestors, from the parent to the root. Source: `stmt.c` (`pnode = pnode->parent`). -/
def Path (node : ℕ → CaseNode L) : Option ℕ → List ℕ → Prop
  | none, [] => True
  | some p, q :: qs => p = q ∧ Path node (node p).parent qs
  | _, _ => False

theorem Path.parentHas_eq (q : CaseNode L → Bool) : ∀ {fuel : ℕ} {parent : Option ℕ} {path : List ℕ},
    Path node parent path → path.length ≤ fuel → parentHas node q fuel parent = some (path.any fun p => q (node p))
  | _, none, [], _, _ => by
    unfold parentHas
    rfl
  | 0, some _, _ :: _, _, hlen => absurd hlen (by simp)
  | fuel + 1, some p, _ :: ps, h, hlen => by
    obtain ⟨rfl, hrest⟩ := h
    unfold parentHas
    rw [List.any_cons]
    cases q (node p) with
    | true => rfl
    | false => exact hrest.parentHas_eq q (Nat.le_of_succ_le_succ hlen)

/-- The answer of `node_has_low_bound`, by the ancestors. Source: `stmt.c` `node_has_low_bound`. -/
def hasLow (t : IndexType) (node : ℕ → CaseNode L) (path : List ℕ) (i : ℕ) : Bool :=
  decide ((node i).low = t.minValue) || ((node i).left.isNone && decide (t.wrap ((node i).low - 1) < (node i).low) &&
    path.any fun p => decide (t.wrap ((node i).low - 1) = (node p).high))

/-- The answer of `node_has_high_bound`, by the ancestors. Source: `stmt.c` `node_has_high_bound`. -/
def hasHigh (t : IndexType) (node : ℕ → CaseNode L) (path : List ℕ) (i : ℕ) : Bool :=
  decide ((node i).high = t.maxValue) || ((node i).right.isNone && decide ((node i).high < t.wrap ((node i).high + 1)) &&
    path.any fun p => decide (t.wrap ((node i).high + 1) = (node p).low))

theorem nodeHasLowBound_eq {fuel : ℕ} (hpath : Path node (node i).parent path) (hlen : path.length ≤ fuel) :
    nodeHasLowBound t node fuel i = some (hasLow t node path i) := by
  unfold nodeHasLowBound hasLow
  rw [hpath.parentHas_eq _ hlen]
  by_cases hmin : (node i).low = t.minValue
  · simp [hmin]
  · rcases hleft : (node i).left with _ | l
    · by_cases hwrap : t.wrap ((node i).low - 1) < (node i).low
      · simp [hmin, hwrap]
      · simp [hmin, hwrap]
    · simp [hmin]

theorem nodeHasHighBound_eq {fuel : ℕ} (hpath : Path node (node i).parent path) (hlen : path.length ≤ fuel) :
    nodeHasHighBound t node fuel i = some (hasHigh t node path i) := by
  unfold nodeHasHighBound hasHigh
  rw [hpath.parentHas_eq _ hlen]
  by_cases hmax : (node i).high = t.maxValue
  · simp [hmax]
  · rcases hright : (node i).right with _ | r
    · by_cases hwrap : (node i).high < t.wrap ((node i).high + 1)
      · simp [hmax, hwrap]
      · simp [hmax, hwrap]
    · simp [hmax]

theorem nodeIsBounded_eq {fuel : ℕ} (hpath : Path node (node i).parent path) (hlen : path.length ≤ fuel) :
    nodeIsBounded t node fuel i = some (hasLow t node path i && hasHigh t node path i) := by
  unfold nodeIsBounded
  rw [nodeHasLowBound_eq hpath hlen, nodeHasHighBound_eq hpath hlen, Option.bind_some]
  cases hasLow t node path i <;> rfl

/-- The value is on the same side of every ancestor as the nodes of the tree. Source: `stmt.c` `emit_case_nodes`. -/
def Side (node : ℕ → CaseNode L) (path ids : List ℕ) (x : ℤ) : Prop :=
  ∀ p ∈ path, ((node p).high < x ∧ ∀ j ∈ ids, (node p).high < (node j).low) ∨
    (x < (node p).low ∧ ∀ j ∈ ids, (node j).high < (node p).low)

/-- **A settled lower bound** holds for every value that gets to the node. Source: `stmt.c` `node_has_low_bound`. Kind: L -/
theorem le_of_hasLow (hside : Side node path ids x) (hi : i ∈ ids) (hx : t.Has x) (hlow : t.Has (node i).low)
    (hle : (node i).low ≤ (node i).high) (hpath : ∀ p ∈ path, (node p).low ≤ (node p).high)
    (h : hasLow t node path i = true) : (node i).low ≤ x := by
  unfold hasLow at h
  simp only [Bool.or_eq_true, Bool.and_eq_true, decide_eq_true_eq, List.any_eq_true] at h
  rcases h with hmin | ⟨⟨_, hwrap⟩, p, hp, heq⟩
  · rw [hmin]
    exact hx.1
  · have hpred : t.wrap ((node i).low - 1) = (node i).low - 1 := valueIn_ofInt_pred t.prec_pos hlow.inType hwrap
    have hple := hpath p hp
    rcases hside p hp with ⟨hright, _⟩ | ⟨_, hleft⟩
    · omega
    · have := hleft i hi
      omega

/-- **A settled upper bound** holds for every value that gets to the node. Source: `stmt.c` `node_has_high_bound`. Kind: L -/
theorem le_of_hasHigh (hside : Side node path ids x) (hi : i ∈ ids) (hx : t.Has x) (hhigh : t.Has (node i).high)
    (hle : (node i).low ≤ (node i).high) (hpath : ∀ p ∈ path, (node p).low ≤ (node p).high)
    (h : hasHigh t node path i = true) : x ≤ (node i).high := by
  unfold hasHigh at h
  simp only [Bool.or_eq_true, Bool.and_eq_true, decide_eq_true_eq, List.any_eq_true] at h
  rcases h with hmax | ⟨⟨_, hwrap⟩, p, hp, heq⟩
  · rw [hmax]
    exact hx.2
  · have hsucc : t.wrap ((node i).high + 1) = (node i).high + 1 := valueIn_ofInt_succ t.prec_pos hhigh.inType hwrap
    have hple := hpath p hp
    rcases hside p hp with ⟨_, hright⟩ | ⟨hleft, _⟩
    · have := hright i hi
      omega
    · omega

end Bounds

end GccCore.Gcc.SwitchLower
