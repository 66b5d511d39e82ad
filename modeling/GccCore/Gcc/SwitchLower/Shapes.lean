import GccCore.Gcc.SwitchLower.Leads

/-!
# `gcc/stmt.c`: the code for every shape of a node

A node is a value or a range, with trees on both sides, on one side or on none. The tests that are left out are not needed
for the values that get there.

* **Bounded nodes** need no test (`emitted_bounded`), and one jump is enough if a bounded node is next
  (`emitted_value_rightBounded`, `emitted_value_leftBounded`, `emitted_range_rightBounded`).
* **Trees on both sides** (`emitted_value_both`, `emitted_range_both`) **or on one** (`emitted_value_right`,
  `emitted_value_left`, `emitted_range_right`, `emitted_range_left`).
* **Leaves** (`emitted_range_leaf`, `emitted_values`).
-/

set_option linter.unusedSectionVars false

namespace GccCore.Gcc.SwitchLower

open GccCore.Lib GccCore.Lib.MachineInt GccCore.Lib.LabelledCode

variable {L : Type} [DecidableEq L] {t : IndexType} {m : ℕ} {node : ℕ → CaseNode L} {d : L} {x : ℤ}

/-! ## Shapes of nodes -/

section NodeShapes

variable {path ls rs : List ℕ} {i l r n n' n₁ n₂ : ℕ} {code codeLeft codeRight : Code m L}

/-- A bounded node. Source: `stmt.c` `emit_case_nodes` (`node_is_bounded`). Kind: L -/
theorem emitted_bounded (hok : NodesOk t node path (ls ++ i :: rs)) (hlow : hasLow t node path i = true)
    (hhigh : hasHigh t node path i = true) :
    Emitted (m := m) t node d path (ls ++ i :: rs) n [.jump (.case (node i).codeLabel)] n := by
  refine ⟨le_refl n, fun l hl => absurd hl List.not_mem_nil, ?_⟩
  intro x hx hside prog pre post hprog
  have hi : i ∈ ls ++ i :: rs := by simp
  exact Leads.here hok.ascending hi (hok.contains_of_bounded hside hx hi hlow hhigh)
    (Ends.jump_out (hprog.after_case _))

variable (hm : t.prec ≤ m) (hok : NodesOk t node path (ls ++ i :: rs))

include hm hok

/-- A single value with one case above it. Source: `stmt.c` `emit_case_nodes`. Kind: L -/
theorem emitted_value_rightBounded (hval : (node i).low = (node i).high)
    (hl : Emitted t node d (i :: path) ls n code n') (hr : r ∈ rs) (hlow : hasLow t node (i :: path) r = true)
    (hhigh : hasHigh t node (i :: path) r = true) :
    Emitted t node d path (ls ++ i :: rs) n (jumpTo t m .EQ (node i).low (node i).codeLabel ::
      jumpTo t m .GT (node i).high (node r).codeLabel :: code) n' := by
  obtain ⟨_, hhaslow, hhashigh⟩ := hok.mid
  let tests : Tests m L := [(cmpIndex t m .EQ (node i).low, (node i).codeLabel),
    (cmpIndex t m .GT (node i).high, (node r).codeLabel)]
  have htaken : ∀ x, t.Has x → tests.taken x =
      if x = (node i).low then some (node i).codeLabel
      else if (node i).high < x then some (node r).codeLabel else none := by
    intro x hx
    rw [Tests.taken_cons hm hx hhaslow, Tests.taken_cons hm hx hhashigh]
    simp only [Cmp.holds, decide_eq_true_eq, Tests.taken]
  apply Emitted.before_left tests hok hl
  · intro x hx hlt
    rw [htaken x hx, if_neg (by omega), if_neg (by omega)]
  · intro x hx hix
    unfold CaseNode.Contains at hix
    rw [htaken x hx, if_pos (by omega)]
  · intro x hx hside hlt
    refine ⟨(node r).codeLabel, ?_, ?_⟩
    · rw [htaken x hx, if_neg (by omega), if_pos hlt]
    · exact Goes.of_contains hok.right.ascending hr
        (hok.right.contains_of_bounded (hok.side_right hside hlt) hx hr hlow hhigh)

/-- A single value with one case below it. Source: `stmt.c` `emit_case_nodes`. Kind: L -/
theorem emitted_value_leftBounded (hval : (node i).low = (node i).high)
    (hr : Emitted t node d (i :: path) rs n code n') (hl : l ∈ ls) (hlow : hasLow t node (i :: path) l = true)
    (hhigh : hasHigh t node (i :: path) l = true) :
    Emitted t node d path (ls ++ i :: rs) n (jumpTo t m .EQ (node i).low (node i).codeLabel ::
      jumpTo t m .LT (node i).high (node l).codeLabel :: code) n' := by
  obtain ⟨_, hhaslow, hhashigh⟩ := hok.mid
  let tests : Tests m L := [(cmpIndex t m .EQ (node i).low, (node i).codeLabel),
    (cmpIndex t m .LT (node i).high, (node l).codeLabel)]
  have htaken : ∀ x, t.Has x → tests.taken x =
      if x = (node i).low then some (node i).codeLabel
      else if x < (node i).high then some (node l).codeLabel else none := by
    intro x hx
    rw [Tests.taken_cons hm hx hhaslow, Tests.taken_cons hm hx hhashigh]
    simp only [Cmp.holds, decide_eq_true_eq, Tests.taken]
  apply Emitted.before_right tests hok hr
  · intro x hx hside hlt
    refine ⟨(node l).codeLabel, ?_, ?_⟩
    · rw [htaken x hx, if_neg (by omega), if_pos (by omega)]
    · exact Goes.of_contains hok.left.ascending hl
        (hok.left.contains_of_bounded (hok.side_left hside hlt) hx hl hlow hhigh)
  · intro x hx hix
    unfold CaseNode.Contains at hix
    rw [htaken x hx, if_pos (by omega)]
  · intro x hx hlt
    rw [htaken x hx, if_neg (by omega), if_neg (by omega)]

/-- A single value between two trees. Source: `stmt.c` `emit_case_nodes` (`test_label`). Kind: L -/
theorem emitted_value_both (hval : (node i).low = (node i).high)
    (hl : Emitted t node d (i :: path) ls (n + 1) codeLeft n₁) (hr : Emitted t node d (i :: path) rs n₁ codeRight n₂) :
    Emitted t node d path (ls ++ i :: rs) n (jumpTo t m .EQ (node i).low (node i).codeLabel ::
      .branch (cmpIndex t m .GT (node i).high) (.test n) ::
        (codeLeft ++ .jump (.case d) :: .label (.test n) :: codeRight)) n₂ := by
  obtain ⟨_, hhaslow, hhashigh⟩ := hok.mid
  let heads : Code m L := [jumpTo t m .EQ (node i).low (node i).codeLabel,
    .branch (cmpIndex t m .GT (node i).high) (.test n)]
  have hheads : labels heads = [] := rfl
  obtain ⟨hle, hlabels⟩ := two_sides_labels hl hr hheads
  refine ⟨hle, hlabels, ?_⟩
  intro x hx hside prog pre post hprog
  obtain ⟨hafter, hleft, hright⟩ := two_sides (x := x) hl hr hheads hprog
  apply Leads.split hok.ascending hok.low_le
  · intro hlt
    apply Leads.branch_not
    · rw [eval_cmpIndex hm hx hhaslow]
      exact decide_eq_false (by omega)
    apply Leads.branch_not
    · rw [eval_cmpIndex hm hx hhashigh]
      exact decide_eq_false (by omega)
    exact hleft hx (hok.side_left hside hlt)
  · intro hix
    unfold CaseNode.Contains at hix
    apply Ends.branch_out
    · rw [eval_cmpIndex hm hx hhaslow]
      exact decide_eq_true (by omega)
    exact hprog.after_case _
  · intro hlt
    apply Leads.branch_not
    · rw [eval_cmpIndex hm hx hhaslow]
      exact decide_eq_false (by omega)
    apply Leads.branch_in _ hafter
    · exact hright hx (hok.side_right hside hlt)
    rw [eval_cmpIndex hm hx hhashigh]
    exact decide_eq_true hlt

/-- A range with one case above it. Source: `stmt.c` `emit_case_nodes`. Kind: L -/
theorem emitted_range_rightBounded (hl : Emitted t node d (i :: path) ls n code n') (hr : r ∈ rs)
    (hlow : hasLow t node (i :: path) r = true) (hhigh : hasHigh t node (i :: path) r = true) :
    Emitted t node d path (ls ++ i :: rs) n (jumpTo t m .GT (node i).high (node r).codeLabel ::
      jumpTo t m .GE (node i).low (node i).codeLabel :: code) n' := by
  obtain ⟨hle, hhaslow, hhashigh⟩ := hok.mid
  let tests : Tests m L := [(cmpIndex t m .GT (node i).high, (node r).codeLabel),
    (cmpIndex t m .GE (node i).low, (node i).codeLabel)]
  have htaken : ∀ x, t.Has x → tests.taken x =
      if (node i).high < x then some (node r).codeLabel
      else if (node i).low ≤ x then some (node i).codeLabel else none := by
    intro x hx
    rw [Tests.taken_cons hm hx hhashigh, Tests.taken_cons hm hx hhaslow]
    simp only [Cmp.holds, decide_eq_true_eq, Tests.taken]
  apply Emitted.before_left tests hok hl
  · intro x hx hlt
    rw [htaken x hx, if_neg (by omega), if_neg (by omega)]
  · intro x hx hix
    unfold CaseNode.Contains at hix
    rw [htaken x hx, if_neg (by omega), if_pos hix.1]
  · intro x hx hside hlt
    refine ⟨(node r).codeLabel, ?_, ?_⟩
    · rw [htaken x hx, if_pos hlt]
    · exact Goes.of_contains hok.right.ascending hr
        (hok.right.contains_of_bounded (hok.side_right hside hlt) hx hr hlow hhigh)

/-- A range between two trees. Source: `stmt.c` `emit_case_nodes` (`test_label`). Kind: L -/
theorem emitted_range_both (hl : Emitted t node d (i :: path) ls (n + 1) codeLeft n₁)
    (hr : Emitted t node d (i :: path) rs n₁ codeRight n₂) :
    Emitted t node d path (ls ++ i :: rs) n (.branch (cmpIndex t m .GT (node i).high) (.test n) ::
      jumpTo t m .GE (node i).low (node i).codeLabel ::
        (codeLeft ++ .jump (.case d) :: .label (.test n) :: codeRight)) n₂ := by
  obtain ⟨hle, hhaslow, hhashigh⟩ := hok.mid
  let heads : Code m L := [.branch (cmpIndex t m .GT (node i).high) (.test n),
    jumpTo t m .GE (node i).low (node i).codeLabel]
  have hheads : labels heads = [] := rfl
  obtain ⟨hcount, hlabels⟩ := two_sides_labels hl hr hheads
  refine ⟨hcount, hlabels, ?_⟩
  intro x hx hside prog pre post hprog
  obtain ⟨hafter, hleft, hright⟩ := two_sides (x := x) hl hr hheads hprog
  apply Leads.split hok.ascending hok.low_le
  · intro hlt
    apply Leads.branch_not
    · rw [eval_cmpIndex hm hx hhashigh]
      exact decide_eq_false (by omega)
    apply Leads.branch_not
    · rw [eval_cmpIndex hm hx hhaslow]
      exact decide_eq_false (by omega)
    exact hleft hx (hok.side_left hside hlt)
  · intro hix
    unfold CaseNode.Contains at hix
    apply Ends.branch_not
    · rw [eval_cmpIndex hm hx hhashigh]
      exact decide_eq_false (by omega)
    apply Ends.branch_out
    · rw [eval_cmpIndex hm hx hhaslow]
      exact decide_eq_true hix.1
    exact hprog.after_case _
  · intro hlt
    apply Leads.branch_in _ hafter
    · exact hright hx (hok.side_right hside hlt)
    rw [eval_cmpIndex hm hx hhashigh]
    exact decide_eq_true hlt

/-- A single value with a tree above it. Source: `stmt.c` `emit_case_nodes`. Kind: L -/
theorem emitted_value_right (hval : (node i).low = (node i).high) (hls : ls = [])
    (hr : Emitted t node d (i :: path) rs n code n') :
    Emitted t node d path (ls ++ i :: rs) n (jumpTo t m .EQ (node i).low (node i).codeLabel ::
      ((if hasLow t node path i then [] else [jumpTo t m .LT (node i).high d]) ++ code)) n' := by
  obtain ⟨_, hhaslow, hhashigh⟩ := hok.mid
  let tests : Tests m L := (cmpIndex t m .EQ (node i).low, (node i).codeLabel) ::
    if hasLow t node path i then [] else [(cmpIndex t m .LT (node i).high, d)]
  have htaken : ∀ x, t.Has x → tests.taken x =
      if x = (node i).low then some (node i).codeLabel
      else if hasLow t node path i = false ∧ x < (node i).high then some d else none := by
    intro x hx
    rw [Tests.taken_cons hm hx hhaslow, Tests.taken_unless hm hx hhashigh]
    simp only [Cmp.holds, decide_eq_true_eq, Tests.taken]
  have hcode : (jumpTo t m .EQ (node i).low (node i).codeLabel ::
      ((if hasLow t node path i then [] else [jumpTo t m .LT (node i).high d]) ++ code)) = tests.code ++ code := by
    unfold tests
    cases hasLow t node path i <;> rfl
  rw [hcode]
  apply Emitted.before_right tests hok hr
  · intro x hx hside hlt
    refine ⟨d, ?_, ?_⟩
    · have hnot := hok.hasLow_eq_false hside hx hlt
      rw [htaken x hx, if_neg (by omega), if_pos ⟨hnot, by omega⟩]
    · rw [hls]
      exact Goes.nil
  · intro x hx hix
    unfold CaseNode.Contains at hix
    rw [htaken x hx, if_pos (by omega)]
  · intro x hx hlt
    rw [htaken x hx, if_neg (by omega), if_neg (by omega)]

/-- A single value with a tree below it. Source: `stmt.c` `emit_case_nodes`. Kind: L -/
theorem emitted_value_left (hval : (node i).low = (node i).high) (hrs : rs = [])
    (hl : Emitted t node d (i :: path) ls n code n') :
    Emitted t node d path (ls ++ i :: rs) n (jumpTo t m .EQ (node i).low (node i).codeLabel ::
      ((if hasHigh t node path i then [] else [jumpTo t m .GT (node i).high d]) ++ code)) n' := by
  obtain ⟨_, hhaslow, hhashigh⟩ := hok.mid
  let tests : Tests m L := (cmpIndex t m .EQ (node i).low, (node i).codeLabel) ::
    if hasHigh t node path i then [] else [(cmpIndex t m .GT (node i).high, d)]
  have htaken : ∀ x, t.Has x → tests.taken x =
      if x = (node i).low then some (node i).codeLabel
      else if hasHigh t node path i = false ∧ (node i).high < x then some d else none := by
    intro x hx
    rw [Tests.taken_cons hm hx hhaslow, Tests.taken_unless hm hx hhashigh]
    simp only [Cmp.holds, decide_eq_true_eq, Tests.taken]
  have hcode : (jumpTo t m .EQ (node i).low (node i).codeLabel ::
      ((if hasHigh t node path i then [] else [jumpTo t m .GT (node i).high d]) ++ code)) = tests.code ++ code := by
    unfold tests
    cases hasHigh t node path i <;> rfl
  rw [hcode]
  apply Emitted.before_left tests hok hl
  · intro x hx hlt
    rw [htaken x hx, if_neg (by omega), if_neg (by omega)]
  · intro x hx hix
    unfold CaseNode.Contains at hix
    rw [htaken x hx, if_pos (by omega)]
  · intro x hx hside hlt
    refine ⟨d, ?_, ?_⟩
    · have hnot := hok.hasHigh_eq_false hside hx hlt
      rw [htaken x hx, if_neg (by omega), if_pos ⟨hnot, hlt⟩]
    · rw [hrs]
      exact Goes.nil

/-- A range with a tree above it. Source: `stmt.c` `emit_case_nodes`. Kind: L -/
theorem emitted_range_right (hls : ls = []) (hr : Emitted t node d (i :: path) rs n code n') :
    Emitted t node d path (ls ++ i :: rs) n ((if hasLow t node path i then [] else [jumpTo t m .LT (node i).low d]) ++
      jumpTo t m .LE (node i).high (node i).codeLabel :: code) n' := by
  obtain ⟨hle, hhaslow, hhashigh⟩ := hok.mid
  let last := (cmpIndex t m .LE (node i).high, (node i).codeLabel)
  let tests : Tests m L := if hasLow t node path i then [last] else [(cmpIndex t m .LT (node i).low, d), last]
  have htaken : ∀ x, t.Has x → tests.taken x =
      if hasLow t node path i = false ∧ x < (node i).low then some d
      else if x ≤ (node i).high then some (node i).codeLabel else none := by
    intro x hx
    rw [Tests.taken_unless hm hx hhaslow, Tests.taken_cons hm hx hhashigh]
    simp only [Cmp.holds, decide_eq_true_eq, Tests.taken]
  have hcode : ((if hasLow t node path i then [] else [jumpTo t m .LT (node i).low d]) ++
      jumpTo t m .LE (node i).high (node i).codeLabel :: code) = tests.code ++ code := by
    unfold tests
    cases hasLow t node path i <;> rfl
  rw [hcode]
  apply Emitted.before_right tests hok hr
  · intro x hx hside hlt
    refine ⟨d, ?_, ?_⟩
    · have hnot := hok.hasLow_eq_false hside hx hlt
      rw [htaken x hx, if_pos ⟨hnot, hlt⟩]
    · rw [hls]
      exact Goes.nil
  · intro x hx hix
    unfold CaseNode.Contains at hix
    rw [htaken x hx, if_neg (by omega), if_pos hix.2]
  · intro x hx hlt
    rw [htaken x hx, if_neg (by omega), if_neg (by omega)]

/-- A range with a tree below it. Source: `stmt.c` `emit_case_nodes`. Kind: L -/
theorem emitted_range_left (hrs : rs = []) (hl : Emitted t node d (i :: path) ls n code n') :
    Emitted t node d path (ls ++ i :: rs) n ((if hasHigh t node path i then [] else [jumpTo t m .GT (node i).high d]) ++
      jumpTo t m .GE (node i).low (node i).codeLabel :: code) n' := by
  obtain ⟨hle, hhaslow, hhashigh⟩ := hok.mid
  let last := (cmpIndex t m .GE (node i).low, (node i).codeLabel)
  let tests : Tests m L := if hasHigh t node path i then [last] else [(cmpIndex t m .GT (node i).high, d), last]
  have htaken : ∀ x, t.Has x → tests.taken x =
      if hasHigh t node path i = false ∧ (node i).high < x then some d
      else if (node i).low ≤ x then some (node i).codeLabel else none := by
    intro x hx
    rw [Tests.taken_unless hm hx hhashigh, Tests.taken_cons hm hx hhaslow]
    simp only [Cmp.holds, decide_eq_true_eq, Tests.taken]
  have hcode : ((if hasHigh t node path i then [] else [jumpTo t m .GT (node i).high d]) ++
      jumpTo t m .GE (node i).low (node i).codeLabel :: code) = tests.code ++ code := by
    unfold tests
    cases hasHigh t node path i <;> rfl
  rw [hcode]
  apply Emitted.before_left tests hok hl
  · intro x hx hlt
    rw [htaken x hx, if_neg (by omega), if_neg (by omega)]
  · intro x hx hix
    unfold CaseNode.Contains at hix
    rw [htaken x hx, if_neg (by omega), if_pos hix.1]
  · intro x hx hside hlt
    refine ⟨d, ?_, ?_⟩
    · have hnot := hok.hasHigh_eq_false hside hx hlt
      rw [htaken x hx, if_pos ⟨hnot, hlt⟩]
    · rw [hrs]
      exact Goes.nil

/-- The tests of a range without children: only for the bounds that are not settled.
Source: `stmt.c` `emit_case_nodes` -/
def leafTests (t : IndexType) (m : ℕ) (nd : CaseNode L) (d : L) : Bool → Bool → Tests m L
  | true, false => [(cmpIndex t m .GT nd.high, d)]
  | false, true => [(cmpIndex t m .LT nd.low, d)]
  | false, false => [(cmpOutside m nd.low nd.high, d)]
  | true, true => []

/-- Values outside of the range go to the default. Source: `stmt.c` `emit_case_nodes`. Kind: L -/
theorem taken_leafTests {low high : Bool} (hx : t.Has x) (hlow : low = true → (node i).low ≤ x)
    (hhigh : high = true → x ≤ (node i).high) :
    (leafTests t m (node i) d low high).taken x = if x < (node i).low ∨ (node i).high < x then some d else none := by
  obtain ⟨hle, hhaslow, hhashigh⟩ := hok.mid
  cases low <;> cases high
  · rw [leafTests, Tests.taken, eval_cmpOutside hm hx hhaslow hhashigh hle]
    simp only [decide_eq_true_eq, Tests.taken]
  · have := hhigh rfl
    rw [leafTests, Tests.taken_cons hm hx hhaslow]
    simp only [Cmp.holds, decide_eq_true_eq, Tests.taken, not_lt.mpr this, or_false]
  · have := hlow rfl
    rw [leafTests, Tests.taken_cons hm hx hhashigh]
    simp only [Cmp.holds, decide_eq_true_eq, Tests.taken, not_lt.mpr this, false_or]
  · rw [leafTests, Tests.taken, if_neg]
    have := hlow rfl
    have := hhigh rfl
    omega

/-- A range without children. Source: `stmt.c` `emit_case_nodes`. Kind: L -/
theorem emitted_range_leaf (hls : ls = []) (hrs : rs = []) :
    Emitted t node d path (ls ++ i :: rs) n
      ((leafTests t m (node i) d (hasLow t node path i) (hasHigh t node path i)).code ++
        [.jump (.case (node i).codeLabel)]) n := by
  refine ⟨le_refl n, ?_, ?_⟩
  · rw [labels_append, Tests.labels_code]
    exact fun l hl => absurd hl List.not_mem_nil
  · intro x hx hside prog pre post hprog
    have htaken := taken_leafTests (d := d) hm hok hx (hok.low_le_of_hasLow hside hx) (hok.le_high_of_hasHigh hside hx)
    rw [List.append_assoc] at hprog ⊢
    apply Leads.split hok.ascending hok.low_le
    · intro hlt
      rw [if_pos (Or.inl hlt)] at htaken
      rw [hls]
      exact Leads.of_goes Goes.nil (hprog.ends_of_taken htaken)
    · intro hix
      unfold CaseNode.Contains at hix
      rw [if_neg (by omega)] at htaken
      have hjump : Leads prog ([.jump (.case (node i).codeLabel)] ++ post) post node (ls ++ i :: rs) d x :=
        Leads.here hok.ascending (by simp) hix (Ends.jump_out (hprog.after_case _))
      exact (hjump.of_not_taken htaken).found i (by simp) hix
    · intro hlt
      rw [if_pos (Or.inr hlt)] at htaken
      rw [hrs]
      exact Leads.of_goes Goes.nil (hprog.ends_of_taken htaken)

end NodeShapes

section Values

variable {path ids : List ℕ} {i n : ℕ}

/-- One comparison for each of some single values. Source: `stmt.c` `emit_case_nodes` (`do_jump_if_equal`). -/
def valueTests (t : IndexType) (m : ℕ) (node : ℕ → CaseNode L) (js : List ℕ) : Tests m L :=
  js.map fun j => (cmpIndex t m .EQ (node j).low, (node j).codeLabel)

theorem taken_valueTests (hm : t.prec ≤ m) (hx : t.Has x) : ∀ {js : List ℕ}, (∀ j ∈ js, t.Has (node j).low) →
    ((valueTests t m node js).taken x = none ∧ ∀ j ∈ js, (node j).low ≠ x) ∨
      ∃ j ∈ js, (node j).low = x ∧ (valueTests t m node js).taken x = some (node j).codeLabel
  | [], _ => Or.inl ⟨rfl, fun j hj => absurd hj List.not_mem_nil⟩
  | j :: js, hhas => by
    obtain ⟨hj, hjs⟩ := List.forall_mem_cons.mp hhas
    have hstep : (valueTests t m node (j :: js)).taken x =
        if x = (node j).low then some (node j).codeLabel else (valueTests t m node js).taken x := by
      unfold valueTests
      rw [List.map_cons, Tests.taken_cons hm hx hj]
      simp only [Cmp.holds, decide_eq_true_eq]
    rw [hstep]
    by_cases heq : x = (node j).low
    · rw [if_pos heq]
      exact Or.inr ⟨j, List.mem_cons_self, heq.symm, rfl⟩
    · rw [if_neg heq]
      rcases taken_valueTests hm hx hjs with ⟨hnone, hall⟩ | ⟨k, hk, hkx, hsome⟩
      · exact Or.inl ⟨hnone, List.forall_mem_cons.mpr ⟨Ne.symm heq, hall⟩⟩
      · exact Or.inr ⟨k, List.mem_cons_of_mem j hk, hkx, hsome⟩

/-- **Single values only**: one comparison for each, in any order. Source: `stmt.c` `emit_case_nodes`. Kind: L -/
theorem emitted_values (js : List ℕ) (hm : t.prec ≤ m) (hok : NodesOk t node path ids) (hmem : ∀ j, j ∈ js ↔ j ∈ ids)
    (hval : ∀ j ∈ js, (node j).low = (node j).high) :
    Emitted t node d path ids n (valueTests t m node js).code n := by
  have hhas : ∀ j ∈ js, t.Has (node j).low := fun j hj => hok.has_low j ((hmem j).mp hj)
  apply Emitted.tests_only
  · intro x hx l hl
    rcases taken_valueTests hm hx hhas with ⟨hnone, _⟩ | ⟨j, hj, hjx, hsome⟩
    · rw [hnone] at hl
      cases hl
    · rw [hsome] at hl
      cases hl
      apply Goes.of_contains hok.ascending ((hmem j).mp hj)
      exact ⟨le_of_eq hjx, le_of_eq (hjx.symm.trans (hval j hj))⟩
  · intro x hx hnone j hj hjx
    have hjs := (hmem j).mpr hj
    have hjval := hval j hjs
    unfold CaseNode.Contains at hjx
    rcases taken_valueTests hm hx hhas with ⟨_, hall⟩ | ⟨k, _, _, hsome⟩
    · exact hall j hjs (by omega)
    · rw [hsome] at hnone
      cases hnone

end Values

end GccCore.Gcc.SwitchLower
