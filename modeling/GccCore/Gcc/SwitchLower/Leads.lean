import GccCore.Gcc.SwitchLower.Emit

/-!
# Where the code for a case tree leads

The code for a tree is looked at inside of a program: some code before it, and some code behind it to which it may fall
through.

* **Where code leads** (`Leads`): to the label of the range that contains the index, or else to the default or through.
* **What code for a tree is to do** (`Emitted`), for every value that is on the right side of the ancestors.
* **Tests in front of a tree** (`Emitted.before_left`, `Emitted.before_right`) or of none (`Emitted.tests_only`).
-/

set_option linter.unusedSectionVars false

namespace GccCore.Gcc.SwitchLower

open GccCore.Lib GccCore.Lib.MachineInt GccCore.Lib.LabelledCode

variable {L : Type} [DecidableEq L] {t : IndexType} {m : ℕ} {node : ℕ → CaseNode L} {d : L} {x : ℤ}

/-! ## Where code leads -/

/-- Running the code at `start` leads to the label of the range that contains the index; if there is none, it leads to the
default label, perhaps by way of the code at `post`. -/
structure Leads (prog start post : Code m L) (node : ℕ → CaseNode L) (ids : List ℕ) (d : L) (x : ℤ) : Prop where
  found : ∀ j ∈ ids, (node j).Contains x → Ends (Cond.eval (BitVec.ofInt m x)) prog start (.case (node j).codeLabel)
  notFound : (∀ j ∈ ids, ¬ (node j).Contains x) → Ends (Cond.eval (BitVec.ofInt m x)) prog post (.case d) →
    Ends (Cond.eval (BitVec.ofInt m x)) prog start (.case d)

section Rules

variable {prog start start' post post' : Code m L} {ids ls rs : List ℕ} {i : ℕ} {c : Cond m} {l : Label L}

/-- The order of the ranges of a list of nodes. -/
def Ascending (node : ℕ → CaseNode L) (ids : List ℕ) : Prop := ids.Pairwise fun i j => (node i).high < (node j).low

theorem Leads.here (hsorted : Ascending node ids) (hi : i ∈ ids) (hix : (node i).Contains x)
    (hend : Ends (Cond.eval (BitVec.ofInt m x)) prog start (.case (node i).codeLabel)) :
    Leads prog start post node ids d x := by
  refine ⟨?_, fun hno => absurd hix (hno i hi)⟩
  intro j hj hjx
  rw [eq_of_contains hsorted hj hi hjx hix]
  exact hend

theorem Leads.through (hno : ∀ j ∈ ids, ¬ (node j).Contains x) : Leads prog post post node ids d x :=
  ⟨fun j hj hjx => absurd hjx (hno j hj), fun _ hend => hend⟩

theorem Leads.branch_not (hc : c.eval (BitVec.ofInt m x) = false) (h : Leads prog start post node ids d x) :
    Leads prog (.branch c l :: start) post node ids d x :=
  ⟨fun j hj hjx => (h.found j hj hjx).branch_not hc, fun hno hend => (h.notFound hno hend).branch_not hc⟩

theorem Leads.branch_in (hc : c.eval (BitVec.ofInt m x) = true) (hafter : after l prog = some start')
    (h : Leads prog start' post node ids d x) : Leads prog (.branch c l :: start) post node ids d x :=
  ⟨fun j hj hjx => (h.found j hj hjx).branch_in hc hafter, fun hno hend => (h.notFound hno hend).branch_in hc hafter⟩

/-- If the code behind leads to the default, it does not matter what is behind it. -/
theorem Leads.of_post (h : Leads prog start post' node ids d x)
    (hend : Ends (Cond.eval (BitVec.ofInt m x)) prog post' (.case d)) : Leads prog start post node ids d x :=
  ⟨h.found, fun hno _ => h.notFound hno hend⟩

/-- **A node between two trees**: a value below it is looked for on the left, a value above it on the right. -/
theorem Leads.split (hsorted : Ascending node (ls ++ i :: rs)) (hle : ∀ j ∈ ls ++ i :: rs, (node j).low ≤ (node j).high)
    (hleft : x < (node i).low → Leads prog start post node ls d x)
    (hhere : (node i).Contains x → Ends (Cond.eval (BitVec.ofInt m x)) prog start (.case (node i).codeLabel))
    (hright : (node i).high < x → Leads prog start post node rs d x) :
    Leads prog start post node (ls ++ i :: rs) d x := by
  obtain ⟨_, hcons, hcross⟩ := List.pairwise_append.mp hsorted
  obtain ⟨hafter, _⟩ := List.pairwise_cons.mp hcons
  have hi := hle i (by simp)
  unfold CaseNode.Contains at *
  rcases lt_or_ge x (node i).low with hlow | hlow
  · have hleads := hleft hlow
    refine ⟨?_, fun hno hend => hleads.notFound (fun j hj => hno j (by simp [hj])) hend⟩
    intro j hj hjx
    rcases List.mem_append.mp hj with hmem | hmem
    · exact hleads.found j hmem hjx
    · rcases List.mem_cons.mp hmem with rfl | hmem
      · unfold CaseNode.Contains at hjx
        omega
      · have := hafter j hmem
        unfold CaseNode.Contains at hjx
        omega
  · rcases le_or_gt x (node i).high with hhigh | hhigh
    · exact Leads.here hsorted (by simp) ⟨hlow, hhigh⟩ (hhere ⟨hlow, hhigh⟩)
    · have hleads := hright hhigh
      refine ⟨?_, fun hno hend => hleads.notFound (fun j hj => hno j (by simp [hj])) hend⟩
      intro j hj hjx
      rcases List.mem_append.mp hj with hmem | hmem
      · have := hcross j hmem i List.mem_cons_self
        unfold CaseNode.Contains at hjx
        omega
      · rcases List.mem_cons.mp hmem with rfl | hmem
        · unfold CaseNode.Contains at hjx
          omega
        · exact hleads.found j hmem hjx

end Rules

/-! ## Code in a program -/

/-- Code that stands in a program behind `pre`: the labels of cases are outside of the program, and labels for tests that
stand before were made before. -/
structure InProgram (prog pre : Code m L) (n : ℕ) (start : Code m L) : Prop where
  eq : prog = pre ++ start
  no_case : ∀ l, Label.case l ∉ labels prog
  test_lt : ∀ k, Label.test k ∈ labels pre → k < n

/-- What is needed of the nodes of a tree and of its ancestors. -/
structure NodesOk (t : IndexType) (node : ℕ → CaseNode L) (path ids : List ℕ) : Prop where
  low_le : ∀ j ∈ ids, (node j).low ≤ (node j).high
  has_low : ∀ j ∈ ids, t.Has (node j).low
  has_high : ∀ j ∈ ids, t.Has (node j).high
  ascending : Ascending node ids
  path_le : ∀ p ∈ path, (node p).low ≤ (node p).high

/-- What the code for a tree is to do: it has labels of its own only, and leads to the right case for every value that is on
the right side of the ancestors. -/
structure Emitted (t : IndexType) (node : ℕ → CaseNode L) (d : L) (path ids : List ℕ) (n : ℕ) (code : Code m L)
    (n' : ℕ) : Prop where
  le : n ≤ n'
  labels_lt : ∀ l ∈ labels code, ∃ k, l = Label.test k ∧ n ≤ k ∧ k < n'
  leads : ∀ x, t.Has x → Side node path ids x → ∀ prog pre post, InProgram prog pre n (code ++ post) →
    Leads prog (code ++ post) post node ids d x

section Shapes

variable {path ls rs ids : List ℕ} {i n n' n₁ n₂ : ℕ} {prog pre post heads code codeLeft codeRight : Code m L}

theorem InProgram.skip (h : InProgram prog pre n (heads ++ code)) (hle : n ≤ n')
    (hheads : ∀ k, Label.test k ∈ labels heads → k < n') : InProgram prog (pre ++ heads) n' code := by
  refine ⟨?_, h.no_case, ?_⟩
  · rw [h.eq, List.append_assoc]
  · intro k hk
    rw [labels_append, List.mem_append] at hk
    rcases hk with hk | hk
    · exact lt_of_lt_of_le (h.test_lt k hk) hle
    · exact hheads k hk

theorem InProgram.skip_nolabel (h : InProgram prog pre n (heads ++ code)) (hheads : labels heads = []) :
    InProgram prog (pre ++ heads) n code :=
  h.skip (le_refl n) (by rw [hheads]; exact fun k hk => absurd hk List.not_mem_nil)

/-- A jump to the label of a case leaves the program. -/
theorem InProgram.after_case (h : InProgram prog pre n code) (l : L) : after (Label.case l) prog = none :=
  after_eq_none (h.no_case l)

theorem NodesOk.left (h : NodesOk t node path (ls ++ i :: rs)) : NodesOk t node (i :: path) ls := by
  have hsub : ∀ j ∈ ls, j ∈ ls ++ i :: rs := fun j hj => List.mem_append_left _ hj
  refine ⟨fun j hj => h.low_le j (hsub j hj), fun j hj => h.has_low j (hsub j hj), fun j hj => h.has_high j (hsub j hj),
    (List.pairwise_append.mp h.ascending).1, ?_⟩
  rw [List.forall_mem_cons]
  exact ⟨h.low_le i (by simp), h.path_le⟩

theorem NodesOk.right (h : NodesOk t node path (ls ++ i :: rs)) : NodesOk t node (i :: path) rs := by
  have hsub : ∀ j ∈ rs, j ∈ ls ++ i :: rs := fun j hj => List.mem_append_right _ (List.mem_cons_of_mem i hj)
  refine ⟨fun j hj => h.low_le j (hsub j hj), fun j hj => h.has_low j (hsub j hj), fun j hj => h.has_high j (hsub j hj),
    (List.pairwise_cons.mp (List.pairwise_append.mp h.ascending).2.1).2, ?_⟩
  rw [List.forall_mem_cons]
  exact ⟨h.low_le i (by simp), h.path_le⟩

/-- A value below a node is on the side of its left tree. Source: `stmt.c` `emit_case_nodes`. Kind: L -/
theorem NodesOk.side_left (h : NodesOk t node path (ls ++ i :: rs)) (hside : Side node path (ls ++ i :: rs) x)
    (hlt : x < (node i).low) : Side node (i :: path) ls x := by
  unfold Side
  rw [List.forall_mem_cons]
  refine ⟨Or.inr ⟨hlt, ?_⟩, ?_⟩
  · intro j hj
    exact (List.pairwise_append.mp h.ascending).2.2 j hj i List.mem_cons_self
  · intro p hp
    rcases hside p hp with ⟨hx, hall⟩ | ⟨hx, hall⟩
    · exact Or.inl ⟨hx, fun j hj => hall j (List.mem_append_left _ hj)⟩
    · exact Or.inr ⟨hx, fun j hj => hall j (List.mem_append_left _ hj)⟩

/-- A value above a node is on the side of its right tree. Source: `stmt.c` `emit_case_nodes`. Kind: L -/
theorem NodesOk.side_right (h : NodesOk t node path (ls ++ i :: rs)) (hside : Side node path (ls ++ i :: rs) x)
    (hlt : (node i).high < x) : Side node (i :: path) rs x := by
  have hmem : ∀ j ∈ rs, j ∈ ls ++ i :: rs := fun j hj => List.mem_append_right _ (List.mem_cons_of_mem i hj)
  unfold Side
  rw [List.forall_mem_cons]
  refine ⟨Or.inl ⟨hlt, ?_⟩, ?_⟩
  · intro j hj
    exact (List.pairwise_cons.mp (List.pairwise_append.mp h.ascending).2.1).1 j hj
  · intro p hp
    rcases hside p hp with ⟨hx, hall⟩ | ⟨hx, hall⟩
    · exact Or.inl ⟨hx, fun j hj => hall j (hmem j hj)⟩
    · exact Or.inr ⟨hx, fun j hj => hall j (hmem j hj)⟩

/-- A bounded node contains every value that gets to it. Source: `stmt.c` `node_is_bounded`. Kind: L -/
theorem NodesOk.contains_of_bounded (h : NodesOk t node path ids) (hside : Side node path ids x) (hx : t.Has x)
    (hi : i ∈ ids) (hlow : hasLow t node path i = true) (hhigh : hasHigh t node path i = true) : (node i).Contains x :=
  ⟨le_of_hasLow hside hi hx (h.has_low i hi) (h.low_le i hi) h.path_le hlow,
    le_of_hasHigh hside hi hx (h.has_high i hi) (h.low_le i hi) h.path_le hhigh⟩

/-- **Trees on both sides**: the code for the left one, a jump to the default, a label and the code for the right one.
Source: `stmt.c` `emit_case_nodes` (`test_label`)
Kind: L -/
theorem two_sides (hl : Emitted t node d (i :: path) ls (n + 1) codeLeft n₁)
    (hr : Emitted t node d (i :: path) rs n₁ codeRight n₂) (hheads : labels heads = [])
    (hprog : InProgram prog pre n
      (heads ++ ((codeLeft ++ .jump (.case d) :: .label (.test n) :: codeRight) ++ post))) :
    after (.test n) prog = some (codeRight ++ post) ∧
      (t.Has x → Side node (i :: path) ls x →
        Leads prog ((codeLeft ++ .jump (.case d) :: .label (.test n) :: codeRight) ++ post) post node ls d x) ∧
      (t.Has x → Side node (i :: path) rs x → Leads prog (codeRight ++ post) post node rs d x) := by
  have hassoc : (codeLeft ++ .jump (.case d) :: .label (.test n) :: codeRight) ++ post =
      codeLeft ++ (.jump (.case d) :: .label (.test n) :: (codeRight ++ post)) := by simp
  rw [hassoc] at hprog ⊢
  have hbefore := hprog.skip_nolabel hheads
  have hnot : Label.test n ∉ labels (pre ++ heads ++ codeLeft) := by
    rw [labels_append, List.mem_append, not_or]
    refine ⟨fun hmem => absurd (hbefore.test_lt n hmem) (lt_irrefl n), ?_⟩
    intro hmem
    obtain ⟨k, hk, hle, _⟩ := hl.labels_lt _ hmem
    cases hk
    omega
  refine ⟨?_, ?_, ?_⟩
  · rw [hbefore.eq, ← List.append_assoc, after_append hnot]
    exact after_label
  · intro hx hside
    have hstart : InProgram prog (pre ++ heads) (n + 1)
        (codeLeft ++ (.jump (.case d) :: .label (.test n) :: (codeRight ++ post))) :=
      ⟨hbefore.eq, hbefore.no_case, fun k hk => Nat.lt_succ_of_lt (hbefore.test_lt k hk)⟩
    apply (hl.leads x hx hside prog _ _ hstart).of_post
    exact Ends.jump_out (hbefore.after_case d)
  · intro hx hside
    have hstart : InProgram prog (pre ++ heads ++ codeLeft ++ [.jump (.case d), .label (.test n)]) n₁
        (codeRight ++ post) := by
      have hsplit : codeLeft ++ (.jump (.case d) :: .label (.test n) :: (codeRight ++ post)) =
          (codeLeft ++ [.jump (.case d), .label (.test n)]) ++ (codeRight ++ post) := by simp
      rw [hsplit] at hbefore
      rw [List.append_assoc (pre ++ heads)]
      apply hbefore.skip (le_trans (Nat.le_succ n) hl.le)
      intro k hk
      rw [labels_append, List.mem_append] at hk
      rcases hk with hk | hk
      · obtain ⟨k', hk', _, hlt⟩ := hl.labels_lt _ hk
        cases hk'
        exact hlt
      · have hk' : k = n := by simpa [labels] using hk
        have := hl.le
        omega
    exact hr.leads x hx hside prog _ _ hstart

/-- The labels of that code. -/
theorem two_sides_labels (hl : Emitted t node d (i :: path) ls (n + 1) codeLeft n₁)
    (hr : Emitted t node d (i :: path) rs n₁ codeRight n₂) (hheads : labels heads = []) :
    n ≤ n₂ ∧ ∀ l ∈ labels (heads ++ (codeLeft ++ .jump (.case d) :: .label (.test n) :: codeRight)),
      ∃ k, l = Label.test k ∧ n ≤ k ∧ k < n₂ := by
  have hle := hl.le
  have hle' := hr.le
  refine ⟨by omega, ?_⟩
  intro l hl'
  rw [labels_append, hheads, List.nil_append, labels_append, List.mem_append] at hl'
  rcases hl' with hmem | hmem
  · obtain ⟨k, hk, hkn, hkn'⟩ := hl.labels_lt l hmem
    exact ⟨k, hk, by omega, by omega⟩
  · rcases List.mem_cons.mp hmem with rfl | hmem
    · exact ⟨n, rfl, le_refl n, by omega⟩
    · obtain ⟨k, hk, hkn, hkn'⟩ := hr.labels_lt l hmem
      exact ⟨k, hk, by omega, by omega⟩

end Shapes

/-! ## Tests that jump to cases -/

/-- Conditions with the cases they jump to. Source: `stmt.c` `emit_case_nodes`. -/
abbrev Tests (m : ℕ) (L : Type) := List (Cond m × L)

/-- The code for a list of tests. Source: `stmt.c` `emit_case_nodes`. -/
def Tests.code (tests : Tests m L) : Code m L := tests.map fun c => .branch c.1 (.case c.2)

/-- The case of the first test that holds. -/
def Tests.taken (tests : Tests m L) (x : ℤ) : Option L :=
  match tests with
  | [] => none
  | c :: tests => if c.1.eval (BitVec.ofInt m x) then some c.2 else taken tests x

/-- A comparison with a constant of the type decides, or else the tests behind it. -/
theorem Tests.taken_cons {tests : Tests m L} (hm : t.prec ≤ m) {v : ℤ} (hx : t.Has x) (hv : t.Has v) (op : Cmp) (l : L) :
    Tests.taken ((cmpIndex t m op v, l) :: tests) x = if op.holds x v then some l else tests.taken x := by
  rw [Tests.taken, eval_cmpIndex hm hx hv]

/-- A comparison that is left out if its bound is settled. Source: `stmt.c` `emit_case_nodes`. Kind: L -/
theorem Tests.taken_unless {tests : Tests m L} {settled : Bool} (hm : t.prec ≤ m) {v : ℤ} (hx : t.Has x) (hv : t.Has v) (op : Cmp) (l : L) :
    Tests.taken (if settled then tests else (cmpIndex t m op v, l) :: tests) x =
      if settled = false ∧ op.holds x v then some l else tests.taken x := by
  cases settled
  · rw [if_neg Bool.false_ne_true, Tests.taken_cons hm hx hv]
    simp only [true_and]
  · simp only [if_true, Bool.true_eq_false, false_and, if_false]

/-- The label is the one of the range that contains the value, or the default. -/
structure Goes (node : ℕ → CaseNode L) (ids : List ℕ) (d : L) (x : ℤ) (l : L) : Prop where
  found : ∀ j ∈ ids, (node j).Contains x → l = (node j).codeLabel
  notFound : (∀ j ∈ ids, ¬ (node j).Contains x) → l = d

section Taken

variable {path ls rs ids : List ℕ} {i n n' : ℕ} {prog pre post start code : Code m L} {tests : Tests m L} {l : L}

theorem Tests.labels_code (tests : Tests m L) : labels tests.code = [] := by
  induction tests with
  | nil => rfl
  | cons c tests ih => exact ih

theorem InProgram.ends_of_taken (h : InProgram prog pre n code) : ∀ {tests : Tests m L}, tests.taken x = some l →
    Ends (Cond.eval (BitVec.ofInt m x)) prog (tests.code ++ start) (.case l)
  | [], htaken => by cases htaken
  | c :: tests, htaken => by
    unfold Tests.taken at htaken
    split at htaken
    · rename_i hc
      cases htaken
      exact Ends.branch_out hc (h.after_case c.2)
    · rename_i hc
      exact Ends.branch_not (Bool.eq_false_iff.mpr hc) (h.ends_of_taken htaken)

theorem Leads.of_not_taken (h : Leads prog start post node ids d x) : ∀ {tests : Tests m L}, tests.taken x = none →
    Leads prog (tests.code ++ start) post node ids d x
  | [], _ => h
  | c :: tests, htaken => by
    unfold Tests.taken at htaken
    split at htaken
    · cases htaken
    · rename_i hc
      exact Leads.branch_not (Bool.eq_false_iff.mpr hc) (h.of_not_taken htaken)

theorem Leads.of_goes (h : Goes node ids d x l) (hend : Ends (Cond.eval (BitVec.ofInt m x)) prog start (.case l)) :
    Leads prog start post node ids d x := by
  refine ⟨?_, ?_⟩
  · intro j hj hjx
    rw [← h.found j hj hjx]
    exact hend
  · intro hno _
    rw [← h.notFound hno]
    exact hend

/-- The only range that such a value can be in. -/
theorem Goes.of_contains (hsorted : Ascending node ids) (hi : i ∈ ids) (hix : (node i).Contains x) :
    Goes node ids d x (node i).codeLabel :=
  ⟨fun j hj hjx => by rw [eq_of_contains hsorted hj hi hjx hix], fun hno => absurd hix (hno i hi)⟩

theorem Goes.nil : Goes node [] d x d := ⟨fun _ hj => absurd hj List.not_mem_nil, fun _ => rfl⟩

theorem NodesOk.mid (h : NodesOk t node path (ls ++ i :: rs)) :
    (node i).low ≤ (node i).high ∧ t.Has (node i).low ∧ t.Has (node i).high := by
  have hi : i ∈ ls ++ i :: rs := by simp
  exact ⟨h.low_le i hi, h.has_low i hi, h.has_high i hi⟩

theorem NodesOk.low_le_of_hasLow (h : NodesOk t node path (ls ++ i :: rs)) (hside : Side node path (ls ++ i :: rs) x)
    (hx : t.Has x) (hlow : hasLow t node path i = true) : (node i).low ≤ x :=
  le_of_hasLow hside (by simp) hx h.mid.2.1 h.mid.1 h.path_le hlow

theorem NodesOk.le_high_of_hasHigh (h : NodesOk t node path (ls ++ i :: rs)) (hside : Side node path (ls ++ i :: rs) x)
    (hx : t.Has x) (hhigh : hasHigh t node path i = true) : x ≤ (node i).high :=
  le_of_hasHigh hside (by simp) hx h.mid.2.2 h.mid.1 h.path_le hhigh

theorem NodesOk.hasLow_eq_false (h : NodesOk t node path (ls ++ i :: rs)) (hside : Side node path (ls ++ i :: rs) x)
    (hx : t.Has x) (hlt : x < (node i).low) : hasLow t node path i = false :=
  Bool.eq_false_iff.mpr fun hlow => absurd (h.low_le_of_hasLow hside hx hlow) (not_le.mpr hlt)

theorem NodesOk.hasHigh_eq_false (h : NodesOk t node path (ls ++ i :: rs)) (hside : Side node path (ls ++ i :: rs) x)
    (hx : t.Has x) (hlt : (node i).high < x) : hasHigh t node path i = false :=
  Bool.eq_false_iff.mpr fun hhigh => absurd (h.le_high_of_hasHigh hside hx hhigh) (not_le.mpr hlt)

/-- **Tests in front of the left tree**: they catch the node itself and what is above it.
Source: `stmt.c` `emit_case_nodes`
Kind: L -/
theorem Emitted.before_left (tests : Tests m L) (hok : NodesOk t node path (ls ++ i :: rs)) (hl : Emitted t node d (i :: path) ls n code n')
    (hbelow : ∀ x, t.Has x → x < (node i).low → tests.taken x = none)
    (hhere : ∀ x, t.Has x → (node i).Contains x → tests.taken x = some (node i).codeLabel)
    (habove : ∀ x, t.Has x → Side node path (ls ++ i :: rs) x → (node i).high < x →
      ∃ l, tests.taken x = some l ∧ Goes node rs d x l) :
    Emitted t node d path (ls ++ i :: rs) n (tests.code ++ code) n' := by
  refine ⟨hl.le, ?_, ?_⟩
  · rw [labels_append, tests.labels_code]
    exact hl.labels_lt
  · intro x hx hside prog pre post hprog
    rw [List.append_assoc] at hprog ⊢
    have hstart := hprog.skip_nolabel tests.labels_code
    apply Leads.split hok.ascending hok.low_le
    · intro hlt
      exact (hl.leads x hx (hok.side_left hside hlt) prog _ post hstart).of_not_taken (hbelow x hx hlt)
    · intro hix
      exact hprog.ends_of_taken (hhere x hx hix)
    · intro hlt
      obtain ⟨l, htaken, hgoes⟩ := habove x hx hside hlt
      exact Leads.of_goes hgoes (hprog.ends_of_taken htaken)

/-- **Tests in front of the right tree**: they catch the node itself and what is below it.
Source: `stmt.c` `emit_case_nodes`
Kind: L -/
theorem Emitted.before_right (tests : Tests m L) (hok : NodesOk t node path (ls ++ i :: rs)) (hr : Emitted t node d (i :: path) rs n code n')
    (hbelow : ∀ x, t.Has x → Side node path (ls ++ i :: rs) x → x < (node i).low →
      ∃ l, tests.taken x = some l ∧ Goes node ls d x l)
    (hhere : ∀ x, t.Has x → (node i).Contains x → tests.taken x = some (node i).codeLabel)
    (habove : ∀ x, t.Has x → (node i).high < x → tests.taken x = none) :
    Emitted t node d path (ls ++ i :: rs) n (tests.code ++ code) n' := by
  refine ⟨hr.le, ?_, ?_⟩
  · rw [labels_append, tests.labels_code]
    exact hr.labels_lt
  · intro x hx hside prog pre post hprog
    rw [List.append_assoc] at hprog ⊢
    have hstart := hprog.skip_nolabel tests.labels_code
    apply Leads.split hok.ascending hok.low_le
    · intro hlt
      obtain ⟨l, htaken, hgoes⟩ := hbelow x hx hside hlt
      exact Leads.of_goes hgoes (hprog.ends_of_taken htaken)
    · intro hix
      exact hprog.ends_of_taken (hhere x hx hix)
    · intro hlt
      exact (hr.leads x hx (hok.side_right hside hlt) prog _ post hstart).of_not_taken (habove x hx hlt)

/-- **Tests only**: those that hold go to the right case, and if none holds there is no such case.
Source: `stmt.c` `emit_case_nodes`
Kind: L -/
theorem Emitted.tests_only (tests : Tests m L) (htaken : ∀ x, t.Has x → ∀ l, tests.taken x = some l → Goes node ids d x l)
    (hnone : ∀ x, t.Has x → tests.taken x = none → ∀ j ∈ ids, ¬ (node j).Contains x) :
    Emitted t node d path ids n tests.code n := by
  refine ⟨le_refl n, ?_, ?_⟩
  · rw [tests.labels_code]
    exact fun l hl => absurd hl List.not_mem_nil
  · intro x hx _ prog pre post hprog
    cases hcase : tests.taken x with
    | none => exact (Leads.through (hnone x hx hcase)).of_not_taken hcase
    | some l => exact Leads.of_goes (htaken x hx l hcase) (hprog.ends_of_taken hcase)

end Taken

end GccCore.Gcc.SwitchLower
