import GccCore.Gcc.SwitchLower.Strategy
import GccCore.Lib.LabelledCode
import Mathlib.Data.List.Perm.Subperm

/-!
# `gcc/stmt.c`: switches as bit tests

A switch over few values with few targets becomes a sequence of tests of one bit in masks, one mask for each target.

* **Masks** (`CaseBitTest`), filled value by value (`setBits`) and node by node (`addNode`).
* **What the masks say** (`caseBitTests_spec`): a bit is set in the mask of a target if a case with this target has the value.
* **The code** (`emitCaseBitTests`): a range check, the tests in sorted order, and the default.
-/

set_option linter.unusedSectionVars false

namespace GccCore.Gcc.SwitchLower

open GccCore.Lib.MachineInt GccCore.Lib.LabelledCode

variable {L : Type} [DecidableEq L]

/-! ## Masks -/

/-- Source: `stmt.c` `MAX_CASE_BIT_TESTS`. -/
def maxCaseBitTests : ℕ := 3

/-- Source: `stmt.c` `struct case_bit_test`. -/
structure CaseBitTest (tg : Target) (L : Type) where
  hi : BitVec tg.bitsPerWideInt
  lo : BitVec tg.bitsPerWideInt
  label : L
  bits : ℕ

variable {tg : Target}

/-- A shift by the width or more is undefined. Source: `stmt.c` `emit_case_bit_tests` (`(HOST_WIDE_INT) 1 << j`). -/
def wideBit (w j : ℕ) : Option (BitVec w) := if j < w then some (1#w <<< j) else none

/-- Source: `stmt.c` `emit_case_bit_tests`. -/
def CaseBitTest.setBit (test : CaseBitTest tg L) (j : ℕ) : Option (CaseBitTest tg L) :=
  if tg.bitsPerWideInt ≤ j then
    (wideBit tg.bitsPerWideInt (j - tg.bitsPerInt)).map fun b => { test with hi := test.hi ||| b }
  else (wideBit tg.bitsPerWideInt j).map fun b => { test with lo := test.lo ||| b }

/-- Source: `stmt.c` `emit_case_bit_tests` (`for (j = lo; j <= hi; j++)`). -/
def CaseBitTest.setBits (test : CaseBitTest tg L) (lo hi : ℕ) : Option (CaseBitTest tg L) :=
  (List.range' lo (hi + 1 - lo)).foldlM (fun test j => test.setBit j) test

/-- The values from `lo` to `hi` are added to the test of a label, or to a new one, if `limit` allows it.
Source: `stmt.c` `emit_case_bit_tests` -/
def addNode (label : L) (lo hi : ℕ) : ℕ → List (CaseBitTest tg L) → Option (List (CaseBitTest tg L))
  | limit, [] => if 0 < limit then (CaseBitTest.setBits ⟨0, 0, label, 1⟩ lo hi).map fun c => [c] else none
  | limit, c :: cs =>
    if label = c.label then (CaseBitTest.setBits { c with bits := c.bits + 1 } lo hi).map fun c => c :: cs
    else (addNode label lo hi (limit - 1) cs).map fun cs => c :: cs

/-- The tests for a list of nodes. Source: `stmt.c` `emit_case_bit_tests` (`for (n = nodes; n; n = n->right)`). -/
def caseBitTests (t : IndexType) (node : ℕ → CaseNode L) (minval : ℤ) (ids : List ℕ) : Option (List (CaseBitTest tg L)) :=
  ids.foldlM (fun tests i =>
    (treeLowCst (t.wrap ((node i).low - minval))).bind fun lo =>
      (treeLowCst (t.wrap ((node i).high - minval))).bind fun hi =>
        addNode (node i).codeLabel lo hi maxCaseBitTests tests) []

/-- The order of the tests; `number` is the number of a label. Source: `stmt.c` `case_bit_test_cmp`. -/
def caseBitTestCmp (number : L → ℤ) (d₁ d₂ : CaseBitTest tg L) : ℤ :=
  if d₂.bits ≠ d₁.bits then (d₂.bits : ℤ) - d₁.bits else number d₂.label - number d₁.label

/-- A constant of the word mode from two wide integers. Source: `emit-rtl.c` `immed_double_const`. -/
def immedDoubleConst (w : ℕ) {wide : ℕ} (lo hi : BitVec wide) : Option (BitVec w) :=
  if w ≤ wide then some (lo.setWidth w)
  else if w = 2 * wide then some ((hi ++ lo).setWidth w) else none

/-! ## Code -/

/-- Conditions on the index in a mode of `m` bits, and on the bit that it selects in a word of `w` bits. Source: `optabs.c`
`emit_cmp_and_jump_insns` (`GTU`, `NE`) -/
inductive BitCond (m w : ℕ)
  | gtu (bound : BitVec m)
  | andNe (mask : BitVec w)

/-- The place of the bit that the index selects: the index in the word mode. Source: `stmt.c` `emit_case_bit_tests`. -/
def wordIndex {m : ℕ} (w : ℕ) (index : BitVec m) : ℕ := (index.signExtend w).toNat

/-- Source: `optabs.c` `emit_cmp_and_jump_insns`. -/
def BitCond.eval {m w : ℕ} (index : BitVec m) : BitCond m w → Bool
  | .gtu bound => decide (bound.toNat < index.toNat)
  | .andNe mask => decide (1#w <<< wordIndex w index &&& mask ≠ 0)

/-- One test for each mask, and the default. Source: `stmt.c` `emit_case_bit_tests`. -/
def emitTests {m : ℕ} (d : L) : List (CaseBitTest tg L) → Option (List (Insn (BitCond m tg.wordBits) L))
  | [] => some [.jump d]
  | c :: cs =>
    (immedDoubleConst tg.wordBits c.lo c.hi).bind fun mask =>
      (emitTests d cs).map fun code => .branch (.andNe mask) c.label :: code

/-- Source: `stmt.c` `emit_case_bit_tests`. -/
def emitCaseBitTests (number : L → ℤ) (t : IndexType) (m : ℕ) (node : ℕ → CaseNode L) (minval range : ℤ) (ids : List ℕ)
    (d : L) : Option (List (Insn (BitCond m tg.wordBits) L)) :=
  (caseBitTests t node minval ids : Option (List (CaseBitTest tg L))).bind fun tests =>
    (emitTests d (tests.mergeSort fun a b => decide (caseBitTestCmp number a b ≤ 0))).map fun code =>
      .branch (.gtu (BitVec.ofInt m range)) d :: code

/-! ## What the masks say -/

section Masks

/-- Is the bit of a value set in the two halves of the mask? Source: `stmt.c` `struct case_bit_test`. -/
def CaseBitTest.bit (test : CaseBitTest tg L) (k : ℕ) : Bool :=
  if k < tg.bitsPerWideInt then test.lo.getLsbD k else test.hi.getLsbD (k - tg.bitsPerWideInt)

/-- What is needed of the words of the host and the target. Source: `stmt.c` `lshift_cheap_p`. -/
def Target.WordFits (tg : Target) : Prop :=
  tg.wordBits ≤ tg.bitsPerWideInt ∨ tg.wordBits = 2 * tg.bitsPerWideInt ∧ tg.bitsPerInt = tg.bitsPerWideInt

theorem wideBit_eq {w j : ℕ} (h : j < w) : wideBit w j = some (BitVec.twoPow w j) := by
  rw [BitVec.twoPow_eq]
  exact if_pos h

/-- **One value**: its bit is set, and no other. Source: `stmt.c` `emit_case_bit_tests`. Kind: L -/
theorem CaseBitTest.setBit_spec (hfits : tg.WordFits) (test : CaseBitTest tg L) {j : ℕ} (hj : j < tg.wordBits) :
    ∃ test', test.setBit j = some test' ∧ test'.label = test.label ∧
      ∀ k < tg.wordBits, test'.bit k = (test.bit k || decide (j = k)) := by
  unfold CaseBitTest.setBit
  by_cases hwide : tg.bitsPerWideInt ≤ j
  · -- the upper half is used only if wide integers have the size of an `int`
    obtain ⟨hword, hint⟩ : tg.wordBits = 2 * tg.bitsPerWideInt ∧ tg.bitsPerInt = tg.bitsPerWideInt := by
      rcases hfits with hle | hfits
      · omega
      · exact hfits
    rw [if_pos hwide, hint, wideBit_eq (by omega)]
    refine ⟨_, rfl, rfl, ?_⟩
    intro k hk
    unfold CaseBitTest.bit
    dsimp only
    split_ifs with hlow
    · rw [decide_eq_false (by omega), Bool.or_false]
    · rw [BitVec.getLsbD_or, BitVec.getLsbD_twoPow, decide_eq_true (by omega), Bool.true_and]
      congr 1
      exact decide_eq_decide.mpr (by omega)
  · rw [if_neg hwide, wideBit_eq (by omega)]
    refine ⟨_, rfl, rfl, ?_⟩
    intro k hk
    unfold CaseBitTest.bit
    dsimp only
    split_ifs with hlow
    · rw [BitVec.getLsbD_or, BitVec.getLsbD_twoPow, decide_eq_true (by omega), Bool.true_and]
    · rw [decide_eq_false (by omega), Bool.or_false]

/-- **Some values**. Source: `stmt.c` `emit_case_bit_tests`. Kind: L -/
theorem setBits_list (hfits : tg.WordFits) : ∀ (js : List ℕ) (test : CaseBitTest tg L), (∀ j ∈ js, j < tg.wordBits) →
    ∃ test', js.foldlM (fun test j => test.setBit j) test = some test' ∧ test'.label = test.label ∧
      ∀ k < tg.wordBits, test'.bit k = (test.bit k || decide (k ∈ js))
  | [], test, _ => ⟨test, rfl, rfl, fun k _ => by simp⟩
  | j :: js, test, h => by
    obtain ⟨hj, hjs⟩ := List.forall_mem_cons.mp h
    obtain ⟨test₁, hset, hlabel, hbit⟩ := test.setBit_spec hfits hj
    obtain ⟨test₂, hrest, hlabel', hbit'⟩ := setBits_list hfits js test₁ hjs
    refine ⟨test₂, ?_, hlabel'.trans hlabel, ?_⟩
    · rw [List.foldlM_cons, hset]
      exact hrest
    · intro k hk
      rw [hbit' k hk, hbit k hk, Bool.or_assoc]
      congr 1
      rw [← Bool.decide_or]
      apply decide_eq_decide.mpr
      rw [List.mem_cons, eq_comm]

/-- **The values of a range**. Source: `stmt.c` `emit_case_bit_tests`. Kind: L -/
theorem CaseBitTest.setBits_spec (hfits : tg.WordFits) (test : CaseBitTest tg L) {lo hi : ℕ} (hhi : hi < tg.wordBits) :
    ∃ test', test.setBits lo hi = some test' ∧ test'.label = test.label ∧
      ∀ k < tg.wordBits, test'.bit k = (test.bit k || decide (lo ≤ k ∧ k ≤ hi)) := by
  have hmem : ∀ k, k ∈ List.range' lo (hi + 1 - lo) ↔ lo ≤ k ∧ k ≤ hi := by
    intro k
    rw [List.mem_range'_1]
    omega
  obtain ⟨test', hset, hlabel, hbit⟩ := setBits_list hfits (List.range' lo (hi + 1 - lo)) test (by
    intro j hj
    have := (hmem j).mp hj
    omega)
  refine ⟨test', hset, hlabel, ?_⟩
  intro k hk
  rw [hbit k hk]
  congr 1
  exact decide_eq_decide.mpr (hmem k)

/-- A test for the label has the bit. -/
def Marked (tests : List (CaseBitTest tg L)) (l : L) (k : ℕ) : Prop := ∃ c ∈ tests, c.label = l ∧ c.bit k = true

theorem marked_cons {c : CaseBitTest tg L} {cs : List (CaseBitTest tg L)} {l : L} {k : ℕ} :
    Marked (c :: cs) l k ↔ (c.label = l ∧ c.bit k = true) ∨ Marked cs l k := by
  unfold Marked
  rw [List.exists_mem_cons_iff]

/-- **One node**: the bits of its values are set in the mask of its target; there is room if the target is not new or fewer
than the most targets were seen.
Source: `stmt.c` `emit_case_bit_tests`
Kind: L -/
theorem addNode_spec (hfits : tg.WordFits) (label : L) (lo : ℕ) {hi : ℕ} (hhi : hi < tg.wordBits) :
    ∀ (limit : ℕ) (tests : List (CaseBitTest tg L)), label ∈ tests.map (·.label) ∨ tests.length < limit →
    ∃ tests', addNode label lo hi limit tests = some tests' ∧
      tests'.map (·.label) = (if label ∈ tests.map (·.label) then tests.map (·.label) else tests.map (·.label) ++ [label]) ∧
      ∀ l, ∀ k < tg.wordBits, Marked tests' l k ↔ Marked tests l k ∨ (label = l ∧ lo ≤ k ∧ k ≤ hi)
  | limit, [], hroom => by
    have hpos : 0 < limit := by simpa using hroom
    obtain ⟨test, hset, hlabel, hbit⟩ := @CaseBitTest.setBits_spec L _ tg hfits ⟨0, 0, label, 1⟩ lo hi hhi
    refine ⟨[test], ?_, ?_, ?_⟩
    · unfold addNode
      rw [if_pos hpos, hset]
      rfl
    · simp [hlabel]
    · intro l k hk
      have hempty : (⟨0, 0, label, 1⟩ : CaseBitTest tg L).bit k = false := by
        unfold CaseBitTest.bit
        simp
      rw [marked_cons, hlabel, hbit k hk, hempty]
      unfold Marked
      simp
  | limit, c :: cs, hroom => by
    unfold addNode
    by_cases heq : label = c.label
    · obtain ⟨test, hset, hlabel, hbit⟩ := @CaseBitTest.setBits_spec L _ tg hfits { c with bits := c.bits + 1 } lo hi hhi
      have hold : ∀ k, CaseBitTest.bit { c with bits := c.bits + 1 } k = c.bit k := fun k => rfl
      rw [if_pos heq, hset]
      refine ⟨test :: cs, rfl, ?_, ?_⟩
      · rw [if_pos (by simp [heq]), List.map_cons, List.map_cons, hlabel]
      · intro l k hk
        rw [marked_cons, marked_cons, hlabel, hbit k hk, hold, Bool.or_eq_true, decide_eq_true_eq, heq]
        tauto
    · have hroom' : label ∈ cs.map (·.label) ∨ cs.length < limit - 1 := by
        rw [List.map_cons, List.mem_cons, List.length_cons] at hroom
        rcases hroom with (hroom | hroom) | hroom
        · exact absurd hroom heq
        · exact Or.inl hroom
        · exact Or.inr (by omega)
      obtain ⟨cs', hadd, hlabels, hmarked⟩ := addNode_spec hfits label lo hhi (limit - 1) cs hroom'
      rw [if_neg heq, hadd]
      refine ⟨c :: cs', rfl, ?_, ?_⟩
      · rw [List.map_cons, List.map_cons, hlabels]
        simp only [List.mem_cons, heq, false_or]
        split_ifs <;> rfl
      · intro l k hk
        rw [marked_cons, marked_cons, hmarked l k hk, or_assoc]

variable {t : IndexType} {node : ℕ → CaseNode L} {ids : List ℕ} {minval range : ℤ}

/-- What holds of the tests for some of the nodes. Source: `stmt.c` `emit_case_bit_tests`. -/
structure TestsFor (node : ℕ → CaseNode L) (minval : ℤ) (targets : List L) (js : List ℕ) (tests : List (CaseBitTest tg L)) :
    Prop where
  nodup : (tests.map (·.label)).Nodup
  subset : tests.map (·.label) ⊆ targets
  marked_iff : ∀ l, ∀ k < tg.wordBits,
    Marked tests l k ↔ ∃ i ∈ js, (node i).codeLabel = l ∧ (node i).low ≤ minval + k ∧ minval + k ≤ (node i).high

/-- One more node. Source: `stmt.c` `emit_case_bit_tests`. Kind: L -/
theorem TestsFor.add (hfits : tg.WordFits) (hwindow : Window t node ids minval range) (hrange : range < tg.wordBits)
    {targets : List L} (htargets : targets.length ≤ maxCaseBitTests) {js : List ℕ} {tests : List (CaseBitTest tg L)}
    (h : TestsFor node minval targets js tests) {j : ℕ} (hj : j ∈ ids) (hle : (node j).low ≤ (node j).high)
    (hmem : (node j).codeLabel ∈ targets) :
    ∃ tests', ((treeLowCst (t.wrap ((node j).low - minval))).bind fun lo =>
        (treeLowCst (t.wrap ((node j).high - minval))).bind fun hi =>
          addNode (node j).codeLabel lo hi maxCaseBitTests tests) = some tests' ∧
      TestsFor node minval targets (js ++ [j]) tests' := by
  have hlow := hwindow.minval_le j hj
  have hhigh := hwindow.le_last j hj
  rw [hwindow.treeLowCst_eq hlow (by omega), hwindow.treeLowCst_eq (by omega) hhigh, Option.bind_some, Option.bind_some]
  have hroom : (node j).codeLabel ∈ tests.map (·.label) ∨ tests.length < maxCaseBitTests := by
    by_cases hold : (node j).codeLabel ∈ tests.map (·.label)
    · exact Or.inl hold
    · -- a new target is one more of those that were counted
      right
      have hsub : (node j).codeLabel :: tests.map (·.label) ⊆ targets := List.cons_subset.mpr ⟨hmem, h.subset⟩
      have hcount := ((List.nodup_cons.mpr ⟨hold, h.nodup⟩).subperm hsub).length_le
      rw [List.length_cons, List.length_map] at hcount
      omega
  have hhi : ((node j).high - minval).toNat < tg.wordBits := by omega
  obtain ⟨tests', hadd, hlabels, hmarked⟩ :=
    addNode_spec hfits (node j).codeLabel ((node j).low - minval).toNat hhi _ tests hroom
  refine ⟨tests', hadd, ?_, ?_, ?_⟩
  · rw [hlabels]
    split_ifs with hold
    · exact h.nodup
    · rw [← List.concat_eq_append]
      exact h.nodup.concat hold
  · rw [hlabels]
    split_ifs with hold
    · exact h.subset
    · rw [List.append_subset]
      exact ⟨h.subset, by simpa using hmem⟩
  · intro l k hk
    rw [hmarked l k hk, h.marked_iff l k hk]
    have hiff : ((node j).low - minval).toNat ≤ k ∧ k ≤ ((node j).high - minval).toNat ↔
        (node j).low ≤ minval + k ∧ minval + k ≤ (node j).high := by omega
    rw [hiff]
    simp only [List.mem_append, List.mem_singleton, or_and_right, exists_or, exists_eq_left]

/-- **All nodes**: the assertion on the number of targets holds, and a bit is set in the mask of a target if a case with this
target has the value.
Source: `stmt.c` `emit_case_bit_tests`
Kind: L -/
theorem caseBitTests_spec (hfits : tg.WordFits) (hwindow : Window t node ids minval range) (hrange : range < tg.wordBits)
    {targets : List L} (htargets : targets.length ≤ maxCaseBitTests)
    (hle : ∀ i ∈ ids, (node i).low ≤ (node i).high) (hmem : ∀ i ∈ ids, (node i).codeLabel ∈ targets) :
    ∃ tests : List (CaseBitTest tg L), caseBitTests t node minval ids = some tests ∧ TestsFor node minval targets ids tests := by
  suffices h : ∀ js : List ℕ, js ⊆ ids → ∃ tests : List (CaseBitTest tg L), caseBitTests t node minval js = some tests ∧
      TestsFor node minval targets js tests from h ids (List.Subset.refl ids)
  intro js
  induction js using List.reverseRecOn with
  | nil =>
    intro _
    refine ⟨[], rfl, List.nodup_nil, List.nil_subset _, ?_⟩
    intro l k _
    unfold Marked
    simp
  | append_singleton js j ih =>
    intro hsub
    obtain ⟨tests, htests, hfor⟩ := ih fun i hi => hsub (List.mem_append_left _ hi)
    have hj : j ∈ ids := hsub (by simp)
    obtain ⟨tests', hadd, hfor'⟩ := hfor.add hfits hwindow hrange htargets hj (hle j hj) (hmem j hj)
    refine ⟨tests', ?_, hfor'⟩
    unfold caseBitTests at htests ⊢
    rw [List.foldlM_append, htests]
    simp only [List.foldlM_cons, List.foldlM_nil, Option.bind_eq_bind, Option.bind_some, hadd]
    rfl

end Masks

/-! ## The code -/

section Code

variable {m : ℕ} {t : IndexType} {node : ℕ → CaseNode L} {ids : List ℕ} {head : Option ℕ} {minval range : ℤ} {d : L}

/-- The constant of a test. Source: `emit-rtl.c` `immed_double_const`. Kind: L -/
theorem immedDoubleConst_spec (hfits : tg.WordFits) (c : CaseBitTest tg L) :
    ∃ mask, immedDoubleConst tg.wordBits c.lo c.hi = some mask ∧ ∀ k < tg.wordBits, mask.getLsbD k = c.bit k := by
  unfold immedDoubleConst CaseBitTest.bit
  by_cases hle : tg.wordBits ≤ tg.bitsPerWideInt
  · rw [if_pos hle]
    refine ⟨_, rfl, ?_⟩
    intro k hk
    rw [BitVec.getLsbD_setWidth, decide_eq_true hk, Bool.true_and, if_pos (by omega)]
  · have hword : tg.wordBits = 2 * tg.bitsPerWideInt := by
      rcases hfits with h | h
      · exact absurd h hle
      · exact h.1
    rw [if_neg hle, if_pos hword]
    refine ⟨_, rfl, ?_⟩
    intro k hk
    rw [BitVec.getLsbD_setWidth, decide_eq_true hk, Bool.true_and, BitVec.getLsbD_append]

/-- The test of a mask is the test of one bit. Source: `stmt.c` `emit_case_bit_tests`. Kind: L -/
theorem eval_andNe {w : ℕ} (index : BitVec m) (mask : BitVec w) (h : wordIndex w index < w) :
    (BitCond.andNe mask).eval index = mask.getLsbD (wordIndex w index) := by
  unfold BitCond.eval
  dsimp only
  rw [← BitVec.twoPow_eq, BitVec.twoPow_and]
  cases mask.getLsbD (wordIndex w index) with
  | true =>
    rw [if_pos rfl]
    apply decide_eq_true
    intro hzero
    have hbit := congrArg BitVec.toNat hzero
    rw [BitVec.toNat_twoPow_of_lt h] at hbit
    exact absurd hbit (by simp)
  | false => simp

/-- **The tests** lead to the only target whose bit is set, or to the default, in whatever order they are made.
Source: `stmt.c` `emit_case_bit_tests`
Kind: L -/
theorem emitTests_spec (hfits : tg.WordFits) : ∀ (tests : List (CaseBitTest tg L)),
    ∃ code : List (Insn (BitCond m tg.wordBits) L), emitTests d tests = some code ∧ labels code = [] ∧
      ∀ (prog : List (Insn (BitCond m tg.wordBits) L)) (index : BitVec m) (l : L), labels prog = [] →
        wordIndex tg.wordBits index < tg.wordBits →
        (∀ c ∈ tests, c.bit (wordIndex tg.wordBits index) = true → c.label = l) →
        ((∀ c ∈ tests, c.bit (wordIndex tg.wordBits index) = false) → l = d) →
        Ends (BitCond.eval index) prog code l
  | [] => by
    refine ⟨[.jump d], rfl, rfl, ?_⟩
    intro prog index l hprog _ _ hdefault
    rw [hdefault fun c hc => absurd hc List.not_mem_nil]
    apply Ends.jump_out
    apply after_eq_none
    rw [hprog]
    exact List.not_mem_nil
  | c :: cs => by
    obtain ⟨mask, hmask, hbit⟩ := immedDoubleConst_spec hfits c
    obtain ⟨code, hcode, hlabels, hends⟩ := emitTests_spec hfits cs
    refine ⟨.branch (.andNe mask) c.label :: code, ?_, hlabels, ?_⟩
    · unfold emitTests
      rw [hmask, Option.bind_some, hcode]
      rfl
    · intro prog index l hprog hlt hfound hdefault
      have heval := eval_andNe index mask hlt
      rw [hbit _ hlt] at heval
      cases hc : c.bit (wordIndex tg.wordBits index) with
      | true =>
        rw [← hfound c List.mem_cons_self hc]
        apply Ends.branch_out (heval.trans hc)
        apply after_eq_none
        rw [hprog]
        exact List.not_mem_nil
      | false =>
        apply Ends.branch_not (heval.trans hc)
        apply hends prog index l hprog hlt (fun c' hc' => hfound c' (List.mem_cons_of_mem c hc'))
        intro hnone
        exact hdefault (List.forall_mem_cons.mpr ⟨hc, hnone⟩)

/-- A small index keeps its value in the word mode. Source: `stmt.c` `emit_case_bit_tests` (`convert_to_mode`). Kind: L -/
theorem wordIndex_eq {w : ℕ} (hm : 8 ≤ m) {index : BitVec m} (hsmall : index.toNat < 128) (hlt : index.toNat < w) :
    wordIndex w index = index.toNat := by
  have hmsb : index.msb = false := by
    rw [BitVec.msb_eq_false_iff_two_mul_lt]
    have : 2 ^ 8 ≤ 2 ^ m := Nat.pow_le_pow_right (by decide) hm
    omega
  unfold wordIndex
  rw [BitVec.toNat_signExtend, hmsb, if_neg Bool.false_ne_true, Nat.add_zero, BitVec.toNat_setWidth]
  exact Nat.mod_eq_of_lt (lt_trans hlt Nat.lt_two_pow_self)

/-- **Bit tests agree with the case list**. Source: `stmt.c` `emit_case_bit_tests`. Kind: L -/
theorem emitCaseBitTests_spec (number : L → ℤ) (hfits : tg.WordFits) (hm : t.prec ≤ m) (hbyte : 8 ≤ m)
    (hlist : CaseList t node head ids) (hwindow : Window t node ids minval range) (hrange : range < tg.wordBits)
    {targets : List L} (htargets : targets.length ≤ maxCaseBitTests) (hmem : ∀ i ∈ ids, (node i).codeLabel ∈ targets)
    (integerType : Bool) :
    ∃ code, @emitCaseBitTests L _ tg number t m node minval range ids d = some code ∧ ∀ x, t.Has x →
      Ends (BitCond.eval (dispatchIndex t m integerType x minval)) code code (dispatchNodes node ids d x) ∧
      (minval ≤ x ∧ x ≤ minval + range →
        wordIndex tg.wordBits (dispatchIndex t m integerType x minval) < tg.wordBits) := by
  obtain ⟨tests, htests, hfor⟩ := caseBitTests_spec hfits hwindow hrange htargets hlist.low_le_high hmem
  let sorted := tests.mergeSort fun a b => decide (caseBitTestCmp number a b ≤ 0)
  have hperm : ∀ c, c ∈ sorted ↔ c ∈ tests := fun c => (List.mergeSort_perm tests _).mem_iff
  obtain ⟨code, hcode, hlabels, hends⟩ := emitTests_spec (m := m) (d := d) hfits sorted
  have hprog : labels (.branch (BitCond.gtu (BitVec.ofInt m range)) d :: code) = [] := hlabels
  refine ⟨.branch (.gtu (BitVec.ofInt m range)) d :: code, ?_, ?_⟩
  · unfold emitCaseBitTests
    rw [htests, Option.bind_some, hcode]
    rfl
  · intro x hx
    obtain ⟨hinside, hvalue⟩ := hwindow.index_spec hm integerType hx
    have hword := tg.word_le
    have hbound := hwindow.toNat_range hm
    generalize dispatchIndex t m integerType x minval = index at *
    by_cases hx' : minval ≤ x ∧ x ≤ minval + range
    · have hindex := hvalue hx'
      have hplace : wordIndex tg.wordBits index = index.toNat := wordIndex_eq hbyte (by omega) (by omega)
      have hlt : index.toNat < tg.wordBits := by omega
      refine ⟨?_, fun _ => by rw [hplace]; exact hlt⟩
      apply Ends.branch_not
      · exact decide_eq_false (by omega)
      have hxk : minval + index.toNat = x := by omega
      have hbit : ∀ c ∈ sorted, c.bit index.toNat = true → ∃ i ∈ ids, (node i).codeLabel = c.label ∧ (node i).Contains x := by
        intro c hc hset
        have hmarked : Marked tests c.label index.toNat := ⟨c, (hperm c).mp hc, rfl, hset⟩
        rw [hfor.marked_iff _ _ hlt, hxk] at hmarked
        exact hmarked
      apply hends _ _ _ hprog (by rw [hplace]; exact hlt) <;> rw [hplace]
      · intro c hc hset
        obtain ⟨i, hi, hlabel, hix⟩ := hbit c hc hset
        rw [hlist.dispatchNodes_eq hi hix, hlabel]
      · intro hnone
        apply dispatchNodes_eq_default
        intro i hi hix
        have hmarked : Marked tests (node i).codeLabel index.toNat := by
          rw [hfor.marked_iff _ _ hlt, hxk]
          exact ⟨i, hi, rfl, hix⟩
        obtain ⟨c, hc, _, hset⟩ := hmarked
        have hclear := hnone c ((hperm c).mpr hc)
        rw [hset] at hclear
        cases hclear
    · refine ⟨?_, fun h => absurd h hx'⟩
      rw [hwindow.dispatchNodes_outside hx' d]
      apply Ends.branch_out
      · apply decide_eq_true
        by_contra hge
        exact hx' (hinside.mp (by omega))
      · apply after_eq_none
        rw [hprog]
        exact List.not_mem_nil

end Code

end GccCore.Gcc.SwitchLower
