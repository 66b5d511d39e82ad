import GccCore.Gcc.SwitchLower.BitTests
import GccCore.Gcc.SwitchLower.DecisionTree
import GccCore.Gcc.SwitchLower.JumpTable

/-!
# `gcc/stmt.c`: every way to lower a switch keeps the dispatch

* **The choice** (`expandCase`) between bit tests, a tree and a table.
* **The result** (`expandCase_dispatch`): whatever is chosen, the code leads a value to the case that contains it.
-/

set_option linter.unusedSectionVars false

namespace GccCore.Gcc.SwitchLower

open GccCore.Lib.LabelledCode

variable {L : Type} [DecidableEq L]

/-- What a switch becomes; `m` is the width of the mode of the index type, and `cm` of the mode for comparisons.
Source: `stmt.c` `expand_case` -/
inductive Expanded (tg : Target) (m cm : ℕ) (L : Type)
  | jump (defaultLabel : L)
  | bitTests (minval range : ℤ) (code : List (Insn (BitCond m tg.wordBits) L))
  | tree (code : Code cm L)
  | table (code : TableCode L)

/-- The start and the length of the window for bit tests: zero is used if all values fit in a word anyway.
Source: `stmt.c` `expand_case` -/
def bitTestWindow (tg : Target) (t : IndexType) (s : Scan L) : ℤ × ℤ :=
  if compareTreeInt s.minval 0 > 0 ∧ compareTreeInt s.maxval tg.wordBits < 0 then (0, s.maxval) else (s.minval, s.range t)

/-- Source: `stmt.c` `expand_case`. -/
def expandCase (tg : Target) (o : Options) (number : L → ℤ) (t : IndexType) (m cm : ℕ) (isEnum : Bool)
    (labels : List (CaseLabel L)) (d : L) : Option (Expanded tg m cm L) :=
  let (pool, caseList) := addCaseNodes t (emptyPool d) labels
  (spine pool.node pool.used caseList).bind fun ids =>
    let s := scan pool.node ids
    if s.count = 0 then some (.jump d)
    else if useBitTests tg o t s then
      let (minval, range) := bitTestWindow tg t s
      (emitCaseBitTests number t m pool.node minval range ids d).map (.bitTests minval range)
    else if useTree tg o t s then (expandCaseTree t cm isEnum labels d).map .tree
    else (expandTable tg o t pool.node s ids d).map .table

/-- Running the code for a value leads to a label; a mask is only asked for a bit of the word. -/
def Expanded.LeadsTo {tg : Target} {m cm : ℕ} (t : IndexType) (integerType : Bool) (x : ℤ) (l : L) :
    Expanded tg m cm L → Prop
  | .jump d => l = d
  | .bitTests minval range code =>
    let index := dispatchIndex t m integerType x minval
    Ends (BitCond.eval index) code code l ∧ (index.toNat ≤ range → wordIndex tg.wordBits index < tg.wordBits)
  | .tree code => Ends (Cond.eval (BitVec.ofInt cm x)) code code (.case l)
  | .table code => code.run t m integerType x = some l

section Choice

variable {tg : Target} {o : Options} {t : IndexType} {node : ℕ → CaseNode L} {ids : List ℕ} {head : Option ℕ}

/-- What the guards for bit tests say. Source: `stmt.c` `expand_case`. Kind: L -/
theorem useBitTests_eq_true {s : Scan L} (h : useBitTests tg o t s = true) :
    0 ≤ s.range t ∧ s.range t < tg.wordBits ∧ tg.WordFits ∧ s.uniq ≤ maxCaseBitTests := by
  unfold useBitTests at h
  simp only [Bool.and_eq_true, decide_eq_true_eq, gt_iff_lt] at h
  obtain ⟨⟨⟨⟨_, hword⟩, hpos⟩, hcheap⟩, huniq⟩ := h
  rw [compareTreeInt_lt_zero] at hword
  rw [zero_lt_compareTreeInt] at hpos
  refine ⟨by omega, hword, tg.word_fits hcheap, ?_⟩
  unfold maxCaseBitTests
  omega

/-- The window for bit tests is below the word size, also if it begins at zero. Source: `stmt.c` `expand_case`. Kind: L -/
theorem CaseList.bitTestWindow_spec (hlist : CaseList t node head ids) (hne : ids ≠ [])
    (h : useBitTests tg o t (scan node ids) = true) :
    Window t node ids (bitTestWindow tg t (scan node ids)).1 (bitTestWindow tg t (scan node ids)).2 ∧
      (bitTestWindow tg t (scan node ids)).2 < tg.wordBits := by
  obtain ⟨hnonneg, hlt, _, _⟩ := useBitTests_eq_true h
  obtain ⟨hwindow, hlast⟩ := hlist.window hne hnonneg
  unfold bitTestWindow
  split_ifs with hzero
  · rw [gt_iff_lt, zero_lt_compareTreeInt, compareTreeInt_lt_zero] at hzero
    refine ⟨?_, hzero.2⟩
    rw [← hlast]
    exact hwindow.fromZero (by simpa using hzero.1)
  · exact ⟨hwindow, hlt⟩

end Choice

/-- **Every way to lower a switch keeps the dispatch**: bit tests and tables, as well as trees, agree with the cases for every
value of the index type, whatever the order of the labels' numbers; the tests of the compiler hold, and no entry is outside
of its table and no bit outside of its word.
Source: `stmt.c` `expand_case`, `emit_case_bit_tests`; `expr.c` `try_casesi`, `try_tablejump`
Kind: P -/
theorem expandCase_dispatch (tg : Target) (o : Options) (number : L → ℤ) (t : IndexType) (m cm : ℕ) (hm : t.prec ≤ m)
    (hcm : m ≤ cm) (hbyte : 8 ≤ m) (isEnum integerType : Bool) (labels : List (CaseLabel L)) (hsorted : Sorted labels) (d : L) :
    ∃ e, expandCase tg o number t m cm isEnum labels d = some e ∧
      ∀ x, t.Has x → e.LeadsTo t integerType x (dispatch labels d x) := by
  obtain ⟨ids, hbuilt⟩ := addCaseNodes_spec (t := t) (emptyPool d) labels hsorted
  have htree := expandCaseTree_ends (le_trans hm hcm) isEnum hbuilt
  unfold expandCase
  generalize addCaseNodes t (emptyPool d) labels = built at hbuilt
  obtain ⟨pool, head⟩ := built
  dsimp only at hbuilt ⊢
  have hlist := hbuilt.list
  have hscan := scan_spec pool.node ids
  rw [hlist.chain.spine_eq hbuilt.length_le, Option.bind_some]
  by_cases hzero : (scan pool.node ids).count = 0
  · rw [if_pos hzero]
    refine ⟨_, rfl, ?_⟩
    intro x hx
    rw [hbuilt.dispatch_eq d x hx, hscan.count_eq_zero.mp hzero]
    rfl
  rw [if_neg hzero]
  have hne : ids ≠ [] := fun hnil => hzero (hscan.count_eq_zero.mpr hnil)
  by_cases hbits : useBitTests tg o t (scan pool.node ids) = true
  · obtain ⟨_, _, hfits, huniq⟩ := useBitTests_eq_true hbits
    obtain ⟨hwindow, hlt⟩ := hlist.bitTestWindow_spec hne hbits
    rw [if_pos hbits]
    generalize bitTestWindow tg t (scan pool.node ids) = window at hwindow hlt
    obtain ⟨minval, range⟩ := window
    dsimp only at hwindow hlt ⊢
    rw [hscan.uniq_eq] at huniq
    obtain ⟨code, hcode, hends⟩ := emitCaseBitTests_spec (d := d) number hfits hm hbyte hlist hwindow hlt huniq
      hscan.mem_seen integerType
    rw [hcode]
    refine ⟨_, rfl, ?_⟩
    intro x hx
    obtain ⟨hend, hplace⟩ := hends x hx
    rw [hbuilt.dispatch_eq d x hx]
    refine ⟨hend, ?_⟩
    intro hle
    apply hplace
    exact (hwindow.index_spec hm integerType hx).1.mp hle
  rw [if_neg hbits]
  by_cases huse : useTree tg o t (scan pool.node ids) = true
  · obtain ⟨code, hcode, hends⟩ := htree
    rw [if_pos huse, hcode]
    exact ⟨_, rfl, hends⟩
  · rw [if_neg huse]
    obtain ⟨code, hcode, hrun⟩ := expandTable_spec (d := d) tg o hlist hne hm (Bool.eq_false_iff.mpr huse) integerType
    rw [hcode]
    refine ⟨_, rfl, ?_⟩
    intro x hx
    rw [hbuilt.dispatch_eq d x hx]
    exact hrun x hx

/-- A host with 64 bits and a target with words of 32. Source: `hwint.h`, `config/i386/i386.h`. -/
def targetI386 : Target :=
  ⟨64, 32, 32, true, true, false, true, 5, by decide, fun _ => by decide⟩

/-- Three targets in a window of eight values become bit tests. Source: `stmt.c` `expand_case`. Kind: C -/
theorem expandCase_bits :
    ∃ e, expandCase (L := ℕ) targetI386 ⟨false, false, false, false, true⟩ (fun l => (l : ℤ)) signedChar 8 32 false
        [⟨-3, none, 1⟩, ⟨0, some 1, 2⟩, ⟨2, none, 3⟩, ⟨3, none, 1⟩, ⟨4, none, 2⟩] 0 = some e ∧
      e.LeadsTo signedChar true 3 1 := by
  have hsorted : Sorted (L := ℕ) [⟨-3, none, 1⟩, ⟨0, some 1, 2⟩, ⟨2, none, 3⟩, ⟨3, none, 1⟩, ⟨4, none, 2⟩] := by
    unfold Sorted
    decide
  obtain ⟨e, he, hleads⟩ := expandCase_dispatch (L := ℕ) targetI386 ⟨false, false, false, false, true⟩ (fun l => (l : ℤ))
    signedChar 8 32 (by decide) (by decide) (by decide) false true _ hsorted 0
  refine ⟨e, he, ?_⟩
  apply hleads 3
  unfold IndexType.Has
  decide

end GccCore.Gcc.SwitchLower
