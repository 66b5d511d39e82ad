import GccCore.Gcc.Profile.SpanningTree

/-!
# `gcc/gcov.c`: the counts of the edges that were not counted

`gcov` gets the counts of the arcs off the spanning tree and infers the others: a block with all arcs known on one side is
known, and a known block with one unknown arc on a side gives its count. Counts are taken in any additive group, so that they
may wrap around.

* **One visit** (`Sound.visitInvalid`, `Sound.settle`): counts that are known are right, and no block that can be used is
  forgotten.
* **The loops end** (`solveLoop_spec`): visits use up the blocks on the chains and the arcs still unknown.
* **Nothing is left** (`Sound.exists_leaf`, `Sound.complete`): unknown arcs are a forest, and a leaf of it would still be on a
  chain.
* **Sorting** (`sortPass_spec`, `Graph.sorted_perm`): the successors of a block change places, and nothing else does.
* **Round trip** (`solveFlowGraph_recovers`): from the counters that `profile.c` lays out, `gcov` recovers every count.
-/

namespace GccCore.Gcc.Profile

open GccCore.Lib.SpanningForest

/-! ## The code -/

/-- The chains of arcs of each block, and the ends of arcs. Source: `gcov.c` `struct function_info`, `block_info`, `arc_info`. -/
structure Graph where
  numBlocks : ℕ
  arcs : Side → ℕ → List ℕ
  near : Side → ℕ → ℕ
  onTree : ℕ → Bool

/-- Blocks are on a chain if their `valid_chain` or `invalid_chain` is set. Source: `gcov.c` `arc_info`, `block_info`. -/
structure Solver (G : Type) where
  count : ℕ → G
  countValid : ℕ → Bool
  num : Side → ℕ → ℤ
  blockCount : ℕ → G
  blockValid : ℕ → Bool
  invalidBlocks : List ℕ
  validBlocks : List ℕ

/-- One pass over the successors of a block, and whether two of them changed places.
Source: `gcov.c` `solve_flow_graph` ("Sort the successor arcs into ascending dst order.") -/
def sortPass (dst : ℕ → ℕ) : List ℕ → List ℕ × Bool
  | arc :: next :: l =>
    if dst next < dst arc then (next :: (sortPass dst (arc :: l)).1, true)
    else (arc :: (sortPass dst (next :: l)).1, (sortPass dst (next :: l)).2)
  | l => (l, false)
termination_by l => l.length

/-- The pairs of arcs that are out of order. -/
def inversions (dst : ℕ → ℕ) : List ℕ → ℕ
  | [] => 0
  | arc :: l => l.countP (fun next => dst next < dst arc) + inversions dst l

/-- **A pass** puts two arcs in order at least, if there are any out of order. Source: `gcov.c` `solve_flow_graph`. Kind: L -/
theorem sortPass_spec (dst : ℕ → ℕ) (l : List ℕ) :
    (sortPass dst l).1.Perm l ∧ inversions dst (sortPass dst l).1 ≤ inversions dst l ∧
      ((sortPass dst l).2 = true → inversions dst (sortPass dst l).1 < inversions dst l) := by
  induction l using sortPass.induct dst with
  | case1 arc next l hout ih =>
    obtain ⟨hperm, hle, -⟩ := ih
    rw [sortPass, if_pos hout]
    have hcount := hperm.countP_eq fun x => decide (dst x < dst next)
    simp only [List.countP_cons, hout.le.not_gt, decide_false, Bool.false_eq_true, if_false, Nat.add_zero] at hcount
    have hless : inversions dst (next :: (sortPass dst (arc :: l)).1) < inversions dst (arc :: next :: l) := by
      simp only [inversions, hcount, List.countP_cons, hout, decide_true, if_true] at hle ⊢
      omega
    exact ⟨(hperm.cons next).trans (.swap arc next l), hless.le, fun _ => hless⟩
  | case2 arc next l hin ih =>
    obtain ⟨hperm, hle, hless⟩ := ih
    rw [sortPass, if_neg hin]
    simp only [inversions, hperm.countP_eq]
    exact ⟨hperm.cons arc, Nat.add_le_add_left hle _, fun hchanges => Nat.add_lt_add_left (hless hchanges) _⟩
  | case3 l hshort =>
    rw [sortPass.eq_2 dst l hshort]
    exact ⟨.refl l, le_rfl, nofun⟩

/-- Source: `gcov.c` `solve_flow_graph` (`while (changes)`). -/
def sortArcs (dst : ℕ → ℕ) (l : List ℕ) : List ℕ :=
  if _h : (sortPass dst l).2 = true then sortArcs dst (sortPass dst l).1 else (sortPass dst l).1
termination_by inversions dst l
decreasing_by exact (sortPass_spec dst l).2.2 _h

/-- Source: `gcov.c` `solve_flow_graph` (`prev_dst && prev_dst > arc->dst`). -/
def outOfOrder (dst : ℕ → ℕ) : List ℕ → Bool
  | arc :: next :: l => decide (dst next < dst arc) || outOfOrder dst (next :: l)
  | _ => false

/-- The successors of each block in ascending order of their ends. Source: `gcov.c` `solve_flow_graph` (`if (out_of_order)`). -/
def Graph.sorted (g : Graph) : Graph where
  numBlocks := g.numBlocks
  arcs
    | .succ, b => if outOfOrder (g.near .pred) (g.arcs .succ b) then sortArcs (g.near .pred) (g.arcs .succ b) else g.arcs .succ b
    | .pred, b => g.arcs .pred b
  near := g.near
  onTree := g.onTree

theorem sortArcs_perm (dst : ℕ → ℕ) (l : List ℕ) : (sortArcs dst l).Perm l := by
  induction l using sortArcs.induct dst with
  | case1 l hchanges ih =>
    rw [sortArcs, dif_pos hchanges]
    exact ih.trans (sortPass_spec dst l).1
  | case2 l hdone =>
    rw [sortArcs, dif_neg hdone]
    exact (sortPass_spec dst l).1

theorem Graph.sorted_perm (g : Graph) (side : Side) (b : ℕ) : (g.sorted.arcs side b).Perm (g.arcs side b) := by
  cases side with
  | succ =>
    simp only [Graph.sorted]
    split_ifs
    · exact sortArcs_perm _ _
    · exact .refl _
  | pred => exact .refl _

section Code

variable {G : Type} [AddCommGroup G] (g : Graph)

/-- The block that has no arcs on a side. Source: `gcov.c` `solve_flow_graph` (entry and exit block). -/
def Graph.terminal : Side → ℕ
  | .succ => g.numBlocks - 1
  | .pred => 0

/-- Source: `gcov.c` `solve_flow_graph` ("We can't deduce the entry block counts from the lack of predecessors."). -/
def start : Solver G where
  count := fun _ => 0
  countValid := fun _ => false
  num := fun side b => if b = g.terminal side ∧ g.arcs side b = [] then 4294967295 else (g.arcs side b).length
  blockCount := fun _ => 0
  blockValid := fun _ => false
  invalidBlocks := []
  validBlocks := []

/-- An arc gets its count. Source: `gcov.c` `solve_flow_graph` (`arc->count_valid = 1; ...; arc->dst->num_pred--`). -/
def setArc (s : Solver G) (i : ℕ) (c : G) : Solver G :=
  { s with
    count := Function.update s.count i c
    countValid := Function.update s.countValid i true
    num := fun side b => if g.near side i = b then s.num side b - 1 else s.num side b }

/-- Source: `gcov.c` `solve_flow_graph` (`if (!arc->on_tree)`). -/
def measureArc : List G × Solver G → ℕ → Option (List G × Solver G)
  | (counts, s), i =>
    if g.onTree i then some (counts, s)
    else match counts with
      | [] => none
      | c :: counts => some (counts, setArc g s i c)

/-- Source: `gcov.c` `solve_flow_graph` (`while ((blk = invalid_blocks))`). -/
def visitInvalid (b : ℕ) (s : Solver G) : Solver G :=
  let known (side : Side) : Solver G :=
    { s with
      blockCount := Function.update s.blockCount b ((g.arcs side b).foldl (fun total i => total + s.count i) 0)
      blockValid := Function.update s.blockValid b true
      validBlocks := b :: s.validBlocks }
  if s.num .succ b = 0 then known .succ else if s.num .pred b = 0 then known .pred else s

/-- `inv_arc`: the last one that is not known. Source: `gcov.c` `solve_flow_graph`. -/
def invArc (s : Solver G) (l : List ℕ) : Option ℕ := l.foldl (fun inv i => if s.countValid i then inv else some i) none

/-- The only unknown arc on one side of a known block gets its count; without one, the code would read through `NULL`.
Source: `gcov.c` `solve_flow_graph` (`if (blk->num_succ == 1)`, `if (blk->num_pred == 1)`) -/
def settle (side : Side) (b : ℕ) (s : Solver G) : Option (Solver G) :=
  if s.num side b = 1 then
    (invArc s (g.arcs side b)).map fun i =>
      let far := g.near side.flip i
      let s := setArc g s i ((g.arcs side b).foldl (fun total i => total - s.count i) (s.blockCount b))
      if s.blockValid far then
        if s.num side.flip far = 1 ∧ far ∉ s.validBlocks then { s with validBlocks := far :: s.validBlocks } else s
      else if s.num side.flip far = 0 ∧ far ∉ s.invalidBlocks then { s with invalidBlocks := far :: s.invalidBlocks } else s
  else some s

def invalidLoop : ℕ → Solver G → Option (Solver G)
  | 0, _ => none
  | fuel + 1, s =>
    match s.invalidBlocks with
    | [] => some s
    | b :: rest => invalidLoop fuel (visitInvalid g b { s with invalidBlocks := rest })

def validLoop : ℕ → Solver G → Option (Solver G)
  | 0, _ => none
  | fuel + 1, s =>
    match s.validBlocks with
    | [] => some s
    | b :: rest => do
      let s ← settle g .succ b { s with validBlocks := rest }
      let s ← settle g .pred b s
      validLoop fuel s

/-- Source: `gcov.c` `solve_flow_graph` (`while (invalid_blocks || valid_blocks)`). -/
def solveLoop : ℕ → Solver G → Option (Solver G)
  | 0, _ => none
  | fuel + 1, s =>
    if s.invalidBlocks = [] ∧ s.validBlocks = [] then some s
    else do
      let s ← invalidLoop g (fuel + 1) s
      let s ← validLoop g (fuel + 1) s
      solveLoop fuel s

/-- The counters are read in the order of the arcs in the notes; the arcs of a block are sorted behind its counters, and are not
read again for the blocks after it.
Source: `gcov.c` `solve_flow_graph` -/
def solveFlowGraph (fuel : ℕ) (counts : List G) : Option (Solver G) := do
  let (_, s) ← ((List.range g.numBlocks).flatMap (g.arcs .succ)).foldlM (measureArc g) (counts, start g)
  solveLoop g.sorted fuel { s with invalidBlocks := (List.range g.numBlocks).reverse }

end Code

/-! ## What is known is right -/

namespace Graph

/-- The arcs with a counter, in the order of the counters. Source: `gcov.c` `solve_flow_graph` ("in the same order as ... profile.c"). -/
def counted (g : Graph) : List ℕ := (List.range g.numBlocks).flatMap fun b => (g.arcs .succ b).filter fun i => !g.onTree i

def IsArc (g : Graph) (i : ℕ) : Prop := i ∈ g.arcs .succ (g.near .succ i)

/-- The chains are those of arcs between the blocks, none into the entry or out of the exit.
Source: `gcov.c` `read_graph_file` -/
structure Formed (g : Graph) : Prop where
  two_le : 2 ≤ g.numBlocks
  nodup : ∀ side b, (g.arcs side b).Nodup
  mem_arcs : ∀ side b i, i ∈ g.arcs side b ↔ g.IsArc i ∧ g.near side i = b
  near_lt : ∀ side i, g.IsArc i → g.near side i < g.numBlocks
  near_ne : ∀ side i, g.IsArc i → g.near side i ≠ g.terminal side

variable {G : Type} [AddCommGroup G]

/-- What enters a block leaves it. -/
def Conserves (g : Graph) (flow : ℕ → G) : Prop :=
  ∀ b < g.numBlocks, b ≠ 0 → b ≠ g.numBlocks - 1 → ((g.arcs .succ b).map flow).sum = ((g.arcs .pred b).map flow).sum

/-- How often a block is executed. -/
def through (g : Graph) (flow : ℕ → G) (b : ℕ) : G :=
  if b = g.numBlocks - 1 then ((g.arcs .pred b).map flow).sum else ((g.arcs .succ b).map flow).sum

theorem Conserves.sum_eq {g : Graph} {flow : ℕ → G} (h : g.Conserves flow) {side : Side} {b : ℕ} (hb : b < g.numBlocks)
    (hne : b ≠ g.terminal side) : ((g.arcs side b).map flow).sum = g.through flow b := by
  unfold through
  cases side with
  | succ => exact (if_neg hne).symm
  | pred =>
    split_ifs with hexit
    · rfl
    · exact (h b hb hne hexit).symm

theorem sorted_isArc (g : Graph) (i : ℕ) : g.sorted.IsArc i ↔ g.IsArc i := (g.sorted_perm _ _).mem_iff

/-- Sorting changes the order of arcs only. Source: `gcov.c` `solve_flow_graph`. Kind: L -/
theorem Formed.sorted {g : Graph} (hg : g.Formed) : g.sorted.Formed := by
  refine ⟨hg.two_le, fun side b => (g.sorted_perm side b).nodup_iff.mpr (hg.nodup side b), fun side b i => ?_,
    fun side i hi => hg.near_lt side i ((g.sorted_isArc i).mp hi), fun side i hi => ?_⟩
  · rw [(g.sorted_perm side b).mem_iff, hg.mem_arcs, sorted_isArc]
    rfl
  · cases side
    · exact hg.near_ne .succ i ((g.sorted_isArc i).mp hi)
    · exact hg.near_ne .pred i ((g.sorted_isArc i).mp hi)

theorem sorted_sum (g : Graph) (flow : ℕ → G) (side : Side) (b : ℕ) :
    ((g.sorted.arcs side b).map flow).sum = ((g.arcs side b).map flow).sum := ((g.sorted_perm side b).map flow).sum_eq

theorem Conserves.sorted {g : Graph} {flow : ℕ → G} (h : g.Conserves flow) : g.sorted.Conserves flow := by
  intro b hb hentry hexit
  rw [sorted_sum, sorted_sum]
  exact h b hb hentry hexit

theorem sorted_through (g : Graph) (flow : ℕ → G) (b : ℕ) : g.sorted.through flow b = g.through flow b := by
  simp only [through, sorted_sum]
  rfl

end Graph

section Solving

variable {G : Type} [AddCommGroup G] {g : Graph} {flow : ℕ → G} {s : Solver G} {t : List ℕ} {i b fuel : ℕ} {side : Side}

/-- The arcs of a list that are not known. -/
def unknown (s : Solver G) (l : List ℕ) : ℕ := l.countP fun i => !s.countValid i

omit [AddCommGroup G] in
/-- One arc becomes known. -/
theorem unknown_setArc (c : G) (hi : s.countValid i = false) {l : List ℕ} (hl : l.Nodup) :
    unknown s l = unknown (setArc g s i c) l + if i ∈ l then 1 else 0 := by
  induction l with
  | nil => rfl
  | cons j l ih =>
    rw [List.nodup_cons] at hl
    simp only [unknown, List.countP_cons, List.mem_cons, setArc] at ih ⊢
    rw [ih hl.2]
    rcases eq_or_ne i j with rfl | hij
    · simp [hi, hl.1]
    · simp only [Function.update_of_ne hij.symm, hij, false_or]
      omega

/-- Arcs have their counts or zero, and blocks count the arcs still unknown. Source: `gcov.c` `solve_flow_graph`. -/
structure Balanced (g : Graph) (flow : ℕ → G) (s : Solver G) : Prop where
  count_eq : ∀ i, s.count i = if s.countValid i then flow i else 0
  num_eq : ∀ side b, b ≠ g.terminal side → s.num side b = unknown s (g.arcs side b)
  num_terminal : ∀ side, s.num side (g.terminal side) = 4294967295

theorem Balanced.setArc (hg : g.Formed) (h : Balanced g flow s) (hi : s.countValid i = false) (harc : g.IsArc i) :
    Balanced g flow (setArc g s i (flow i)) := by
  refine ⟨fun j => ?_, fun side b hb => ?_, fun side => ?_⟩
  · rcases eq_or_ne j i with rfl | hji
    · simp [Profile.setArc]
    · simpa [Profile.setArc, Function.update_of_ne hji] using h.count_eq j
  · have hmem : i ∈ g.arcs side b ↔ g.near side i = b := by simp [hg.mem_arcs, harc]
    have hcount := unknown_setArc (g := g) (flow i) hi (hg.nodup side b)
    have hnum := h.num_eq side b hb
    simp only [hmem] at hcount
    rw [Profile.setArc] at hcount ⊢
    simp only
    split_ifs at hcount ⊢ <;> omega
  · simpa [Profile.setArc, hg.near_ne side i harc] using h.num_terminal side

/-- The counts of all arcs on a side of a block, the unknown ones being zero. -/
theorem Balanced.sum_count (h : Balanced g flow s) (l : List ℕ) (hl : l.Nodup) :
    (unknown s l = 0 → (l.map s.count).sum = (l.map flow).sum) ∧
      (unknown s l = 1 →
        ∃ i ∈ l, s.countValid i = false ∧ invArc s l = some i ∧ (l.map s.count).sum + flow i = (l.map flow).sum) := by
  have hinv : ∀ l : List ℕ, unknown s l = 0 → ∀ o, l.foldl (fun inv i => if s.countValid i then inv else some i) o = o := by
    intro l hl o
    induction l with
    | nil => rfl
    | cons j l ih =>
      simp only [unknown, List.countP_cons] at hl ih
      cases hj : s.countValid j <;> simp [hj] at hl ⊢
      exact ih (by simpa using hl)
  induction l with
  | nil => simp [unknown]
  | cons j l ih =>
    rw [List.nodup_cons] at hl
    obtain ⟨ihzero, ihone⟩ := ih hl.2
    have hcount := h.count_eq j
    cases hj : s.countValid j with
    | true =>
      have hsame : unknown s (j :: l) = unknown s l := by simp [unknown, hj]
      rw [hsame, List.map_cons, List.map_cons, List.sum_cons, List.sum_cons, hcount, hj, if_pos rfl]
      refine ⟨fun hzero => by rw [ihzero hzero], fun hone => ?_⟩
      obtain ⟨i, hi, hvalid, harc, hsum⟩ := ihone hone
      exact ⟨i, List.mem_cons_of_mem _ hi, hvalid, by simpa [invArc, hj] using harc, by rw [add_assoc, hsum]⟩
    | false =>
      have hmore : unknown s (j :: l) = unknown s l + 1 := by simp [unknown, hj]
      rw [hmore]
      refine ⟨fun hzero => by omega, fun hone => ?_⟩
      have hzero : unknown s l = 0 := by omega
      refine ⟨j, List.mem_cons_self, hj, ?_, ?_⟩
      · simpa [invArc, hj] using hinv l hzero (some j)
      · rw [List.map_cons, List.map_cons, List.sum_cons, List.sum_cons, hcount, hj, ihzero hzero]
        simp [add_comm]

/-- The two folds of the code. Source: `gcov.c` `solve_flow_graph` (`total += arc->count`, `total -= arc->count`). Kind: L -/
theorem foldl_total (count : ℕ → G) (l : List ℕ) (c : G) :
    l.foldl (fun total i => total + count i) c = c + (l.map count).sum ∧
      l.foldl (fun total i => total - count i) c = c - (l.map count).sum := by
  induction l generalizing c with
  | nil => simp
  | cons i l ih =>
    simp only [List.foldl_cons, List.map_cons, List.sum_cons, (ih _).1, (ih _).2]
    exact ⟨add_assoc _ _ _, sub_sub _ _ _⟩

/-- **What the solver keeps**: besides, unknown arcs are on the tree, known blocks are right, and a block that can be used is on
a chain, or is `busy`. A block is on one chain at most, since `chain` links both.
Source: `gcov.c` `solve_flow_graph` -/
structure Sound (g : Graph) (flow : ℕ → G) (busy : Side → ℕ → Prop) (s : Solver G) : Prop extends Balanced g flow s where
  tree : ∀ i, g.IsArc i → s.countValid i = false → g.onTree i = true
  block_eq : ∀ b, s.blockValid b = true → s.blockCount b = g.through flow b
  valid_mem : s.validBlocks.Nodup ∧ ∀ b ∈ s.validBlocks, b < g.numBlocks ∧ s.blockValid b = true
  invalid_mem : s.invalidBlocks.Nodup ∧ ∀ b ∈ s.invalidBlocks, b < g.numBlocks ∧ s.blockValid b = false
  on_invalid : ∀ side, ∀ b < g.numBlocks, s.blockValid b = false → s.num side b = 0 → busy side b ∨ b ∈ s.invalidBlocks
  on_valid : ∀ side, ∀ b < g.numBlocks, s.blockValid b = true → s.num side b = 1 → busy side b ∨ b ∈ s.validBlocks

/-- No block is busy. -/
def idle : Side → ℕ → Prop := fun _ _ => False

variable {busy : Side → ℕ → Prop}

theorem Balanced.ne_terminal (h : Balanced g flow s) {n : ℤ} (hnum : s.num side b = n) (hn : n < 2) : b ≠ g.terminal side := by
  rintro rfl
  have := h.num_terminal side
  omega

theorem Sound.mono {busy' : Side → ℕ → Prop} (h : Sound g flow busy s)
    (hsub : ∀ side, ∀ b < g.numBlocks, busy side b → busy' side b ∨ (s.blockValid b = false → s.num side b ≠ 0) ∧
      (s.blockValid b = true → s.num side b ≠ 1)) : Sound g flow busy' s := by
  refine ⟨h.toBalanced, h.tree, h.block_eq, h.valid_mem, h.invalid_mem, fun side b hb hv hn => ?_, fun side b hb hv hn => ?_⟩
  · rcases h.on_invalid side b hb hv hn with hbusy | hmem
    · exact .inl ((hsub side b hb hbusy).resolve_right fun hno => hno.1 hv hn)
    · exact .inr hmem
  · rcases h.on_valid side b hb hv hn with hbusy | hmem
    · exact .inl ((hsub side b hb hbusy).resolve_right fun hno => hno.2 hv hn)
    · exact .inr hmem

/-- One more block is put on a chain. -/
theorem chain_cons {p : ℕ → Prop} {l : List ℕ} (hl : l.Nodup ∧ ∀ b ∈ l, p b) (hb : p b) (hnot : b ∉ l) :
    (b :: l).Nodup ∧ ∀ b' ∈ b :: l, p b' :=
  ⟨List.nodup_cons.mpr ⟨hnot, hl.1⟩, List.forall_mem_cons.mpr ⟨hb, hl.2⟩⟩

/-- **A block is inferred** from a side on which all arcs are known. Source: `gcov.c` `solve_flow_graph`. Kind: L -/
theorem Sound.visitInvalid (hg : g.Formed) (hflow : g.Conserves flow) (h : Sound g flow (fun _ b' => b' = b) s)
    (hb : b < g.numBlocks) (hinvalid : s.blockValid b = false) (hpopped : b ∉ s.invalidBlocks) :
    Sound g flow idle (visitInvalid g b s) := by
  have hknown (side : Side) (hnum : s.num side b = 0) : Sound g flow idle
      { s with
        blockCount := Function.update s.blockCount b ((g.arcs side b).foldl (fun total i => total + s.count i) 0)
        blockValid := Function.update s.blockValid b true
        validBlocks := b :: s.validBlocks } := by
    have hne := h.ne_terminal hnum (by omega)
    have hunknown : unknown s (g.arcs side b) = 0 := by
      have := h.num_eq side b hne
      omega
    have hcount : (g.arcs side b).foldl (fun total i => total + s.count i) 0 = g.through flow b := by
      rw [(foldl_total _ _ _).1, zero_add, (h.sum_count _ (hg.nodup side b)).1 hunknown, hflow.sum_eq hb hne]
    have hold {b' : ℕ} {v : Bool} (hv : s.blockValid b' = v) (hv' : v = true ∨ b' ≠ b) :
        Function.update s.blockValid b true b' = v := by
      rcases eq_or_ne b' b with rfl | hb'
      · rcases hv' with rfl | hne'
        · simp
        · exact absurd rfl hne'
      · rwa [Function.update_of_ne hb']
    have hnew : b ∉ s.validBlocks := fun hmem => by simp [(h.valid_mem.2 b hmem).2] at hinvalid
    refine ⟨⟨h.count_eq, h.num_eq, h.num_terminal⟩, h.tree, fun b' hb' => ?_,
      chain_cons ⟨h.valid_mem.1, fun b' hb' => ?_⟩ ⟨hb, by simp⟩ hnew,
      ⟨h.invalid_mem.1, fun b' hb' => ?_⟩, fun side b' hb' hv hn => ?_, fun side b' hb' hv hn => ?_⟩
    · rcases eq_or_ne b' b with rfl | hne'
      · simpa using hcount
      · simp only [Function.update_of_ne hne'] at hb' ⊢
        exact h.block_eq b' hb'
    · exact ⟨(h.valid_mem.2 b' hb').1, hold (h.valid_mem.2 b' hb').2 (.inl rfl)⟩
    · have hne' : b' ≠ b := fun heq => hpopped (heq ▸ hb')
      exact ⟨(h.invalid_mem.2 b' hb').1, hold (h.invalid_mem.2 b' hb').2 (.inr hne')⟩
    · rcases eq_or_ne b' b with rfl | hne'
      · simp at hv
      · simp only [Function.update_of_ne hne'] at hv
        exact .inr ((h.on_invalid side b' hb' hv hn).resolve_left hne')
    · rcases eq_or_ne b' b with rfl | hne'
      · exact .inr List.mem_cons_self
      · simp only [Function.update_of_ne hne'] at hv
        exact .inr (List.mem_cons_of_mem _ ((h.on_valid side b' hb' hv hn).resolve_left hne'))
  unfold Profile.visitInvalid
  simp only
  split_ifs with hsucc hpred
  · exact hknown .succ hsucc
  · exact hknown .pred hpred
  · refine h.mono ?_
    rintro (_ | _) b' - rfl <;> exact .inr ⟨fun _ => by assumption, fun hv => by simp [hinvalid] at hv⟩

/-- How much is left to do. -/
def weight (t : List ℕ) (s : Solver G) : ℕ := s.validBlocks.length + 2 * s.invalidBlocks.length + 3 * unknown s t

omit [AddCommGroup G] in
/-- An arc on the tree that becomes known pays for a block that is put on a chain. -/
theorem weight_setArc_le (c : G) (hnew : s.countValid i = false) (ht : t.Nodup) (hi : i ∈ t) {valid invalid : List ℕ}
    (hlength : valid.length + 2 * invalid.length ≤ s.validBlocks.length + 2 * s.invalidBlocks.length + 3) :
    weight t { setArc g s i c with validBlocks := valid, invalidBlocks := invalid } ≤ weight t s := by
  have hunknown := unknown_setArc (g := g) c hnew ht
  rw [if_pos hi] at hunknown
  have : unknown { setArc g s i c with validBlocks := valid, invalidBlocks := invalid } t = unknown (setArc g s i c) t := rfl
  simp only [weight, this]
  omega

omit [AddCommGroup G] in
/-- The numbers of blocks that are not at an end of the arc are as before. -/
theorem num_setArc (c : G) (hnear : g.near side i = b) {side' : Side} {b' : ℕ} {n : ℤ} (hn : (setArc g s i c).num side' b' = n) :
    (side' = side ∧ b' = b ∧ s.num side b - 1 = n) ∨ (side' = side.flip ∧ b' = g.near side.flip i) ∨
      (¬(side' = side ∧ b' = b) ∧ s.num side' b' = n) := by
  simp only [setArc] at hn
  by_cases hside : side' = side
  · subst hside
    rw [hnear] at hn
    split_ifs at hn with hb'
    · subst hb'
      exact .inl ⟨rfl, rfl, hn⟩
    · exact .inr (.inr ⟨fun heq => hb' heq.2.symm, hn⟩)
  · have hflip : side' = side.flip := by cases side' <;> cases side <;> simp_all [Side.flip]
    subst hflip
    split_ifs at hn with hb'
    · exact .inr (.inl ⟨rfl, hb'.symm⟩)
    · exact .inr (.inr ⟨fun heq => hside heq.1, hn⟩)

/-- The last unknown arc on a side of a known block gets its count, and the block at its other end is on a chain if it can be used. -/
theorem Sound.inferArc (hg : g.Formed) (h : Sound g flow busy s) (hvalid : s.blockValid b = true) (hone : s.num side b = 1)
    (harc : g.IsArc i) (hnear : g.near side i = b) (hnew : s.countValid i = false) {valid invalid : List ℕ}
    (hv : valid.Nodup ∧ ∀ b ∈ valid, b < g.numBlocks ∧ s.blockValid b = true)
    (hi : invalid.Nodup ∧ ∀ b ∈ invalid, b < g.numBlocks ∧ s.blockValid b = false)
    (hvsub : s.validBlocks ⊆ valid) (hisub : s.invalidBlocks ⊆ invalid)
    (hvfar : s.blockValid (g.near side.flip i) = true → (setArc g s i (flow i)).num side.flip (g.near side.flip i) = 1 →
      g.near side.flip i ∈ valid)
    (hifar : s.blockValid (g.near side.flip i) = false → (setArc g s i (flow i)).num side.flip (g.near side.flip i) = 0 →
      g.near side.flip i ∈ invalid) :
    Sound g flow (fun side' b' => busy side' b' ∧ ¬(side' = side ∧ b' = b))
      { setArc g s i (flow i) with validBlocks := valid, invalidBlocks := invalid } := by
  have hbalanced := h.toBalanced.setArc hg hnew harc
  refine ⟨⟨hbalanced.count_eq, hbalanced.num_eq, hbalanced.num_terminal⟩, fun j hj hjv => ?_, h.block_eq, hv, hi,
    fun side' b' hb' hbv hn => ?_, fun side' b' hb' hbv hn => ?_⟩
  · refine h.tree j hj ?_
    simp only [setArc, Function.update_apply] at hjv
    split_ifs at hjv
    exact hjv
  · rcases num_setArc (flow i) hnear hn with ⟨-, rfl, -⟩ | ⟨rfl, rfl⟩ | ⟨hother, hn'⟩
    · simp [setArc, hvalid] at hbv
    · exact .inr (hifar hbv hn)
    · exact (h.on_invalid side' b' hb' hbv hn').imp (⟨·, hother⟩) (hisub ·)
  · rcases num_setArc (flow i) hnear hn with ⟨-, -, hzero⟩ | ⟨rfl, rfl⟩ | ⟨hother, hn'⟩
    · omega
    · exact .inr (hvfar hbv hn)
    · exact (h.on_valid side' b' hb' hbv hn').imp (⟨·, hother⟩) (hvsub ·)

/-- **An arc is inferred** at a known block. Source: `gcov.c` `solve_flow_graph`. Kind: L -/
theorem Sound.settle (hg : g.Formed) (hflow : g.Conserves flow) (ht : t.Nodup) (htree : ∀ i, g.IsArc i → g.onTree i = true → i ∈ t)
    (h : Sound g flow busy s) (side : Side) (hb : b < g.numBlocks) (hvalid : s.blockValid b = true) :
    ∃ s', settle g side b s = some s' ∧ Sound g flow (fun side' b' => busy side' b' ∧ ¬(side' = side ∧ b' = b)) s' ∧
      s'.blockValid = s.blockValid ∧ weight t s' ≤ weight t s := by
  unfold Profile.settle
  split_ifs with hone
  · have hne := h.ne_terminal hone (by omega)
    have hunknown : unknown s (g.arcs side b) = 1 := by
      have := h.num_eq side b hne
      omega
    obtain ⟨i, hi, hnew, hinv, hsum⟩ := (h.sum_count _ (hg.nodup side b)).2 hunknown
    obtain ⟨harc, hnear⟩ := (hg.mem_arcs side b i).mp hi
    have htotal : (g.arcs side b).foldl (fun total i => total - s.count i) (s.blockCount b) = flow i := by
      rw [(foldl_total _ _ _).2, h.block_eq b hvalid, ← hflow.sum_eq hb hne, ← hsum, add_sub_cancel_left]
    rw [hinv, Option.map_some]
    simp only [htotal]
    have hfar := hg.near_lt side.flip i harc
    have hmem := htree i harc (h.tree i harc hnew)
    -- the block at the other end is pushed if it can be used and is not on the chain
    split_ifs with hv hpush hpush
    · refine ⟨_, rfl, h.inferArc hg hvalid hone harc hnear hnew (chain_cons h.valid_mem ⟨hfar, hv⟩ hpush.2) h.invalid_mem
        (List.subset_cons_self _ _) (List.Subset.refl _) (fun _ _ => List.mem_cons_self) (fun hv' => ?_), rfl,
        weight_setArc_le _ hnew ht hmem ?_⟩
      · exact absurd hv (by simp [setArc, hv'])
      · simp only [setArc, List.length_cons]
        omega
    · refine ⟨_, rfl, h.inferArc hg hvalid hone harc hnear hnew h.valid_mem h.invalid_mem (List.Subset.refl _) (List.Subset.refl _)
        (fun _ hn => not_not.mp fun hnot => hpush ⟨hn, hnot⟩) (fun hv' => ?_), rfl, weight_setArc_le _ hnew ht hmem (by omega)⟩
      exact absurd hv (by simp [setArc, hv'])
    · refine ⟨_, rfl, h.inferArc hg hvalid hone harc hnear hnew h.valid_mem
        (chain_cons h.invalid_mem ⟨hfar, Bool.eq_false_iff.mpr hv⟩ hpush.2) (List.Subset.refl _) (List.subset_cons_self _ _)
        (fun hv' => absurd hv' hv) (fun _ _ => List.mem_cons_self), rfl, weight_setArc_le _ hnew ht hmem ?_⟩
      simp only [setArc, List.length_cons]
      omega
    · exact ⟨_, rfl, h.inferArc hg hvalid hone harc hnear hnew h.valid_mem h.invalid_mem (List.Subset.refl _) (List.Subset.refl _)
        (fun hv' => absurd hv' hv) (fun _ hn => not_not.mp fun hnot => hpush ⟨hn, hnot⟩), rfl,
        weight_setArc_le _ hnew ht hmem (by omega)⟩
  · refine ⟨s, rfl, h.mono ?_, rfl, le_rfl⟩
    intro side' b' _ hbusy
    by_cases heq : side' = side ∧ b' = b
    · obtain ⟨rfl, rfl⟩ := heq
      exact .inr ⟨fun hv => by simp [hvalid] at hv, fun _ => hone⟩
    · exact .inl ⟨hbusy, heq⟩

/-- **The loop over invalid blocks** ends. Source: `gcov.c` `solve_flow_graph` (`while ((blk = invalid_blocks))`). Kind: L -/
theorem invalidLoop_spec (hg : g.Formed) (hflow : g.Conserves flow) (h : Sound g flow idle s) (hfuel : weight t s < fuel) :
    ∃ s', invalidLoop g fuel s = some s' ∧ Sound g flow idle s' ∧ s'.invalidBlocks = [] ∧
      weight t s' + s.invalidBlocks.length ≤ weight t s := by
  induction fuel generalizing s with
  | zero => omega
  | succ fuel ih =>
    rw [invalidLoop]
    cases hinv : s.invalidBlocks with
    | nil => exact ⟨s, rfl, h, hinv, by simp⟩
    | cons b rest =>
      have hmem := h.invalid_mem
      rw [hinv, List.nodup_cons, List.forall_mem_cons] at hmem
      have hpop : Sound g flow (fun _ b' => b' = b) { s with invalidBlocks := rest } := by
        refine ⟨⟨h.count_eq, h.num_eq, h.num_terminal⟩, h.tree, h.block_eq, h.valid_mem, ⟨hmem.1.2, hmem.2.2⟩,
          fun side b' hb' hv hn => ?_, fun side b' hb' hv hn => .inr ((h.on_valid side b' hb' hv hn).resolve_left id)⟩
        have := (h.on_invalid side b' hb' hv hn).resolve_left id
        rwa [hinv, List.mem_cons] at this
      have hvisit := hpop.visitInvalid hg hflow hmem.2.1.1 hmem.2.1.2 hmem.1.1
      have hweight : weight t (visitInvalid g b { s with invalidBlocks := rest }) + 1 ≤ weight t s ∧
          (visitInvalid g b { s with invalidBlocks := rest }).invalidBlocks = rest := by
        unfold visitInvalid
        simp only
        split_ifs <;> simp [weight, unknown, hinv] <;> omega
      obtain ⟨s', hloop, hsound, hnil, hless⟩ := ih hvisit (by omega)
      rw [hweight.2] at hless
      exact ⟨s', hloop, hsound, hnil, by rw [List.length_cons]; omega⟩

/-- **The loop over valid blocks** ends. Source: `gcov.c` `solve_flow_graph` (`while ((blk = valid_blocks))`). Kind: L -/
theorem validLoop_spec (hg : g.Formed) (hflow : g.Conserves flow) (ht : t.Nodup)
    (htree : ∀ i, g.IsArc i → g.onTree i = true → i ∈ t) (h : Sound g flow idle s) (hfuel : weight t s < fuel) :
    ∃ s', validLoop g fuel s = some s' ∧ Sound g flow idle s' ∧ s'.validBlocks = [] ∧
      weight t s' + (if s.validBlocks = [] then 0 else 1) ≤ weight t s := by
  induction fuel generalizing s with
  | zero => omega
  | succ fuel ih =>
    rw [validLoop]
    cases hval : s.validBlocks with
    | nil => exact ⟨s, rfl, h, hval, by simp⟩
    | cons b rest =>
      have hmem := h.valid_mem
      rw [hval, List.nodup_cons, List.forall_mem_cons] at hmem
      have hpop : Sound g flow (fun _ b' => b' = b) { s with validBlocks := rest } := by
        refine ⟨⟨h.count_eq, h.num_eq, h.num_terminal⟩, h.tree, h.block_eq, ⟨hmem.1.2, hmem.2.2⟩, h.invalid_mem,
          fun side b' hb' hv hn => .inr ((h.on_invalid side b' hb' hv hn).resolve_left id), fun side b' hb' hv hn => ?_⟩
        have := (h.on_valid side b' hb' hv hn).resolve_left id
        rwa [hval, List.mem_cons] at this
      obtain ⟨s₁, hsucc, hsound₁, hvalid₁, hweight₁⟩ := hpop.settle hg hflow ht htree .succ hmem.2.1.1 hmem.2.1.2
      obtain ⟨s₂, hpred, hsound₂, -, hweight₂⟩ := hsound₁.settle hg hflow ht htree .pred hmem.2.1.1 (by rw [hvalid₁]; exact hmem.2.1.2)
      have hidle : Sound g flow idle s₂ := hsound₂.mono fun side b' _ hbusy => by cases side <;> simp_all
      have hweight : weight t { s with validBlocks := rest } + 1 = weight t s := by
        simp [weight, unknown, hval]
        omega
      obtain ⟨s', hloop, hsound, hnil, hless⟩ := ih hidle (by omega)
      refine ⟨s', ?_, hsound, hnil, ?_⟩
      · simp only [hsucc, hpred, Option.bind_eq_bind, Option.bind_some, hloop]
      · rw [if_neg (List.cons_ne_nil _ _)]
        split_ifs at hless <;> omega

/-- **Both chains get empty.** Source: `gcov.c` `solve_flow_graph` (`while (invalid_blocks || valid_blocks)`). Kind: P -/
theorem solveLoop_spec (hg : g.Formed) (hflow : g.Conserves flow) (ht : t.Nodup)
    (htree : ∀ i, g.IsArc i → g.onTree i = true → i ∈ t) (h : Sound g flow idle s) (hfuel : weight t s < fuel) :
    ∃ s', solveLoop g fuel s = some s' ∧ Sound g flow idle s' ∧ s'.invalidBlocks = [] ∧ s'.validBlocks = [] := by
  induction fuel generalizing s with
  | zero => omega
  | succ fuel ih =>
    rw [solveLoop]
    split_ifs with hempty
    · exact ⟨s, rfl, h, hempty⟩
    · obtain ⟨s₁, hloop₁, hsound₁, -, hless₁⟩ := invalidLoop_spec hg hflow h hfuel
      obtain ⟨s₂, hloop₂, hsound₂, -, hless₂⟩ := validLoop_spec hg hflow ht htree hsound₁ (by omega : weight t s₁ < fuel + 1)
      have hless : weight t s₂ < weight t s := by
        cases hinv : s.invalidBlocks with
        | cons b rest =>
          rw [hinv, List.length_cons] at hless₁
          omega
        | nil =>
          rw [invalidLoop, hinv, Option.some.injEq] at hloop₁
          subst hloop₁
          rw [if_neg fun hval => hempty ⟨hinv, hval⟩] at hless₂
          omega
      obtain ⟨s', hloop, hdone⟩ := ih hsound₂ (by omega)
      exact ⟨s', by simp only [hloop₁, hloop₂, Option.bind_eq_bind, Option.bind_some, hloop], hdone⟩

/-- While an arc is unknown, some inner block has only one: the unknown arcs are a forest, and such a block is a leaf of it. -/
theorem Sound.exists_leaf {label : ℕ → ℕ} (hg : g.Formed) (ht : t.Nodup)
    (hforest : Forest g.near (fun v => if v = g.numBlocks - 1 then 0 else v) t label)
    (htree : ∀ i, g.IsArc i → g.onTree i = true → i ∈ t) (h : Sound g flow busy s) (harc : g.IsArc i) (hi : s.countValid i = false) :
    ∃ v < g.numBlocks, v ≠ 0 ∧ v ≠ g.numBlocks - 1 ∧ unknown s (g.arcs .succ v) + unknown s (g.arcs .pred v) = 1 := by
  classical
  obtain ⟨label', hrest, -⟩ := hforest.filter fun i => decide (g.IsArc i) && !s.countValid i
  have hmem (i : ℕ) : i ∈ t.filter (fun i => decide (g.IsArc i) && !s.countValid i) ↔ g.IsArc i ∧ s.countValid i = false := by
    simp only [List.mem_filter, Bool.and_eq_true, decide_eq_true_eq, Bool.not_eq_true']
    exact ⟨And.right, fun hi => ⟨htree i hi.1 (h.tree i hi.1 hi.2), hi⟩⟩
  obtain ⟨v, hentry, hexit, hleaf⟩ := hrest.exists_leaf (List.ne_nil_of_mem ((hmem i).mpr ⟨harc, hi⟩))
  -- the arcs at the leaf are those that its block still counts
  have hnum (side : Side) : degree g.near (t.filter fun i => decide (g.IsArc i) && !s.countValid i) side v =
      unknown s (g.arcs side v) := by
    rw [degree, unknown, List.countP_eq_length_filter, List.countP_eq_length_filter]
    refine ((List.perm_ext_iff_of_nodup ((ht.filter _).filter _) ((hg.nodup side v).filter _)).mpr fun j => ?_).length_eq
    rw [List.mem_filter, hmem, List.mem_filter, hg.mem_arcs]
    simp only [decide_eq_true_eq, Bool.not_eq_true']
    tauto
  have hlt : v < g.numBlocks := by
    have hpos : 0 < degree g.near (t.filter fun i => decide (g.IsArc i) && !s.countValid i) .succ v ∨
        0 < degree g.near (t.filter fun i => decide (g.IsArc i) && !s.countValid i) .pred v := by omega
    rcases hpos with hpos | hpos <;> obtain ⟨j, hj, hv⟩ := List.countP_pos_iff.mp hpos <;>
      exact of_decide_eq_true hv ▸ hg.near_lt _ j ((hmem j).mp hj).1
  rw [hnum, hnum] at hleaf
  exact ⟨v, hlt, hentry, hexit, hleaf⟩

/-- **Nothing is left** when both chains are empty. Source: `gcov.c` ("every block will have a valid count"). Kind: P -/
theorem Sound.complete {label : ℕ → ℕ} (hg : g.Formed) (ht : t.Nodup)
    (hforest : Forest g.near (fun v => if v = g.numBlocks - 1 then 0 else v) t label)
    (htree : ∀ i, g.IsArc i → g.onTree i = true → i ∈ t) (h : Sound g flow idle s) (hinv : s.invalidBlocks = [])
    (hval : s.validBlocks = []) : (∀ i, g.IsArc i → s.countValid i = true) ∧ ∀ b < g.numBlocks, s.blockValid b = true := by
  have hstuck (side : Side) {b : ℕ} (hb : b < g.numBlocks) :
      (s.blockValid b = false → s.num side b ≠ 0) ∧ (s.blockValid b = true → s.num side b ≠ 1) := by
    constructor
    · intro hv hn
      simpa [idle, hinv] using h.on_invalid side b hb hv hn
    · intro hv hn
      simpa [idle, hval] using h.on_valid side b hb hv hn
  have hknown : ∀ i, g.IsArc i → s.countValid i = true := by
    by_contra hsome
    push Not at hsome
    obtain ⟨i, harc, hi⟩ := hsome
    obtain ⟨v, hlt, hentry, hexit, hleaf⟩ := h.exists_leaf hg ht hforest htree harc (by simpa using hi)
    have hsucc := h.num_eq .succ v hexit
    have hpred := h.num_eq .pred v hentry
    cases hv : s.blockValid v with
    | true =>
      have h₁ := (hstuck .succ hlt).2 hv
      have h₂ := (hstuck .pred hlt).2 hv
      omega
    | false =>
      have h₁ := (hstuck .succ hlt).1 hv
      have h₂ := (hstuck .pred hlt).1 hv
      omega
  refine ⟨hknown, fun b hb => ?_⟩
  by_contra hv
  obtain ⟨side, hside⟩ : ∃ side, b ≠ g.terminal side := by
    rcases eq_or_ne b 0 with rfl | hne
    · exact ⟨.succ, by have := hg.two_le; simp only [Graph.terminal]; omega⟩
    · exact ⟨.pred, hne⟩
  refine (hstuck side hb).1 (Bool.eq_false_iff.mpr hv) ?_
  rw [h.num_eq side b hside, unknown, List.countP_eq_zero.mpr]
  · rfl
  · intro i hi
    simp [hknown i ((hg.mem_arcs side b i).mp hi).1]

/-! ## The round trip -/

/-- **The measured counts** are those of the arcs off the tree. Source: `gcov.c` ("Propagate the measured counts"). Kind: L -/
theorem measure_spec (hg : g.Formed) {l : List ℕ} (hl : l.Nodup) (harc : ∀ i ∈ l, g.IsArc i) (h : Balanced g flow s)
    (hnew : ∀ i ∈ l, s.countValid i = false) :
    ∃ s', l.foldlM (measureArc g) ((l.filter fun i => !g.onTree i).map flow, s) = some ([], s') ∧ Balanced g flow s' ∧
      (∀ i ∈ l, g.onTree i = false → s'.countValid i = true) ∧ (∀ i, s.countValid i = true → s'.countValid i = true) ∧
      s'.blockValid = s.blockValid ∧ s'.validBlocks = s.validBlocks := by
  induction l generalizing s with
  | nil => exact ⟨s, rfl, h, by simp, fun _ hi => hi, rfl, rfl⟩
  | cons i l ih =>
    rw [List.nodup_cons] at hl
    rw [List.forall_mem_cons] at harc hnew
    rw [List.foldlM_cons]
    cases htree : g.onTree i with
    | true =>
      rw [List.filter_cons_of_neg (by simp [htree])]
      obtain ⟨s', hfold, hbalanced, hmeasured, hrest⟩ := ih hl.2 harc.2 h hnew.2
      refine ⟨s', ?_, hbalanced, List.forall_mem_cons.mpr ⟨by simp [htree], hmeasured⟩, hrest⟩
      simp only [measureArc, htree, if_true, Option.bind_eq_bind, Option.bind_some, hfold]
    | false =>
      rw [List.filter_cons_of_pos (by simp [htree]), List.map_cons]
      obtain ⟨s', hfold, hbalanced, hmeasured, hkept, hrest⟩ := ih hl.2 harc.2 (h.setArc hg hnew.1 harc.1) fun j hj => by
        have hne : j ≠ i := fun heq => hl.1 (heq ▸ hj)
        simpa [setArc, Function.update_of_ne hne] using hnew.2 j hj
      refine ⟨s', ?_, hbalanced, List.forall_mem_cons.mpr ⟨fun _ => hkept i (by simp [setArc]), hmeasured⟩, fun j hj => ?_, hrest⟩
      · simp only [measureArc, htree, Bool.false_eq_true, if_false, Option.bind_eq_bind, Option.bind_some, hfold]
      · exact hkept j (by simp [setArc, Function.update_apply, hj])

theorem balanced_start (hg : g.Formed) : Balanced g flow (start g) := by
  refine ⟨fun i => rfl, fun side b hb => ?_, fun side => ?_⟩
  · simp [start, hb, unknown]
  · have hnone : g.arcs side (g.terminal side) = [] := by
      refine List.eq_nil_iff_forall_not_mem.mpr fun i hi => ?_
      obtain ⟨harc, hnear⟩ := (hg.mem_arcs _ _ _).mp hi
      exact hg.near_ne side i harc hnear
    simp [start, hnone]

theorem Balanced.sorted (h : Balanced g flow s) : Balanced g.sorted flow s := by
  refine ⟨h.count_eq, fun side b hb => ?_, fun side => ?_⟩
  · rw [unknown, (g.sorted_perm side b).countP_eq]
    cases side
    · exact h.num_eq .succ b hb
    · exact h.num_eq .pred b hb
  · cases side
    · exact h.num_terminal .succ
    · exact h.num_terminal .pred

/-- **The graph is solved**, if the arcs on the tree are a forest with the exit and the entry joined.
Source: `gcov.c` `solve_flow_graph`
Kind: P -/
theorem solveFlowGraph_spec {label : ℕ → ℕ} (hg : g.Formed) (hflow : g.Conserves flow) (ht : t.Nodup)
    (hforest : Forest g.near (fun v => if v = g.numBlocks - 1 then 0 else v) t label)
    (htree : ∀ i, g.IsArc i → g.onTree i = true → i ∈ t) (hfuel : 2 * g.numBlocks + 3 * t.length < fuel) :
    ∃ s, solveFlowGraph g fuel ((g.counted).map flow) = some s ∧
      (∀ i, g.IsArc i → s.countValid i = true ∧ s.count i = flow i) ∧
      ∀ b < g.numBlocks, s.blockValid b = true ∧ s.blockCount b = g.through flow b := by
  have hmem (i : ℕ) : i ∈ (List.range g.numBlocks).flatMap (g.arcs .succ) ↔ g.IsArc i := by
    rw [List.mem_flatMap]
    exact ⟨fun ⟨b, _, hi⟩ => ((hg.mem_arcs _ _ _).mp hi).1, fun hi => ⟨_, List.mem_range.mpr (hg.near_lt .succ i hi), hi⟩⟩
  have hnodup : ((List.range g.numBlocks).flatMap (g.arcs .succ)).Nodup := by
    refine List.nodup_flatMap.mpr ⟨fun b _ => hg.nodup _ b, List.nodup_range.imp fun hne i hi hi' => hne ?_⟩
    exact ((hg.mem_arcs _ _ _).mp hi).2.symm.trans ((hg.mem_arcs _ _ _).mp hi').2
  obtain ⟨s, hfold, hbalanced, hmeasured, -, hblocks, hchain⟩ := measure_spec hg hnodup (fun i hi => (hmem i).mp hi)
    (balanced_start hg : Balanced g flow (start g)) fun i _ => rfl
  have hsorted := hbalanced.sorted
  have hstart : Sound g.sorted flow idle { s with invalidBlocks := (List.range g.numBlocks).reverse } := by
    refine ⟨⟨hsorted.count_eq, hsorted.num_eq, hsorted.num_terminal⟩, fun i hi hv => ?_, ?_, ?_,
      ⟨List.nodup_reverse.mpr List.nodup_range, ?_⟩, fun _ b hb _ _ => .inr (by simpa [Graph.sorted] using hb), ?_⟩
    · by_contra hoff
      rw [g.sorted_isArc] at hi
      have hoff' : g.onTree i = false := Bool.eq_false_iff.mpr hoff
      simp [hmeasured i ((hmem i).mpr hi) hoff'] at hv
    all_goals simp [hblocks, hchain, start, Graph.sorted]
  have hweight : weight t { s with invalidBlocks := (List.range g.numBlocks).reverse } < fuel := by
    have : unknown s t ≤ t.length := List.countP_le_length
    rw [weight, hchain, List.length_reverse, List.length_range, show (start g : Solver G).validBlocks = [] from rfl, List.length_nil]
    change 0 + 2 * g.numBlocks + 3 * unknown s t < fuel
    omega
  have htree' : ∀ i, g.sorted.IsArc i → g.sorted.onTree i = true → i ∈ t := fun i hi => htree i ((g.sorted_isArc i).mp hi)
  obtain ⟨s', hloop, hsound, hinv, hval⟩ := solveLoop_spec hg.sorted hflow.sorted ht htree' hstart hweight
  obtain ⟨harcs, hall⟩ := hsound.complete hg.sorted ht hforest htree' hinv hval
  simp only [g.sorted_isArc] at harcs
  refine ⟨s', ?_, fun i hi => ⟨harcs i hi, by rw [hsound.count_eq, if_pos (harcs i hi)]⟩,
    fun b hb => ⟨hall b hb, (hsound.block_eq b (hall b hb)).trans (g.sorted_through flow b)⟩⟩
  rw [List.filter_flatMap] at hfold
  simp only [solveFlowGraph, Graph.counted, hfold, Option.bind_eq_bind, Option.bind_some, hloop]

end Solving

/-- The blocks of a function: no edge enters the entry block or leaves the exit block. Source: `basic-block.h`. -/
structure Cfg.Formed (f : Cfg) : Prop where
  two_le : 2 ≤ f.numBlocks
  near_lt : ∀ side, ∀ i < f.edges.length, f.near side i < f.numBlocks
  src_ne : ∀ i < f.edges.length, f.near .succ i ≠ f.exitBlock
  dest_ne : ∀ i < f.edges.length, f.near .pred i ≠ 0

/-- The graph that `gcov` reads back: edges that are ignored, and fake ones off the tree, are not written.
Source: `profile.c` `branch_prob` ("Arcs"), `gcov.c` `read_graph_file` -/
def gcovGraph (f : Cfg) (onTree : ℕ → Bool) : Graph where
  numBlocks := f.numBlocks
  arcs := fun side b => (List.range f.edges.length).filter fun i =>
    f.near side i == b && !f.ignore (f.edge i) && (onTree i || !(f.edge i).fake)
  near := f.near
  onTree := onTree

theorem gcovGraph_formed {f : Cfg} (hf : f.Formed) (onTree : ℕ → Bool) : (gcovGraph f onTree).Formed := by
  have hlt (i : ℕ) (hi : (gcovGraph f onTree).IsArc i) : i < f.edges.length := List.mem_range.mp (List.mem_filter.mp hi).1
  refine ⟨hf.two_le, fun side b => List.nodup_range.filter _, fun side b i => ?_, fun side i hi => hf.near_lt side i (hlt i hi),
    fun side i hi => ?_⟩
  · simp [Graph.IsArc, gcovGraph]
    tauto
  · cases side
    · exact hf.src_ne i (hlt i hi)
    · exact hf.dest_ne i (hlt i hi)

/-- The edges that get a counter; it is an error if one of them is abnormal. Fake edges off the tree are ignored by then.
Source: `profile.c` `instrument_edges` (`gcc_assert (!(e->flags & EDGE_ABNORMAL))`), `branch_prob` -/
def instrumentEdges (f : Cfg) (onTree : ℕ → Bool) : Option (List ℕ) :=
  let edges := (List.range f.numBlocks).flatMap fun b => (List.range f.edges.length).filter fun i =>
    f.near .succ i == b && !f.ignore (f.edge i) && !(f.edge i).fake && !onTree i
  if edges.any fun i => (f.edge i).abnormal then none else some edges

/-- The counters are those that `gcov` reads. Source: `profile.c` `instrument_edges`, `gcov.c` `solve_flow_graph`. Kind: L -/
theorem instrumentEdges_eq {f : Cfg} {onTree : ℕ → Bool} {edges : List ℕ} (h : instrumentEdges f onTree = some edges) :
    edges = (gcovGraph f onTree).counted := by
  unfold instrumentEdges at h
  dsimp only at h
  split_ifs at h
  rw [← Option.some.inj h, Graph.counted]
  refine List.flatMap_congr fun b _ => ?_
  rw [gcovGraph, List.filter_filter]
  refine List.filter_congr fun i _ => ?_
  rw [Bool.eq_iff_iff]
  simp only [Bool.and_eq_true, Bool.or_eq_true, Bool.not_eq_true']
  grind

/-- **Counting the edges off the spanning tree is enough.** A spanning forest is found; and unless an abnormal edge would get a
counter, `gcov` recovers from the counters, for any counts that every inner block conserves, the count of each arc and each block.
Source: `profile.c` `find_spanning_tree`, `instrument_edges`; `gcov.c` `solve_flow_graph`
Kind: P -/
theorem solveFlowGraph_recovers {G : Type} [AddCommGroup G] {f : Cfg} (hf : f.Formed) {fuel : ℕ}
    (hfuel : 2 * f.numBlocks + 3 * f.edges.length < fuel) :
    ∃ onTree t label, findSpanningTree fuel f = some onTree ∧ OnForest f onTree t label ∧ Spans f label ∧
      ∀ edges, instrumentEdges f onTree = some edges → ∀ flow : ℕ → G, (gcovGraph f onTree).Conserves flow →
        ∃ s, solveFlowGraph (gcovGraph f onTree) fuel (edges.map flow) = some s ∧
          (∀ i, (gcovGraph f onTree).IsArc i → s.countValid i = true ∧ s.count i = flow i) ∧
          ∀ b < f.numBlocks, s.blockValid b = true ∧ s.blockCount b = (gcovGraph f onTree).through flow b := by
  have htwo := hf.two_le
  obtain ⟨onTree, t, label, hfind, hforest, hspans⟩ := findSpanningTree_spec htwo (by omega : f.edges.length + 1 < fuel)
  have hlength := hforest.length_le
  refine ⟨onTree, t, label, hfind, hforest, hspans, fun edges hedges flow hflow => ?_⟩
  rw [instrumentEdges_eq hedges]
  exact solveFlowGraph_spec (gcovGraph_formed hf onTree) hflow hforest.2.1 hforest.1 (fun i _ hi => ((hforest.2.2 i).1).mp hi)
    (by simp only [gcovGraph]; omega)

/-- A loop of two blocks; the successors of the second are out of order. -/
def loopCfg : Cfg where
  numBlocks := 4
  edges := [⟨0, 1, false, false, false⟩, ⟨1, 2, false, false, false⟩, ⟨2, 3, false, false, false⟩, ⟨2, 1, false, false, false⟩]

/-- The loop is executed ten times, and two counters tell. -/
theorem solveFlowGraph_recovers_loop :
    ∃ onTree s, findSpanningTree 30 loopCfg = some onTree ∧ ∃ edges, instrumentEdges loopCfg onTree = some edges ∧
      solveFlowGraph (gcovGraph loopCfg onTree) 30 (edges.map fun i => [1, 10, 1, (9 : ℤ)].getD i 0) = some s ∧
      s.blockCount 1 = 10 := by
  have hformed : loopCfg.Formed := by
    refine ⟨by decide, ?_, ?_, ?_⟩
    · rintro (_ | _) <;> decide
    · decide
    · decide
  obtain ⟨onTree, t, label, hfind, -, -, hrecovers⟩ := solveFlowGraph_recovers (G := ℤ) hformed (by decide : 2 * 4 + 3 * 4 < 30)
  -- no edge is abnormal
  have hedges : ∃ edges, instrumentEdges loopCfg onTree = some edges := by
    refine ⟨_, if_neg ?_⟩
    have hplain (i : ℕ) : (loopCfg.edge i).abnormal = false := by
      rcases i with _ | _ | _ | _ | i <;> rfl
    simp [hplain]
  obtain ⟨edges, hedges⟩ := hedges
  obtain ⟨s, hsolve, -, hblocks⟩ := hrecovers edges hedges (fun i => [1, 10, 1, (9 : ℤ)].getD i 0) (by
    intro b hb h0 h3
    have hb' : b = 1 ∨ b = 2 := by
      simp only [gcovGraph, loopCfg] at hb h3
      omega
    rcases hb' with rfl | rfl <;> simp [gcovGraph, loopCfg, Cfg.near, Cfg.edge, Cfg.ignore, Cfg.exitBlock, List.range_succ])
  refine ⟨onTree, s, hfind, edges, hedges, hsolve, (hblocks 1 (by decide)).2.trans ?_⟩
  simp [Graph.through, gcovGraph, loopCfg, Cfg.near, Cfg.edge, Cfg.ignore, Cfg.exitBlock, List.range_succ]

end GccCore.Gcc.Profile
