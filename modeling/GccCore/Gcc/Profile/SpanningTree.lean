import GccCore.Lib.SpanningForest

/-!
# `gcc/profile.c`: the edges that are not counted

A block is named by its number in the notes for `gcov`: `0` is the entry, the last one the exit. Loops take fuel.

* **Groups of blocks** (`findGroup_spec`, `unionGroups_spec`): the `aux` pointers lead to one block of each group.
* **The spanning tree** (`findSpanningTree_spec`): what is put on the tree is a forest, the exit and the entry being joined, and
  it spans the graph.
-/

namespace GccCore.Gcc.Profile

open GccCore.Lib.SpanningForest

/-! ## Groups of blocks -/

/-- Source: `profile.c` `find_group` (`while ((basic_block)group->aux != group)`). -/
def findRoot (aux : ℕ → ℕ) : ℕ → ℕ → Option ℕ
  | 0, _ => none
  | fuel + 1, group => if aux group = group then some group else findRoot aux fuel (aux group)

/-- Source: `profile.c` `find_group` ("Compress path."). -/
def compressPath (group : ℕ) : ℕ → (ℕ → ℕ) → ℕ → Option (ℕ → ℕ)
  | 0, _, _ => none
  | fuel + 1, aux, bb =>
    if aux bb = group then some aux else compressPath group fuel (Function.update aux bb group) (aux bb)

/-- Source: `profile.c` `find_group`. -/
def findGroup (fuel : ℕ) (aux : ℕ → ℕ) (bb : ℕ) : Option (ℕ × (ℕ → ℕ)) := do
  let group ← findRoot aux fuel bb
  let aux ← compressPath group fuel aux bb
  some (group, aux)

/-- The assertion that the groups are two is a failure here. Source: `profile.c` `union_groups`. -/
def unionGroups (fuel : ℕ) (aux : ℕ → ℕ) (bb1 bb2 : ℕ) : Option (ℕ → ℕ) := do
  let (bb1g, aux) ← findGroup fuel aux bb1
  let (bb2g, aux) ← findGroup fuel aux bb2
  if bb1g = bb2g then none else some (Function.update aux bb1g bb2g)

/-- Pointers that lead to the group of a block in at most `m` steps. Source: `profile.c` `find_group`. -/
structure Rooted (m : ℕ) (depth aux label : ℕ → ℕ) : Prop where
  bounded : ∀ b, depth b ≤ m
  root : ∀ b, aux b = b → depth b = 0 ∧ label b = b
  step : ∀ b, aux b ≠ b → depth (aux b) < depth b ∧ label (aux b) = label b
  label_root : ∀ b, aux (label b) = label b

section Groups

variable {m fuel : ℕ} {depth aux label : ℕ → ℕ} {bb : ℕ}

theorem Rooted.label_label (h : Rooted m depth aux label) (b : ℕ) : label (label b) = label b := (h.root _ (h.label_root b)).2

theorem Rooted.findRoot (h : Rooted m depth aux label) (hfuel : depth bb < fuel) : findRoot aux fuel bb = some (label bb) := by
  induction fuel generalizing bb with
  | zero => omega
  | succ fuel ih =>
    rw [Profile.findRoot]
    split_ifs with hroot
    · rw [(h.root bb hroot).2]
    · rw [ih (by have := (h.step bb hroot).1; omega), (h.step bb hroot).2]

/-- A pointer may be led to the group at once. -/
theorem Rooted.compress (h : Rooted m depth aux label) (hbb : aux bb ≠ bb) :
    Rooted m depth (Function.update aux bb (label bb)) label := by
  have hne : label bb ≠ bb := fun heq => hbb (by rw [← heq, h.label_root])
  refine ⟨h.bounded, fun b hb => ?_, fun b hb => ?_, fun b => ?_⟩
  · rcases eq_or_ne b bb with rfl | hne'
    · rw [Function.update_self] at hb
      exact absurd hb hne
    · rw [Function.update_of_ne hne'] at hb
      exact h.root b hb
  · rcases eq_or_ne b bb with rfl | hne'
    · rw [Function.update_self, h.label_label]
      have := (h.root _ (h.label_root b)).1
      exact ⟨by have := (h.step b hbb).1; omega, rfl⟩
    · rw [Function.update_of_ne hne'] at hb ⊢
      exact h.step b hb
  · have : label b ≠ bb := fun heq => hbb (by rw [← heq, h.label_root])
    rw [Function.update_of_ne this, h.label_root]

theorem Rooted.compressPath (h : Rooted m depth aux label) (hfuel : depth bb < fuel) :
    ∃ aux', compressPath (label bb) fuel aux bb = some aux' ∧ Rooted m depth aux' label := by
  induction fuel generalizing aux bb with
  | zero => omega
  | succ fuel ih =>
    rw [Profile.compressPath]
    split_ifs with hgroup
    · exact ⟨aux, rfl, h⟩
    · have hbb : aux bb ≠ bb := fun heq => hgroup (by rw [heq, (h.root bb heq).2])
      have hstep := h.step bb hbb
      rw [← hstep.2]
      have hcompressed := h.compress hbb
      rw [← hstep.2] at hcompressed
      exact ih hcompressed (by omega)

/-- **The group of a block** is found, and the pointers are still those of the same groups. Source: `profile.c` `find_group`. Kind: P -/
theorem findGroup_spec (h : Rooted m depth aux label) (hfuel : m < fuel) (bb : ℕ) :
    ∃ aux', findGroup fuel aux bb = some (label bb, aux') ∧ Rooted m depth aux' label := by
  have hdepth : depth bb < fuel := (h.bounded bb).trans_lt hfuel
  obtain ⟨aux', hcompress, hrooted⟩ := h.compressPath hdepth
  refine ⟨aux', ?_, hrooted⟩
  simp only [findGroup, h.findRoot hdepth, hcompress, Option.bind_eq_bind, Option.bind_some]

theorem Rooted.union (h : Rooted m depth aux label) {b1 b2 : ℕ} (hne : label b1 ≠ label b2) :
    Rooted (m + 1) (fun b => if label b = label b1 then depth b + 1 else depth b)
      (Function.update aux (label b1) (label b2)) (join label b1 b2) := by
  have hroot2 := h.root _ (h.label_root b2)
  refine ⟨fun b => ?_, fun b hb => ?_, fun b hb => ?_, fun b => ?_⟩
  · have := h.bounded b
    split_ifs <;> omega
  · rcases eq_or_ne b (label b1) with rfl | hb1
    · rw [Function.update_self] at hb
      exact absurd hb.symm hne
    · rw [Function.update_of_ne hb1] at hb
      obtain ⟨hdepth, hlabel⟩ := h.root b hb
      simp only [join, hlabel, if_neg hb1]
      exact ⟨hdepth, trivial⟩
  · rcases eq_or_ne b (label b1) with rfl | hb1
    · simp [join, Function.update_self, h.label_label, hne.symm, hroot2.1]
    · rw [Function.update_of_ne hb1] at hb ⊢
      obtain ⟨hdepth, hlabel⟩ := h.step b hb
      simp only [join, hlabel]
      refine ⟨?_, trivial⟩
      split_ifs <;> omega
  · rw [join]
    split_ifs with hb
    · rw [Function.update_of_ne hne.symm, h.label_root]
    · rw [Function.update_of_ne hb, h.label_root]

/-- **Two groups become one.** Source: `profile.c` `union_groups`. Kind: P -/
theorem unionGroups_spec (h : Rooted m depth aux label) (hfuel : m < fuel) {b1 b2 : ℕ} (hne : label b1 ≠ label b2) :
    ∃ aux' depth', unionGroups fuel aux b1 b2 = some aux' ∧ Rooted (m + 1) depth' aux' (join label b1 b2) := by
  obtain ⟨aux₁, hfind₁, hrooted₁⟩ := findGroup_spec h hfuel b1
  obtain ⟨aux₂, hfind₂, hrooted₂⟩ := findGroup_spec hrooted₁ hfuel b2
  refine ⟨_, _, ?_, hrooted₂.union hne⟩
  simp only [unionGroups, hfind₁, hfind₂, Option.bind_eq_bind, Option.bind_some, if_neg hne]

end Groups

/-! ## The tree -/

/-- Source: `basic-block.h` `struct edge_def` (`src`, `dest`, `flags`). -/
structure Edge where
  src : ℕ
  dest : ℕ
  abnormal : Bool
  abnormalCall : Bool
  fake : Bool
  deriving Inhabited

/-- The flow graph of a function, with the list that `create_edge_list` makes. Source: `basic-block.h`. -/
structure Cfg where
  numBlocks : ℕ
  edges : List Edge

namespace Cfg

variable (f : Cfg)

def edge (i : ℕ) : Edge := f.edges.getD i default

def exitBlock : ℕ := f.numBlocks - 1

/-- Source: `profile.c` `branch_prob` ("Mark edges we've replaced by fake edges above as ignored."). -/
def ignore (e : Edge) : Bool := (e.abnormal || e.abnormalCall) && e.src != 0 && e.dest != f.exitBlock

/-- Source: `basic-block.h` `EDGE_CRITICAL_P`. -/
def critical (e : Edge) : Bool :=
  decide (2 ≤ f.edges.countP (·.src = e.src)) && decide (2 ≤ f.edges.countP (·.dest = e.dest))

/-- The ends of an edge. Source: `basic-block.h` (`src`, `dest`). -/
def near : Side → ℕ → ℕ
  | .succ, i => (f.edge i).src
  | .pred, i => (f.edge i).dest

end Cfg

/-- Source: `profile.c` `find_spanning_tree` (`bb->aux`, `EDGE_INFO (e)->on_tree`). -/
structure Tree where
  aux : ℕ → ℕ
  onTree : ℕ → Bool

/-- An edge is put on the tree unless it forms a cycle. Source: `profile.c` `find_spanning_tree`. -/
def addEdge (fuel : ℕ) (f : Cfg) (tree : Tree) (i : ℕ) : Option Tree := do
  let (g, aux) ← findGroup fuel tree.aux (f.edge i).src
  let (g', aux) ← findGroup fuel aux (f.edge i).dest
  if g ≠ g' then (unionGroups fuel aux (f.edge i).src (f.edge i).dest).map fun aux => ⟨aux, Function.update tree.onTree i true⟩
  else some { tree with aux := aux }

/-- One of the three loops over the edges. Source: `profile.c` `find_spanning_tree`. -/
def treePass (fuel : ℕ) (f : Cfg) (wanted : Edge → Bool) : List ℕ → Tree → Option Tree
  | [], tree => some tree
  | i :: is, tree => do
    let tree ← if wanted (f.edge i) && !f.ignore (f.edge i) then addEdge fuel f tree i else some tree
    treePass fuel f wanted is tree

/-- Abnormal edges and those to the exit first, then critical ones, then the rest. Source: `profile.c` `find_spanning_tree`. -/
def findSpanningTree (fuel : ℕ) (f : Cfg) : Option (ℕ → Bool) := do
  let aux ← unionGroups fuel id f.exitBlock 0
  let all := List.range f.edges.length
  let tree ← treePass fuel f (fun e => e.abnormal || e.abnormalCall || e.fake || e.dest == f.exitBlock) all ⟨aux, fun _ => false⟩
  let tree ← treePass fuel f f.critical all tree
  let tree ← treePass fuel f (fun _ => true) all tree
  some tree.onTree

/-- The edges on the tree are a forest of edges that are not ignored. Source: `profile.c` `find_spanning_tree`. -/
def OnForest (f : Cfg) (onTree : ℕ → Bool) (t : List ℕ) (label : ℕ → ℕ) : Prop :=
  Forest f.near (fun v => if v = f.exitBlock then 0 else v) t label ∧ t.Nodup ∧
    ∀ i, (onTree i = true ↔ i ∈ t) ∧ (i ∈ t → i < f.edges.length ∧ f.ignore (f.edge i) = false)

section Growing

variable {f : Cfg} {fuel : ℕ}

/-- What the loops keep. Source: `profile.c` `find_spanning_tree`. -/
def Grown (f : Cfg) (tree : Tree) (label : ℕ → ℕ) : Prop :=
  ∃ t depth, OnForest f tree.onTree t label ∧ Rooted (t.length + 1) depth tree.aux label

/-- The groups of the second labelling are unions of those of the first. -/
def Coarser (label label' : ℕ → ℕ) : Prop := ∀ u v, label u = label v → label' u = label' v

theorem OnForest.length_le {onTree : ℕ → Bool} {t : List ℕ} {label : ℕ → ℕ} (h : OnForest f onTree t label) :
    t.length ≤ f.edges.length := by
  have hsub : t ⊆ List.range f.edges.length := fun i hi => List.mem_range.mpr ((h.2.2 i).2 hi).1
  simpa using (h.2.1.subperm hsub).length_le

/-- **One edge**: its ends are in one group then. Source: `profile.c` `find_spanning_tree`. Kind: L -/
theorem Grown.addEdge {tree : Tree} {label : ℕ → ℕ} (h : Grown f tree label) (hfuel : f.edges.length + 1 < fuel) {i : ℕ}
    (hi : i < f.edges.length) (hkept : f.ignore (f.edge i) = false) :
    ∃ tree' label', addEdge fuel f tree i = some tree' ∧ Grown f tree' label' ∧ Coarser label label' ∧
      label' (f.edge i).src = label' (f.edge i).dest := by
  obtain ⟨t, depth, hforest, hrooted⟩ := h
  have hlength := hforest.length_le
  obtain ⟨aux₁, hfind₁, hrooted₁⟩ := findGroup_spec hrooted (by omega : _ < fuel) (f.edge i).src
  obtain ⟨aux₂, hfind₂, hrooted₂⟩ := findGroup_spec hrooted₁ (by omega : _ < fuel) (f.edge i).dest
  simp only [Profile.addEdge, hfind₁, hfind₂, Option.bind_eq_bind, Option.bind_some]
  split_ifs with hne
  · obtain ⟨aux', depth', hunion, hrooted'⟩ := unionGroups_spec hrooted₂ (by omega : _ < fuel) hne
    rw [hunion]
    obtain ⟨hgrown, hnodup, hmem⟩ := hforest
    have hnew : i ∉ t := fun hin => hne (hgrown.joined i hin)
    refine ⟨_, _, rfl, ⟨i :: t, depth', ⟨hgrown.cons i hne, hnodup.cons hnew, fun j => ?_⟩, hrooted'⟩,
      fun u v huv => join_coarser (fun _ _ huv => huv) _ _ u v huv, ?_⟩
    · rcases eq_or_ne j i with rfl | hji
      · simp [hi, hkept]
      · simpa [Function.update_of_ne hji, hji] using hmem j
    · simp only [Cfg.near, join, if_true]
      exact (ite_self _).symm
  · exact ⟨_, label, rfl, ⟨t, depth, hforest, hrooted₂⟩, fun _ _ huv => huv, not_not.mp hne⟩

/-- **A loop over edges** joins the ends of those it looks for. Source: `profile.c` `find_spanning_tree`. Kind: L -/
theorem Grown.treePass (hfuel : f.edges.length + 1 < fuel) (wanted : Edge → Bool) {is : List ℕ}
    (his : ∀ i ∈ is, i < f.edges.length) {tree : Tree} {label : ℕ → ℕ} (h : Grown f tree label) :
    ∃ tree' label', treePass fuel f wanted is tree = some tree' ∧ Grown f tree' label' ∧ Coarser label label' ∧
      ∀ i ∈ is, wanted (f.edge i) = true → f.ignore (f.edge i) = false → label' (f.edge i).src = label' (f.edge i).dest := by
  induction is generalizing tree label with
  | nil => exact ⟨tree, label, rfl, h, fun _ _ huv => huv, by simp⟩
  | cons i is ih =>
    rw [List.forall_mem_cons] at his
    rw [Profile.treePass]
    split_ifs with hwanted
    · rw [Bool.and_eq_true, Bool.not_eq_true'] at hwanted
      obtain ⟨tree₁, label₁, hadd, hgrown, hcoarser, hjoined⟩ := h.addEdge hfuel his.1 hwanted.2
      obtain ⟨tree₂, label₂, hpass, hgrown₂, hcoarser₂, hrest⟩ := ih his.2 hgrown
      simp only [hadd, Option.bind_eq_bind, Option.bind_some]
      exact ⟨tree₂, label₂, hpass, hgrown₂, fun u v huv => hcoarser₂ u v (hcoarser u v huv),
        List.forall_mem_cons.mpr ⟨fun _ _ => hcoarser₂ _ _ hjoined, hrest⟩⟩
    · obtain ⟨tree₂, label₂, hpass, hgrown₂, hcoarser₂, hrest⟩ := ih his.2 h
      refine ⟨tree₂, label₂, hpass, hgrown₂, hcoarser₂, List.forall_mem_cons.mpr ⟨fun hw hkept => ?_, hrest⟩⟩
      exact absurd (Bool.and_eq_true_iff.mpr ⟨hw, by rw [hkept]; rfl⟩) hwanted

/-- The ends of every edge that is not ignored are in one group. Source: `profile.c` `find_spanning_tree`. -/
def Spans (f : Cfg) (label : ℕ → ℕ) : Prop :=
  ∀ i < f.edges.length, f.ignore (f.edge i) = false → label (f.edge i).src = label (f.edge i).dest

/-- **The spanning tree** is found: a forest that spans the graph. Source: `profile.c` `find_spanning_tree`. Kind: P -/
theorem findSpanningTree_spec (hblocks : 2 ≤ f.numBlocks) (hfuel : f.edges.length + 1 < fuel) :
    ∃ onTree t label, findSpanningTree fuel f = some onTree ∧ OnForest f onTree t label ∧ Spans f label := by
  have hstart : Rooted 0 (fun _ => 0) id id := ⟨fun _ => le_rfl, fun _ _ => ⟨rfl, rfl⟩, fun _ h => absurd rfl h, fun _ => rfl⟩
  obtain ⟨aux, depth, hunion, hrooted⟩ := unionGroups_spec hstart (by omega : 0 < fuel)
    (show id f.exitBlock ≠ id 0 by rw [id, id, Cfg.exitBlock]; omega)
  have hgrown : Grown f ⟨aux, fun _ => false⟩ _ := ⟨[], depth, ⟨.nil, List.nodup_nil, fun _ => by simp⟩, hrooted⟩
  have hall : ∀ i ∈ List.range f.edges.length, i < f.edges.length := fun i hi => List.mem_range.mp hi
  obtain ⟨tree₁, label₁, hpass₁, hgrown₁, -⟩ := hgrown.treePass hfuel
    (fun e => e.abnormal || e.abnormalCall || e.fake || e.dest == f.exitBlock) hall
  obtain ⟨tree₂, label₂, hpass₂, hgrown₂, -⟩ := hgrown₁.treePass hfuel f.critical hall
  obtain ⟨tree₃, label, hpass₃, ⟨t, -, hforest, -⟩, -, hjoined⟩ := hgrown₂.treePass hfuel (fun _ => true) hall
  refine ⟨tree₃.onTree, t, label, ?_, hforest, fun i hi => hjoined i (List.mem_range.mpr hi) rfl⟩
  simp only [findSpanningTree, hunion, hpass₁, hpass₂, hpass₃, Option.bind_eq_bind, Option.bind_some]

end Growing

end GccCore.Gcc.Profile
