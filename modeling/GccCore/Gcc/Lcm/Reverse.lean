import GccCore.Gcc.Lcm.Contract
import GccCore.Gcc.Lcm.Worklists

/-!
# Reverse lazy code motion: stores move down

`pre_edge_rev_lcm` runs the other way round: a store is left out of a block if it is made again further down. The events of
a program are the stores to one place (`Event.compute`) and whatever reads or overwrites it (`Event.kill`).

* **The code** (`computeFarthest`, `computeRevInsertDelete`, `preEdgeRevLcm`), with the loops of the solvers as they run.
* **Mirrored graphs** (`FlowGraph.mirror`): every path is read backwards, and so is every block.
* **Solutions** (`RevSets.solution`): the sets solve the equations of lazy code motion on the mirrored graph.
* **The function** (`pre_edge_rev_lcm_contract`): a store that is left out is made again before anything else happens to its
  place, on every path to `EXIT`, and no path makes more stores than before.
-/

namespace GccCore.Gcc

/-! ## Mirrored graphs -/

/-- `ENTRY` and `EXIT` change places. -/
@[reducible] def Block.mirror {n : ℕ} : Block n → Block n
  | .entry => .exit
  | .exit => .entry
  | .block i => .block i

@[simp] theorem Block.mirror_eq_block_iff {n : ℕ} {b : Block n} {i : Fin n} : b.mirror = .block i ↔ b = .block i := by
  cases b <;> simp

@[simp] theorem Block.mirror_eq_entry_iff {n : ℕ} {b : Block n} : b.mirror = .entry ↔ b = .exit := by
  cases b <;> simp

@[simp] theorem Block.mirror_eq_exit_iff {n : ℕ} {b : Block n} : b.mirror = .exit ↔ b = .entry := by
  cases b <;> simp

theorem Block.eq_mirror_iff {n : ℕ} {b c : Block n} : b = c.mirror ↔ b.mirror = c := by
  cases b <;> cases c <;> simp

namespace FlowGraph

/-- The graph with every edge turned round. -/
@[reducible] def mirror (g : FlowGraph) : FlowGraph where
  numBlocks := g.numBlocks
  numEdges := g.numEdges
  src e := (g.dest e).mirror
  dest e := (g.src e).mirror
  succs b := g.preds b.mirror
  preds b := g.succs b.mirror
  blocks := g.blocks
  mem_succs _ e := (g.mem_preds _ e).trans Block.eq_mirror_iff
  mem_preds _ e := (g.mem_succs _ e).trans Block.eq_mirror_iff
  blocks_nodup := g.blocks_nodup
  mem_blocks := g.mem_blocks
  src_ne_exit e := fun h => g.dest_ne_entry e (Block.mirror_eq_exit_iff.mp h)
  dest_ne_entry e := fun h => g.src_ne_exit e (Block.mirror_eq_entry_iff.mp h)

/-- The paths that end in `EXIT`, by their edges, and the block they leave. -/
inductive ToExit (g : FlowGraph) : List (Fin g.numEdges) → Block g.numBlocks → Prop
  | nil : ToExit g [] .exit
  | cons {es : List (Fin g.numEdges)} (e : Fin g.numEdges) : ToExit g es (g.dest e) → ToExit g (e :: es) (g.src e)

variable {g : FlowGraph}

/-- A path to `EXIT` is a path from `ENTRY` in the mirror. -/
theorem ToExit.fromEntry {es : List (Fin g.numEdges)} {b : Block g.numBlocks} (h : g.ToExit es b) :
    g.mirror.FromEntry es.reverse b.mirror := by
  induction h with
  | nil => exact FromEntry.nil
  | cons e h ih =>
    rw [List.reverse_cons]
    exact FromEntry.snoc (g := g.mirror) e ih

/-- A path that leaves a block of code has a first edge. -/
theorem ToExit.exists_first {es : List (Fin g.numEdges)} {b : Block g.numBlocks} (h : g.ToExit es b) (hb : b ≠ .exit) :
    ∃ e es', es = e :: es' ∧ g.src e = b ∧ g.ToExit es' (g.dest e) := by
  cases h with
  | nil => exact absurd rfl hb
  | cons e h => exact ⟨e, _, rfl, rfl, h⟩

end FlowGraph

namespace Lcm

open GccCore.Lib.BoundedQueue

/-! ## The code -/

section Code

variable {k : ℕ} (g : FlowGraph)

/-- Source: `lcm.c` `compute_farthest`. -/
def computeFarthest (stAvout : Block g.numBlocks → Bits k) (stAvin : Fin g.numBlocks → Bits k)
    (stAntin kill : Block g.numBlocks → Bits k) (e : Fin g.numEdges) : Bits k :=
  match g.dest e with
  | .block succ =>
    if g.src e = .entry then ⊥
    else (stAvout (g.src e) ⊓ (stAntin (.block succ))ᶜ) ⊓ (kill (.block succ) ⊔ (stAvin succ)ᶜ)
  | _ => stAvout (g.src e)

/-- The stores to insert on edges and to delete from blocks, from the state at the end of `compute_nearerout`.
Source: `lcm.c` `compute_rev_insert_delete` -/
def computeRevInsertDelete (stAvloc : Block g.numBlocks → Bits k)
    (near : SolverState g k (Fin g.numEdges) (Stack (Fin g.numBlocks))) : Placement g k where
  del b := stAvloc (.block b) ⊓ (near.met b)ᶜ
  insert e :=
    match g.src e with
    | .block b => near.assigned e ⊓ (near.met b)ᶜ
    | _ => near.assigned e ⊓ (neareroutLast g near)ᶜ

/-- The fields `aux` of the blocks, and `ST_AVIN` and `NEAREROUT`, have any contents at the start. No answer if the fuel is
not enough for a loop.
Source: `lcm.c` `pre_edge_rev_lcm` -/
def preEdgeRevLcm (fuel : ℕ) (aux : Block g.numBlocks → Aux g) (stAvin nearerout : Fin g.numBlocks → Bits k)
    (transp stAvloc stAntloc kill : Block g.numBlocks → Bits k) : Option (Placement g k) := do
  let ant ← (antinoutStart g stAntloc transp aux fun _ => ⊥).bind ((antinoutSolver g stAntloc transp).loop fuel)
  let av ← (availableStart g stAvloc kill (fun _ => .NULL) stAvin).bind ((availableSolver g stAvloc kill).loop fuel)
  let farthest := computeFarthest g av.assigned av.met ant.assigned kill
  let near ← (nearerStart g farthest stAvloc (fun _ => .NULL) nearerout).bind ((nearerSolver g farthest stAvloc).loop fuel)
  return computeRevInsertDelete g stAvloc near

end Code

/-! ## Paths in the mirror -/

section Paths

variable {g : FlowGraph}

/-- The events of a block without its last store if that is deleted. Source: `gcse.c` `delete_store`. -/
def remainingAbove (del : Fin g.numBlocks → Prop) [DecidablePred del] (events : Fin g.numBlocks → List Event)
    (b : Fin g.numBlocks) : List Event :=
  if del b then (events b).dropLast else events b

/-- A block is read backwards. -/
theorem reverse_remaining (del : Fin g.numBlocks → Prop) [DecidablePred del] (events : Fin g.numBlocks → List Event)
    (b : Fin g.numBlocks) :
    (@remaining g.mirror del _ (fun b => (events b).reverse) b).reverse = remainingAbove del events b := by
  unfold remaining remainingAbove
  split
  · rw [List.tail_reverse, List.reverse_reverse]
  · rw [List.reverse_reverse]

/-- An insertion is the same backwards. -/
theorem reverse_inserted (insert : Fin g.numEdges → Prop) [DecidablePred insert] (e : Fin g.numEdges) :
    (inserted insert e).reverse = inserted insert e := by
  unfold inserted
  split <;> rfl

/-- **A path read backwards**: what happens on a path to `EXIT`, behind the block it leaves. -/
theorem reverse_happens {onEdge : Fin g.numEdges → List Event} {events : Fin g.numBlocks → List Event}
    {back : Fin g.numBlocks → List Event} (hedge : ∀ e, (onEdge e).reverse = onEdge e)
    (hback : ∀ b, (back b).reverse = events b) {es : List (Fin g.numEdges)} {a : Block g.numBlocks} (h : g.ToExit es a) :
    (@happens g.mirror onEdge back es.reverse).reverse = inBlock events a ++ happens onEdge events es := by
  have hblock : ∀ b : Block g.numBlocks, (@inBlock g.mirror back b.mirror).reverse = inBlock events b := by
    rintro (_ | _ | b)
    · rfl
    · rfl
    · exact hback b
  induction h with
  | nil => rfl
  | @cons es e h ih =>
    rw [List.reverse_cons, happens_snoc, List.reverse_append, List.reverse_append, ih, hedge, hblock]
    simp only [happens, List.flatMap_cons, List.append_assoc]

end Paths

/-! ## Solutions -/

section Function

variable {g : FlowGraph} {k : ℕ} {prog : Fin g.numBlocks → Fin k → List Event}
variable {transp stAvloc stAntloc kill : Block g.numBlocks → Bits k}

/-- The local properties of a program: the last event is a store, the first one is, nothing reads or overwrites the place;
"it should not be necessary to consider the expression killed if it is both anticipatable and available".
Source: `gcse.c` `build_store_vectors` -/
structure StoreProps (prog : Fin g.numBlocks → Fin k → List Event)
    (transp stAvloc stAntloc kill : Block g.numBlocks → Bits k) : Prop where
  stAvloc_iff : ∀ b i, stAvloc (.block b) i = true ↔ (prog b i).getLast? = some .compute
  stAntloc_iff : ∀ b i, stAntloc (.block b) i = true ↔ (prog b i).head? = some .compute
  transp_iff : ∀ b i, transp (.block b) i = true ↔ .kill ∉ prog b i
  kill_eq : ∀ b, kill (.block b) = (transp (.block b) ⊔ (stAntloc (.block b) ⊓ stAvloc (.block b)))ᶜ

/-- The sets at the end of the three loops. Source: `lcm.c` `pre_edge_rev_lcm`. -/
structure RevSets (g : FlowGraph) {k : ℕ} (transp stAvloc stAntloc kill : Block g.numBlocks → Bits k) where
  ant : SolverState g k (Block g.numBlocks) (Circle (Fin g.numBlocks))
  av : SolverState g k (Block g.numBlocks) (Circle (Fin g.numBlocks))
  near : SolverState g k (Fin g.numEdges) (Stack (Fin g.numBlocks))
  anticipated : Anticipated g stAntloc transp ant.met fun b => ant.assigned (.block b)
  available : Available g stAvloc kill av.met fun b => av.assigned (.block b)
  entry_eq : av.assigned .entry = ⊤
  nearer : Nearer g (computeFarthest g av.assigned av.met ant.assigned kill) stAvloc near.met near.assigned

/-- **The sets solve the equations of lazy code motion on the mirrored graph**, where availability and anticipatability
change places, for every place.
Source: `lcm.c` `pre_edge_rev_lcm` -/
def RevSets.solution (h : StoreProps prog transp stAvloc stAntloc kill) (s : RevSets g transp stAvloc stAntloc kill)
    (i : Fin k) : Solution g.mirror fun b => (prog b i).reverse :=
  { kill := fun b => kill (.block b) i = true
    avin := fun b => s.ant.met b i = true
    avout := fun b => s.ant.assigned (.block b) i = true
    antin := fun b => s.av.assigned (.block b) i = true
    antout := fun b => s.av.met b i = true
    laterin := fun b => s.near.met b i = true
    later := fun e => s.near.assigned e i = true
    insert := fun e => (computeRevInsertDelete g stAvloc s.near).insert e i = true
    del := fun b => (computeRevInsertDelete g stAvloc s.near).del b i = true
    kill_or := by
      intro b
      rw [List.mem_reverse, ← h.transp_iff, List.getLast?_reverse, ← h.stAntloc_iff, h.kill_eq]
      cases htr : transp (.block b) i <;> cases hant : stAntloc (.block b) i <;> simp [htr, hant]
    not_kill := by
      intro b hb
      rw [List.mem_reverse, ← h.transp_iff] at hb
      rw [h.kill_eq]
      simp [hb]
    avout_iff := by
      intro b
      rw [List.getLast?_reverse, ← h.stAntloc_iff, h.kill_eq]
      have heq := congrFun (s.anticipated.antin_eq b) i
      cases htr : transp (.block b) i <;> cases hant : stAntloc (.block b) i <;> simp [heq, htr, hant]
    avin_pred := fun b e hb he => by
      obtain ⟨p, hp, hin⟩ := s.anticipated.succ hb (Block.mirror_eq_block_iff.mp he)
      exact ⟨p, Block.mirror_eq_block_iff.mpr hp, hin⟩
    antin_iff := by
      intro b
      rw [List.head?_reverse, ← h.stAvloc_iff, List.mem_reverse, ← h.transp_iff]
      have heq := congrFun (s.available.avout_eq b) i
      rw [h.kill_eq] at heq
      cases htr : transp (.block b) i <;> cases hav : stAvloc (.block b) i <;> simp [heq, htr, hav]
    antout_succ := fun b e hb he => by
      obtain ⟨p, hp, hin⟩ := s.available.pred hb (Block.mirror_eq_block_iff.mp he)
      exact ⟨p, Block.mirror_eq_block_iff.mpr hp, hin⟩
    later_entry := by
      intro b e hsrc hdest
      rw [Block.mirror_eq_entry_iff] at hsrc
      rw [Block.mirror_eq_block_iff] at hdest
      simp [s.nearer.nearer_exit e hsrc, computeFarthest, hsrc, hdest]
    later_shortcut := by
      intro e hsrc hdest
      rw [Block.mirror_eq_entry_iff] at hsrc
      rw [Block.mirror_eq_exit_iff] at hdest
      simp [s.nearer.nearer_exit e hsrc, computeFarthest, hsrc, hdest, s.entry_eq]
    later_block := by
      intro p b e hsrc hdest
      rw [Block.mirror_eq_block_iff] at hsrc hdest
      rw [ne_eq, List.head?_reverse, ← h.stAvloc_iff]
      have heq := congrFun (s.nearer.nearer_eq e p hsrc) i
      simp [heq, computeFarthest, hsrc, hdest, and_assoc]
    later_exit := by
      intro p e hsrc hdest
      rw [Block.mirror_eq_block_iff] at hsrc
      rw [Block.mirror_eq_exit_iff] at hdest
      rw [ne_eq, List.head?_reverse, ← h.stAvloc_iff]
      have heq := congrFun (s.nearer.nearer_eq e p hsrc) i
      simp [heq, computeFarthest, hsrc, hdest]
    laterin_pred := fun b e hb he => (s.nearer.nearerout_iff b i).mp hb e (Block.mirror_eq_block_iff.mp he)
    insert_iff := by
      intro b e hdest
      rw [Block.mirror_eq_block_iff] at hdest
      simp [computeRevInsertDelete, hdest]
    insert_exit := by
      intro e hdest
      rw [Block.mirror_eq_exit_iff] at hdest
      have hlast : neareroutLast g s.near i = true ↔ ∀ e', (g.src e').mirror = .exit → s.near.assigned e' i = true := by
        unfold neareroutLast
        rw [intersectionOfEdges_iff]
        refine forall_congr' fun e' => imp_congr_left ?_
        rw [g.mem_succs, Block.mirror_eq_exit_iff]
      rw [← hlast]
      simp [computeRevInsertDelete, hdest]
    del_iff := by
      intro b
      rw [List.head?_reverse, ← h.stAvloc_iff]
      simp [computeRevInsertDelete] }

instance (h : StoreProps prog transp stAvloc stAntloc kill) (s : RevSets g transp stAvloc stAntloc kill) (i : Fin k) :
    DecidablePred (s.solution h i).insert := fun _ => inferInstanceAs (Decidable (_ = true))

instance (h : StoreProps prog transp stAvloc stAntloc kill) (s : RevSets g transp stAvloc stAntloc kill) (i : Fin k) :
    DecidablePred (s.solution h i).del := fun _ => inferInstanceAs (Decidable (_ = true))

/-- What happens to a place on a path after insertion and deletion. Source: `gcse.c` `store_motion`. -/
def storesAfter (p : Placement g k) (prog : Fin g.numBlocks → Fin k → List Event) (i : Fin k)
    (es : List (Fin g.numEdges)) : List Event :=
  happens (inserted (fun e => p.insert e i = true)) (remainingAbove (fun b => p.del b i = true) (fun b => prog b i)) es

/-- **Every deleted store is made again** on the way to `EXIT`, before anything else happens to its place.
Source: `lcm.c` `pre_edge_rev_lcm`
Kind: L -/
theorem RevSets.stored_again (h : StoreProps prog transp stAvloc stAntloc kill)
    (s : RevSets g transp stAvloc stAntloc kill) {i : Fin k} {b : Fin g.numBlocks} {es : List (Fin g.numEdges)}
    (hpath : g.ToExit es (.block b)) (hdel : (computeRevInsertDelete g stAvloc s.near).del b i = true) :
    (storesAfter (computeRevInsertDelete g stAvloc s.near) prog i es).head? = some .compute := by
  obtain ⟨e, es', rfl, hsrc, hrest⟩ := hpath.exists_first (by simp)
  have hlast := (s.solution h i).computed_before_delete (e := e) hrest.fromEntry (Block.mirror_eq_block_iff.mpr hsrc) hdel
  have hback := reverse_happens (g := g) (@reverse_inserted g.mirror (s.solution h i).insert _)
    (@reverse_remaining g (s.solution h i).del _ fun b => prog b i) hrest
  rw [← List.head?_reverse, List.reverse_append, hback, reverse_inserted, ← List.append_assoc] at hlast
  exact hlast

/-- **No path makes more stores.** Source: `lcm.c` `pre_edge_rev_lcm`. Kind: L -/
theorem RevSets.count_le (h : StoreProps prog transp stAvloc stAntloc kill)
    (s : RevSets g transp stAvloc stAntloc kill)
    (hshort : (∃ e, g.src e = .entry ∧ g.dest e = .exit) → ∀ e, g.src e = .entry → g.dest e = .exit)
    {i : Fin k} {es : List (Fin g.numEdges)} (hpath : g.ToExit es .entry) :
    (storesAfter (computeRevInsertDelete g stAvloc s.near) prog i es).count .compute ≤
      (happens (fun _ => []) (fun b => prog b i) es).count .compute := by
  have := Classical.decPred (s.solution h i).antin
  have := Classical.decPred (s.solution h i).laterin
  have hmirror : (∃ e, (g.dest e).mirror = .entry ∧ (g.src e).mirror = .exit) →
      ∀ e, (g.src e).mirror = .exit → (g.dest e).mirror = .entry := by
    simp only [Block.mirror_eq_entry_iff, Block.mirror_eq_exit_iff]
    rintro ⟨e, hdest, hsrc⟩
    exact hshort ⟨e, hsrc, hdest⟩
  have hle := (s.solution h i).count_le hmirror hpath.fromEntry
  have hafter := congrArg (List.count .compute) (reverse_happens (g := g) (@reverse_inserted g.mirror (s.solution h i).insert _)
    (@reverse_remaining g (s.solution h i).del _ fun b => prog b i) hpath)
  have hnothing : ∀ _ : Fin g.numEdges, ([] : List Event).reverse = [] := fun _ => rfl
  have hbefore := congrArg (List.count .compute)
    (reverse_happens (g := g) hnothing (fun b => List.reverse_reverse (prog b i)) hpath)
  rw [List.count_reverse] at hafter hbefore
  rw [hafter, hbefore] at hle
  exact hle

/-- **Reverse lazy code motion**: the function has a result, whatever its memory holds at the start. On every path to `EXIT`
a store that is deleted from a block is made again before anything else happens to its place; and no path from `ENTRY` to
`EXIT` makes more stores than before, unless an edge from `ENTRY` to `EXIT` competes with other edges out of `ENTRY`.
Source: `lcm.c` `pre_edge_rev_lcm`
Kind: P -/
theorem pre_edge_rev_lcm_contract (g : FlowGraph) (k : ℕ) (prog : Fin g.numBlocks → Fin k → List Event)
    (transp stAvloc stAntloc kill : Block g.numBlocks → Bits k) (h : StoreProps prog transp stAvloc stAntloc kill)
    (aux : Block g.numBlocks → Aux g) (stAvin nearerout : Fin g.numBlocks → Bits k) :
    (∃ fuel p, preEdgeRevLcm g fuel aux stAvin nearerout transp stAvloc stAntloc kill = some p) ∧
      ∀ fuel p, preEdgeRevLcm g fuel aux stAvin nearerout transp stAvloc stAntloc kill = some p →
        (∀ i b es, g.ToExit es (.block b) → p.del b i = true → (storesAfter p prog i es).head? = some .compute) ∧
          (((∃ e, g.src e = .entry ∧ g.dest e = .exit) → ∀ e, g.src e = .entry → g.dest e = .exit) →
            ∀ i es, g.ToExit es .entry →
              (storesAfter p prog i es).count .compute ≤
                (happens (fun _ => []) (fun b => prog b i) es).count .compute) := by
  obtain ⟨hant, fuel₁, ant, hrun₁⟩ := (antinout_solved g stAntloc transp aux fun _ => ⊥).run
  obtain ⟨hav, fuel₂, av, hrun₂⟩ := (available_solved g stAvloc kill (fun _ => .NULL) stAvin).run
  obtain ⟨hnear, fuel₃, near, hrun₃⟩ :=
    (nearer_ends g (computeFarthest g av.assigned av.met ant.assigned kill) stAvloc (fun _ => .NULL) nearerout).run
  constructor
  · refine ⟨max fuel₁ (max fuel₂ fuel₃), computeRevInsertDelete g stAvloc near, ?_⟩
    unfold preEdgeRevLcm
    rw [hrun₁ _ (le_max_left _ _), Option.bind_eq_bind, Option.bind_some,
      hrun₂ _ (le_trans (le_max_left _ _) (le_max_right _ _)), Option.bind_eq_bind, Option.bind_some]
    dsimp only
    rw [hrun₃ _ (le_trans (le_max_right _ _) (le_max_right _ _))]
    rfl
  · intro fuel p hp
    unfold preEdgeRevLcm at hp
    obtain ⟨ant', hant', hp⟩ := Option.bind_eq_some_iff.mp hp
    obtain ⟨av', hav', hp⟩ := Option.bind_eq_some_iff.mp hp
    obtain ⟨near', hnear', hp⟩ := Option.bind_eq_some_iff.mp hp
    obtain ⟨hnear₂, -⟩ :=
      (nearer_ends g (computeFarthest g av'.assigned av'.met ant'.assigned kill) stAvloc (fun _ => .NULL) nearerout).run
    obtain rfl : computeRevInsertDelete g stAvloc near' = p := Option.some.inj hp
    have hentry := (hav fuel av' hav').kept .entry fun b hb => by cases List.mem_singleton.mp hb
    let s : RevSets g transp stAvloc stAntloc kill :=
      ⟨ant', av', near', (antinout_greatest g (hant fuel ant' hant')).1, (available_greatest g (hav fuel av' hav')).1,
        hentry, (hnear₂ fuel near' hnear').1⟩
    refine ⟨fun i b es hpath hdel => s.stored_again h hpath hdel, fun hshort i es hpath => s.count_le h hshort hpath⟩

end Function

/-- A block that only stores, and the next one again. Source: none: example. Kind: L -/
theorem storeProps_of_all (g : FlowGraph) :
    @StoreProps g 1 (fun _ _ => [.compute]) (fun _ _ => true) (fun _ _ => true) (fun _ _ => true) fun _ _ => false := by
  refine ⟨by simp, by simp, by simp, fun _ => ?_⟩
  funext i
  rfl

/-- The store of the first block is deleted, and the second block makes it again. Source: none: example. Kind: C -/
theorem pre_edge_rev_lcm_contract_straight :
    ∃ fuel p b es i, preEdgeRevLcm straightGraph fuel (fun _ => .NULL) (fun _ => ⊥) (fun _ => ⊥) (fun _ _ => true)
        (fun _ _ => true) (fun _ _ => true) (fun _ (_ : Fin 1) => false) = some p ∧
      straightGraph.ToExit es (.block b) ∧ p.del b i = true ∧
      (storesAfter p (fun _ _ => [.compute]) i es).head? = some .compute := by
  have hdel : (preEdgeRevLcm straightGraph 20 (fun _ => .NULL) (fun _ => ⊥) (fun _ => ⊥) (fun _ _ => true)
      (fun _ _ => true) (fun _ _ => true) (fun _ (_ : Fin 1) => false)).map (fun p => p.del (0 : Fin 2) 0) = some true := by
    decide +kernel
  obtain ⟨p, hp, hdel⟩ := Option.map_eq_some_iff.mp hdel
  have hpath : straightGraph.ToExit [(1 : Fin 3), (2 : Fin 3)] (.block (0 : Fin 2)) :=
    FlowGraph.ToExit.cons (g := straightGraph) (1 : Fin 3)
      (FlowGraph.ToExit.cons (g := straightGraph) (2 : Fin 3) FlowGraph.ToExit.nil)
  exact ⟨20, p, (0 : Fin 2), _, 0, hp, hpath, hdel,
    ((pre_edge_rev_lcm_contract straightGraph 1 _ _ _ _ _ (storeProps_of_all straightGraph) _ _ _).2 20 p hp).1 0 _ _ hpath hdel⟩

end Lcm

end GccCore.Gcc
