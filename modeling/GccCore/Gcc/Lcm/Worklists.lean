import GccCore.Gcc.Lcm.Basic
import GccCore.Lib.BoundedQueue
import Mathlib.Logic.Relation
import Mathlib.Order.Bounds.Basic

/-!
# `gcc/lcm.c`: the loops of the solvers

The four solvers as they run: blocks wait in an allocated array, and the field `aux` of a block tells whether it waits, or
that it lies next to `ENTRY` or `EXIT`.

* **The loop** (`Solver.body`, `Solver.loop`), with a circle or a stack of waiting blocks.
* **The solvers** (`availableSolver`, `antinoutSolver`, `laterSolver`, `nearerSolver`).
* **One iteration** (`Good.body`) is a step of the worklist system, and never leaves the array.
* **The results** (`worklist_solvers_greatest`): every loop ends, with the greatest solution.
* **The function** (`preEdgeLcmRun_eq`): with its loops as they run it does what it does with the worklist systems.
-/

namespace GccCore.Gcc.Lcm

open GccCore.Lib.Worklist GccCore.Lib.BoundedQueue

/-! ## The loop -/

/-- What the field `aux` of a block points to. Source: `basic-block.h` `struct basic_block_def`. -/
inductive Aux (g : FlowGraph)
  | NULL
  | block (b : Block g.numBlocks)
  | edge (e : Fin g.numEdges)
  deriving DecidableEq

/-- What the solvers differ in: the array of waiting blocks; the mark for blocks next to `ENTRY` or `EXIT` and the edges
that lead to them; the sets met and assigned; the edges along which blocks are put back, and where these edges lead.
Source: `lcm.c` -/
structure Solver (g : FlowGraph) (k : ℕ) (C Q : Type) where
  store : Store Q (Fin g.numBlocks)
  marker : Option (Block g.numBlocks)
  marks : List (Fin g.numEdges)
  meet : Bits k → Fin g.numBlocks → (C → Bits k) → Bits k
  flow : C → Bits k → Bits k
  cells : Fin g.numBlocks → List C
  wake : C → List (Fin g.numEdges)
  target : Fin g.numEdges → Block g.numBlocks

/-- The waiting blocks, the fields `aux`, the sets met and the sets assigned. Source: `lcm.c`. -/
structure SolverState (g : FlowGraph) (k : ℕ) (C Q : Type) where
  queue : Q
  aux : Block g.numBlocks → Aux g
  met : Fin g.numBlocks → Bits k
  assigned : C → Bits k

namespace Solver

variable {g : FlowGraph} {k : ℕ} {C Q : Type} [DecidableEq C]

/-- Every block waits, and those next to `ENTRY` or `EXIT` are marked. Source: `lcm.c` (`bb->aux = bb`). -/
def initAux (S : Solver g k C Q) (aux : Block g.numBlocks → Aux g) : Block g.numBlocks → Aux g :=
  let aux := g.blocks.foldl (fun aux b => Function.update aux (.block b) (.block (.block b))) aux
  match S.marker with
  | some m => S.marks.foldl (fun aux e => Function.update aux (S.target e) (.block m)) aux
  | none => aux

/-- The block where an edge leads is put back unless it waits; the fixed blocks never wait.
Source: `lcm.c` (`!e->dest->aux && e->dest != EXIT_BLOCK_PTR`) -/
def wakeUp (S : Solver g k C Q) (st : SolverState g k C Q) (e : Fin g.numEdges) : Option (SolverState g k C Q) :=
  match S.target e with
  | .block b =>
    if st.aux (.block b) = .NULL then
      (S.store.push st.queue b).map fun q =>
        { st with queue := q, aux := Function.update st.aux (.block b) (.edge e) }
    else some st
  | _ => some st

/-- A set is assigned; if it changed, blocks are put back.
Source: `lcm.c` (`sbitmap_union_of_diff_cg`, `sbitmap_a_or_b_and_c_cg`) -/
def assign (S : Solver g k C Q) (bb : Fin g.numBlocks) (st : SolverState g k C Q) (c : C) :
    Option (SolverState g k C Q) :=
  if S.flow c (st.met bb) = st.assigned c then some st
  else
    (S.wake c).foldlM S.wakeUp
      { st with assigned := Function.update st.assigned c (S.flow c (st.met bb)) }

/-- What a block that was taken off meets; the mark is not cleared.
Source: `lcm.c` (`bb->aux == ENTRY_BLOCK_PTR`, `bb->aux == EXIT_BLOCK_PTR`) -/
def take (S : Solver g k C Q) (st : SolverState g k C Q) (bb : Fin g.numBlocks) (q : Q) : SolverState g k C Q :=
  if S.marker.map Aux.block = some (st.aux (.block bb)) then
    { st with queue := q, met := Function.update st.met bb ⊥ }
  else
    { st with
      queue := q
      aux := Function.update st.aux (.block bb) .NULL
      met := Function.update st.met bb (S.meet (st.met bb) bb st.assigned) }

/-- The body of the loop; no result if it leaves the array. Source: `lcm.c` (`while (qlen)`). -/
def body (S : Solver g k C Q) (st : SolverState g k C Q) : Option (SolverState g k C Q) :=
  (S.store.pop st.queue).bind fun (bb, q) => (S.cells bb).foldlM (S.assign bb) (S.take st bb q)

/-- The loop, for at most so many iterations. Source: `lcm.c` (`while (qlen)`). -/
def loop (S : Solver g k C Q) : ℕ → SolverState g k C Q → Option (SolverState g k C Q)
  | 0, _ => none
  | fuel + 1, st => if S.store.count st.queue = 0 then some st else (S.body st).bind (S.loop fuel)

/-- The states that the loop reaches. -/
def Reaches (S : Solver g k C Q) : SolverState g k C Q → SolverState g k C Q → Prop :=
  Relation.ReflTransGen fun st st' => S.store.count st.queue ≠ 0 ∧ S.body st = some st'

/-- The function ends with a result, and never more blocks wait than were allocated. -/
def Ends (S : Solver g k C Q) (start : Option (SolverState g k C Q)) (allocated : ℕ)
    (Result : SolverState g k C Q → Prop) : Prop :=
  ∃ first, start = some first ∧ (∀ st, S.Reaches first st → S.store.count st.queue ≤ allocated) ∧
    ∃ fuel last, S.loop fuel first = some last ∧ Result last

/-- The equations that a solver solves. -/
def toSystem (S : Solver g k C Q) : System (Fin g.numBlocks) C (Bits k) where
  boundary b := S.marker.isSome && S.marks.any (fun e => S.target e = .block b)
  meet := S.meet ⊥
  flow := S.flow
  cells := S.cells
  readers c := (S.wake c).filterMap (fun e => (S.target e).code?)

end Solver

/-! ## The solvers -/

section Solvers

variable {k : ℕ} (g : FlowGraph)

/-- Source: `basic-block.h` `n_basic_blocks`. -/
def nBasicBlocks : ℕ := g.numBlocks + 2

/-- Source: `basic-block.h` `NUM_FIXED_BLOCKS`. -/
def numFixedBlocks : ℕ := 2

/-- Source: `lcm.c` `compute_available`. -/
def availableSolver (avloc kill : Block g.numBlocks → Bits k) :
    Solver g k (Block g.numBlocks) (Circle (Fin g.numBlocks)) where
  store := Circle.store _ (nBasicBlocks g - numFixedBlocks)
  marker := some .entry
  marks := g.succs .entry
  meet dst b avout := intersectionOfPreds g dst avout b
  flow b avin := avloc b ⊔ (avin ⊓ (kill b)ᶜ)
  cells b := [.block b]
  wake b := g.succs b
  target := g.dest

/-- The state before the loop, from any contents of `aux` and `AVIN`. Source: `lcm.c` `compute_available`. -/
def availableStart (avloc kill : Block g.numBlocks → Bits k) (aux : Block g.numBlocks → Aux g)
    (avin : Fin g.numBlocks → Bits k) : Option (SolverState g k (Block g.numBlocks) (Circle (Fin g.numBlocks))) :=
  (Circle.start (nBasicBlocks g - numFixedBlocks) (nBasicBlocks g - numFixedBlocks) g.blocks).map fun q =>
    ⟨q, (availableSolver g avloc kill).initAux aux, avin, fun _ => ⊤⟩

/-- Source: `lcm.c` `compute_antinout_edge`. -/
def antinoutSolver (antloc transp : Block g.numBlocks → Bits k) :
    Solver g k (Block g.numBlocks) (Circle (Fin g.numBlocks)) where
  store := Circle.store _ (nBasicBlocks g - numFixedBlocks)
  marker := some .exit
  marks := g.preds .exit
  meet dst b antin := intersectionOfSuccs g dst antin b
  flow b antout := antloc b ⊔ (transp b ⊓ antout)
  cells b := [.block b]
  wake b := g.preds b
  target := g.src

/-- Source: `lcm.c` `compute_antinout_edge`. -/
def antinoutStart (antloc transp : Block g.numBlocks → Bits k) (aux : Block g.numBlocks → Aux g)
    (antout : Fin g.numBlocks → Bits k) : Option (SolverState g k (Block g.numBlocks) (Circle (Fin g.numBlocks))) :=
  (Circle.start (nBasicBlocks g) (nBasicBlocks g - numFixedBlocks) g.blocks.reverse).map fun q =>
    ⟨q, (antinoutSolver g antloc transp).initAux aux, antout, fun _ => ⊤⟩

/-- Source: `lcm.c` `compute_laterin`. -/
def laterSolver (earliest : Fin g.numEdges → Bits k) (antloc : Block g.numBlocks → Bits k) :
    Solver g k (Fin g.numEdges) (Circle (Fin g.numBlocks)) where
  store := Circle.store _ (nBasicBlocks g - numFixedBlocks)
  marker := none
  marks := []
  meet _ b later := intersectionOfEdges g later (g.preds (.block b))
  flow e laterin := earliest e ⊔ (laterin ⊓ (antloc (g.src e))ᶜ)
  cells b := g.succs (.block b)
  wake e := [e]
  target := g.dest

/-- Source: `lcm.c` `compute_laterin`. -/
def laterStart (earliest : Fin g.numEdges → Bits k) (antloc : Block g.numBlocks → Bits k)
    (aux : Block g.numBlocks → Aux g) (laterin : Fin g.numBlocks → Bits k) :
    Option (SolverState g k (Fin g.numEdges) (Circle (Fin g.numBlocks))) :=
  (Circle.start (nBasicBlocks g) (nBasicBlocks g - numFixedBlocks) g.blocks).map fun q =>
    ⟨q, (laterSolver g earliest antloc).initAux aux, laterin, givenOn (g.succs .entry) earliest⟩

/-- Source: `lcm.c` `compute_nearerout`. -/
def nearerSolver (farthest : Fin g.numEdges → Bits k) (stAvloc : Block g.numBlocks → Bits k) :
    Solver g k (Fin g.numEdges) (Stack (Fin g.numBlocks)) where
  store := Stack.store _ (nBasicBlocks g + 1)
  marker := none
  marks := []
  meet _ b nearer := intersectionOfEdges g nearer (g.succs (.block b))
  flow e nearerout := farthest e ⊔ (nearerout ⊓ (stAvloc (g.dest e))ᶜ)
  cells b := g.preds (.block b)
  wake e := [e]
  target := g.src

/-- Source: `lcm.c` `compute_nearerout`. -/
def nearerStart (farthest : Fin g.numEdges → Bits k) (stAvloc : Block g.numBlocks → Bits k)
    (aux : Block g.numBlocks → Aux g) (nearerout : Fin g.numBlocks → Bits k) :
    Option (SolverState g k (Fin g.numEdges) (Stack (Fin g.numBlocks))) :=
  (Stack.start (nBasicBlocks g + 1) g.blocks).map fun q =>
    ⟨q, (nearerSolver g farthest stAvloc).initAux aux, nearerout, givenOn (g.preds .exit) farthest⟩

end Solvers

/-! ## One iteration -/

section Iteration

variable {g : FlowGraph} {k : ℕ} {C Q : Type} {S : Solver g k C Q} {st : SolverState g k C Q}
variable {l : List (Fin g.numBlocks)}

/-- The state of the system: a block is marked if its field `aux` is set. -/
def SolverState.abs (st : SolverState g k C Q) (l : List (Fin g.numBlocks)) : State (Fin g.numBlocks) C (Bits k) :=
  ⟨l, fun b => decide (st.aux (.block b) ≠ .NULL), st.met, st.assigned⟩

/-- The blocks of the boundary, and no others, carry the mark. -/
def Solver.Marked (S : Solver g k C Q) (aux : Block g.numBlocks → Aux g) : Prop :=
  ∀ b, S.marker.map Aux.block = some (aux (.block b)) ↔ S.toSystem.boundary b = true

/-- What the proofs need of a solver. -/
structure Solver.Lawful (S : Solver g k C Q) : Prop where
  system : S.toSystem.Lawful
  marker_ne : ∀ m, S.marker = some m → ∀ b, m ≠ .block b
  meet_eq : ∀ b, S.toSystem.boundary b = false → ∀ dst X, S.meet dst b X = S.meet ⊥ b X
  capacity : g.numBlocks ≤ S.store.capacity

/-- The array holds the waiting blocks, and the fields `aux` tell which these are. -/
structure Queued (S : Solver g k C Q) (st : SolverState g k C Q) (l : List (Fin g.numBlocks)) : Prop where
  holds : S.store.Holds st.queue l
  marked : S.Marked st.aux
  queue_ok : QueueOk S.toSystem (st.abs l)

/-- A mark is not the edge by which a block was put back. -/
theorem marker_ne_edge (S : Solver g k C Q) (e : Fin g.numEdges) : S.marker.map Aux.block ≠ some (.edge e) := by
  cases S.marker <;> simp

/-- A mark is not empty. -/
theorem marker_ne_null (S : Solver g k C Q) : S.marker.map Aux.block ≠ some .NULL := by
  cases S.marker <;> simp

/-- Changing `aux` of a block that is not of the boundary to something that is no mark. -/
theorem Solver.Marked.update {aux : Block g.numBlocks → Aux g} (h : S.Marked aux) {b : Fin g.numBlocks} {a : Aux g}
    (hb : S.toSystem.boundary b = false) (ha : S.marker.map Aux.block ≠ some a) :
    S.Marked (Function.update aux (.block b) a) := by
  intro b'
  by_cases heq : b' = b
  · subst heq
    rw [Function.update_self, hb]
    exact ⟨fun h' => absurd h' ha, fun h' => absurd h' Bool.false_ne_true⟩
  · rw [Function.update_of_ne (fun hblock => heq (Block.block.inj hblock))]
    exact h b'

/-- Changing `aux` of a block changes its mark. -/
theorem marks_update (aux : Block g.numBlocks → Aux g) (b : Fin g.numBlocks) (a : Aux g) :
    (fun b' => decide (Function.update aux (.block b) a (.block b') ≠ .NULL)) =
      Function.update (fun b' => decide (aux (.block b') ≠ .NULL)) b (decide (a ≠ .NULL)) := by
  funext b'
  by_cases heq : b' = b
  · subst heq
    rw [Function.update_self, Function.update_self]
  · rw [Function.update_of_ne heq, Function.update_of_ne (fun hblock => heq (Block.block.inj hblock))]

/-- A block that does not wait leaves room in the array. -/
theorem length_lt_of_not_mem {b : Fin g.numBlocks} (hnodup : l.Nodup) (hb : b ∉ l) : l.length < g.numBlocks := by
  have hcons : (b :: l).Nodup := List.nodup_cons.mpr ⟨hb, hnodup⟩
  have hle := hcons.length_le_card
  rw [Fintype.card_fin, List.length_cons] at hle
  exact hle

/-- A block is taken off, as in the system. Source: `lcm.c`. Kind: L -/
theorem abs_take (hS : S.Lawful) (hmark : S.Marked st.aux) (bb : Fin g.numBlocks) (q : Q) (l : List (Fin g.numBlocks)) :
    (S.take st bb q).abs l =
        { queue := l
          marked := if S.toSystem.boundary bb then (st.abs l).marked else Function.update (st.abs l).marked bb false
          input := Function.update st.met bb (S.toSystem.incoming bb st.assigned)
          val := st.assigned } ∧
      S.Marked (S.take st bb q).aux := by
  unfold Solver.take
  cases hbound : S.toSystem.boundary bb with
  | true =>
    rw [if_pos ((hmark bb).mpr hbound)]
    refine ⟨?_, hmark⟩
    unfold System.incoming
    rw [if_pos rfl, if_pos hbound]
    rfl
  | false =>
    have hnot : ¬ S.marker.map Aux.block = some (st.aux (.block bb)) := by
      rw [hmark bb, hbound]
      exact Bool.false_ne_true
    rw [if_neg hnot]
    refine ⟨?_, hmark.update hbound (marker_ne_null S)⟩
    unfold System.incoming SolverState.abs
    rw [if_neg Bool.false_ne_true, hbound, if_neg Bool.false_ne_true, hS.meet_eq bb hbound]
    congr 1
    exact marks_update st.aux bb .NULL

variable [DecidableEq C]

/-- **One block is put back**, as in the system. Source: `lcm.c`. Kind: L -/
theorem Queued.wakeUp (hS : S.Lawful) (h : Queued S st l) (e : Fin g.numEdges) :
    ∃ st' l', S.wakeUp st e = some st' ∧ Queued S st' l' ∧
      st'.abs l' = (S.target e).code?.toList.foldl State.enqueue (st.abs l) := by
  unfold Solver.wakeUp
  rcases ht : S.target e with _ | _ | b
  · exact ⟨st, l, rfl, h, rfl⟩
  · exact ⟨st, l, rfl, h, rfl⟩
  · have hone := h.queue_ok.enqueue b
    have hmark : (st.abs l).marked b = decide (st.aux (.block b) ≠ .NULL) := rfl
    have hlist : (Block.block b : Block g.numBlocks).code?.toList.foldl State.enqueue (st.abs l) =
        (st.abs l).enqueue b := rfl
    rw [hlist]
    dsimp only
    by_cases hnull : st.aux (.block b) = .NULL
    · have hfalse : (st.abs l).marked b = false := by
        rw [hmark, hnull]
        rfl
      have hnot : b ∉ l := by
        intro hmem
        rw [h.queue_ok.marked_of_mem b hmem] at hfalse
        cases hfalse
      have hbound : S.toSystem.boundary b = false := by
        by_contra hb
        rw [h.queue_ok.marked_of_boundary b (Bool.eq_true_of_not_eq_false hb)] at hfalse
        cases hfalse
      have hroom := lt_of_lt_of_le (length_lt_of_not_mem h.queue_ok.nodup hnot) hS.capacity
      obtain ⟨q, hpush, hholds⟩ := S.store.exists_push h.holds hroom b
      have habs : SolverState.abs { st with queue := q, aux := Function.update st.aux (.block b) (.edge e) } (l ++ [b]) =
          (st.abs l).enqueue b := by
        unfold State.enqueue
        rw [if_neg (by rw [hfalse]; exact Bool.false_ne_true)]
        unfold SolverState.abs
        congr 1
        exact marks_update st.aux b (.edge e)
      rw [if_pos hnull, hpush]
      refine ⟨_, l ++ [b], rfl, ⟨hholds, h.marked.update hbound (marker_ne_edge S e), ?_⟩, habs⟩
      rw [habs]
      exact hone.queue_ok
    · rw [if_neg hnull]
      refine ⟨st, l, rfl, h, ?_⟩
      unfold State.enqueue
      rw [if_pos (by rw [hmark]; exact decide_eq_true hnull)]

/-- Blocks are put back along a list of edges. Source: `lcm.c`. Kind: L -/
theorem Queued.wakeUp_all (hS : S.Lawful) (es : List (Fin g.numEdges)) :
    ∀ {st : SolverState g k C Q} {l : List (Fin g.numBlocks)}, Queued S st l →
      ∃ st' l', es.foldlM S.wakeUp st = some st' ∧ Queued S st' l' ∧
        st'.abs l' = (es.filterMap (fun e => (S.target e).code?)).foldl State.enqueue (st.abs l) := by
  induction es with
  | nil =>
    intro st l h
    exact ⟨st, l, rfl, h, rfl⟩
  | cons e es ih =>
    intro st l h
    obtain ⟨st₁, l₁, hone, hq₁, habs₁⟩ := h.wakeUp hS e
    obtain ⟨st₂, l₂, hrest, hq₂, habs₂⟩ := ih hq₁
    refine ⟨st₂, l₂, ?_, hq₂, ?_⟩
    · rw [List.foldlM_cons, hone]
      exact hrest
    · rw [habs₂, habs₁, ← List.foldl_append]
      congr 1
      rw [List.filterMap_cons]
      cases (S.target e).code? <;> rfl

/-- **One set is assigned**, as in the system. Source: `lcm.c`. Kind: L -/
theorem Queued.assign (hS : S.Lawful) (h : Queued S st l) (bb : Fin g.numBlocks) (c : C) :
    ∃ st' l', S.assign bb st c = some st' ∧ Queued S st' l' ∧ st'.met = st.met ∧
      st'.abs l' = S.toSystem.assign (st.met bb) (st.abs l) c := by
  unfold Solver.assign System.assign
  by_cases hsame : S.flow c (st.met bb) = st.assigned c
  · refine ⟨st, l, if_pos hsame, h, rfl, ?_⟩
    rw [if_pos (show S.toSystem.flow c (st.met bb) = (st.abs l).val c from hsame)]
  · have hset : Queued S { st with assigned := Function.update st.assigned c (S.flow c (st.met bb)) } l :=
      ⟨h.holds, h.marked, ⟨h.queue_ok.nodup, h.queue_ok.marked_of_mem, h.queue_ok.mem_of_marked,
        h.queue_ok.marked_of_boundary⟩⟩
    obtain ⟨st', l', hall, hq, habs⟩ := hset.wakeUp_all hS (S.wake c)
    refine ⟨st', l', ?_, hq, ?_, ?_⟩
    · rw [if_neg hsame]
      exact hall
    · have hmet := congrArg State.input habs
      rw [(hset.queue_ok.enqueue_all _).input_eq] at hmet
      exact hmet
    · rw [if_neg (show ¬ S.toSystem.flow c (st.met bb) = (st.abs l).val c from hsame)]
      exact habs

/-- Sets are assigned for a list of cells. Source: `lcm.c`. Kind: L -/
theorem Queued.assign_all (hS : S.Lawful) (bb : Fin g.numBlocks) (cs : List C) :
    ∀ {st : SolverState g k C Q} {l : List (Fin g.numBlocks)}, Queued S st l →
      ∃ st' l', cs.foldlM (S.assign bb) st = some st' ∧ Queued S st' l' ∧
        st'.abs l' = cs.foldl (S.toSystem.assign (st.met bb)) (st.abs l) := by
  induction cs with
  | nil =>
    intro st l h
    exact ⟨st, l, rfl, h, rfl⟩
  | cons c cs ih =>
    intro st l h
    obtain ⟨st₁, l₁, hone, hq₁, hmet, habs₁⟩ := h.assign hS bb c
    obtain ⟨st₂, l₂, hrest, hq₂, habs₂⟩ := ih hq₁
    refine ⟨st₂, l₂, ?_, hq₂, ?_⟩
    · rw [List.foldlM_cons, hone]
      exact hrest
    · rw [habs₂, hmet, habs₁]
      rfl

/-- A state between two iterations. -/
structure Good (S : Solver g k C Q) (st : SolverState g k C Q) (l : List (Fin g.numBlocks)) : Prop where
  holds : S.store.Holds st.queue l
  marked : S.Marked st.aux
  invariant : Invariant S.toSystem (st.abs l)

/-- **One iteration** has a result, and is a step of the system. Source: `lcm.c` (`while (qlen)`). Kind: L -/
theorem Good.body (hS : S.Lawful) (h : Good S st l) (hne : l ≠ []) :
    ∃ st' l', S.body st = some st' ∧ Good S st' l' ∧ S.toSystem.StepAny (st.abs l) (st'.abs l') := by
  obtain ⟨bb, q, rest, hpop, hholds, hperm⟩ := S.store.exists_pop h.holds hne
  have hinv := h.invariant.perm hperm
  obtain ⟨habs, hmark⟩ := abs_take hS h.marked bb q rest
  have hok := hinv.queue_ok.take rfl (Function.update st.met bb (S.toSystem.incoming bb st.assigned))
  have hqueued : Queued S (S.take st bb q) rest := by
    refine ⟨?_, hmark, ?_⟩
    · have hq : (S.take st bb q).queue = q := by
        unfold Solver.take
        split <;> rfl
      rw [hq]
      exact hholds
    · rw [habs]
      exact hok
  obtain ⟨st', l', hall, hqueued', habs'⟩ := hqueued.assign_all hS bb (S.cells bb)
  have hmet : (S.take st bb q).met bb = S.toSystem.incoming bb st.assigned := by
    have hfield := congrFun (congrArg State.input habs) bb
    exact hfield.trans (Function.update_self _ _ _)
  have hstep : st'.abs l' = S.toSystem.step { st.abs l with queue := bb :: rest } := by
    rw [habs', habs, hmet]
    rfl
  refine ⟨st', l', ?_, ⟨hqueued'.holds, hqueued'.marked, ?_⟩, hne, bb :: rest, hperm, hstep⟩
  · unfold Solver.body
    rw [hpop]
    exact hall
  · rw [hstep]
    exact hinv.step hS.system

end Iteration

/-! ## The results -/

section Fuel

variable {g : FlowGraph} {k : ℕ} {C Q : Type} [DecidableEq C]

/-- More fuel does not change the end of a loop. Source: `lcm.c` (`while (qlen)`). Kind: L -/
theorem Solver.loop_add {S : Solver g k C Q} {last : SolverState g k C Q} (extra fuel : ℕ) :
    ∀ {st : SolverState g k C Q}, S.loop fuel st = some last → S.loop (fuel + extra) st = some last := by
  induction fuel with
  | zero =>
    intro st h
    exact absurd h (by simp [Solver.loop])
  | succ fuel ih =>
    intro st h
    rw [Nat.add_right_comm]
    unfold Solver.loop at h ⊢
    by_cases hempty : S.store.count st.queue = 0
    · rw [if_pos hempty] at h ⊢
      exact h
    · rw [if_neg hempty] at h ⊢
      obtain ⟨st', hbody, hloop⟩ := Option.bind_eq_some_iff.mp h
      rw [hbody]
      exact ih hloop

/-- A loop has one end. Source: `lcm.c` (`while (qlen)`). Kind: L -/
theorem Solver.loop_unique {S : Solver g k C Q} {st last last' : SolverState g k C Q} {fuel fuel' : ℕ}
    (h : S.loop fuel st = some last) (h' : S.loop fuel' st = some last') : last = last' := by
  have hmore := Solver.loop_add fuel' fuel h
  rw [Nat.add_comm, Solver.loop_add fuel fuel' h'] at hmore
  exact (Option.some.inj hmore).symm

/-- Whatever fuel was enough, the result is there; and enough fuel is enough. -/
theorem Solver.Ends.run {S : Solver g k C Q} {start : Option (SolverState g k C Q)} {allocated : ℕ}
    {Result : SolverState g k C Q → Prop} (h : S.Ends start allocated Result) :
    (∀ fuel last, start.bind (S.loop fuel) = some last → Result last) ∧
      ∃ fuel₀ last, ∀ fuel, fuel₀ ≤ fuel → start.bind (S.loop fuel) = some last := by
  obtain ⟨first, rfl, -, fuel₀, last, hloop, hresult⟩ := h
  refine ⟨fun fuel last' hlast' => ?_, fuel₀, last, fun fuel hle => ?_⟩
  · exact Solver.loop_unique hloop hlast' ▸ hresult
  · obtain ⟨extra, rfl⟩ := Nat.exists_eq_add_of_le hle
    exact Solver.loop_add extra fuel₀ hloop

/-- What follows from the result. -/
theorem Solver.Ends.mono {S : Solver g k C Q} {start : Option (SolverState g k C Q)} {allocated : ℕ}
    {Result Result' : SolverState g k C Q → Prop} (h : S.Ends start allocated Result) (himp : ∀ last, Result last → Result' last) :
    S.Ends start allocated Result' := by
  obtain ⟨first, hstart, hroom, fuel, last, hloop, hresult⟩ := h
  exact ⟨first, hstart, hroom, fuel, last, hloop, himp last hresult⟩

end Fuel

section Results

/-- A function that was updated where no key is the place. -/
theorem foldl_update_of_ne {α β γ : Type} [DecidableEq β] (key : α → β) (v : α → γ) (y : β) (xs : List α) :
    ∀ f : β → γ, (∀ x ∈ xs, key x ≠ y) → xs.foldl (fun f x => Function.update f (key x) (v x)) f y = f y := by
  induction xs with
  | nil =>
    intro f _
    rfl
  | cons x xs ih =>
    intro f hne
    rw [List.foldl_cons, ih _ (fun x' hx' => hne x' (List.mem_cons_of_mem x hx'))]
    exact Function.update_of_ne (hne x List.mem_cons_self).symm _ _

/-- A function that was updated where some key is the place. -/
theorem foldl_update_of_mem {α β γ : Type} [DecidableEq β] (key : α → β) (v : α → γ) {y : β} {a : γ} (xs : List α) :
    ∀ f : β → γ, (∃ x ∈ xs, key x = y) → (∀ x ∈ xs, key x = y → v x = a) →
      xs.foldl (fun f x => Function.update f (key x) (v x)) f y = a := by
  induction xs with
  | nil =>
    rintro f ⟨x, hx, _⟩ _
    exact absurd hx List.not_mem_nil
  | cons x xs ih =>
    intro f hmem hval
    rw [List.foldl_cons]
    by_cases hrest : ∃ x ∈ xs, key x = y
    · exact ih _ hrest (fun x' hx' => hval x' (List.mem_cons_of_mem x hx'))
    · have hkey : key x = y := by
        obtain ⟨x', hx', hkey⟩ := hmem
        rcases List.mem_cons.mp hx' with rfl | htail
        · exact hkey
        · exact absurd ⟨x', htail, hkey⟩ hrest
      rw [foldl_update_of_ne key v y xs _ (fun x' hx' hk => hrest ⟨x', hx', hk⟩), hkey, Function.update_self]
      exact hval x List.mem_cons_self hkey

variable {g : FlowGraph} {k : ℕ} {C Q : Type} {S : Solver g k C Q} {st : SolverState g k C Q}
variable {l : List (Fin g.numBlocks)}

/-- The fields `aux` before the loop. Source: `lcm.c`. Kind: L -/
theorem initAux_eq (S : Solver g k C Q) (aux : Block g.numBlocks → Aux g) (b : Fin g.numBlocks) :
    (S.toSystem.boundary b = true ∧ ∃ m, S.marker = some m ∧ S.initAux aux (.block b) = .block m) ∨
      (S.toSystem.boundary b = false ∧ S.initAux aux (.block b) = .block (.block b)) := by
  have hblocks : g.blocks.foldl (fun aux b => Function.update aux (.block b) (.block (.block b))) aux (.block b) =
      .block (.block b) := by
    apply foldl_update_of_mem (fun b => Block.block b) (fun b => Aux.block (.block b))
    · exact ⟨b, g.mem_blocks b, rfl⟩
    · intro b' _ heq
      rw [heq]
  have hbound : S.toSystem.boundary b = (S.marker.isSome && S.marks.any (fun e => S.target e = .block b)) := rfl
  unfold Solver.initAux
  rcases hm : S.marker with _ | m
  · right
    rw [hbound, hm]
    exact ⟨rfl, hblocks⟩
  · rw [hbound, hm, Option.isSome_some, Bool.true_and]
    dsimp only
    by_cases hany : S.marks.any (fun e => S.target e = .block b) = true
    · left
      obtain ⟨e, he, ht⟩ := List.any_eq_true.mp hany
      refine ⟨hany, m, rfl, ?_⟩
      exact foldl_update_of_mem S.target (fun _ => Aux.block m) S.marks _ ⟨e, he, of_decide_eq_true ht⟩
        (fun _ _ _ => rfl)
    · right
      refine ⟨Bool.eq_false_iff.mpr hany, ?_⟩
      rw [foldl_update_of_ne S.target (fun _ => Aux.block m), hblocks]
      intro e he ht
      exact hany (List.any_eq_true.mpr ⟨e, he, decide_eq_true ht⟩)

/-- The state before the loop. Source: `lcm.c`. Kind: L -/
theorem good_start (hS : S.Lawful) {queue : Q} (hholds : S.store.Holds queue l) (hnodup : l.Nodup) (hall : ∀ b, b ∈ l)
    (aux : Block g.numBlocks → Aux g) (met : Fin g.numBlocks → Bits k) (assigned : C → Bits k) [DecidableEq C]
    [Fintype C]
    (habove : ∀ b, ∀ c ∈ S.cells b, S.flow c (S.toSystem.incoming b assigned) ≤ assigned c) :
    Good S ⟨queue, S.initAux aux, met, assigned⟩ l := by
  refine ⟨hholds, ?_, ?_⟩
  · intro b
    dsimp only
    rcases initAux_eq S aux b with ⟨hbound, m, hm, haux⟩ | ⟨hbound, haux⟩
    · rw [haux, hm, hbound]
      exact ⟨fun _ => rfl, fun _ => rfl⟩
    · rw [haux, hbound]
      refine ⟨?_, fun h => absurd h Bool.false_ne_true⟩
      intro h
      obtain ⟨m, hm, heq⟩ := Option.map_eq_some_iff.mp h
      exact absurd (Aux.block.inj heq) (hS.marker_ne m hm b)
  · have hstart : Invariant S.toSystem ⟨l, fun _ => true, met, assigned⟩ := invariant_start hnodup hall habove
    have hmarks : (fun b => decide (S.initAux aux (.block b) ≠ .NULL)) = fun _ => true := by
      funext b
      rcases initAux_eq S aux b with ⟨_, m, _, haux⟩ | ⟨_, haux⟩ <;> rw [haux] <;> rfl
    unfold SolverState.abs
    rw [hmarks]
    exact hstart

variable [DecidableEq C]

/-- Every state that the loop reaches. Source: `lcm.c` (`while (qlen)`). Kind: L -/
theorem Good.reaches (hS : S.Lawful) (h : Good S st l) {st' : SolverState g k C Q} (hreach : S.Reaches st st') :
    ∃ l', Good S st' l' := by
  induction hreach with
  | refl => exact ⟨l, h⟩
  | tail _ hstep ih =>
    obtain ⟨l₁, hgood⟩ := ih
    have hne : l₁ ≠ [] := by
      rintro rfl
      exact hstep.1 (S.store.count_eq hgood.holds)
    obtain ⟨st₂, l₂, hbody, hgood', _⟩ := hgood.body hS hne
    rw [hstep.2] at hbody
    cases hbody
    exact ⟨l₂, hgood'⟩

/-- The sets that a solver leaves, if it begins with the sets `first`. -/
structure Solved (S : Solver g k C Q) (first : C → Bits k) (met : Fin g.numBlocks → Bits k) (assigned : C → Bits k) : Prop where
  met_eq : ∀ b, met b = S.toSystem.incoming b assigned
  assigned_eq : ∀ b, ∀ c ∈ S.cells b, assigned c = S.flow c (met b)
  kept : ∀ c, (∀ b, c ∉ S.cells b) → assigned c = first c
  greatest : ∀ X, S.toSystem.Below X → X ≤ first → X ≤ assigned

variable {first assigned assigned' : C → Bits k} {met met' : Fin g.numBlocks → Bits k}

/-- What is below the equations is below the sets at the end. -/
theorem Solved.le (hS : S.Lawful) (h : Solved S first met assigned) {X : C → Bits k}
    (hmet : ∀ b, met' b ≤ S.toSystem.incoming b X) (hX : ∀ b, ∀ c ∈ S.cells b, X c ≤ S.flow c (met' b)) (hle : X ≤ first) :
    met' ≤ met ∧ X ≤ assigned := by
  have hbelow : S.toSystem.Below X := by
    intro b c hc
    exact le_trans (hX b c hc) (hS.system.flow_mono c (hmet b))
  have hassigned := h.greatest X hbelow hle
  refine ⟨?_, hassigned⟩
  intro b
  rw [h.met_eq b]
  exact le_trans (hmet b) (hS.system.incoming_mono b hassigned)

/-- Solutions lie below what is given at the start. -/
theorem le_first {X : C → Bits k} (hfirst : ∀ b, ∀ c ∈ S.cells b, first c = ⊤)
    (hkept : ∀ c, (∀ b, c ∉ S.cells b) → X c = first c) : X ≤ first := by
  intro c
  by_cases hc : ∃ b, c ∈ S.cells b
  · obtain ⟨b, hb⟩ := hc
    rw [hfirst b c hb]
    exact le_top
  · exact le_of_eq (hkept c fun b hb => hc ⟨b, hb⟩)

/-- **A solver has one result**, the greatest. Source: `lcm.c` ("We want a maximal solution"). Kind: L -/
theorem Solved.unique (hS : S.Lawful) (hfirst : ∀ b, ∀ c ∈ S.cells b, first c = ⊤) (h : Solved S first met assigned)
    (h' : Solved S first met' assigned') : met = met' ∧ assigned = assigned' := by
  obtain ⟨hmet, hassigned⟩ :=
    h'.le hS (fun b => (h.met_eq b).le) (fun b c hc => (h.assigned_eq b c hc).le) (le_first hfirst h.kept)
  obtain ⟨hmet', hassigned'⟩ :=
    h.le hS (fun b => (h'.met_eq b).le) (fun b c hc => (h'.assigned_eq b c hc).le) (le_first hfirst h'.kept)
  exact ⟨le_antisymm hmet hmet', le_antisymm hassigned hassigned'⟩

variable [Fintype C]

/-- **The worklist system** is solved alike. Source: `lcm.c` (`while (qlen)`). Kind: L -/
theorem solved_solve (hS : S.Lawful) (hnodup : l.Nodup) (hall : ∀ b, b ∈ l) (hfirst : ∀ b, ∀ c ∈ S.cells b, first c = ⊤) :
    Solved S first (S.toSystem.solve k l (fun _ => ⊥) first).input (S.toSystem.solve k l (fun _ => ⊥) first).val := by
  have habove : ∀ b, ∀ c ∈ S.toSystem.cells b, S.toSystem.flow c (S.toSystem.incoming b first) ≤ first c := by
    intro b c hc
    rw [hfirst b c hc]
    exact le_top
  obtain ⟨-, hmet, hassigned, hkept⟩ :=
    @solve_spec _ _ _ _ _ _ _ _ _ _ S.toSystem _ l (fun _ => ⊥) first k hS.system Bits.rank_strictMono Bits.rank_le hnodup hall habove
  exact ⟨hmet, hassigned, hkept, fun X hX hle => (invariant_start hnodup hall habove).le_iterate hS.system hX hle _⟩

/-- **The whole loop** ends, and stays above what is below the equations. Source: `lcm.c` (`while (qlen)`). Kind: L -/
theorem Good.loop (hS : S.Lawful) (fuel : ℕ) : ∀ {st : SolverState g k C Q} {l : List (Fin g.numBlocks)}, Good S st l →
    Lib.Worklist.remaining Bits.rank (st.abs l) < fuel →
      ∃ last, S.loop fuel st = some last ∧ Good S last [] ∧
        (∀ X, S.toSystem.Below X → X ≤ st.assigned → X ≤ last.assigned) ∧
        ∀ c, (∀ b, c ∉ S.cells b) → last.assigned c = st.assigned c := by
  induction fuel with
  | zero =>
    intro st l _ hfuel
    exact absurd hfuel (Nat.not_lt_zero _)
  | succ fuel ih =>
    intro st l h hfuel
    unfold Solver.loop
    rw [S.store.count_eq h.holds]
    by_cases hnil : l = []
    · subst hnil
      exact ⟨st, if_pos rfl, h, fun X _ hle => hle, fun c _ => rfl⟩
    · obtain ⟨st₁, l₁, hbody, hgood, hstep⟩ := h.body hS hnil
      obtain ⟨_, hless, hge, hkept⟩ := h.invariant.step_any hS.system Bits.rank_strictMono hstep
      obtain ⟨last, hloop, hlast, hge', hkept'⟩ := ih hgood (by omega)
      refine ⟨last, ?_, hlast, ?_, ?_⟩
      · rw [if_neg (by simpa using hnil), hbody]
        exact hloop
      · intro X hX hle
        exact hge' X hX (hge X hX hle)
      · intro c hc
        rw [hkept' c hc]
        exact hkept c hc

/-- **A solver** that begins with every block waiting ends, never uses more of the array than was allocated, and solves its equations.
Source: `lcm.c`
Kind: L -/
theorem Solver.Lawful.ends (hS : S.Lawful) {start : Option Q} (hstart : ∃ q, start = some q ∧ S.store.Holds q l) (hnodup : l.Nodup)
    (hall : ∀ b, b ∈ l) (hfirst : ∀ b, ∀ c ∈ S.cells b, first c = ⊤) (aux : Block g.numBlocks → Aux g)
    (met : Fin g.numBlocks → Bits k) {allocated : ℕ} (hroom : g.numBlocks ≤ allocated) :
    S.Ends (start.map fun q => ⟨q, S.initAux aux, met, first⟩) allocated fun last => Solved S first last.met last.assigned := by
  obtain ⟨q, rfl, hholds⟩ := hstart
  have h : Good S ⟨q, S.initAux aux, met, first⟩ l := by
    apply good_start hS hholds hnodup hall
    intro b c hc
    rw [hfirst b c hc]
    exact le_top
  refine ⟨_, rfl, ?_, ?_⟩
  · intro st' hreach
    obtain ⟨l', hgood⟩ := h.reaches hS hreach
    rw [S.store.count_eq hgood.holds]
    have hlen := hgood.invariant.queue_ok.nodup.length_le_card
    rw [Fintype.card_fin] at hlen
    exact le_trans hlen hroom
  · obtain ⟨last, hloop, hgood, hge, hkept⟩ := Good.loop hS _ h (Nat.lt_succ_self _)
    have hsettled : ∀ b, last.met b = S.toSystem.incoming b last.assigned ∧
        ∀ c ∈ S.cells b, last.assigned c = S.flow c (S.toSystem.incoming b last.assigned) :=
      fun b => hgood.invariant.settled b List.not_mem_nil
    refine ⟨_, last, hloop, fun b => (hsettled b).1, ?_, hkept, hge⟩
    intro b c hc
    rw [(hsettled b).1]
    exact (hsettled b).2 c hc

/-- The equations of availability: nothing is available behind `ENTRY`. Source: `lcm.c` `compute_available`. -/
structure Available (g : FlowGraph) (avloc kill : Block g.numBlocks → Bits k) (avin avout : Fin g.numBlocks → Bits k) :
    Prop where
  avout_eq : ∀ b, avout b = avloc (.block b) ⊔ (avin b ⊓ (kill (.block b))ᶜ)
  avin_entry : ∀ b, (∃ e, g.src e = .entry ∧ g.dest e = .block b) → avin b = ⊥
  avin_iff : ∀ b, (¬ ∃ e, g.src e = .entry ∧ g.dest e = .block b) → ∀ i, avin b i = true ↔
    ∀ e p, g.src e = .block p → g.dest e = .block b → avout p i = true

/-- The equations of anticipatability: nothing is anticipated before `EXIT`.
Source: `lcm.c` `compute_antinout_edge` -/
structure Anticipated (g : FlowGraph) (antloc transp : Block g.numBlocks → Bits k)
    (antout antin : Fin g.numBlocks → Bits k) : Prop where
  antin_eq : ∀ b, antin b = antloc (.block b) ⊔ (transp (.block b) ⊓ antout b)
  antout_exit : ∀ b, (∃ e, g.src e = .block b ∧ g.dest e = .exit) → antout b = ⊥
  antout_iff : ∀ b, (¬ ∃ e, g.src e = .block b ∧ g.dest e = .exit) → ∀ i, antout b i = true ↔
    ∀ e s, g.src e = .block b → g.dest e = .block s → antin s i = true

/-- The equations of postponement: nothing is postponed from before `ENTRY`. Source: `lcm.c` `compute_laterin`. -/
structure Later (g : FlowGraph) (earliest : Fin g.numEdges → Bits k) (antloc : Block g.numBlocks → Bits k)
    (laterin : Fin g.numBlocks → Bits k) (later : Fin g.numEdges → Bits k) : Prop where
  later_eq : ∀ e b, g.src e = .block b → later e = earliest e ⊔ (laterin b ⊓ (antloc (.block b))ᶜ)
  later_entry : ∀ e, g.src e = .entry → later e = earliest e
  laterin_iff : ∀ b i, laterin b i = true ↔ ∀ e, g.dest e = .block b → later e i = true

/-- The same against the direction of the edges. Source: `lcm.c` `compute_nearerout`. -/
structure Nearer (g : FlowGraph) (farthest : Fin g.numEdges → Bits k) (stAvloc : Block g.numBlocks → Bits k)
    (nearerout : Fin g.numBlocks → Bits k) (nearer : Fin g.numEdges → Bits k) : Prop where
  nearer_eq : ∀ e b, g.dest e = .block b → nearer e = farthest e ⊔ (nearerout b ⊓ (stAvloc (.block b))ᶜ)
  nearer_exit : ∀ e, g.dest e = .exit → nearer e = farthest e
  nearerout_iff : ∀ b i, nearerout b i = true ↔ ∀ e, g.src e = .block b → nearer e i = true

/-- What is available on entry is available behind every predecessor. Source: `lcm.c` `compute_available`. Kind: L -/
theorem Available.pred {avloc kill : Block g.numBlocks → Bits k} {avin avout : Fin g.numBlocks → Bits k}
    (h : Available g avloc kill avin avout) {b : Fin g.numBlocks} {i : Fin k} (hb : avin b i = true)
    {e : Fin g.numEdges} (he : g.dest e = .block b) :
    ∃ p, g.src e = .block p ∧ avout p i = true := by
  have hnone : ¬ ∃ e, g.src e = .entry ∧ g.dest e = .block b := by
    intro hentry
    rw [h.avin_entry b hentry] at hb
    exact Bool.false_ne_true hb
  rcases g.src_cases e with hsrc | ⟨p, hsrc⟩
  · exact absurd ⟨e, hsrc, he⟩ hnone
  · exact ⟨p, hsrc, (h.avin_iff b hnone i).mp hb e p hsrc he⟩

/-- What is anticipated behind a block is anticipated before every successor. Source: `lcm.c` `compute_antinout_edge`.
Kind: L -/
theorem Anticipated.succ {antloc transp : Block g.numBlocks → Bits k} {antout antin : Fin g.numBlocks → Bits k}
    (h : Anticipated g antloc transp antout antin) {b : Fin g.numBlocks} {i : Fin k} (hb : antout b i = true)
    {e : Fin g.numEdges} (he : g.src e = .block b) :
    ∃ s, g.dest e = .block s ∧ antin s i = true := by
  have hnone : ¬ ∃ e, g.src e = .block b ∧ g.dest e = .exit := by
    intro hexit
    rw [h.antout_exit b hexit] at hb
    exact Bool.false_ne_true hb
  rcases g.dest_cases e with hdest | ⟨s, hdest⟩
  · exact absurd ⟨e, he, hdest⟩ hnone
  · exact ⟨s, hdest, (h.antout_iff b hnone i).mp hb e s he hdest⟩

/-- The bits of a meet over neighbours that all hold code. -/
theorem intersectionOver_iff {dst : Bits k} {src : Block g.numBlocks → Bits k} {edges : List (Fin g.numEdges)}
    {neighbour : Fin g.numEdges → Block g.numBlocks} (hcode : ∀ e ∈ edges, ∃ p, neighbour e = .block p) (i : Fin k) :
    intersectionOver g dst src edges neighbour i = true ↔
      ∀ e ∈ edges, ∀ p, neighbour e = .block p → src (.block p) i = true := by
  have hmem : ∀ p, p ∈ edges.filterMap (fun e => (neighbour e).code?) ↔ ∃ e ∈ edges, neighbour e = .block p := by
    intro p
    rw [List.mem_filterMap]
    refine exists_congr fun e => and_congr_right fun he => ?_
    obtain ⟨q, hq⟩ := hcode e he
    rw [hq]
    exact ⟨fun h => congrArg Block.block (Option.some.inj h), fun h => congrArg some (Block.block.inj h)⟩
  have hall : (∀ e ∈ edges, ∀ p, neighbour e = .block p → src (.block p) i = true) ↔
      ∀ p ∈ edges.filterMap (fun e => (neighbour e).code?), src (.block p) i = true := by
    constructor
    · intro h p hp
      obtain ⟨e, he, hn⟩ := (hmem p).mp hp
      exact h e he p hn
    · intro h e he p hn
      exact h p ((hmem p).mpr ⟨e, he, hn⟩)
  rw [hall]
  unfold intersectionOver
  rcases hlist : edges.filterMap (fun e => (neighbour e).code?) with _ | ⟨q, qs⟩
  · have hedges : edges = [] := by
      apply List.eq_nil_iff_forall_not_mem.mpr
      intro e he
      obtain ⟨p, hp⟩ := hcode e he
      have hin := (hmem p).mpr ⟨e, he, hp⟩
      rw [hlist] at hin
      exact absurd hin List.not_mem_nil
    rw [if_pos hedges]
    exact ⟨fun _ p hp => absurd hp List.not_mem_nil, fun _ => rfl⟩
  · rw [List.forall_mem_cons, ← Bits.single_le_iff, le_foldl_inf_iff, Bits.single_le_iff]
    exact and_congr_right fun _ => forall₂_congr fun p _ => Bits.single_le_iff

/-- The bits of a meet over edges. -/
theorem intersectionOfEdges_iff {src : Fin g.numEdges → Bits k} {edges : List (Fin g.numEdges)} (i : Fin k) :
    intersectionOfEdges g src edges i = true ↔ ∀ e ∈ edges, src e i = true := by
  unfold intersectionOfEdges
  rw [← Bits.single_le_iff, le_foldl_inf_iff]
  exact ⟨fun h e he => Bits.single_le_iff.mp (h.2 e he), fun h => ⟨le_top, fun e he => Bits.single_le_iff.mpr (h e he)⟩⟩

/-- Sets with the same bits. -/
theorem Bits.ext {x y : Bits k} (h : ∀ i, x i = true ↔ y i = true) : x = y :=
  funext fun i => Bool.eq_iff_iff.mpr (h i)

/-- Sets of blocks that hold code, and all expressions for the fixed blocks. -/
def ofCode (X : Fin g.numBlocks → Bits k) : Block g.numBlocks → Bits k
  | .block b => X b
  | _ => ⊤

theorem availableSystem_boundary_iff (avloc kill : Block g.numBlocks → Bits k) (b : Fin g.numBlocks) :
    (availableSystem g avloc kill).boundary b = true ↔ ∃ e, g.src e = .entry ∧ g.dest e = .block b := by
  change (g.succs .entry).any (fun e => g.dest e = .block b) = true ↔ _
  simp [g.mem_succs]

theorem antinoutSystem_boundary_iff (antloc transp : Block g.numBlocks → Bits k) (b : Fin g.numBlocks) :
    (antinoutSystem g antloc transp).boundary b = true ↔ ∃ e, g.src e = .block b ∧ g.dest e = .exit := by
  change (g.preds .exit).any (fun e => g.src e = .block b) = true ↔ _
  simp [g.mem_preds, and_comm]

theorem incoming_available_iff {avloc kill : Block g.numBlocks → Bits k} {b : Fin g.numBlocks}
    (hbound : (availableSystem g avloc kill).boundary b = false) (dst : Bits k) (X : Block g.numBlocks → Bits k)
    (i : Fin k) : intersectionOfPreds g dst X b i = true ↔
      ∀ e p, g.src e = .block p → g.dest e = .block b → X (.block p) i = true := by
  have hcode : ∀ e ∈ g.preds (.block b), ∃ p, g.src e = .block p := by
    intro e he
    refine (g.src_cases e).resolve_left ?_
    intro hsrc
    rw [(availableSystem_boundary_iff avloc kill b).mpr ⟨e, hsrc, (g.mem_preds _ _).mp he⟩] at hbound
    cases hbound
  unfold intersectionOfPreds
  rw [intersectionOver_iff hcode]
  exact ⟨fun h e p hp he => h e ((g.mem_preds _ _).mpr he) p hp, fun h e he p hp => h e p hp ((g.mem_preds _ _).mp he)⟩

theorem incoming_antinout_iff {antloc transp : Block g.numBlocks → Bits k} {b : Fin g.numBlocks}
    (hbound : (antinoutSystem g antloc transp).boundary b = false) (dst : Bits k) (X : Block g.numBlocks → Bits k)
    (i : Fin k) : intersectionOfSuccs g dst X b i = true ↔
      ∀ e s, g.src e = .block b → g.dest e = .block s → X (.block s) i = true := by
  have hcode : ∀ e ∈ g.succs (.block b), ∃ s, g.dest e = .block s := by
    intro e he
    refine (g.dest_cases e).resolve_left ?_
    intro hdest
    rw [(antinoutSystem_boundary_iff antloc transp b).mpr ⟨e, (g.mem_succs _ _).mp he, hdest⟩] at hbound
    cases hbound
  unfold intersectionOfSuccs
  rw [intersectionOver_iff hcode]
  exact ⟨fun h e s he hs => h e ((g.mem_succs _ _).mpr he) s hs, fun h e he s hs => h e s ((g.mem_succs _ _).mp he) hs⟩

/-- What a block meets, with the boundary apart. -/
theorem eq_incoming_iff {T : System (Fin g.numBlocks) (Block g.numBlocks) (Bits k)} {b : Fin g.numBlocks}
    {X : Block g.numBlocks → Bits k} {met : Bits k} {Edge : Prop} {Meets : Fin k → Prop} (hbound : T.boundary b = true ↔ Edge)
    (hmeet : T.boundary b = false → ∀ i, T.meet b X i = true ↔ Meets i) :
    met = T.incoming b X ↔ (Edge → met = ⊥) ∧ (¬ Edge → ∀ i, met i = true ↔ Meets i) := by
  unfold System.incoming
  cases hb : T.boundary b with
  | true =>
    have hedge := hbound.mp hb
    rw [if_pos rfl]
    exact ⟨fun h => ⟨fun _ => h, fun hno => absurd hedge hno⟩, fun h => h.1 hedge⟩
  | false =>
    have hno : ¬ Edge := mt hbound.mpr (Bool.eq_false_iff.mp hb)
    rw [if_neg Bool.false_ne_true]
    constructor
    · rintro rfl
      exact ⟨fun hedge => absurd hedge hno, fun _ => hmeet hb⟩
    · intro h
      apply Bits.ext
      intro i
      exact (h.2 hno i).trans (hmeet hb i).symm

/-- The greatest solution of equations between blocks. -/
theorem Solved.isGreatest_blocks {S : Solver g k (Block g.numBlocks) Q} (hS : S.Lawful)
    (hcells : ∀ b, S.cells b = [.block b])
    (hlocal : ∀ b X Y, (∀ p, X (.block p) = Y (.block p)) → S.toSystem.meet b X = S.toSystem.meet b Y)
    {met : Fin g.numBlocks → Bits k} {assigned : Block g.numBlocks → Bits k} (h : Solved S (fun _ => ⊤) met assigned)
    {Equations : (Fin g.numBlocks → Bits k) → (Fin g.numBlocks → Bits k) → Prop}
    (hiff : ∀ met X, Equations met X ↔
      (∀ b, X b = S.flow (.block b) (met b)) ∧ ∀ b, met b = S.toSystem.incoming b (ofCode X)) :
    IsGreatest {x : (Fin g.numBlocks → Bits k) × (Fin g.numBlocks → Bits k) | Equations x.1 x.2}
      (met, fun b => assigned (.block b)) := by
  refine ⟨(hiff _ _).mpr ⟨?_, ?_⟩, ?_⟩
  · intro b
    exact h.assigned_eq b (.block b) (by rw [hcells]; exact List.mem_singleton_self _)
  · intro b
    rw [System.incoming, hlocal b (ofCode fun b => assigned (.block b)) assigned (fun _ => rfl)]
    exact h.met_eq b
  · rintro ⟨met', X⟩ hsol
    obtain ⟨hX, hmet⟩ := (hiff met' X).mp hsol
    have hle : met' ≤ met ∧ ofCode X ≤ assigned := by
      apply h.le hS (fun b => le_of_eq (hmet b)) _ (fun _ => le_top)
      intro b c hc
      rw [hcells] at hc
      rw [List.mem_singleton.mp hc]
      exact le_of_eq (hX b)
    exact ⟨hle.1, fun b => hle.2 (.block b)⟩

/-- The greatest solution of equations between edges. -/
theorem Solved.isGreatest_edges {S : Solver g k (Fin g.numEdges) Q} (hS : S.Lawful)
    {first : Fin g.numEdges → Bits k} (hfirst : ∀ b, ∀ e ∈ S.cells b, first e = ⊤)
    {met : Fin g.numBlocks → Bits k} {assigned : Fin g.numEdges → Bits k} (h : Solved S first met assigned)
    {Equations : (Fin g.numBlocks → Bits k) → (Fin g.numEdges → Bits k) → Prop}
    (hiff : ∀ met X, Equations met X ↔
      (∀ b, ∀ e ∈ S.cells b, X e = S.flow e (met b)) ∧ (∀ e, (∀ b, e ∉ S.cells b) → X e = first e) ∧
        ∀ b, met b = S.toSystem.incoming b X) :
    IsGreatest {x : (Fin g.numBlocks → Bits k) × (Fin g.numEdges → Bits k) | Equations x.1 x.2}
      (met, assigned) := by
  refine ⟨(hiff _ _).mpr ⟨h.assigned_eq, h.kept, h.met_eq⟩, ?_⟩
  rintro ⟨met', X⟩ hsol
  obtain ⟨hX, hkept, hmet⟩ := (hiff met' X).mp hsol
  exact h.le hS (fun b => le_of_eq (hmet b)) (fun b e he => le_of_eq (hX b e he)) (le_first hfirst hkept)

end Results

/-! ## The four solvers -/

section Four

variable {k : ℕ} (g : FlowGraph)

/-- The blocks fill the circle. -/
theorem blocks_length : g.blocks.length = nBasicBlocks g - numFixedBlocks := by
  have hle := g.blocks_nodup.length_le_card
  have hge : Fintype.card (Fin g.numBlocks) ≤ g.blocks.length := by
    rw [← Finset.card_univ]
    exact le_trans (Finset.card_le_card fun b _ => List.mem_toFinset.mpr (g.mem_blocks b)) (List.toFinset_card_le _)
  rw [Fintype.card_fin] at hle hge
  unfold nBasicBlocks numFixedBlocks
  omega

/-- A circle that all blocks fill. -/
theorem exists_circle {allocated : ℕ} {bs : List (Fin g.numBlocks)} (hlen : bs.length = nBasicBlocks g - numFixedBlocks)
    (hle : nBasicBlocks g - numFixedBlocks ≤ allocated) :
    ∃ q, Circle.start allocated (nBasicBlocks g - numFixedBlocks) bs = some q ∧
      (Circle.store _ (nBasicBlocks g - numFixedBlocks)).Holds q bs := by
  rw [← hlen] at hle ⊢
  exact Circle.exists_start hle

theorem availableSolver_lawful (avloc kill : Block g.numBlocks → Bits k) : (availableSolver g avloc kill).Lawful where
  system := availableSystem_lawful g avloc kill
  marker_ne := by
    rintro m ⟨⟩ b
    simp
  meet_eq := by
    intro b hbound dst X
    apply Bits.ext
    intro i
    have hbound' : (availableSystem g avloc kill).boundary b = false := hbound
    exact (incoming_available_iff hbound' dst X i).trans (incoming_available_iff hbound' ⊥ X i).symm
  capacity := by
    change g.numBlocks ≤ nBasicBlocks g - numFixedBlocks
    exact le_refl _

/-- The loop of `compute_available`. Source: `lcm.c` `compute_available`. Kind: L -/
theorem available_solved (avloc kill : Block g.numBlocks → Bits k) (aux : Block g.numBlocks → Aux g) (avin : Fin g.numBlocks → Bits k) :
    (availableSolver g avloc kill).Ends (availableStart g avloc kill aux avin) (nBasicBlocks g - numFixedBlocks)
      (fun last => Solved (availableSolver g avloc kill) (fun _ => ⊤) last.met last.assigned) :=
  (availableSolver_lawful g avloc kill).ends (exists_circle g (blocks_length g) (le_refl _)) g.blocks_nodup g.mem_blocks
    (fun _ _ _ => rfl) aux avin (le_refl _)

/-- Source: `lcm.c` `compute_available`. Kind: L -/
theorem available_greatest {avloc kill : Block g.numBlocks → Bits k} {met : Fin g.numBlocks → Bits k}
    {assigned : Block g.numBlocks → Bits k} (h : Solved (availableSolver g avloc kill) (fun _ => ⊤) met assigned) :
    IsGreatest {x : (Fin g.numBlocks → Bits k) × (Fin g.numBlocks → Bits k) | Available g avloc kill x.1 x.2}
      (met, fun b => assigned (.block b)) := by
  apply Solved.isGreatest_blocks (availableSolver_lawful g avloc kill) (fun _ => rfl) _ h
  · intro met X
    have hin : ∀ b, met b = (availableSystem g avloc kill).incoming b (ofCode X) ↔ _ := fun b =>
      eq_incoming_iff (availableSystem_boundary_iff avloc kill b) (fun hb => incoming_available_iff hb ⊥ (ofCode X))
    have hall := forall_congr' hin
    constructor
    · intro h
      exact ⟨h.avout_eq, hall.mpr fun b => ⟨h.avin_entry b, h.avin_iff b⟩⟩
    · intro h
      exact ⟨h.1, fun b => (hall.mp h.2 b).1, fun b => (hall.mp h.2 b).2⟩
  · intro b X Y hsame
    exact intersectionOver_congr fun _ _ p _ => hsame p

theorem antinoutSolver_lawful (antloc transp : Block g.numBlocks → Bits k) : (antinoutSolver g antloc transp).Lawful where
  system := antinoutSystem_lawful g antloc transp
  marker_ne := by
    rintro m ⟨⟩ b
    simp
  meet_eq := by
    intro b hbound dst X
    apply Bits.ext
    intro i
    have hbound' : (antinoutSystem g antloc transp).boundary b = false := hbound
    exact (incoming_antinout_iff hbound' dst X i).trans (incoming_antinout_iff hbound' ⊥ X i).symm
  capacity := by
    change g.numBlocks ≤ nBasicBlocks g - numFixedBlocks
    exact le_refl _

/-- The loop of `compute_antinout_edge`. Source: `lcm.c` `compute_antinout_edge`. Kind: L -/
theorem antinout_solved (antloc transp : Block g.numBlocks → Bits k) (aux : Block g.numBlocks → Aux g)
    (antout : Fin g.numBlocks → Bits k) :
    (antinoutSolver g antloc transp).Ends (antinoutStart g antloc transp aux antout) (nBasicBlocks g)
      (fun last => Solved (antinoutSolver g antloc transp) (fun _ => ⊤) last.met last.assigned) :=
  (antinoutSolver_lawful g antloc transp).ends
    (exists_circle g ((List.length_reverse).trans (blocks_length g)) (Nat.sub_le _ _)) (List.nodup_reverse.mpr g.blocks_nodup)
    (fun b => List.mem_reverse.mpr (g.mem_blocks b)) (fun _ _ _ => rfl) aux antout (Nat.le_add_right _ _)

/-- Source: `lcm.c` `compute_antinout_edge`. Kind: L -/
theorem antinout_greatest {antloc transp : Block g.numBlocks → Bits k} {met : Fin g.numBlocks → Bits k}
    {assigned : Block g.numBlocks → Bits k} (h : Solved (antinoutSolver g antloc transp) (fun _ => ⊤) met assigned) :
    IsGreatest {x : (Fin g.numBlocks → Bits k) × (Fin g.numBlocks → Bits k) | Anticipated g antloc transp x.1 x.2}
      (met, fun b => assigned (.block b)) := by
  apply Solved.isGreatest_blocks (antinoutSolver_lawful g antloc transp) (fun _ => rfl) _ h
  · intro met X
    have hin : ∀ b, met b = (antinoutSystem g antloc transp).incoming b (ofCode X) ↔ _ := fun b =>
      eq_incoming_iff (antinoutSystem_boundary_iff antloc transp b) (fun hb => incoming_antinout_iff hb ⊥ (ofCode X))
    have hall := forall_congr' hin
    constructor
    · intro h
      exact ⟨h.antin_eq, hall.mpr fun b => ⟨h.antout_exit b, h.antout_iff b⟩⟩
    · intro h
      exact ⟨h.1, fun b => (hall.mp h.2 b).1, fun b => (hall.mp h.2 b).2⟩
  · intro b X Y hsame
    exact intersectionOver_congr fun _ _ p _ => hsame p

/-- An edge puts back the one block where it leads. -/
theorem edgeReaders_eq (far : Fin g.numEdges → Block g.numBlocks) :
    (fun e => [e].filterMap (fun e => (far e).code?)) = fun e => (far e).code?.toList := by
  funext e
  rw [List.filterMap_cons]
  cases (far e).code? <;> rfl

theorem edgeSolver_system_lawful {near far : Fin g.numEdges → Block g.numBlocks}
    {ins outs : Block g.numBlocks → List (Fin g.numEdges)} (first : Fin g.numEdges → Bits k)
    (loc : Block g.numBlocks → Bits k) (houts : ∀ b e, e ∈ outs b ↔ near e = b) (hins : ∀ b e, e ∈ ins b ↔ far e = b) :
    System.Lawful { edgeSystem g near far ins outs first loc with
      readers := fun e => [e].filterMap (fun e => (far e).code?) } := by
  rw [edgeReaders_eq]
  exact edgeSystem_lawful g first loc houts hins

theorem laterSolver_lawful (earliest : Fin g.numEdges → Bits k) (antloc : Block g.numBlocks → Bits k) :
    (laterSolver g earliest antloc).Lawful where
  system := edgeSolver_system_lawful g earliest antloc g.mem_succs g.mem_preds
  marker_ne := by
    rintro m ⟨⟩
  meet_eq _ _ _ _ := rfl
  capacity := by
    change g.numBlocks ≤ nBasicBlocks g - numFixedBlocks
    exact le_refl _

theorem nearerSolver_lawful (farthest : Fin g.numEdges → Bits k) (stAvloc : Block g.numBlocks → Bits k) :
    (nearerSolver g farthest stAvloc).Lawful where
  system := edgeSolver_system_lawful g farthest stAvloc g.mem_preds g.mem_succs
  marker_ne := by
    rintro m ⟨⟩
  meet_eq _ _ _ _ := rfl
  capacity := by
    change g.numBlocks ≤ nBasicBlocks g + 1
    exact le_trans (Nat.le_add_right _ 2) (Nat.le_succ _)

/-- The equations of a system over edges; edges that do not leave code belong to no block. -/
theorem edgeEquations_iff {near far : Fin g.numEdges → Block g.numBlocks}
    {ins outs : Block g.numBlocks → List (Fin g.numEdges)} {first : Fin g.numEdges → Bits k}
    {loc : Block g.numBlocks → Bits k} (houts : ∀ b e, e ∈ outs b ↔ near e = b) (hins : ∀ b e, e ∈ ins b ↔ far e = b)
    {fixed : Block g.numBlocks} (hnear : ∀ e, near e = fixed ∨ ∃ b, near e = .block b) (hfixed : ∀ b, fixed ≠ .block b)
    {met : Fin g.numBlocks → Bits k} {X : Fin g.numEdges → Bits k} :
    ((∀ e b, near e = .block b → X e = first e ⊔ (met b ⊓ (loc (.block b))ᶜ)) ∧ (∀ e, near e = fixed → X e = first e) ∧
        ∀ b i, met b i = true ↔ ∀ e, far e = .block b → X e i = true) ↔
      (∀ b, ∀ e ∈ outs (.block b), X e = first e ⊔ (met b ⊓ (loc (near e))ᶜ)) ∧
        (∀ e, (∀ b, e ∉ outs (.block b)) → X e = if e ∈ outs fixed then first e else ⊤) ∧
        ∀ b, met b = intersectionOfEdges g X (ins (.block b)) := by
  have hmeet : (∀ b i, met b i = true ↔ ∀ e, far e = .block b → X e i = true) ↔
      ∀ b, met b = intersectionOfEdges g X (ins (.block b)) := by
    refine forall_congr' fun b => ?_
    have hbits : ∀ i, intersectionOfEdges g X (ins (.block b)) i = true ↔ ∀ e, far e = .block b → X e i = true := by
      intro i
      rw [intersectionOfEdges_iff]
      exact forall_congr' fun e => imp_congr_left (hins _ e)
    constructor
    · intro h
      exact Bits.ext fun i => (h i).trans (hbits i).symm
    · intro h i
      rw [h]
      exact hbits i
  rw [hmeet]
  constructor
  · rintro ⟨heq, hout, hmet⟩
    refine ⟨?_, ?_, hmet⟩
    · intro b e he
      rw [(houts _ _).mp he]
      exact heq e b ((houts _ _).mp he)
    · intro e he
      have hsrc := (hnear e).resolve_right (fun ⟨b, hb⟩ => he b ((houts _ _).mpr hb))
      rw [if_pos ((houts _ _).mpr hsrc)]
      exact hout e hsrc
  · rintro ⟨heq, hout, hmet⟩
    refine ⟨?_, ?_, hmet⟩
    · intro e b he
      rw [← he]
      exact heq b e ((houts _ _).mpr he)
    · intro e he
      have hno : ∀ b, e ∉ outs (.block b) := fun b hb => hfixed b (he.symm.trans ((houts _ _).mp hb))
      rw [hout e hno, if_pos ((houts _ _).mpr he)]

/-- Before the loop the edges that leave code have all expressions. -/
theorem first_eq_top {near : Fin g.numEdges → Block g.numBlocks} {outs : Block g.numBlocks → List (Fin g.numEdges)}
    (houts : ∀ b e, e ∈ outs b ↔ near e = b) {fixed : Block g.numBlocks} (hfixed : ∀ b, fixed ≠ .block b)
    (first : Fin g.numEdges → Bits k) :
    ∀ b, ∀ e ∈ outs (.block b), (if e ∈ outs fixed then first e else ⊤) = ⊤ := by
  intro b e he
  apply if_neg
  intro hmem
  exact hfixed b (((houts _ _).mp hmem).symm.trans ((houts _ _).mp he))

/-- The loop of `compute_laterin`. Source: `lcm.c` `compute_laterin`. Kind: L -/
theorem later_solved (earliest : Fin g.numEdges → Bits k) (antloc : Block g.numBlocks → Bits k) (aux : Block g.numBlocks → Aux g)
    (laterin : Fin g.numBlocks → Bits k) :
    (laterSolver g earliest antloc).Ends (laterStart g earliest antloc aux laterin) (nBasicBlocks g)
      (fun last => Solved (laterSolver g earliest antloc) (givenOn (g.succs .entry) earliest) last.met last.assigned) :=
  (laterSolver_lawful g earliest antloc).ends (exists_circle g (blocks_length g) (Nat.sub_le _ _)) g.blocks_nodup g.mem_blocks
    (first_eq_top g g.mem_succs (fun b => by simp) earliest) aux laterin (Nat.le_add_right _ _)

/-- Source: `lcm.c` `compute_laterin`. Kind: L -/
theorem later_greatest {earliest : Fin g.numEdges → Bits k} {antloc : Block g.numBlocks → Bits k} {met : Fin g.numBlocks → Bits k}
    {assigned : Fin g.numEdges → Bits k}
    (h : Solved (laterSolver g earliest antloc) (givenOn (g.succs .entry) earliest) met assigned) :
    IsGreatest {x : (Fin g.numBlocks → Bits k) × (Fin g.numEdges → Bits k) | Later g earliest antloc x.1 x.2} (met, assigned) := by
  apply Solved.isGreatest_edges (laterSolver_lawful g earliest antloc) (first_eq_top g g.mem_succs (fun b => by simp) earliest) h
  intro met X
  refine Iff.trans ?_ (edgeEquations_iff g g.mem_succs g.mem_preds g.src_cases (fun b => by simp))
  exact ⟨fun h => ⟨h.later_eq, h.later_entry, h.laterin_iff⟩, fun h => ⟨h.1, h.2.1, h.2.2⟩⟩

/-- **The mirror of postponement** by the loop. Source: `lcm.c` `compute_nearerout`. Kind: L -/
theorem nearer_ends (farthest : Fin g.numEdges → Bits k) (stAvloc : Block g.numBlocks → Bits k)
    (aux : Block g.numBlocks → Aux g) (nearerout : Fin g.numBlocks → Bits k) :
    (nearerSolver g farthest stAvloc).Ends (nearerStart g farthest stAvloc aux nearerout) (nBasicBlocks g + 1)
      fun last => IsGreatest {x : (Fin g.numBlocks → Bits k) × (Fin g.numEdges → Bits k) | Nearer g farthest stAvloc x.1 x.2}
        (last.met, last.assigned) := by
  have hlen : g.blocks.length ≤ nBasicBlocks g + 1 := by
    rw [blocks_length g]
    exact le_trans (Nat.sub_le _ _) (Nat.le_succ _)
  have hS := nearerSolver_lawful g farthest stAvloc
  have hfirst := first_eq_top g g.mem_preds (fun b => (by simp : Block.exit ≠ .block b)) farthest
  refine (hS.ends (Stack.exists_start hlen) g.blocks_nodup g.mem_blocks hfirst aux nearerout
    (le_trans (Nat.le_add_right _ 2) (Nat.le_succ _))).mono fun last hsol => ?_
  apply Solved.isGreatest_edges hS hfirst hsol
  intro met X
  refine Iff.trans ?_ (edgeEquations_iff g g.mem_preds g.mem_succs g.dest_cases (fun b => by simp))
  exact ⟨fun h => ⟨h.nearer_eq, h.nearer_exit, h.nearerout_iff⟩, fun h => ⟨h.1, h.2.1, h.2.2⟩⟩

/-- The extra entry of `LATERIN` for `EXIT`. Source: `lcm.c` `compute_laterin` (`laterin[last_basic_block]`). -/
def laterinLast (last : SolverState g k (Fin g.numEdges) (Circle (Fin g.numBlocks))) : Bits k :=
  intersectionOfEdges g last.assigned (g.preds .exit)

/-- The extra entry of `NEAREROUT` for `ENTRY`.
Source: `lcm.c` `compute_nearerout` (`nearerout[last_basic_block]`) -/
def neareroutLast (last : SolverState g k (Fin g.numEdges) (Stack (Fin g.numBlocks))) : Bits k :=
  intersectionOfEdges g last.assigned (g.succs .entry)

/-- **The worklist solvers**: each of the four loops ends, has never more blocks waiting than were allocated and leaves the
greatest solution of its equations; the extra entries are the meets for `EXIT` and `ENTRY`.
Source: `lcm.c` `compute_available`, `compute_antinout_edge`, `compute_laterin`, `compute_nearerout`
Kind: P -/
theorem worklist_solvers_greatest (k : ℕ) (g : FlowGraph) (aux : Block g.numBlocks → Aux g)
    (met : Fin g.numBlocks → Bits k) :
    (∀ avloc kill : Block g.numBlocks → Bits k,
      (availableSolver g avloc kill).Ends (availableStart g avloc kill aux met) (nBasicBlocks g - numFixedBlocks)
        fun last => IsGreatest
          {x : (Fin g.numBlocks → Bits k) × (Fin g.numBlocks → Bits k) | Available g avloc kill x.1 x.2}
          (last.met, fun b => last.assigned (.block b))) ∧
    (∀ antloc transp : Block g.numBlocks → Bits k,
      (antinoutSolver g antloc transp).Ends (antinoutStart g antloc transp aux met) (nBasicBlocks g)
        fun last => IsGreatest
          {x : (Fin g.numBlocks → Bits k) × (Fin g.numBlocks → Bits k) | Anticipated g antloc transp x.1 x.2}
          (last.met, fun b => last.assigned (.block b))) ∧
    (∀ (earliest : Fin g.numEdges → Bits k) (antloc : Block g.numBlocks → Bits k),
      (laterSolver g earliest antloc).Ends (laterStart g earliest antloc aux met) (nBasicBlocks g)
        fun last => IsGreatest
            {x : (Fin g.numBlocks → Bits k) × (Fin g.numEdges → Bits k) | Later g earliest antloc x.1 x.2}
            (last.met, last.assigned) ∧
          ∀ i, laterinLast g last i = true ↔ ∀ e, g.dest e = .exit → last.assigned e i = true) ∧
    ∀ (farthest : Fin g.numEdges → Bits k) (stAvloc : Block g.numBlocks → Bits k),
      (nearerSolver g farthest stAvloc).Ends (nearerStart g farthest stAvloc aux met) (nBasicBlocks g + 1)
        fun last => IsGreatest
            {x : (Fin g.numBlocks → Bits k) × (Fin g.numEdges → Bits k) | Nearer g farthest stAvloc x.1 x.2}
            (last.met, last.assigned) ∧
          ∀ i, neareroutLast g last i = true ↔ ∀ e, g.src e = .entry → last.assigned e i = true := by
  refine ⟨fun avloc kill => (available_solved g avloc kill aux met).mono fun _ => available_greatest g,
    fun antloc transp => (antinout_solved g antloc transp aux met).mono fun _ => antinout_greatest g, ?_, ?_⟩
  · refine fun earliest antloc => (later_solved g earliest antloc aux met).mono fun last hsol => ⟨later_greatest g hsol, fun i => ?_⟩
    unfold laterinLast
    rw [intersectionOfEdges_iff]
    exact forall_congr' fun e => imp_congr_left (g.mem_preds _ e)
  · refine fun farthest stAvloc => (nearer_ends g farthest stAvloc aux met).mono fun last hgreatest => ⟨hgreatest, fun i => ?_⟩
    unfold neareroutLast
    rw [intersectionOfEdges_iff]
    exact forall_congr' fun e => imp_congr_left (g.mem_succs _ e)

/-! ## The function -/

/-- The loops as they run. The fields `aux` of the blocks, and the sets that are met, have any contents at the start. No answer if
the fuel is not enough for a loop.
Source: `lcm.c` `pre_edge_lcm` -/
def preEdgeLcmRun (fuel : ℕ) (aux : Block g.numBlocks → Aux g) (avin antout laterin : Fin g.numBlocks → Bits k)
    (transp avloc antloc kill : Block g.numBlocks → Bits k) : Option (Placement g k) := do
  let av ← (availableStart g avloc kill aux avin).bind ((availableSolver g avloc kill).loop fuel)
  let ant ← (antinoutStart g antloc transp (fun _ => .NULL) antout).bind ((antinoutSolver g antloc transp).loop fuel)
  let earliest := computeEarliest g ant.assigned ant.met av.assigned kill
  let later ← (laterStart g earliest antloc (fun _ => .NULL) laterin).bind ((laterSolver g earliest antloc).loop fuel)
  return computeInsertDelete g antloc ⟨later.assigned, later.met, laterinLast g later⟩

/-- Source: `lcm.c` `compute_available`. Kind: L -/
theorem computeAvailable_solved (avloc kill : Block g.numBlocks → Bits k) :
    Solved (availableSolver g avloc kill) (fun _ => ⊤) (computeAvailable g avloc kill).met (computeAvailable g avloc kill).assigned :=
  solved_solve (availableSolver_lawful g avloc kill) g.blocks_nodup g.mem_blocks fun _ _ _ => rfl

/-- Source: `lcm.c` `compute_antinout_edge`. Kind: L -/
theorem computeAntinoutEdge_solved (antloc transp : Block g.numBlocks → Bits k) :
    Solved (antinoutSolver g antloc transp) (fun _ => ⊤) (computeAntinoutEdge g antloc transp).met
      (computeAntinoutEdge g antloc transp).assigned :=
  solved_solve (antinoutSolver_lawful g antloc transp) (List.nodup_reverse.mpr g.blocks_nodup)
    (fun b => List.mem_reverse.mpr (g.mem_blocks b)) fun _ _ _ => rfl

/-- Source: `lcm.c` `compute_laterin`. Kind: L -/
theorem computeLaterin_solved (earliest : Fin g.numEdges → Bits k) (antloc : Block g.numBlocks → Bits k) :
    Solved (laterSolver g earliest antloc) (givenOn (g.succs .entry) earliest) (computeLaterin g earliest antloc).laterin
      (computeLaterin g earliest antloc).later := by
  have hsystem : (laterSolver g earliest antloc).toSystem = laterSystem g earliest antloc :=
    congrArg (Lib.Worklist.System.mk _ _ _ _) (edgeReaders_eq g g.dest)
  have hfirst := first_eq_top g g.mem_succs (fun b => (by simp : Block.entry ≠ .block b)) earliest
  have hsol := solved_solve (laterSolver_lawful g earliest antloc) g.blocks_nodup g.mem_blocks hfirst
  rw [hsystem] at hsol
  exact hsol

/-- **Lazy code motion, loop by loop**: whatever its memory holds at the start, the function ends with the placement of the
worklist systems.
Source: `lcm.c` `pre_edge_lcm`
Kind: P -/
theorem preEdgeLcmRun_eq (aux : Block g.numBlocks → Aux g) (avin antout laterin : Fin g.numBlocks → Bits k)
    (transp avloc antloc kill : Block g.numBlocks → Bits k) :
    ∃ fuel₀, ∀ fuel, fuel₀ ≤ fuel →
      preEdgeLcmRun g fuel aux avin antout laterin transp avloc antloc kill = some (preEdgeLcm g transp avloc antloc kill) := by
  obtain ⟨hav, fuel₁, av, hrun₁⟩ := (available_solved g avloc kill aux avin).run
  obtain ⟨hant, fuel₂, ant, hrun₂⟩ := (antinout_solved g antloc transp (fun _ => .NULL) antout).run
  obtain ⟨hlater, fuel₃, later, hrun₃⟩ :=
    (later_solved g (computeEarliest g ant.assigned ant.met av.assigned kill) antloc (fun _ => .NULL) laterin).run
  refine ⟨max fuel₁ (max fuel₂ fuel₃), fun fuel hle => ?_⟩
  obtain ⟨hle₁, hle₂, hle₃⟩ : fuel₁ ≤ fuel ∧ fuel₂ ≤ fuel ∧ fuel₃ ≤ fuel := by omega
  have h₁ := hrun₁ fuel hle₁
  have h₂ := hrun₂ fuel hle₂
  have h₃ := hrun₃ fuel hle₃
  obtain ⟨hmet₁, hassigned₁⟩ := (hav fuel av h₁).unique (availableSolver_lawful g avloc kill) (fun _ _ _ => rfl)
    (computeAvailable_solved g avloc kill)
  obtain ⟨hmet₂, hassigned₂⟩ := (hant fuel ant h₂).unique (antinoutSolver_lawful g antloc transp) (fun _ _ _ => rfl)
    (computeAntinoutEdge_solved g antloc transp)
  obtain ⟨hmet₃, hassigned₃⟩ := (hlater fuel later h₃).unique (laterSolver_lawful g _ antloc)
    (first_eq_top g g.mem_succs (fun b => by simp) _) (computeLaterin_solved g _ antloc)
  unfold preEdgeLcmRun preEdgeLcm
  rw [h₁, Option.bind_eq_bind, Option.bind_some, h₂, Option.bind_eq_bind, Option.bind_some]
  dsimp only
  rw [h₃, Option.bind_some, laterinLast, hmet₃, hassigned₃, hassigned₁, hmet₂, hassigned₂]
  rfl

end Four

end GccCore.Gcc.Lcm
