import GccCore.Gcc.FlowGraph
import GccCore.Lib.Worklist
import Mathlib.Data.Bool.Basic
import Mathlib.Order.BooleanAlgebra.Basic

/-!
# `gcc/lcm.c`: edge based lazy code motion

Four data-flow problems over sets of expressions, one after the other, say where to insert and where to delete
computations. Three of them are solved by worklists.

* **Sets** (`Bits`) and meets over neighbours (`intersectionOfPreds`, `intersectionOfSuccs`).
* **The solvers** (`computeAvailable`, `computeAntinoutEdge`, `computeLaterin`), as worklist systems.
* **The placement** (`computeEarliest`, `computeInsertDelete`, `preEdgeLcm`).
-/

namespace GccCore.Gcc.Lcm

open GccCore.Lib.Worklist

/-! ## Sets of expressions -/

/-- A set of expressions, by its bits. Source: `sbitmap.h` `sbitmap`. -/
abbrev Bits (n : ℕ) := Fin n → Bool

/-- The empty set is least, computably. Source: `sbitmap.c` `sbitmap_zero`. -/
instance (n : ℕ) : OrderBot (Bits n) where
  bot := ⊥
  bot_le X i := Bool.false_le (X i)

section Meets

variable {k : ℕ} (g : FlowGraph)

/-- The sets of several blocks are intersected into `dst`, which keeps its bits if none of the edges leads to code.
Source: `sbitmap.c` `sbitmap_intersection_of_preds`, `sbitmap_intersection_of_succs` -/
def intersectionOver (dst : Bits k) (src : Block g.numBlocks → Bits k) (edges : List (Fin g.numEdges))
    (neighbour : Fin g.numEdges → Block g.numBlocks) : Bits k :=
  match edges.filterMap (fun e => (neighbour e).code?) with
  | [] => if edges = [] then ⊤ else dst
  | p :: ps => ps.foldl (fun acc p => acc ⊓ src (.block p)) (src (.block p))

/-- Source: `sbitmap.c` `sbitmap_intersection_of_preds`. -/
def intersectionOfPreds (dst : Bits k) (src : Block g.numBlocks → Bits k) (b : Fin g.numBlocks) : Bits k :=
  intersectionOver g dst src (g.preds (.block b)) g.src

/-- Source: `sbitmap.c` `sbitmap_intersection_of_succs`. -/
def intersectionOfSuccs (dst : Bits k) (src : Block g.numBlocks → Bits k) (b : Fin g.numBlocks) : Bits k :=
  intersectionOver g dst src (g.succs (.block b)) g.dest

/-- The sets of several edges are intersected. Source: `lcm.c` `compute_laterin` (`sbitmap_a_and_b`). -/
def intersectionOfEdges (src : Fin g.numEdges → Bits k) (edges : List (Fin g.numEdges)) : Bits k :=
  edges.foldl (fun acc e => acc ⊓ src e) ⊤

end Meets

/-! ## The solvers -/

section Solvers

variable {k : ℕ} (g : FlowGraph)

/-- Availability as a system: blocks behind `ENTRY` are the boundary.
Source: `lcm.c` `compute_available` -/
def availableSystem (avloc kill : Block g.numBlocks → Bits k) :
    System (Fin g.numBlocks) (Block g.numBlocks) (Bits k) where
  boundary b := (g.succs .entry).any (fun e => g.dest e = .block b)
  meet b avout := intersectionOfPreds g ⊥ avout b
  flow b avin := avloc b ⊔ (avin ⊓ (kill b)ᶜ)
  cells b := [.block b]
  readers b := (g.succs b).filterMap (fun e => (g.dest e).code?)

/-- The results of a solver over blocks: the sets it met, and those it assigned. Source: `lcm.c`. -/
structure BlockSets (g : FlowGraph) (k : ℕ) where
  met : Fin g.numBlocks → Bits k
  assigned : Block g.numBlocks → Bits k

/-- The sets `AVIN` (met) and `AVOUT` (assigned). Source: `lcm.c` `compute_available`. -/
def computeAvailable (avloc kill : Block g.numBlocks → Bits k) : BlockSets g k :=
  let σ := (availableSystem g avloc kill).solve k g.blocks (fun _ => ⊥) (fun _ => ⊤)
  ⟨σ.input, σ.val⟩

/-- Anticipatability as a system: blocks before `EXIT` are the boundary.
Source: `lcm.c` `compute_antinout_edge` -/
def antinoutSystem (antloc transp : Block g.numBlocks → Bits k) :
    System (Fin g.numBlocks) (Block g.numBlocks) (Bits k) where
  boundary b := (g.preds .exit).any (fun e => g.src e = .block b)
  meet b antin := intersectionOfSuccs g ⊥ antin b
  flow b antout := antloc b ⊔ (transp b ⊓ antout)
  cells b := [.block b]
  readers b := (g.preds b).filterMap (fun e => (g.src e).code?)

/-- The sets `ANTOUT` (met) and `ANTIN` (assigned; `EXIT` keeps all its bits).
Source: `lcm.c` `compute_antinout_edge` -/
def computeAntinoutEdge (antloc transp : Block g.numBlocks → Bits k) : BlockSets g k :=
  let σ := (antinoutSystem g antloc transp).solve k g.blocks.reverse (fun _ => ⊥) (fun _ => ⊤)
  ⟨σ.input, σ.val⟩

/-- The system for `LATER`, over edges; the edges out of `ENTRY` belong to no block.
Source: `lcm.c` `compute_laterin` -/
def laterSystem (earliest : Fin g.numEdges → Bits k) (antloc : Block g.numBlocks → Bits k) :
    System (Fin g.numBlocks) (Fin g.numEdges) (Bits k) where
  boundary _ := false
  meet b later := intersectionOfEdges g later (g.preds (.block b))
  flow e laterin := earliest e ⊔ (laterin ⊓ (antloc (g.src e))ᶜ)
  cells b := g.succs (.block b)
  readers e := (g.dest e).code?.toList

/-- The sets of `compute_laterin`; `LATERIN` has an extra entry for `EXIT`. Source: `lcm.c`. -/
structure LaterSets (g : FlowGraph) (k : ℕ) where
  later : Fin g.numEdges → Bits k
  laterin : Fin g.numBlocks → Bits k
  laterinExit : Bits k

/-- Source: `lcm.c` `compute_laterin`. -/
def computeLaterin (earliest : Fin g.numEdges → Bits k) (antloc : Block g.numBlocks → Bits k) :
    LaterSets g k :=
  let σ := (laterSystem g earliest antloc).solve k g.blocks (fun _ => ⊥)
    (fun e => if e ∈ g.succs .entry then earliest e else ⊤)
  ⟨σ.val, σ.input, intersectionOfEdges g σ.val (g.preds .exit)⟩

/-- What the edges of a fixed block are given before the iteration; the others hold everything.
Source: `lcm.c` (`sbitmap_copy` to the edges of `ENTRY` or `EXIT`, after `sbitmap_vector_ones`) -/
abbrev givenOn {k : ℕ} {g : FlowGraph} (edges : List (Fin g.numEdges)) (first : Fin g.numEdges → Bits k) :
    Fin g.numEdges → Bits k :=
  fun e => if e ∈ edges then first e else ⊤

/-! ## The placement -/

/-- Source: `lcm.c` `compute_earliest`. -/
def computeEarliest (antin : Block g.numBlocks → Bits k) (antout : Fin g.numBlocks → Bits k)
    (avout kill : Block g.numBlocks → Bits k) (e : Fin g.numEdges) : Bits k :=
  match g.src e with
  | .block pred =>
    if g.dest e = .exit then ⊥
    else (antin (g.dest e) ⊓ (avout (.block pred))ᶜ) ⊓ (kill (.block pred) ⊔ (antout pred)ᶜ)
  | _ => antin (g.dest e)

/-- The computations to insert on edges and to delete from blocks. Source: `lcm.c` `pre_edge_lcm`. -/
structure Placement (g : FlowGraph) (k : ℕ) where
  insert : Fin g.numEdges → Bits k
  del : Fin g.numBlocks → Bits k

/-- Source: `lcm.c` `compute_insert_delete`. -/
def computeInsertDelete (antloc : Block g.numBlocks → Bits k) (sets : LaterSets g k) : Placement g k where
  del b := antloc (.block b) ⊓ (sets.laterin b)ᶜ
  insert e :=
    match g.dest e with
    | .block b => sets.later e ⊓ (sets.laterin b)ᶜ
    | _ => sets.later e ⊓ sets.laterinExitᶜ

/-- Source: `lcm.c` `pre_edge_lcm`. -/
def preEdgeLcm (transp avloc antloc kill : Block g.numBlocks → Bits k) : Placement g k :=
  let avail := computeAvailable g avloc kill
  let ant := computeAntinoutEdge g antloc transp
  let earliest := computeEarliest g ant.assigned ant.met avail.assigned kill
  computeInsertDelete g antloc (computeLaterin g earliest antloc)

end Solvers

/-! ## Laws of the meets -/

section Laws

variable {k : ℕ} {g : FlowGraph}

/-- What lies below the meet of a list. -/
theorem le_foldl_inf_iff {α : Type} {f : α → Bits k} {x init : Bits k} {ps : List α} :
    x ≤ ps.foldl (fun acc p => acc ⊓ f p) init ↔ x ≤ init ∧ ∀ p ∈ ps, x ≤ f p := by
  induction ps generalizing init with
  | nil => simp
  | cons p ps ih =>
    rw [List.foldl_cons, ih, le_inf_iff, List.forall_mem_cons, and_assoc]

/-- The bits of a set. -/
theorem Bits.le_iff {x y : Bits k} : x ≤ y ↔ ∀ i, x i = true → y i = true := by
  refine forall_congr' fun i => ?_
  cases x i <;> cases y i <;> simp

/-- A set has a bit if the set of that bit alone is below it. -/
theorem Bits.single_le_iff {y : Bits k} {i : Fin k} : (fun j => decide (j = i)) ≤ y ↔ y i = true := by
  rw [Bits.le_iff]
  constructor
  · intro h
    exact h i (decide_eq_true rfl)
  · intro h j hj
    rw [of_decide_eq_true hj]
    exact h

/-- The meet over neighbours depends on their sets only, and is monotone. -/
theorem intersectionOver_mono {dst : Bits k} {X Y : Block g.numBlocks → Bits k} {edges : List (Fin g.numEdges)}
    {neighbour : Fin g.numEdges → Block g.numBlocks}
    (h : ∀ e ∈ edges, ∀ p, neighbour e = .block p → X (.block p) ≤ Y (.block p)) :
    intersectionOver g dst X edges neighbour ≤ intersectionOver g dst Y edges neighbour := by
  have hle : ∀ p ∈ edges.filterMap (fun e => (neighbour e).code?), X (.block p) ≤ Y (.block p) := by
    intro p hp
    obtain ⟨e, he, hcode⟩ := List.mem_filterMap.mp hp
    refine h e he p ?_
    rcases hn : neighbour e with _ | _ | q <;> rw [hn] at hcode
    · cases hcode
    · cases hcode
    · cases hcode
      rfl
  unfold intersectionOver
  split
  · exact le_rfl
  · rename_i q qs hcons
    rw [hcons] at hle
    have hall := le_foldl_inf_iff.mp (le_refl (qs.foldl (fun acc p => acc ⊓ X (.block p)) (X (.block q))))
    refine le_foldl_inf_iff.mpr ⟨le_trans hall.1 (hle q List.mem_cons_self), ?_⟩
    intro p hp
    exact le_trans (hall.2 p hp) (hle p (List.mem_cons_of_mem _ hp))

theorem intersectionOver_congr {dst : Bits k} {X Y : Block g.numBlocks → Bits k} {edges : List (Fin g.numEdges)}
    {neighbour : Fin g.numEdges → Block g.numBlocks}
    (h : ∀ e ∈ edges, ∀ p, neighbour e = .block p → X (.block p) = Y (.block p)) :
    intersectionOver g dst X edges neighbour = intersectionOver g dst Y edges neighbour :=
  le_antisymm (intersectionOver_mono fun e he p hp => le_of_eq (h e he p hp))
    (intersectionOver_mono fun e he p hp => le_of_eq (h e he p hp).symm)

/-- The size of a set. -/
def Bits.rank (x : Bits k) : ℕ := (Finset.univ.filter (fun i => x i = true)).card

theorem Bits.rank_strictMono : StrictMono (Bits.rank : Bits k → ℕ) := by
  intro x y hlt
  obtain ⟨hle, i, hi⟩ := Pi.lt_def.mp hlt
  obtain ⟨hx, hy⟩ := Bool.lt_iff.mp hi
  apply Finset.card_lt_card
  refine Finset.ssubset_iff_subset_ne.mpr ⟨?_, ?_⟩
  · intro j hj
    rw [Finset.mem_filter] at hj ⊢
    exact ⟨Finset.mem_univ j, Bits.le_iff.mp hle j hj.2⟩
  · intro heq
    have hmem : i ∈ Finset.univ.filter (fun i => x i = true) := by
      rw [heq, Finset.mem_filter]
      exact ⟨Finset.mem_univ i, hy⟩
    rw [Finset.mem_filter, hx] at hmem
    exact Bool.false_ne_true hmem.2

theorem Bits.rank_le (x : Bits k) : x.rank ≤ k := by
  have h := Finset.card_filter_le (Finset.univ : Finset (Fin k)) (fun i => x i = true)
  rwa [Finset.card_univ, Fintype.card_fin] at h

end Laws

/-! ## Laws of the systems -/

section Systems

variable {k : ℕ} (g : FlowGraph)

theorem availableSystem_lawful (avloc kill : Block g.numBlocks → Bits k) :
    (availableSystem g avloc kill).Lawful := by
  refine ⟨?_, ?_, ?_, ?_⟩
  · intro b X Y hle
    exact intersectionOver_mono fun _ _ p _ => hle (.block p)
  · intro c x y hle
    exact sup_le_sup le_rfl (inf_le_inf hle le_rfl)
  · intro b b' c hc hc'
    have h := (List.mem_singleton.mp hc).symm.trans (List.mem_singleton.mp hc')
    exact Block.block.inj h
  · intro b X Y _ hread
    apply intersectionOver_congr
    intro e he p hp
    by_contra hne
    refine hread (.block p) hne (List.mem_filterMap.mpr ⟨e, (g.mem_succs _ _).mpr hp, ?_⟩)
    rw [(g.mem_preds _ _).mp he]
    rfl

theorem antinoutSystem_lawful (antloc transp : Block g.numBlocks → Bits k) :
    (antinoutSystem g antloc transp).Lawful := by
  refine ⟨?_, ?_, ?_, ?_⟩
  · intro b X Y hle
    exact intersectionOver_mono fun _ _ p _ => hle (.block p)
  · intro c x y hle
    exact sup_le_sup le_rfl (inf_le_inf le_rfl hle)
  · intro b b' c hc hc'
    have h := (List.mem_singleton.mp hc).symm.trans (List.mem_singleton.mp hc')
    exact Block.block.inj h
  · intro b X Y _ hread
    apply intersectionOver_congr
    intro e he p hp
    by_contra hne
    refine hread (.block p) hne (List.mem_filterMap.mpr ⟨e, (g.mem_preds _ _).mpr hp, ?_⟩)
    rw [(g.mem_succs _ _).mp he]
    rfl

theorem intersectionOfEdges_mono {X Y : Fin g.numEdges → Bits k} {edges : List (Fin g.numEdges)}
    (h : ∀ e ∈ edges, X e ≤ Y e) : intersectionOfEdges g X edges ≤ intersectionOfEdges g Y edges := by
  have hall := le_foldl_inf_iff.mp (le_refl (intersectionOfEdges g X edges))
  exact le_foldl_inf_iff.mpr ⟨le_top, fun e he => le_trans (hall.2 e he) (h e he)⟩

/-- Systems over edges, in the direction of the edges or against it: a block meets the edges `ins` that lead to it and
assigns to the edges `outs` that lead away.
Source: `lcm.c` `compute_laterin`, `compute_nearerout` -/
def edgeSystem (near far : Fin g.numEdges → Block g.numBlocks) (ins outs : Block g.numBlocks → List (Fin g.numEdges))
    (first : Fin g.numEdges → Bits k) (loc : Block g.numBlocks → Bits k) :
    System (Fin g.numBlocks) (Fin g.numEdges) (Bits k) where
  boundary _ := false
  meet b val := intersectionOfEdges g val (ins (.block b))
  flow e met := first e ⊔ (met ⊓ (loc (near e))ᶜ)
  cells b := outs (.block b)
  readers e := (far e).code?.toList

theorem edgeSystem_lawful {near far : Fin g.numEdges → Block g.numBlocks}
    {ins outs : Block g.numBlocks → List (Fin g.numEdges)} (first : Fin g.numEdges → Bits k)
    (loc : Block g.numBlocks → Bits k) (houts : ∀ b e, e ∈ outs b ↔ near e = b) (hins : ∀ b e, e ∈ ins b ↔ far e = b) :
    (edgeSystem g near far ins outs first loc).Lawful := by
  refine ⟨?_, ?_, ?_, ?_⟩
  · intro b X Y hle
    exact intersectionOfEdges_mono g fun e _ => hle e
  · intro c x y hle
    exact sup_le_sup le_rfl (inf_le_inf hle le_rfl)
  · intro b b' c hc hc'
    have h := ((houts _ _).mp hc).symm.trans ((houts _ _).mp hc')
    exact Block.block.inj h
  · intro b X Y _ hread
    have heq : ∀ e ∈ ins (.block b), X e = Y e := by
      intro e he
      by_contra hne
      refine hread e hne ?_
      change b ∈ (far e).code?.toList
      rw [(hins _ _).mp he]
      exact List.mem_singleton_self b
    exact le_antisymm (intersectionOfEdges_mono g fun e he => le_of_eq (heq e he))
      (intersectionOfEdges_mono g fun e he => le_of_eq (heq e he).symm)

end Systems

end GccCore.Gcc.Lcm
