import Mathlib.Data.Fintype.Basic
import Mathlib.Data.Fintype.Sum
import Mathlib.Data.List.FinRange
import Mathlib.Data.List.Nodup
import Mathlib.Tactic.DeriveFintype

/-!
# `gcc/basic-block.h`: flow graphs

Blocks with lists of the edges that leave and enter them. The blocks `ENTRY` and `EXIT` hold no code; nothing enters
the one and nothing leaves the other.

* **Graphs** (`FlowGraph`): edges are named by their place in the edge list.
* **Paths** (`FromEntry`), by the edges taken.
-/

namespace GccCore.Gcc

/-- A block: one of the two fixed ones, or one that holds code.
Source: `basic-block.h` `ENTRY_BLOCK_PTR`, `EXIT_BLOCK_PTR`, `basic_block` -/
inductive Block (n : ℕ)
  | entry
  | exit
  | block (i : Fin n)
  deriving DecidableEq, Fintype

/-- The block if it holds code. -/
def Block.code? {n : ℕ} : Block n → Option (Fin n)
  | .block i => some i
  | _ => none

/-- A flow graph: the edges by their index in the edge list, the edges of each block, and the chain of blocks that
hold code.
Source: `basic-block.h` `struct control_flow_graph`, `edge_def`; `cfganal.c` `create_edge_list` -/
structure FlowGraph where
  numBlocks : ℕ
  numEdges : ℕ
  src : Fin numEdges → Block numBlocks
  dest : Fin numEdges → Block numBlocks
  succs : Block numBlocks → List (Fin numEdges)
  preds : Block numBlocks → List (Fin numEdges)
  blocks : List (Fin numBlocks)
  mem_succs : ∀ b e, e ∈ succs b ↔ src e = b
  mem_preds : ∀ b e, e ∈ preds b ↔ dest e = b
  blocks_nodup : blocks.Nodup
  mem_blocks : ∀ b, b ∈ blocks
  src_ne_exit : ∀ e, src e ≠ .exit
  dest_ne_entry : ∀ e, dest e ≠ .entry

namespace FlowGraph

/-- The paths that begin in `ENTRY`, by their edges, and the block they reach. -/
inductive FromEntry (g : FlowGraph) : List (Fin g.numEdges) → Block g.numBlocks → Prop
  | nil : FromEntry g [] .entry
  | snoc {es : List (Fin g.numEdges)} (e : Fin g.numEdges) :
      FromEntry g es (g.src e) → FromEntry g (es ++ [e]) (g.dest e)

variable {g : FlowGraph}

/-- The source of an edge into or out of code. -/
theorem src_cases (g : FlowGraph) (e : Fin g.numEdges) : g.src e = .entry ∨ ∃ b, g.src e = .block b := by
  rcases h : g.src e with _ | _ | b
  · exact Or.inl rfl
  · exact absurd h (g.src_ne_exit e)
  · exact Or.inr ⟨b, rfl⟩

/-- The destination of an edge. -/
theorem dest_cases (g : FlowGraph) (e : Fin g.numEdges) : g.dest e = .exit ∨ ∃ b, g.dest e = .block b := by
  rcases h : g.dest e with _ | _ | b
  · exact absurd h (g.dest_ne_entry e)
  · exact Or.inl rfl
  · exact Or.inr ⟨b, rfl⟩

/-- A path that reaches a block of code, or `EXIT`, has a last edge. -/
theorem FromEntry.exists_last {es : List (Fin g.numEdges)} {b : Block g.numBlocks} (h : g.FromEntry es b)
    (hb : b ≠ .entry) : ∃ es' e, es = es' ++ [e] ∧ g.FromEntry es' (g.src e) ∧ g.dest e = b := by
  cases h with
  | nil => exact absurd rfl hb
  | snoc e h => exact ⟨_, e, rfl, h, rfl⟩

/-- The graph of a list of edges, with edges and blocks in the order of their numbers. -/
def ofEdges (n : ℕ) {m : ℕ} (src dest : Fin m → Block n) (hsrc : ∀ e, src e ≠ .exit)
    (hdest : ∀ e, dest e ≠ .entry) : FlowGraph where
  numBlocks := n
  numEdges := m
  src := src
  dest := dest
  succs b := (List.finRange m).filter (fun e => src e = b)
  preds b := (List.finRange m).filter (fun e => dest e = b)
  blocks := List.finRange n
  mem_succs := by simp
  mem_preds := by simp
  blocks_nodup := List.nodup_finRange n
  mem_blocks := List.mem_finRange
  src_ne_exit := hsrc
  dest_ne_entry := hdest

end FlowGraph

end GccCore.Gcc
