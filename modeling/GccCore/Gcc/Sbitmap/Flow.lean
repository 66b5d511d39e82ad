import GccCore.Gcc.FlowGraph
import GccCore.Gcc.Sbitmap.Popcount
import Mathlib.Data.Fin.VecNotation

/-!
# `gcc/sbitmap.c`: meets over the edges of a block

The bitmap of the first neighbour that counts is copied, the bitmaps of the others are merged into it.

* **The loops** (`mergeLoop_spec`): words are combined, edges to the block that is skipped are left out.
* **Unions** (`unionOver_spec`) are right for every block.
* **Intersections** (`intersectionOver_iff`) are right unless all edges lead to the block that is skipped. Then the bitmap keeps
  what it held, where a block without edges gets all ones.
-/

namespace GccCore.Gcc.Sbitmap

variable {W : ℕ}

/-! ## The code -/

section Code

variable {n m : ℕ}

/-- The first loop, over the edges that are left: the last edge that was looked at, `e`, and the edges from `ix` on.
Source: `sbitmap.c` `sbitmap_intersection_of_succs` (first loop) -/
def findEdge (skip : Block n) (neighbour : Fin m → Block n) : Option (Fin m) → List (Fin m) → Option (Fin m) × List (Fin m)
  | e, [] => (e, [])
  | _, x :: xs => if neighbour x = skip then findEdge skip neighbour (some x) xs else (some x, x :: xs)

/-- The words of `dst` become those of both bitmaps, combined. Source: `sbitmap.c` (`*r++ &= *p++`, `*r++ |= *p++`). -/
def mergeWords (f : BitVec W → BitVec W → BitVec W) (dst src : SimpleBitmap W) : Option (SimpleBitmap W) :=
  if dst.size ≤ src.size then
    some { dst with elms := fun i => if i < dst.size then f (dst.elms i) (src.elms i) else dst.elms i }
  else none

/-- The second loop. Source: `sbitmap.c` `sbitmap_intersection_of_succs` (second loop). -/
def mergeLoop (f : BitVec W → BitVec W → BitVec W) (skip : Block n) (neighbour : Fin m → Block n)
    (src : Block n → SimpleBitmap W) : SimpleBitmap W → List (Fin m) → Option (SimpleBitmap W)
  | dst, [] => some dst
  | dst, x :: xs =>
    if neighbour x = skip then mergeLoop f skip neighbour src dst xs
    else (mergeWords f dst (src (neighbour x))).bind fun dst => mergeLoop f skip neighbour src dst xs

/-- The copy in the first loop, if it stops at an edge. Source: `sbitmap.c` (`sbitmap_copy (dst, ...)`). -/
def copyFirst (neighbour : Fin m → Block n) (src : Block n → SimpleBitmap W) (dst : SimpleBitmap W) :
    List (Fin m) → Option (SimpleBitmap W)
  | [] => some dst
  | x :: _ => sbitmapCopy dst (src (neighbour x))

/-- The intersection over the edges; the bitmap `dst` is none of `src`.
Source: `sbitmap.c` `sbitmap_intersection_of_succs`, `sbitmap_intersection_of_preds` -/
def intersectionOver (skip : Block n) (neighbour : Fin m → Block n) (edges : List (Fin m)) (dst : SimpleBitmap W)
    (src : Block n → SimpleBitmap W) : Option (SimpleBitmap W) :=
  if dst.popcount.isSome then none
  else
    let (e, rest) := findEdge skip neighbour none edges
    (copyFirst neighbour src dst rest).bind fun dst =>
      if e = none then some (sbitmapOnes dst) else mergeLoop (· &&& ·) skip neighbour src dst rest.tail

/-- The union over the edges. Source: `sbitmap.c` `sbitmap_union_of_succs`, `sbitmap_union_of_preds`. -/
def unionOver (skip : Block n) (neighbour : Fin m → Block n) (edges : List (Fin m)) (dst : SimpleBitmap W)
    (src : Block n → SimpleBitmap W) : Option (SimpleBitmap W) :=
  if dst.popcount.isSome then none
  else
    let rest := (findEdge skip neighbour none edges).2
    (copyFirst neighbour src dst rest).bind fun dst =>
      if rest = [] then some (sbitmapZero dst) else mergeLoop (· ||| ·) skip neighbour src dst rest.tail

end Code

section Functions

variable (g : FlowGraph) (dst : SimpleBitmap W) (src : Block g.numBlocks → SimpleBitmap W) (bb : Block g.numBlocks)

/-- Source: `sbitmap.c` `sbitmap_intersection_of_succs`. -/
def sbitmapIntersectionOfSuccs : Option (SimpleBitmap W) := intersectionOver .exit g.dest (g.succs bb) dst src

/-- Source: `sbitmap.c` `sbitmap_intersection_of_preds`. -/
def sbitmapIntersectionOfPreds : Option (SimpleBitmap W) := intersectionOver .entry g.src (g.preds bb) dst src

/-- Source: `sbitmap.c` `sbitmap_union_of_succs`. -/
def sbitmapUnionOfSuccs : Option (SimpleBitmap W) := unionOver .exit g.dest (g.succs bb) dst src

/-- Source: `sbitmap.c` `sbitmap_union_of_preds`. -/
def sbitmapUnionOfPreds : Option (SimpleBitmap W) := unionOver .entry g.src (g.preds bb) dst src

end Functions

/-! ## The loops -/

section Loops

variable {n m : ℕ} {skip : Block n} {neighbour : Fin m → Block n} {edges : List (Fin m)} {dst : SimpleBitmap W}
  {src : Block n → SimpleBitmap W}

/-- The neighbours that count. Source: `sbitmap.c` (`if (e->dest == EXIT_BLOCK_PTR) continue`). -/
def counted (skip : Block n) (neighbour : Fin m → Block n) (edges : List (Fin m)) : List (Block n) :=
  (edges.map neighbour).filter (· ≠ skip)

/-- The result of a meet: the bitmap keeps its bits up to those that the blocks decide.
Source: `sbitmap.c` (comments) -/
def IsMeet (dst : SimpleBitmap W) (r : Option (SimpleBitmap W)) (bit : ℕ → Bool) : Prop :=
  ∃ s, r = some s ∧ s.nBits = dst.nBits ∧ s.size = dst.size ∧ s.popcount = dst.popcount ∧ ∀ i < dst.nBits, s.testBit i = bit i

/-- The first loop stops at the first edge that counts. Source: `sbitmap.c` (first loop). Kind: L -/
theorem findEdge_spec (e : Option (Fin m)) (edges : List (Fin m)) :
    ((findEdge skip neighbour e edges).1 = none ↔ e = none ∧ edges = []) ∧
      counted skip neighbour (findEdge skip neighbour e edges).2 = counted skip neighbour edges ∧
      ∀ x xs, (findEdge skip neighbour e edges).2 = x :: xs → neighbour x ≠ skip := by
  induction edges generalizing e with
  | nil => exact ⟨(and_iff_left rfl).symm, rfl, fun x xs h => nomatch h⟩
  | cons x xs ih =>
    rw [findEdge]
    split_ifs with hskip
    · obtain ⟨hnone, hcounted, hfirst⟩ := ih (some x)
      refine ⟨by simp [hnone], ?_, hfirst⟩
      rw [hcounted, counted, counted, List.map_cons, List.filter_cons_of_neg (by simpa using hskip)]
    · refine ⟨by simp, rfl, fun y ys h => ?_⟩
      obtain ⟨rfl, -⟩ := List.cons.inj h
      exact hskip

/-- A bit of a bitmap whose words are written. -/
theorem testBit_words (hW : 0 < W) (hcover : dst.nBits ≤ dst.size * W) (word : ℕ → BitVec W) {i : ℕ} (hi : i < dst.nBits) :
    SimpleBitmap.testBit { dst with elms := fun k => if k < dst.size then word k else dst.elms k } i =
      (word (i / W)).getLsbD (i % W) := by
  have hlt : i / W < dst.size := (Nat.div_lt_iff_lt_mul hW).mpr (hi.trans_le hcover)
  exact congrArg (BitVec.getLsbD · (i % W)) (if_pos hlt)

/-- **The second loop** folds the words of the neighbours into the bitmap. Source: `sbitmap.c` (second loop). Kind: L -/
theorem mergeLoop_spec (hW : 0 < W) {f : BitVec W → BitVec W → BitVec W} {b : Bool → Bool → Bool}
    (hf : ∀ x y i, (f x y).getLsbD i = b (x.getLsbD i) (y.getLsbD i)) (hcover : dst.nBits ≤ dst.size * W)
    (hsrc : ∀ p, dst.size ≤ (src p).size) :
    IsMeet dst (mergeLoop f skip neighbour src dst edges) fun i =>
      (counted skip neighbour edges).foldl (fun bit p => b bit ((src p).testBit i)) (dst.testBit i) := by
  induction edges generalizing dst with
  | nil => exact ⟨dst, rfl, rfl, rfl, rfl, fun i _ => rfl⟩
  | cons x xs ih =>
    rw [mergeLoop, counted, List.map_cons]
    split_ifs with hskip
    · rw [List.filter_cons_of_neg (by simpa using hskip)]
      exact ih hcover hsrc
    · rw [List.filter_cons_of_pos (by simpa using hskip), mergeWords, if_pos (hsrc _), Option.bind_some]
      obtain ⟨s, hs, hbits, hsize, hpop, htest⟩ := @ih { dst with
        elms := fun k => if k < dst.size then f (dst.elms k) ((src (neighbour x)).elms k) else dst.elms k } hcover hsrc
      refine ⟨s, hs, hbits, hsize, hpop, fun i hi => (htest i hi).trans ?_⟩
      dsimp only
      rw [testBit_words hW hcover _ hi, hf]
      rfl

end Loops

/-! ## The meets -/

section Meets

variable {n m : ℕ} {skip : Block n} {neighbour : Fin m → Block n} {edges : List (Fin m)} {dst : SimpleBitmap W}
  {src : Block n → SimpleBitmap W}

/-- Bits that are cut one after the other. -/
theorem foldl_and (ps : List (Block n)) (bit : Bool) (i : ℕ) :
    ps.foldl (fun bit p => bit && (src p).testBit i) bit = (bit && ps.all fun p => (src p).testBit i) := by
  induction ps generalizing bit with
  | nil => rw [List.foldl_nil, List.all_nil, Bool.and_true]
  | cons p ps ih => rw [List.foldl_cons, ih, List.all_cons, Bool.and_assoc]

theorem foldl_or (ps : List (Block n)) (bit : Bool) (i : ℕ) :
    ps.foldl (fun bit p => bit || (src p).testBit i) bit = (bit || ps.any fun p => (src p).testBit i) := by
  induction ps generalizing bit with
  | nil => rw [List.foldl_nil, List.any_nil, Bool.or_false]
  | cons p ps ih => rw [List.foldl_cons, ih, List.any_cons, Bool.or_assoc]

/-- **The first bitmap is copied, the others are merged.** Source: `sbitmap.c` (both loops). Kind: L -/
theorem copyMerge_spec (hW : 0 < W) {f : BitVec W → BitVec W → BitVec W} {b : Bool → Bool → Bool}
    (hf : ∀ x y i, (f x y).getLsbD i = b (x.getLsbD i) (y.getLsbD i)) (hcover : dst.nBits ≤ dst.size * W)
    (hsrc : ∀ p, dst.size ≤ (src p).size) (hpop : dst.popcount = none) (x : Fin m) (xs : List (Fin m)) :
    IsMeet dst ((copyFirst neighbour src dst (x :: xs)).bind fun dst => mergeLoop f skip neighbour src dst xs) fun i =>
      (counted skip neighbour xs).foldl (fun bit p => b bit ((src p).testBit i)) ((src (neighbour x)).testBit i) := by
  have hcopy : copyFirst neighbour src dst (x :: xs) =
      some { dst with elms := fun i => if i < dst.size then (src (neighbour x)).elms i else dst.elms i } := by
    rw [copyFirst, sbitmapCopy, sbitmapCopyN, if_pos ⟨le_rfl, hsrc _⟩, hpop]
  rw [hcopy, Option.bind_some]
  obtain ⟨s, hs, hbits, hsize, hpop', htest⟩ := @mergeLoop_spec W n m skip neighbour xs
    { dst with elms := fun k => if k < dst.size then (src (neighbour x)).elms k else dst.elms k } src hW f b hf hcover hsrc
  refine ⟨s, hs, hbits, hsize, hpop', fun i hi => (htest i hi).trans ?_⟩
  dsimp only
  rw [testBit_words hW hcover _ hi]
  rfl

/-- The words of a bitmap cover its bits. Source: `sbitmap.h` `SBITMAP_SET_SIZE`. Kind: L -/
theorem le_size_mul (hW : 0 < W) (hsize : dst.size = (dst.nBits + W - 1) / W) : dst.nBits ≤ dst.size * W := by
  have hdm := Nat.div_add_mod (dst.nBits + W - 1) W
  have hmod := Nat.mod_lt (dst.nBits + W - 1) hW
  rw [← hsize, Nat.mul_comm] at hdm
  omega

/-- **All ones.** Source: `sbitmap.c` `sbitmap_ones`. Kind: L -/
theorem isMeet_ones (hW : 0 < W) (hsize : dst.size = (dst.nBits + W - 1) / W) (hpop : dst.popcount = none) :
    IsMeet dst (some (sbitmapOnes dst)) fun _ => true := by
  have hcover := le_size_mul hW hsize
  have hfull : ∀ i < dst.nBits, ((if i / W < dst.size then BitVec.allOnes W else dst.elms (i / W)) : BitVec W).getLsbD (i % W) =
      true := by
    intro i hi
    rw [if_pos ((Nat.div_lt_iff_lt_mul hW).mpr (hi.trans_le hcover)), BitVec.getLsbD_allOnes]
    exact decide_eq_true (Nat.mod_lt i hW)
  unfold sbitmapOnes
  rw [hpop]
  dsimp only
  split_ifs with hlast
  · exact ⟨_, rfl, rfl, rfl, hpop.symm, hfull⟩
  · refine ⟨_, rfl, rfl, rfl, hpop.symm, fun i hi => ?_⟩
    rw [SimpleBitmap.testBit]
    dsimp only
    by_cases hword : i / W = dst.size - 1
    · -- a bit of the last word is below the surplus bits
      have hdm := Nat.div_add_mod i W
      have hmod := Nat.mod_lt dst.nBits hW
      have hcover' : W * (dst.nBits / W) ≤ W * (dst.size - 1) := by
        refine Nat.mul_le_mul_left W (Nat.le_sub_one_of_lt ?_)
        rw [hsize, Nat.div_lt_iff_lt_mul hW, ← hsize]
        exact lt_of_le_of_ne hcover fun h => hlast (by rw [h, Nat.mul_mod_left])
      rw [hword, Function.update_self, getLsbD_lowMask hmod.le]
      rw [hword] at hdm
      have hdm' := Nat.div_add_mod dst.nBits W
      exact decide_eq_true (by omega)
    · rw [Function.update_of_ne hword]
      exact hfull i hi

/-- The intersection is written, or held before: there is no edge, there is one that counts, or the bitmap is all ones.
Source: `sbitmap.c` (`if (e == 0)`) -/
def Written (skip : Block n) (neighbour : Fin m → Block n) (edges : List (Fin m)) (dst : SimpleBitmap W) : Prop :=
  edges = [] ∨ (∃ e ∈ edges, neighbour e ≠ skip) ∨ ∀ i < dst.nBits, dst.testBit i = true

/-- **Intersections** are right exactly if they are written. Source: `sbitmap.c` `sbitmap_intersection_of_succs`. Kind: L -/
theorem intersectionOver_iff (hW : 0 < W) (hsize : dst.size = (dst.nBits + W - 1) / W) (hpop : dst.popcount = none)
    (hsrc : ∀ p, dst.size ≤ (src p).size) :
    IsMeet dst (intersectionOver skip neighbour edges dst src)
        (fun i => (counted skip neighbour edges).all fun p => (src p).testBit i) ↔
      Written skip neighbour edges dst := by
  have hcover := le_size_mul hW hsize
  obtain ⟨hnone, hcounted, hfirst⟩ := @findEdge_spec n m skip neighbour none edges
  have hne : (∃ e ∈ edges, neighbour e ≠ skip) ↔ counted skip neighbour edges ≠ [] := by
    simp [counted, List.filter_eq_nil_iff]
  rw [Written, hne, intersectionOver, if_neg (by simp [hpop])]
  generalize hfind : findEdge skip neighbour none edges = found at hnone hcounted hfirst
  obtain ⟨e, rest⟩ := found
  dsimp only at hnone hcounted hfirst ⊢
  simp only [true_and] at hnone
  by_cases hedges : edges = []
  · subst hedges
    obtain ⟨rfl, rfl⟩ := Prod.mk.inj hfind
    rw [copyFirst, Option.bind_some, if_pos rfl]
    exact iff_of_true (isMeet_ones hW hsize hpop) (Or.inl rfl)
  · simp only [if_neg (mt hnone.mp hedges), or_iff_right hedges]
    rw [← hcounted]
    cases rest with
    | nil =>
      rw [or_iff_right (fun h => h rfl)]
      refine ⟨fun ⟨s, hs, _, _, _, hbits⟩ => ?_, fun h => ⟨dst, rfl, rfl, rfl, rfl, h⟩⟩
      obtain rfl := Option.some.inj hs
      exact hbits
    | cons x xs =>
      have hx : counted skip neighbour (x :: xs) = neighbour x :: counted skip neighbour xs :=
        List.filter_cons_of_pos (by simpa using hfirst x xs rfl)
      have hmerge := @copyMerge_spec W n m skip neighbour dst src hW (· &&& ·) (· && ·)
        (fun _ _ _ => BitVec.getLsbD_and) hcover hsrc hpop x xs
      simp only [foldl_and] at hmerge
      rw [hx]
      exact iff_of_true hmerge (Or.inl (List.cons_ne_nil _ _))

/-- **Unions** are right. Source: `sbitmap.c` `sbitmap_union_of_succs`. Kind: L -/
theorem unionOver_spec (hW : 0 < W) (hsize : dst.size = (dst.nBits + W - 1) / W) (hpop : dst.popcount = none)
    (hsrc : ∀ p, dst.size ≤ (src p).size) :
    IsMeet dst (unionOver skip neighbour edges dst src)
      fun i => (counted skip neighbour edges).any fun p => (src p).testBit i := by
  have hcover := le_size_mul hW hsize
  obtain ⟨-, hcounted, hfirst⟩ := @findEdge_spec n m skip neighbour none edges
  rw [unionOver, if_neg (by simp [hpop]), ← hcounted]
  dsimp only
  cases hrest : (findEdge skip neighbour none edges).2 with
  | nil =>
    obtain ⟨-, hpop', hzero⟩ := sbitmapZero_spec hW hsize
    rw [copyFirst, Option.bind_some, if_pos rfl]
    refine ⟨_, rfl, rfl, rfl, ?_, fun i hi => hzero i (hi.trans_le hcover)⟩
    rw [hpop] at hpop' ⊢
    exact Option.isNone_iff_eq_none.mp (by simpa using hpop')
  | cons x xs =>
    have hx : counted skip neighbour (x :: xs) = neighbour x :: counted skip neighbour xs :=
      List.filter_cons_of_pos (by simpa using hfirst x xs hrest)
    have hmerge := @copyMerge_spec W n m skip neighbour dst src hW (· ||| ·) (· || ·)
      (fun _ _ _ => BitVec.getLsbD_or) hcover hsrc hpop x xs
    simp only [foldl_or] at hmerge
    rw [hx]
    simp only [if_neg (List.cons_ne_nil x xs)]
    exact hmerge

end Meets

/-! ## The functions -/

section FlowMeets

/-- **The meets of a block are right**: intersections over the successors but `EXIT` and the predecessors but `ENTRY`, and unions.
Source: `sbitmap.c` (comments) -/
structure MeetsRight (g : FlowGraph) (dst : SimpleBitmap W) (src : Block g.numBlocks → SimpleBitmap W)
    (bb : Block g.numBlocks) : Prop where
  intersectionOfSuccs : IsMeet dst (sbitmapIntersectionOfSuccs g dst src bb) fun i =>
    (counted .exit g.dest (g.succs bb)).all fun p => (src p).testBit i
  intersectionOfPreds : IsMeet dst (sbitmapIntersectionOfPreds g dst src bb) fun i =>
    (counted .entry g.src (g.preds bb)).all fun p => (src p).testBit i
  unionOfSuccs : IsMeet dst (sbitmapUnionOfSuccs g dst src bb) fun i =>
    (counted .exit g.dest (g.succs bb)).any fun p => (src p).testBit i
  unionOfPreds : IsMeet dst (sbitmapUnionOfPreds g dst src bb) fun i =>
    (counted .entry g.src (g.preds bb)).any fun p => (src p).testBit i

/-- **The meets are right exactly if both intersections are written.** Source: `sbitmap.c`. Kind: P -/
theorem meetsRight_iff (hW : 0 < W) (g : FlowGraph) {dst : SimpleBitmap W} {src : Block g.numBlocks → SimpleBitmap W}
    (bb : Block g.numBlocks) (hsize : dst.size = (dst.nBits + W - 1) / W) (hpop : dst.popcount = none)
    (hsrc : ∀ p, dst.size ≤ (src p).size) :
    MeetsRight g dst src bb ↔
      Written .exit g.dest (g.succs bb) dst ∧ Written .entry g.src (g.preds bb) dst :=
  ⟨fun h => ⟨(intersectionOver_iff hW hsize hpop hsrc).mp h.intersectionOfSuccs,
      (intersectionOver_iff hW hsize hpop hsrc).mp h.intersectionOfPreds⟩,
    fun h => ⟨(intersectionOver_iff hW hsize hpop hsrc).mpr h.1, (intersectionOver_iff hW hsize hpop hsrc).mpr h.2,
      unionOver_spec hW hsize hpop hsrc, unionOver_spec hW hsize hpop hsrc⟩⟩

/-- Two blocks have a first one. -/
local instance neZeroTwo : NeZero 2 := ⟨Nat.succ_ne_zero 1⟩

/-- A loop of two blocks: the second has an edge back to the first and one to `EXIT`. Source: none: an instance. -/
def loopGraph : FlowGraph :=
  .ofEdges 2 ![.entry, .block 0, .block 1, .block 1] ![.block 0, .block 1, .block 0, .exit] (by decide) (by decide)

/-- At the second block, the successor that counts is the first. Source: `sbitmap.c`. Kind: C -/
theorem meetsRight_iff_loop :
    ∃ bb next : Block loopGraph.numBlocks, counted .exit loopGraph.dest (loopGraph.succs bb) = [next] ∧
      MeetsRight loopGraph (⟨none, 8, 1, fun _ => 0#8⟩ : SimpleBitmap 8) (fun _ => ⟨none, 8, 1, fun _ => 3#8⟩) bb := by
  refine ⟨.block ⟨1, by decide⟩, .block ⟨0, by decide⟩, by decide, ?_⟩
  exact Iff.mpr (meetsRight_iff (by decide) loopGraph _ (by decide) rfl fun _ => le_rfl)
    ⟨Or.inr (Or.inl (by decide)), Or.inr (Or.inl (by decide))⟩

/-- One edge, from a block to `EXIT`. Source: none: an instance. -/
def exitGraph : FlowGraph :=
  FlowGraph.ofEdges 1 (fun _ : Fin 1 => .block 0) (fun _ => .exit) (fun _ => nofun) fun _ => nofun

/-- **A block whose only successor is `EXIT`** leaves the bitmap as it was. Source: `sbitmap.c`. Kind: C -/
theorem exitGraph_kept : ¬ ∀ (g : FlowGraph) (dst : SimpleBitmap 64) (src : Block g.numBlocks → SimpleBitmap 64)
    (bb : Block g.numBlocks), dst.size = (dst.nBits + 64 - 1) / 64 → dst.popcount = none → (∀ p, dst.size ≤ (src p).size) →
      MeetsRight g dst src bb := by
  intro h
  have hmeets := h exitGraph ⟨none, 64, 1, fun _ => 0#64⟩ (fun _ => ⟨none, 64, 1, fun _ => 0#64⟩) (.block ⟨0, by decide⟩)
    (by decide) rfl (fun _ => le_rfl)
  obtain ⟨s, hs, -, -, -, hbits⟩ := hmeets.intersectionOfSuccs
  obtain rfl : (⟨none, 64, 1, fun _ => 0#64⟩ : SimpleBitmap 64) = s := Option.some.inj hs
  have hbit := hbits 0 (by decide)
  exact absurd hbit (by decide)

end FlowMeets

end GccCore.Gcc.Sbitmap
