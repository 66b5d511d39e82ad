import Mathlib.Algebra.Group.Action.Defs
import Mathlib.Algebra.BigOperators.Group.Finset.Piecewise
import Mathlib.Algebra.Order.BigOperators.Group.Finset

/-!
# Spanning forests

Arcs of a multigraph are chosen one by one, each joining two groups of vertices. Two vertices, the terminals, are in one group
from the start.

* **Sublists** (`Forest.filter`): some arcs of a forest are a forest.
* **Counting** (`Forest.card_add_length_le`): each arc takes one group away.
* **Leaves** (`Forest.exists_leaf`): unless it is empty, a forest has a vertex other than the terminals that is the end of a
  single arc.
-/

namespace GccCore.Lib.SpanningForest

/-- The two ends of an arc; an arc is among the successors of the one and the predecessors of the other. -/
inductive Side
  | succ
  | pred
  deriving DecidableEq

def Side.flip : Side → Side
  | .succ => .pred
  | .pred => .succ

/-- Two groups become one. -/
def join {V : Type*} [DecidableEq V] (label : V → V) (a b : V) : V → V :=
  fun v => if label v = label a then label b else label v

/-- The arcs of the list, the last one first, each joined two groups; `label` tells the groups apart now. -/
inductive Forest {V ι : Type*} [DecidableEq V] (near : Side → ι → V) (start : V → V) : List ι → (V → V) → Prop
  | nil : Forest near start [] start
  | cons {t : List ι} {label : V → V} (i : ι) (h : Forest near start t label) (hne : label (near .succ i) ≠ label (near .pred i)) :
    Forest near start (i :: t) (join label (near .succ i) (near .pred i))

section Groups

variable {V ι : Type*} [DecidableEq V] {near : Side → ι → V} {start label label' : V → V} {t : List ι} {a b : V}

/-- Joining keeps one grouping finer than another. -/
theorem join_refines (h : ∀ u v, label' u = label' v → label u = label v) (a b u v : V) (huv : join label' a b u = join label' a b v) :
    join label a b u = join label a b v := by
  unfold join at huv ⊢
  split at huv <;> split at huv
  · rename_i hu hv
    rw [if_pos (h _ _ hu), if_pos (h _ _ hv)]
  · rename_i hu hv
    rw [if_pos (h _ _ hu), h _ _ huv.symm]
    split_ifs <;> rfl
  · rename_i hu hv
    rw [if_pos (h _ _ hv), h _ _ huv]
    split_ifs <;> rfl
  · rw [h _ _ huv]

/-- In what is coarser, the ends of an arc that is joined are together. -/
theorem join_coarser (h : ∀ u v, label' u = label' v → label u = label v) (a b u v : V) (huv : label' u = label' v) :
    join label a b u = join label a b v := by
  unfold join
  rw [h _ _ huv]

/-- The ends of an arc are in one group. -/
theorem Forest.joined (h : Forest near start t label) : ∀ i ∈ t, label (near .succ i) = label (near .pred i) := by
  induction h with
  | nil => simp
  | cons i h hne ih =>
    rw [List.forall_mem_cons]
    constructor
    · simp [join]
    · intro j hj
      simp only [join, ih j hj]

/-- **Some arcs of a forest are a forest.** -/
theorem Forest.filter (p : ι → Bool) (h : Forest near start t label) :
    ∃ label', Forest near start (t.filter p) label' ∧ ∀ u v, label' u = label' v → label u = label v := by
  induction h with
  | nil => exact ⟨start, .nil, fun _ _ h => h⟩
  | cons i h hne ih =>
    obtain ⟨label', hforest, hfiner⟩ := ih
    cases hp : p i with
    | true =>
      rw [List.filter_cons_of_pos hp]
      exact ⟨_, hforest.cons i fun heq => hne (hfiner _ _ heq), join_refines hfiner _ _⟩
    | false =>
      rw [List.filter_cons_of_neg (by simp [hp])]
      exact ⟨_, hforest, join_coarser hfiner _ _⟩

/-- **Each arc takes one group away.** -/
theorem Forest.card_add_length_le (h : Forest near start t label) {W : Finset V} (hW : ∀ side, ∀ i ∈ t, near side i ∈ W) :
    (W.image label).card + t.length ≤ (W.image start).card := by
  induction h with
  | nil => rfl
  | @cons t label i h hne ih =>
    have hends : near .succ i ∈ W ∧ near .pred i ∈ W := ⟨hW .succ i (by simp), hW .pred i (by simp)⟩
    have hrest := ih fun side j hj => hW side j (by simp [hj])
    have hsub : W.image (join label (near .succ i) (near .pred i)) ⊆ (W.image label).erase (label (near .succ i)) := by
      intro g hg
      obtain ⟨v, hv, rfl⟩ := Finset.mem_image.mp hg
      rw [Finset.mem_erase, join]
      split_ifs with hlabel
      · exact ⟨hne.symm, Finset.mem_image_of_mem _ hends.2⟩
      · exact ⟨hlabel, Finset.mem_image_of_mem _ hv⟩
    have hcard := Finset.card_le_card hsub
    rw [Finset.card_erase_of_mem (Finset.mem_image_of_mem _ hends.1)] at hcard
    have hpos : 0 < (W.image label).card := Finset.card_pos.mpr ⟨_, Finset.mem_image_of_mem _ hends.1⟩
    rw [List.length_cons]
    omega

/-! ## Leaves -/

/-- The arcs of the list that end at a vertex on one side. -/
def degree (near : Side → ι → V) (t : List ι) (side : Side) (v : V) : ℕ := t.countP fun i => near side i = v

/-- Each arc has one end on each side. -/
theorem sum_degree {side : Side} {W : Finset V} : ∑ v ∈ W, degree near t side v = t.countP fun i => near side i ∈ W := by
  induction t with
  | nil => simp [degree]
  | cons i t ih =>
    simp only [degree, List.countP_cons, Finset.sum_add_distrib, decide_eq_true_eq, Finset.sum_ite_eq] at ih ⊢
    rw [ih]

/-- **A forest with an arc has a leaf** other than the terminals. -/
theorem Forest.exists_leaf {entry exit : V} (h : Forest near (fun v => if v = exit then entry else v) t label) (ht : t ≠ []) :
    ∃ v, v ≠ entry ∧ v ≠ exit ∧ degree near t .succ v + degree near t .pred v = 1 := by
  by_contra hno
  push Not at hno
  obtain ⟨i, hi⟩ := List.exists_mem_of_ne_nil t ht
  -- the inner vertices of the forest each have two arcs at least
  let U : Finset V := (t.map (near .succ)).toFinset ∪ (t.map (near .pred)).toFinset
  let W : Finset V := (U.erase entry).erase exit
  have hmemU (side : Side) (j : ι) (hj : j ∈ t) : near side j ∈ U := by
    cases side
    · exact Finset.mem_union_left _ (List.mem_toFinset.mpr (List.mem_map_of_mem hj))
    · exact Finset.mem_union_right _ (List.mem_toFinset.mpr (List.mem_map_of_mem hj))
  have hdegree : ∀ v ∈ W, 2 ≤ degree near t .succ v + degree near t .pred v := by
    intro v hv
    simp only [W, U, Finset.mem_erase, Finset.mem_union, List.mem_toFinset, List.mem_map] at hv
    obtain ⟨hexit, hentry, hend⟩ := hv
    have hne := hno v hentry hexit
    have hpos : 0 < degree near t .succ v ∨ 0 < degree near t .pred v := by
      rcases hend with ⟨j, hj, hv⟩ | ⟨j, hj, hv⟩
      · exact .inl (List.countP_pos_iff.mpr ⟨j, hj, by simpa using hv⟩)
      · exact .inr (List.countP_pos_iff.mpr ⟨j, hj, by simpa using hv⟩)
    omega
  have hsum : 2 * W.card ≤ (t.countP fun j => near .succ j ∈ W) + t.countP fun j => near .pred j ∈ W := by
    rw [← sum_degree, ← sum_degree, ← Finset.sum_add_distrib, mul_comm, ← smul_eq_mul]
    exact Finset.card_nsmul_le_sum _ _ _ hdegree
  have hsucc : (t.countP fun j => near .succ j ∈ W) ≤ t.length := List.countP_le_length
  have hpred : (t.countP fun j => near .pred j ∈ W) ≤ t.length := List.countP_le_length
  -- with the terminals there are fewer arcs than groups, so no vertex has a third arc
  have hall : t.length ≤ W.card := by
    have hgroups := h.card_add_length_le (W := insert entry (insert exit W)) (by
      intro side j hj
      have := hmemU side j hj
      simp only [W, Finset.mem_insert, Finset.mem_erase]
      tauto)
    have hlabels : 0 < ((insert entry (insert exit W)).image label).card :=
      Finset.card_pos.mpr ⟨_, Finset.mem_image_of_mem _ (Finset.mem_insert_self _ _)⟩
    have hstart : ((insert entry (insert exit W)).image fun v => if v = exit then entry else v) ⊆ insert entry W := by
      intro g hg
      obtain ⟨v, hv, rfl⟩ := Finset.mem_image.mp hg
      simp only [Finset.mem_insert] at hv ⊢
      split_ifs with hv'
      · exact .inl rfl
      · tauto
    have := (Finset.card_le_card hstart).trans (Finset.card_insert_le _ _)
    omega
  -- so every arc lies between inner vertices, and there are too many arcs
  have hinner (side : Side) : ∀ j ∈ t, near side j ∈ W := by
    have hcount : (t.countP fun j => near side j ∈ W) = t.length := by cases side <;> omega
    simpa using List.countP_eq_length.mp hcount
  have hgroups := h.card_add_length_le hinner
  have hlabels : 0 < (W.image label).card := Finset.card_pos.mpr ⟨_, Finset.mem_image_of_mem _ (hinner .succ i hi)⟩
  have hstart := Finset.card_image_le (s := W) (f := fun v => if v = exit then entry else v)
  omega

end Groups

end GccCore.Lib.SpanningForest
