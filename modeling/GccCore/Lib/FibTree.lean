import Mathlib.Algebra.BigOperators.Group.Finset.Basic
import Mathlib.Algebra.Order.BigOperators.Group.Finset
import Mathlib.Data.Nat.Fib.Basic
import Mathlib.Logic.Relation

/-!
# Trees of Fibonacci size

A forest is given by the parents of a finite set of nodes.

* **Spread values** (`Spread`): for every `t` at most `t` of the values are below `t`. This is what
  is left of "the `i`-th value is at least `i`" when the order of the values is forgotten, and it is
  kept when a value at least the number of the others is added, when values are dropped and when
  values grow.
* **The bound** (`fib_le_card_below`): if the numbers of children of the children of every node,
  plus one, are spread, a node with `d` children has at least `fib (d + 2)` descendants.
-/

namespace GccCore.Lib.FibTree

/-! ## Spread values -/

section Spread

variable {α : Type*} {s s' : Finset α} {f f' : α → ℕ}

/-- At most `t` of the values are below `t`. -/
def Spread (s : Finset α) (f : α → ℕ) : Prop := ∀ t, (s.filter fun c => f c < t).card ≤ t

/-- Values may be dropped and may grow. -/
theorem Spread.mono (h : Spread s f) (hs : s' ⊆ s) (hf : ∀ c ∈ s', f c ≤ f' c) : Spread s' f' := by
  intro t
  refine (Finset.card_le_card fun c hc => ?_).trans (h t)
  obtain ⟨hcs, hct⟩ := Finset.mem_filter.mp hc
  exact Finset.mem_filter.mpr ⟨hs hcs, (hf c hcs).trans_lt hct⟩

/-- A value not below the number of the others may be added. -/
theorem Spread.insert [DecidableEq α] {b : α} (h : Spread s f) (hb : b ∉ s) (hcard : s.card ≤ f b) :
    Spread (insert b s) f := by
  intro t
  by_cases hbt : f b < t
  · calc ((Insert.insert b s).filter fun c => f c < t).card
        ≤ (Insert.insert b s).card := Finset.card_le_card (Finset.filter_subset _ _)
      _ = s.card + 1 := Finset.card_insert_of_notMem hb
      _ ≤ t := by omega
  · rw [Finset.filter_insert, if_neg hbt]
    exact h t

/-- The greatest of `n` spread values is at least `n - 1`. -/
theorem Spread.exists_large (h : Spread s f) (hs : s.Nonempty) : ∃ c ∈ s, s.card ≤ f c + 1 := by
  by_contra hno
  push Not at hno
  have hall : (s.filter fun c => f c < s.card - 1) = s :=
    Finset.filter_true_of_mem fun c hc => by have := hno c hc; omega
  have hle := h (s.card - 1)
  rw [hall] at hle
  have := Finset.card_pos.mpr hs
  omega

/-- **The recurrence of the Fibonacci numbers**: the sizes of the children's trees, and the node
itself. -/
theorem Spread.fib_le_sum [DecidableEq α] {g : α → ℕ} (h : Spread s fun c => g c + 1) :
    Nat.fib (s.card + 2) ≤ 1 + ∑ c ∈ s, Nat.fib (g c + 2) := by
  induction hn : s.card generalizing s with
  | zero => simp
  | succ n ih =>
    obtain ⟨c, hc, hlarge⟩ := h.exists_large (Finset.card_pos.mp (by omega))
    have hcard : (s.erase c).card = n := by
      rw [Finset.card_erase_of_mem hc]
      omega
    have hrest := ih (h.mono (Finset.erase_subset c s) fun _ _ => le_rfl) hcard
    have hone : Nat.fib (n + 1) ≤ Nat.fib (g c + 2) := Nat.fib_mono (by omega)
    have hfib : Nat.fib (n + 1 + 2) = Nat.fib (n + 1) + Nat.fib (n + 2) := Nat.fib_add_two
    rw [← Finset.add_sum_erase s _ hc]
    omega

end Spread

/-! ## Descendants -/

section Forest

variable {α : Type*} [DecidableEq α] {parent : α → Option α} {N : Finset α} {x c c' : α}

/-- The node `p` is the parent of `a`. -/
def Above (parent : α → Option α) (a p : α) : Prop := parent a = some p

/-- The children of a node. -/
def children (parent : α → Option α) (N : Finset α) (x : α) : Finset α :=
  N.filter fun c => parent c = some x

open Classical in
/-- The descendants of a node, itself among them. -/
noncomputable def below (parent : α → Option α) (N : Finset α) (x : α) : Finset α :=
  N.filter fun a => Relation.ReflTransGen (Above parent) a x

theorem mem_children : c ∈ children parent N x ↔ c ∈ N ∧ parent c = some x := Finset.mem_filter

omit [DecidableEq α] in
theorem mem_below {a : α} :
    a ∈ below parent N x ↔ a ∈ N ∧ Relation.ReflTransGen (Above parent) a x := by
  classical
  exact Finset.mem_filter

omit [DecidableEq α] in
/-- A rank that rises with every parent does not fall along a chain of parents. -/
theorem rank_le {rank : α → ℕ} (hclosed : ∀ a ∈ N, ∀ p, parent a = some p → p ∈ N)
    (hrank : ∀ a ∈ N, ∀ p, parent a = some p → rank a < rank p) {a b : α} (ha : a ∈ N)
    (h : Relation.ReflTransGen (Above parent) a b) : b ∈ N ∧ rank a ≤ rank b := by
  induction h with
  | refl => exact ⟨ha, le_rfl⟩
  | tail _ hbc ih => exact ⟨hclosed _ ih.1 _ hbc, ih.2.trans (hrank _ ih.1 _ hbc).le⟩

/-- The trees of two children have no node in common. -/
theorem disjoint_below {rank : α → ℕ} (hclosed : ∀ a ∈ N, ∀ p, parent a = some p → p ∈ N)
    (hrank : ∀ a ∈ N, ∀ p, parent a = some p → rank a < rank p)
    (hc : c ∈ children parent N x) (hc' : c' ∈ children parent N x) (hne : c ≠ c') :
    Disjoint (below parent N c) (below parent N c') := by
  -- a chain from one child to another goes through their parent
  have hno : ∀ a b, a ∈ children parent N x → b ∈ children parent N x → a ≠ b →
      ¬ Relation.ReflTransGen (Above parent) a b := by
    intro a b ha hb hab h
    obtain ⟨haN, hax⟩ := mem_children.mp ha
    obtain ⟨hbN, hbx⟩ := mem_children.mp hb
    rcases h.cases_head with rfl | ⟨p, hap, hpb⟩
    · exact hab rfl
    · obtain rfl : p = x := Option.some.inj (Eq.trans (Eq.symm hap) hax)
      have hle := (rank_le hclosed hrank (hclosed a haN p hax) hpb).2
      exact absurd (hrank b hbN p hbx) (not_lt.mpr hle)
  rw [Finset.disjoint_left]
  intro a ha ha'
  have hunique : Relator.RightUnique (Above parent) := fun a p q hp hq =>
    Option.some.inj (Eq.trans (Eq.symm hp) hq)
  rcases Relation.ReflTransGen.total_of_right_unique hunique (mem_below.mp ha).2
    (mem_below.mp ha').2 with h | h
  · exact hno c c' hc hc' hne h
  · exact hno c' c hc' hc hne.symm h

/-- A node and the trees of its children. -/
theorem one_add_sum_le_card_below {rank : α → ℕ}
    (hclosed : ∀ a ∈ N, ∀ p, parent a = some p → p ∈ N)
    (hrank : ∀ a ∈ N, ∀ p, parent a = some p → rank a < rank p) (hx : x ∈ N) :
    1 + ∑ c ∈ children parent N x, (below parent N c).card ≤ (below parent N x).card := by
  have hdisjoint : ((children parent N x : Finset α) : Set α).PairwiseDisjoint (below parent N) :=
    fun c hc c' hc' hne => disjoint_below hclosed hrank hc hc' hne
  have hself : x ∉ (children parent N x).biUnion (below parent N) := by
    rw [Finset.mem_biUnion]
    rintro ⟨c, hc, hxc⟩
    obtain ⟨hcN, hcx⟩ := mem_children.mp hc
    have hle := (rank_le hclosed hrank hx (mem_below.mp hxc).2).2
    exact absurd (hrank c hcN x hcx) (not_lt.mpr hle)
  rw [← Finset.card_biUnion hdisjoint, add_comm, ← Finset.card_insert_of_notMem hself]
  refine Finset.card_le_card fun a ha => ?_
  rcases Finset.mem_insert.mp ha with rfl | ha
  · exact mem_below.mpr ⟨hx, .refl⟩
  · obtain ⟨c, hc, hac⟩ := Finset.mem_biUnion.mp ha
    obtain ⟨haN, hchain⟩ := mem_below.mp hac
    exact mem_below.mpr ⟨haN, hchain.tail (mem_children.mp hc).2⟩

/-- **A node with `d` children has at least `fib (d + 2)` descendants** where the numbers of
children of its children, and of theirs, are spread. -/
theorem fib_le_card_below {rank : α → ℕ} (hclosed : ∀ a ∈ N, ∀ p, parent a = some p → p ∈ N)
    (hrank : ∀ a ∈ N, ∀ p, parent a = some p → rank a < rank p)
    (hspread : ∀ x ∈ N,
      Spread (children parent N x) fun c => (children parent N c).card + 1) (hx : x ∈ N) :
    Nat.fib ((children parent N x).card + 2) ≤ (below parent N x).card := by
  induction hr : rank x using Nat.strong_induction_on generalizing x with
  | _ r ih =>
    have hchildren : ∀ c ∈ children parent N x,
        Nat.fib ((children parent N c).card + 2) ≤ (below parent N c).card := by
      intro c hc
      obtain ⟨hcN, hcx⟩ := mem_children.mp hc
      exact ih (rank c) (hr ▸ hrank c hcN x hcx) hcN rfl
    calc Nat.fib ((children parent N x).card + 2)
        ≤ 1 + ∑ c ∈ children parent N x, Nat.fib ((children parent N c).card + 2) :=
          (hspread x hx).fib_le_sum
      _ ≤ 1 + ∑ c ∈ children parent N x, (below parent N c).card :=
          Nat.add_le_add_left (Finset.sum_le_sum hchildren) 1
      _ ≤ (below parent N x).card := one_add_sum_le_card_below hclosed hrank hx

end Forest

end GccCore.Lib.FibTree
