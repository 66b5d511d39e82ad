import Mathlib.Order.Monotone.Basic
import Mathlib.Order.Interval.Set.Basic
import Mathlib.Order.Lattice

/-!
# Bounds from corners

A function of two variables that goes one way in each variable takes its extreme values over a box at the
corners of the box.

* **One variable** (`OneWay.exists_end_le`, `OneWay.exists_le_end`).
* **Two variables** (`bounded_of_oneWay`), and the same after a monotone function (`Bounded.comp`).
-/

namespace GccCore.Lib.Corners

/-- A value lies between two values of `f` at corners of the box `[a, b] × [c, d]`. -/
def Bounded {α β γ : Type*} [Preorder γ] (f : α → β → γ) (a b : α) (c d : β) (z : γ) : Prop :=
  (∃ u v, (u = a ∨ u = b) ∧ (v = c ∨ v = d) ∧ f u v ≤ z) ∧
    ∃ u v, (u = a ∨ u = b) ∧ (v = c ∨ v = d) ∧ z ≤ f u v

section Box

variable {α β γ : Type*} [LinearOrder α] [LinearOrder β] [Preorder γ]

/-- A function that is monotone or antitone on a set. -/
def OneWay (f : α → γ) (s : Set α) : Prop := MonotoneOn f s ∨ AntitoneOn f s

/-- One end is not above any value. -/
theorem OneWay.exists_end_le {f : α → γ} {a b x : α} (h : OneWay f (Set.Icc a b))
    (hx : x ∈ Set.Icc a b) : ∃ u, (u = a ∨ u = b) ∧ f u ≤ f x := by
  have hab : a ≤ b := le_trans hx.1 hx.2
  rcases h with hmono | hanti
  · exact ⟨a, Or.inl rfl, hmono (Set.left_mem_Icc.mpr hab) hx hx.1⟩
  · exact ⟨b, Or.inr rfl, hanti hx (Set.right_mem_Icc.mpr hab) hx.2⟩

/-- One end is not below any value. -/
theorem OneWay.exists_le_end {f : α → γ} {a b x : α} (h : OneWay f (Set.Icc a b))
    (hx : x ∈ Set.Icc a b) : ∃ u, (u = a ∨ u = b) ∧ f x ≤ f u := by
  have hab : a ≤ b := le_trans hx.1 hx.2
  rcases h with hmono | hanti
  · exact ⟨b, Or.inr rfl, hmono hx (Set.right_mem_Icc.mpr hab) hx.2⟩
  · exact ⟨a, Or.inl rfl, hanti (Set.left_mem_Icc.mpr hab) hx hx.1⟩

/-- **The corners bound the box**: first the edge through the point, then the sides it ends on. -/
theorem bounded_of_oneWay {f : α → β → γ} {a b x : α} {c d y : β} (hx : x ∈ Set.Icc a b)
    (hy : y ∈ Set.Icc c d) (hedge : OneWay (fun u => f u y) (Set.Icc a b))
    (hsides : ∀ u, u = a ∨ u = b → OneWay (f u) (Set.Icc c d)) : Bounded f a b c d (f x y) := by
  refine ⟨?_, ?_⟩
  · obtain ⟨u, hu, hux⟩ := hedge.exists_end_le hx
    obtain ⟨v, hv, hvy⟩ := (hsides u hu).exists_end_le hy
    exact ⟨u, v, hu, hv, le_trans hvy hux⟩
  · obtain ⟨u, hu, hux⟩ := hedge.exists_le_end hx
    obtain ⟨v, hv, hvy⟩ := (hsides u hu).exists_le_end hy
    exact ⟨u, v, hu, hv, le_trans hux hvy⟩

end Box

/-- A monotone function keeps the bounds. -/
theorem Bounded.comp {α β γ δ : Type*} [Preorder γ] [Preorder δ] {f : α → β → γ} {a b : α} {c d : β} {z : γ} (h : Bounded f a b c d z)
    {r : γ → δ} (hr : Monotone r) : Bounded (fun u v => r (f u v)) a b c d (r z) := by
  obtain ⟨⟨u, v, hu, hv, hle⟩, ⟨u', v', hu', hv', hle'⟩⟩ := h
  exact ⟨⟨u, v, hu, hv, hr hle⟩, ⟨u', v', hu', hv', hr hle'⟩⟩

end GccCore.Lib.Corners
