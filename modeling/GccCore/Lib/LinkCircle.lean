import Mathlib.Data.List.Nodup
import Mathlib.Logic.Function.Iterate
import Mathlib.Logic.Relation

/-!
# Circular singly linked lists

Elements of any type, each with one link `f` to the next.

* **Walks** (`Walk`): following the links from one element to another through a list.
* **Circles** (`Circle`): the walk from an element back to itself, without repetition. A circle can
  be read from each of its elements (`Circle.rotate`).
* **Splicing** (`Circle.splice`): exchanging the links of two elements of different circles joins the
  circles.
* **Joining classes** (`eqvGen_join`): one more pair in the relation that generates an equivalence
  joins the classes of the pair.
-/

namespace GccCore.Lib.LinkCircle

variable {α : Type*} {f g : α → α} {a b c x y : α} {l m : List α}

/-! ## Walks -/

/-- Following `f` from the first element passes through the list and arrives at the second. -/
def Walk (f : α → α) : α → List α → α → Prop
  | a, [], b => a = b
  | a, x :: l, b => x = a ∧ Walk f (f a) l b

@[simp] theorem walk_nil : Walk f a [] b ↔ a = b := Iff.rfl

@[simp] theorem walk_cons : Walk f a (x :: l) b ↔ x = a ∧ Walk f (f a) l b := Iff.rfl

/-- A walk through two lists stops between them. -/
theorem walk_append : Walk f a (l ++ m) c ↔ ∃ b, Walk f a l b ∧ Walk f b m c := by
  induction l generalizing a with
  | nil => simp
  | cons x l ih => simp [ih, and_assoc]

/-- A walk sees the links of its list only. -/
theorem Walk.congr (h : Walk f a l b) (hfg : ∀ x ∈ l, g x = f x) : Walk g a l b := by
  induction l generalizing a with
  | nil => exact h
  | cons x l ih =>
    obtain ⟨rfl, hrest⟩ := h
    refine ⟨rfl, ?_⟩
    rw [hfg x (List.mem_cons_self ..)]
    exact ih hrest fun y hy => hfg y (List.mem_cons_of_mem _ hy)

/-! ## Circles -/

/-- From `a` the links lead through the list, without repetition, and back to `a`. -/
structure Circle (f : α → α) (a : α) (l : List α) : Prop where
  walk : Walk f (f a) l a
  nodup : (a :: l).Nodup

/-- The circle of an element that is linked to itself. -/
theorem circle_nil (h : f a = a) : Circle f a [] := ⟨h, List.nodup_singleton a⟩

/-- A circle as the walk from its first element. -/
theorem Circle.walk_cons (h : Circle f a l) : Walk f a (a :: l) a := ⟨rfl, h.walk⟩

/-- A circle sees the links of its elements only. -/
theorem Circle.congr (h : Circle f a l) (hfg : ∀ x ∈ a :: l, g x = f x) : Circle g a l := by
  have hwalk : Walk g a (a :: l) a := h.walk_cons.congr hfg
  exact ⟨hwalk.2, h.nodup⟩

/-- **Reading a circle from another of its elements.** -/
theorem Circle.rotate (h : Circle f a l) (hx : x ∈ a :: l) :
    ∃ m, Circle f x m ∧ (x :: m).Perm (a :: l) := by
  rcases List.mem_cons.mp hx with rfl | hmem
  · exact ⟨l, h, List.Perm.refl _⟩
  · obtain ⟨before, after, rfl⟩ := List.append_of_mem hmem
    obtain ⟨b, hbefore, hb⟩ := walk_append.mp h.walk
    obtain ⟨rfl, hafter⟩ := hb
    have hperm : (x :: (after ++ a :: before)).Perm (a :: (before ++ x :: after)) :=
      @List.perm_append_comm _ (x :: after) (a :: before)
    refine ⟨after ++ a :: before, ⟨?_, hperm.nodup_iff.mpr h.nodup⟩, hperm⟩
    exact walk_append.mpr ⟨a, hafter, rfl, hbefore⟩

/-- **Splicing**: two elements of different circles that exchange their links join the circles. -/
theorem Circle.splice (ha : Circle f a l) (hb : Circle f b m) (hdisj : (a :: l).Disjoint (b :: m))
    (hga : g a = f b) (hgb : g b = f a) (hfg : ∀ x, x ≠ a → x ≠ b → g x = f x) :
    Circle g a (m ++ b :: l) := by
  have hnotIn : a ∉ m ∧ b ∉ m ∧ a ∉ l ∧ b ∉ l := by
    refine ⟨fun h => ?_, (List.nodup_cons.mp hb.nodup).1, (List.nodup_cons.mp ha.nodup).1,
      fun h => ?_⟩
    · exact hdisj (List.mem_cons_self ..) (List.mem_cons_of_mem _ h)
    · exact hdisj (List.mem_cons_of_mem _ h) (List.mem_cons_self ..)
  obtain ⟨ham, hbm, hal, hbl⟩ := hnotIn
  have hfirst : Walk g (f b) m b :=
    hb.walk.congr fun x hx => hfg x (fun h => ham (h ▸ hx)) fun h => hbm (h ▸ hx)
  have hsecond : Walk g (f a) l a :=
    ha.walk.congr fun x hx => hfg x (fun h => hal (h ▸ hx)) fun h => hbl (h ▸ hx)
  refine ⟨?_, ?_⟩
  · rw [hga]
    refine walk_append.mpr ⟨b, hfirst, rfl, ?_⟩
    rw [hgb]
    exact hsecond
  · have hperm : (a :: (m ++ b :: l)).Perm ((a :: l) ++ (b :: m)) := by
      refine List.Perm.cons a ?_
      calc (m ++ b :: l).Perm (b :: l ++ m) := List.perm_append_comm
        _ = b :: (l ++ m) := rfl
        _ |>.Perm (l ++ b :: m) := List.perm_middle.symm
    exact hperm.nodup_iff.mpr (List.nodup_append'.mpr ⟨ha.nodup, hb.nodup, hdisj⟩)

/-! ## Joining classes -/

variable {r s : α → α → Prop}

/-- The classes of two elements are joined. -/
def Join (r : α → α → Prop) (a b x y : α) : Prop :=
  r x y ∨ (r x a ∧ r b y) ∨ (r x b ∧ r a y)

/-- Joining two classes of an equivalence gives an equivalence. -/
theorem Join.equivalence (hr : Equivalence r) (a b : α) : Equivalence (Join r a b) := by
  refine ⟨fun x => .inl (hr.refl x), ?_, ?_⟩
  · rintro x y (h | ⟨h₁, h₂⟩ | ⟨h₁, h₂⟩)
    · exact .inl (hr.symm h)
    · exact .inr (.inr ⟨hr.symm h₂, hr.symm h₁⟩)
    · exact .inr (.inl ⟨hr.symm h₂, hr.symm h₁⟩)
  · rintro x y z (h | ⟨h₁, h₂⟩ | ⟨h₁, h₂⟩) (k | ⟨k₁, k₂⟩ | ⟨k₁, k₂⟩)
    · exact .inl (hr.trans h k)
    · exact .inr (.inl ⟨hr.trans h k₁, k₂⟩)
    · exact .inr (.inr ⟨hr.trans h k₁, k₂⟩)
    · exact .inr (.inl ⟨h₁, hr.trans h₂ k⟩)
    · exact .inr (.inl ⟨h₁, k₂⟩)
    · exact .inl (hr.trans h₁ k₂)
    · exact .inr (.inr ⟨h₁, hr.trans h₂ k⟩)
    · exact .inl (hr.trans h₁ k₂)
    · exact .inr (.inr ⟨h₁, k₂⟩)

/-- An equivalence generated in two parts. -/
theorem eqvGen_or {t : α → α → Prop} (hs : ∀ x y, s x y ↔ Relation.EqvGen r x y) :
    Relation.EqvGen (fun x y => s x y ∨ t x y) x y ↔
      Relation.EqvGen (fun x y => r x y ∨ t x y) x y := by
  constructor
  · intro h
    induction h with
    | rel x y hxy =>
      rcases hxy with hxy | hxy
      · exact Relation.EqvGen.mono (fun _ _ => .inl) _ _ ((hs x y).mp hxy)
      · exact .rel _ _ (.inr hxy)
    | refl x => exact .refl x
    | symm x y _ ih => exact .symm _ _ ih
    | trans x y z _ _ ih₁ ih₂ => exact .trans _ _ _ ih₁ ih₂
  · refine Relation.EqvGen.mono ?_ x y
    rintro x y (hxy | hxy)
    · exact .inl ((hs x y).mpr (.rel _ _ hxy))
    · exact .inr hxy

/-- Equal elements generate nothing. -/
theorem eqvGen_eq_or :
    Relation.EqvGen (fun x y => x = y ∨ r x y) x y ↔ Relation.EqvGen r x y := by
  constructor
  · intro h
    induction h with
    | rel x y hxy =>
      rcases hxy with rfl | hxy
      · exact .refl _
      · exact .rel _ _ hxy
    | refl x => exact .refl x
    | symm x y _ ih => exact .symm _ _ ih
    | trans x y z _ _ ih₁ ih₂ => exact .trans _ _ _ ih₁ ih₂
  · exact Relation.EqvGen.mono (fun _ _ => .inr) x y

/-- **One more pair joins the classes of the pair.** -/
theorem eqvGen_join (hr : Equivalence r) :
    Relation.EqvGen (fun x y => r x y ∨ (x = a ∧ y = b)) x y ↔ Join r a b x y := by
  constructor
  · intro h
    induction h with
    | rel x y hxy =>
      rcases hxy with hxy | ⟨rfl, rfl⟩
      · exact .inl hxy
      · exact .inr (.inl ⟨hr.refl _, hr.refl _⟩)
    | refl x => exact (Join.equivalence hr a b).refl x
    | symm x y _ ih => exact (Join.equivalence hr a b).symm ih
    | trans x y z _ _ ih₁ ih₂ => exact (Join.equivalence hr a b).trans ih₁ ih₂
  · have hpair : Relation.EqvGen (fun x y => r x y ∨ (x = a ∧ y = b)) a b :=
      .rel _ _ (.inr ⟨rfl, rfl⟩)
    rintro (h | ⟨h₁, h₂⟩ | ⟨h₁, h₂⟩)
    · exact .rel _ _ (.inl h)
    · exact .trans _ _ _ (.rel _ _ (.inl h₁)) (.trans _ _ _ hpair (.rel _ _ (.inl h₂)))
    · exact .trans _ _ _ (.rel _ _ (.inl h₁))
        (.trans _ _ _ (.symm _ _ hpair) (.rel _ _ (.inl h₂)))

end GccCore.Lib.LinkCircle
