import Mathlib.Data.Finset.Basic
import Mathlib.Data.Finset.Lattice.Lemmas
import Mathlib.Data.List.Chain

/-!
# Circular doubly linked lists

A finite set whose elements are linked into one circle by a `left` and a `right` function. The
circle can be opened at any of its elements.

* **Opening** (`IsRing.exists_list`): from any element the ring reads as a list.
* **Surgery** (`IsRing.insert`, `IsRing.erase`, `IsRing.splice`): putting an element in, taking one
  out and joining two rings, each by the links that change and those that do not.
-/

namespace GccCore.Lib.Ring

variable {ι : Type*} {left right left' right' : ι → ι} {s t : Finset ι} {a b : ι} {l : List ι}

/-- `b` follows `a`. -/
def Linked (left right : ι → ι) (a b : ι) : Prop := right a = b ∧ left b = a

/-- The list goes around the circle: each element is linked to the next, and the last to the first. -/
def Around (left right : ι → ι) : List ι → Prop
  | [] => True
  | a :: l => (a :: (l ++ [a])).IsChain (Linked left right)

/-- Going around is going along, and closing. -/
theorem around_cons :
    Around left right (a :: l) ↔ (a :: l).IsChain (Linked left right) ∧
      ∃ d, (a :: l).getLast? = some d ∧ Linked left right d a := by
  change ((a :: l) ++ [a]).IsChain (Linked left right) ↔ _
  rw [List.isChain_append]
  constructor
  · rintro ⟨h, -, hclose⟩
    obtain ⟨d, hd⟩ : ∃ d, (a :: l).getLast? = some d := ⟨_, List.getLast?_eq_some_getLast (by simp)⟩
    exact ⟨h, d, hd, hclose d hd a rfl⟩
  · rintro ⟨h, d, hd, hclose⟩
    refine ⟨h, List.isChain_singleton a, fun x hx y hy => ?_⟩
    obtain rfl : d = x := Option.some.inj (hd.symm.trans hx)
    obtain rfl : a = y := Option.some.inj hy
    exact hclose

theorem Around.rotate_one (h : Around left right (a :: l)) : Around left right (l ++ [a]) := by
  cases l with
  | nil => exact h
  | cons c m =>
    have h' : (a :: c :: (m ++ [a])).IsChain (Linked left right) := h
    rw [List.isChain_cons_cons] at h'
    refine around_cons.mpr ⟨h'.2, a, ?_, h'.1⟩
    exact List.getLast?_concat (l := c :: m)

theorem Around.rotate {m : List ι} (h : Around left right (l ++ m)) :
    Around left right (m ++ l) := by
  induction l generalizing m with
  | nil => simpa using h
  | cons c l ih =>
    have hone : Around left right (l ++ (m ++ [c])) := by
      have := Around.rotate_one h
      simpa using this
    simpa using ih hone

/-- Links that agree on the list go around it as well. -/
theorem Around.congr (h : Around left right l) (hl : ∀ x ∈ l, left' x = left x)
    (hr : ∀ x ∈ l, right' x = right x) : Around left' right' l := by
  cases l with
  | nil => trivial
  | cons a l =>
    have hmem : ∀ x ∈ a :: (l ++ [a]), x ∈ a :: l := by
      intro x hx
      simpa [or_comm, or_assoc] using hx
    refine List.IsChain.imp_of_mem_imp (fun x y hx hy hxy => ?_) h
    exact ⟨(hr x (hmem x hx)).trans hxy.1, (hl y (hmem y hy)).trans hxy.2⟩

/-- Along an opened ring, links that agree but at its two ends still lead from one element to the
next. -/
theorem Around.chain_congr (h : Around left right (a :: l)) (hnd : (a :: l).Nodup)
    (hl : ∀ x ∈ l, left' x = left x) (hr : ∀ x ∈ a :: l, x ≠ left a → right' x = right x) :
    (a :: l).IsChain (Linked left' right') := by
  obtain ⟨hchain, d, hd, hclose⟩ := around_cons.mp h
  refine List.IsChain.imp_of_mem_tail_imp (fun x y hx hy hxy => ?_) hchain
  have hya : y ≠ a := by
    rintro rfl
    exact (List.nodup_cons.mp hnd).1 hy
  have hxd : x ≠ left a := by
    rintro rfl
    exact hya (hxy.1.symm.trans (hclose.2 ▸ hclose.1))
  exact ⟨(hr x hx hxd).trans hxy.1, (hl y hy).trans hxy.2⟩

section Rings

variable [DecidableEq ι]

/-- The elements of `s` form one circle. -/
def IsRing (left right : ι → ι) (s : Finset ι) : Prop :=
  ∃ l : List ι, l.Nodup ∧ l.toFinset = s ∧ Around left right l

theorem isRing_empty : IsRing left right ∅ := ⟨[], List.nodup_nil, rfl, trivial⟩

theorem isRing_singleton (hl : left a = a) (hr : right a = a) : IsRing left right {a} := by
  refine ⟨[a], List.nodup_singleton a, rfl, ?_⟩
  exact around_cons.mpr ⟨List.isChain_singleton a, a, rfl, hr, hl⟩

theorem IsRing.congr (h : IsRing left right s) (hl : ∀ x ∈ s, left' x = left x)
    (hr : ∀ x ∈ s, right' x = right x) : IsRing left' right' s := by
  obtain ⟨l, hnd, rfl, har⟩ := h
  exact ⟨l, hnd, rfl, har.congr (fun x hx => hl x (by simpa using hx))
    fun x hx => hr x (by simpa using hx)⟩

/-- **Opening a ring** at any of its elements. -/
theorem IsRing.exists_list (h : IsRing left right s) (ha : a ∈ s) :
    ∃ l, (a :: l).Nodup ∧ (a :: l).toFinset = s ∧ Around left right (a :: l) := by
  obtain ⟨m, hnd, rfl, har⟩ := h
  obtain ⟨l₁, l₂, rfl⟩ := List.append_of_mem (List.mem_toFinset.mp ha)
  have hperm : (l₁ ++ a :: l₂).Perm (a :: (l₂ ++ l₁)) := List.perm_append_comm
  refine ⟨l₂ ++ l₁, hperm.nodup_iff.mp hnd, ?_, har.rotate⟩
  exact (List.toFinset_eq_of_perm _ _ hperm).symm

/-! ## Neighbours -/

omit [DecidableEq ι] in
/-- Around a list, the neighbours of its first element. -/
theorem Around.neighbours (h : Around left right (a :: l)) :
    right a ∈ a :: l ∧ left a ∈ a :: l ∧ left (right a) = a ∧ right (left a) = a := by
  obtain ⟨hchain, d, hd, hclose⟩ := around_cons.mp h
  have hd' : d ∈ a :: l := List.mem_of_getLast? hd
  rw [hclose.2]
  cases l with
  | nil =>
    obtain rfl : d = a := by simpa using hd'
    exact ⟨by simp [hclose.1], by simp, by rw [hclose.1, hclose.2], hclose.1⟩
  | cons c m =>
    obtain ⟨hac, -⟩ := List.isChain_cons_cons.mp hchain
    rw [hac.1]
    exact ⟨by simp, hd', hac.2, hclose.1⟩

theorem IsRing.neighbours (h : IsRing left right s) (ha : a ∈ s) :
    right a ∈ s ∧ left a ∈ s ∧ left (right a) = a ∧ right (left a) = a := by
  obtain ⟨l, -, rfl, har⟩ := h.exists_list ha
  simpa using har.neighbours

/-- An element that is its own neighbour is alone. -/
theorem IsRing.eq_singleton (h : IsRing left right s) (ha : a ∈ s) (hself : right a = a) :
    s = {a} := by
  obtain ⟨l, hnd, rfl, har⟩ := h.exists_list ha
  cases l with
  | nil => rfl
  | cons c m =>
    obtain ⟨hac, -⟩ := List.isChain_cons_cons.mp (around_cons.mp har).1
    have hca : c = a := hac.1.symm.trans hself
    exact absurd (hca ▸ List.mem_cons_self) (List.nodup_cons.mp hnd).1

/-- In a ring of one, the element is its own neighbour. -/
theorem IsRing.self_iff (h : IsRing left right s) (ha : a ∈ s) :
    (left a = a ↔ s = {a}) ∧ (right a = a ↔ s = {a}) := by
  obtain ⟨hr, hl, hlr, hrl⟩ := h.neighbours ha
  refine ⟨⟨fun hself => ?_, ?_⟩, ⟨h.eq_singleton ha, ?_⟩⟩
  · apply h.eq_singleton ha
    rw [← hself]
    rw [hrl]
    exact hself.symm
  · rintro rfl
    exact Finset.mem_singleton.mp hl
  · rintro rfl
    exact Finset.mem_singleton.mp hr

/-- **Going around**: what holds of one element and passes to the right holds of all. -/
theorem IsRing.forall_of_right {P : ι → Prop} (h : IsRing left right s) (ha : a ∈ s) (hP : P a)
    (hstep : ∀ x ∈ s, P x → P (right x)) : ∀ x ∈ s, P x := by
  obtain ⟨l, -, rfl, har⟩ := h.exists_list ha
  obtain ⟨hchain, -⟩ := around_cons.mp har
  -- along the list, from any of its elements on
  have halong : ∀ (m : List ι) (b : ι), (∀ x ∈ b :: m, x ∈ a :: l) →
      (b :: m).IsChain (Linked left right) → P b → ∀ x ∈ b :: m, P x := by
    intro m
    induction m with
    | nil =>
      intro b _ _ hb x hx
      rwa [List.mem_singleton.mp hx]
    | cons c m ih =>
      intro b hsub hch hb x hx
      obtain ⟨hbc, hch'⟩ := List.isChain_cons_cons.mp hch
      have hc : P c := by
        rw [← hbc.1]
        exact hstep b (List.mem_toFinset.mpr (hsub b List.mem_cons_self)) hb
      rcases List.mem_cons.mp hx with rfl | hx
      · exact hb
      · exact ih c (fun y hy => hsub y (List.mem_cons_of_mem b hy)) hch' hc x hx
  intro x hx
  exact halong l a (fun _ h => h) hchain hP x (List.mem_toFinset.mp hx)

/-! ## Surgery -/

/-- **Insertion** of `b` after `a`. -/
theorem IsRing.insert (h : IsRing left right s) (ha : a ∈ s) (hb : b ∉ s)
    (hra : right' a = b) (hrb : right' b = right a) (hlb : left' b = a)
    (hlra : left' (right a) = b) (hr : ∀ x ∈ s, x ≠ a → right' x = right x)
    (hl : ∀ x ∈ s, x ≠ right a → left' x = left x) :
    IsRing left' right' (insert b s) := by
  obtain ⟨l, hnd, rfl, har⟩ := h.exists_list ha
  have hbl : b ∉ a :: l := by simpa using hb
  refine ⟨b :: (l ++ [a]), ?_, ?_, ?_⟩
  · have hperm : (l ++ [a]).Perm (a :: l) := List.perm_append_singleton a l
    exact List.nodup_cons.mpr ⟨fun hmem => hbl (hperm.mem_iff.mp hmem), hperm.nodup_iff.mpr hnd⟩
  · ext x
    simp [or_left_comm]
  -- the ring opened after `a`: its two ends are `right a` and `a`
  have hrot := har.rotate_one
  have hnd' : (l ++ [a]).Nodup := (List.perm_append_singleton a l).nodup_iff.mpr hnd
  obtain ⟨c, m, hcm⟩ : ∃ c m, l ++ [a] = c :: m := List.exists_cons_of_ne_nil (by simp)
  have hlast : (l ++ [a]).getLast? = some a := by simp
  rw [hcm] at hrot hnd' hlast ⊢
  obtain ⟨d, hd, hclose⟩ := (around_cons.mp hrot).2
  obtain rfl : d = a := Option.some.inj (hd.symm.trans hlast)
  have hmem : ∀ x ∈ c :: m, x ∈ (d :: l).toFinset := by
    intro x hx
    rw [← hcm] at hx
    simpa [or_comm] using hx
  rw [around_cons]
  refine ⟨List.isChain_cons_cons.mpr ⟨⟨hrb.trans hclose.1, ?_⟩, ?_⟩, d, ?_, hra, hlb⟩
  · rw [← hclose.1]
    exact hlra
  · refine hrot.chain_congr hnd' (fun x hx => ?_) (fun x hx hxd => ?_)
    · refine hl x (hmem x (List.mem_cons_of_mem _ hx)) ?_
      rintro rfl
      rw [hclose.1] at hx
      exact (List.nodup_cons.mp hnd').1 hx
    · refine hr x (hmem x hx) ?_
      rintro rfl
      exact hxd hclose.2.symm
  · rw [List.getLast?_cons_cons]
    exact hlast

/-- **Removal** of `a` from a ring of more than one. -/
theorem IsRing.erase (h : IsRing left right s) (ha : a ∈ s) (hne : left a ≠ a)
    (hrl : right' (left a) = right a) (hlr : left' (right a) = left a)
    (hr : ∀ x ∈ s, x ≠ a → x ≠ left a → right' x = right x)
    (hl : ∀ x ∈ s, x ≠ a → x ≠ right a → left' x = left x) :
    IsRing left' right' (s.erase a) := by
  obtain ⟨l, hnd, rfl, har⟩ := h.exists_list ha
  obtain ⟨hal, hndl⟩ := List.nodup_cons.mp hnd
  obtain ⟨hchain, d, hd, hclose⟩ := around_cons.mp har
  refine ⟨l, hndl, ?_, ?_⟩
  · rw [List.toFinset_cons, Finset.erase_insert (by simpa using hal)]
  cases l with
  | nil =>
    obtain rfl : a = d := by simpa using hd
    exact absurd hclose.2 hne
  | cons c m =>
    obtain ⟨hac, hchain'⟩ := List.isChain_cons_cons.mp hchain
    rw [List.getLast?_cons_cons] at hd
    rw [around_cons]
    refine ⟨?_, d, hd, ?_, ?_⟩
    · refine List.IsChain.imp_of_mem_tail_imp (fun x y hx hy hxy => ?_) hchain'
      have hxa : x ≠ a := fun heq => hal (heq ▸ hx)
      have hya : y ≠ a := fun heq => hal (heq ▸ List.mem_cons_of_mem _ hy)
      refine ⟨(hr x ?_ hxa ?_).trans hxy.1, (hl y ?_ hya ?_).trans hxy.2⟩
      · rw [List.mem_toFinset]
        exact List.mem_cons_of_mem _ hx
      · rintro rfl
        apply hya
        rw [← hxy.1, hclose.2, hclose.1]
      · rw [List.mem_toFinset]
        exact List.mem_cons_of_mem _ (List.mem_cons_of_mem _ hy)
      · rintro rfl
        rw [hac.1] at hy
        exact (List.nodup_cons.mp hndl).1 hy
    · rw [← hclose.2, hrl, hac.1]
    · rw [← hac.1, hlr, hclose.2]

/-- **Joining** two rings at `a` and `b`. -/
theorem IsRing.splice (hs : IsRing left right s) (ht : IsRing left right t) (hst : Disjoint s t)
    (ha : a ∈ s) (hb : b ∈ t) (hrla : right' (left a) = b) (hrlb : right' (left b) = a)
    (hla : left' a = left b) (hlb : left' b = left a)
    (hr : ∀ x ∈ s ∪ t, x ≠ left a → x ≠ left b → right' x = right x)
    (hl : ∀ x ∈ s ∪ t, x ≠ a → x ≠ b → left' x = left x) :
    IsRing left' right' (s ∪ t) := by
  obtain ⟨l, hnd, rfl, har⟩ := hs.exists_list ha
  obtain ⟨m, hndm, rfl, harm⟩ := ht.exists_list hb
  obtain ⟨-, d, hd, hclose⟩ := around_cons.mp har
  obtain ⟨-, e, he, hclosem⟩ := around_cons.mp harm
  have hdisj : ∀ x ∈ a :: l, x ∉ b :: m := by
    intro x hx hx'
    exact Finset.disjoint_left.mp hst (List.mem_toFinset.mpr hx) (List.mem_toFinset.mpr hx')
  refine ⟨(a :: l) ++ (b :: m), ?_, ?_, ?_⟩
  · exact List.nodup_append.mpr ⟨hnd, hndm, fun x hx y hy heq => hdisj x hx (heq ▸ hy)⟩
  · exact List.toFinset_append
  rw [List.cons_append, around_cons, ← List.cons_append]
  refine ⟨List.IsChain.append ?_ ?_ ?_, e, ?_, ?_, ?_⟩
  · refine har.chain_congr hnd (fun x hx => ?_) (fun x hx hxd => ?_)
    · refine hl x ?_ ?_ ?_
      · simp [hx]
      · rintro rfl
        exact (List.nodup_cons.mp hnd).1 hx
      · rintro rfl
        exact hdisj x (List.mem_cons_of_mem _ hx) List.mem_cons_self
    · refine hr x ?_ hxd ?_
      · exact Finset.mem_union_left _ (List.mem_toFinset.mpr hx)
      · rintro rfl
        exact hdisj _ hx harm.neighbours.2.1
  · refine harm.chain_congr hndm (fun x hx => ?_) (fun x hx hxe => ?_)
    · refine hl x ?_ ?_ ?_
      · simp [hx]
      · rintro rfl
        exact hdisj x List.mem_cons_self (List.mem_cons_of_mem _ hx)
      · rintro rfl
        exact (List.nodup_cons.mp hndm).1 hx
    · refine hr x ?_ ?_ hxe
      · exact Finset.mem_union_right _ (List.mem_toFinset.mpr hx)
      · rintro rfl
        exact hdisj _ har.neighbours.2.1 hx
  · intro x hx y hy
    obtain rfl : d = x := Option.some.inj (hd.symm.trans hx)
    obtain rfl : b = y := Option.some.inj hy
    exact ⟨by rw [← hclose.2]; exact hrla, by rw [hlb, hclose.2]⟩
  · rw [List.getLast?_append, he]
    rfl
  · rw [← hclosem.2]
    exact hrlb
  · rw [hla, hclosem.2]

end Rings

end GccCore.Lib.Ring
