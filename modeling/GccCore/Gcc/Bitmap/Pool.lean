import GccCore.Gcc.Bitmap.Basic
import GccCore.Lib.LinkedList
import Mathlib.Algebra.GroupWithZero.Nat

/-!
# `gcc/bitmap.c`: the pool of elements

The free list is a list of lists: its chains follow the `next` links, and their first elements the
`prev` links. A chain is pushed as a whole by `bitmap_elt_clear_from`, and its other elements keep
`prev` links that mean nothing.

* **Where the elements are** (`Rep`): in a chain of the free list, in the list of a bitmap, or in the
  hand of the caller of `bitmap_element_allocate` until it is linked.
* **Each function moves elements** between two of these places (`allocate_spec`, `free_spec`,
  `clearFrom_spec`, `link_spec`, `insertAfter_spec`).
* **Runs** (`bitmap_element_pool`): the places are disjoint and hold every element that was created,
  once; so the element that is allocated is in no bitmap. If bitmaps are cut off where their indices grow, `current` is always an
  element (`OrderedRun.hasCurrent`).
-/

namespace GccCore.Gcc.Bitmap

open GccCore.Lib.LinkedList

section Definitions

variable {β : Type}

/-- The `next` links. -/
def nexts (mem : ℕ → BitmapElement β) : ℕ → Option ℕ := fun a => (mem a).next

/-- The `prev` links. -/
def prevs (mem : ℕ → BitmapElement β) : ℕ → Option ℕ := fun a => (mem a).prev

/-- Where an element can be. Source: `bitmap.h` (`struct bitmap_element_def`). -/
inductive Place
  | free (pool : Option ℕ)
  | bitmap (head : ℕ)
  | hand (pool : Option ℕ)

/-- The chains of the free lists, the lists of the bitmaps, and the elements in hand. -/
structure Places where
  free : Option ℕ → List (List ℕ)
  list : ℕ → List ℕ
  hand : Option ℕ → List ℕ

/-- What is in a place. -/
def Places.content (s : Places) : Place → List ℕ
  | .free q => (s.free q).flatten
  | .bitmap b => s.list b
  | .hand q => s.hand q

/-- The pool that the elements of a place come from. Source: `bitmap.h` (`obstack`). -/
def Place.pool (head : ℕ → BitmapHead) : Place → Option ℕ
  | .free q => q
  | .bitmap b => (head b).obstack
  | .hand q => q

/-- **The pointers show the places**, which are disjoint and hold what was created; under the condition `o` on the run, `current` is
an element of its bitmap.
Source: `bitmap.h` (comment on `struct bitmap_element_def`) -/
structure Rep (o : Prop) (st : State β) (s : Places) : Prop where
  pool : ∀ q, Pool (nexts st.mem) (prevs st.mem) (st.elements q) (s.free q)
  linked : ∀ b, ∃ last, Seg (nexts st.mem) (prevs st.mem) none (st.head b).first (s.list b) last none
  current : ∀ b, (st.head b).current = none → s.list b = []
  element : o → ∀ b c, (st.head b).current = some c → c ∈ s.list b
  apart : Apart s.content
  created : ∀ q a, a ∈ st.created q ↔ ∃ x : Place, x.pool st.head = q ∧ a ∈ s.content x

/-- What follows an element has larger indices than the element before it.
Source: `bitmap.c` `bitmap_elt_clear_from` (`head->current->indx > prev->indx`) -/
def Growing (st : State β) (elt : ℕ) : Prop :=
  ∀ x c, (st.mem elt).prev = some x → Relation.ReflTransGen (fun y z => (st.mem y).next = some z) elt c →
    (st.mem x).indx < (st.mem c).indx

end Definitions

/-! ## Assignments -/

section Assignments

variable {β : Type} (mem : ℕ → BitmapElement β) (p v : Option ℕ) (a : ℕ)

theorem modify_apply {x : ℕ} (f : BitmapElement β → BitmapElement β) :
    modify mem x f a = if a = x then f (mem x) else mem a := by
  unfold modify
  by_cases h : a = x
  · rw [if_pos h, h, Function.update_self]
  · rw [if_neg h, Function.update_of_ne h]

theorem setNext_next : (setNext mem p v a).next = if p = some a then v else (mem a).next := by
  cases p with
  | none => simp [setNext]
  | some x =>
    simp only [setNext, modify_apply, Option.some.injEq, eq_comm (a := x)]
    split_ifs <;> rfl

theorem setNext_prev : (setNext mem p v a).prev = (mem a).prev := by
  cases p with
  | none => rfl
  | some x =>
    simp only [setNext, modify_apply]
    split_ifs with h
    · rw [h]
    · rfl

theorem setNext_indx : (setNext mem p v a).indx = (mem a).indx := by
  cases p with
  | none => rfl
  | some x =>
    simp only [setNext, modify_apply]
    split_ifs with h
    · rw [h]
    · rfl

theorem setPrev_prev : (setPrev mem p v a).prev = if p = some a then v else (mem a).prev := by
  cases p with
  | none => simp [setPrev]
  | some x =>
    simp only [setPrev, modify_apply, Option.some.injEq, eq_comm (a := x)]
    split_ifs <;> rfl

theorem setPrev_next : (setPrev mem p v a).next = (mem a).next := by
  cases p with
  | none => rfl
  | some x =>
    simp only [setPrev, modify_apply]
    split_ifs with h
    · rw [h]
    · rfl

end Assignments

/-! ## Moving elements -/

section Moving

variable {o : Prop} {β : Type} {st : State β} {s s' : Places} {mem' : ℕ → BitmapElement β} {b e elt : ℕ}
  {q : Option ℕ} {h' : BitmapHead} {head' : ℕ → BitmapHead} {elements' : Option ℕ → Option ℕ} {i j : Place}

/-- The elements of a bitmap and those in hand may change their links without harm to a free list. -/
theorem Rep.pool_keep (h : Rep o st s)
    (hkeep : ∀ a, a ∉ s.list b → (∀ q, a ∉ s.hand q) →
      (mem' a).next = (st.mem a).next ∧ (mem' a).prev = (st.mem a).prev) (q : Option ℕ) :
    Pool (nexts mem') (prevs mem') (st.elements q) (s.free q) := by
  have hfree : ∀ a ∈ (s.free q).flatten,
      (mem' a).next = (st.mem a).next ∧ (mem' a).prev = (st.mem a).prev := by
    intro a ha
    refine hkeep a (fun hb => ?_) fun q' hq' => ?_
    · exact h.apart.disjoint (.free q) (.bitmap b) (by simp) ha hb
    · exact h.apart.disjoint (.free q) (.hand q') (by simp) ha hq'
  exact (h.pool q).congr (fun a ha => (hfree a ha).1) fun a ha => (hfree a ha).2

/-- The same for the list of another bitmap. -/
theorem Rep.linked_keep (h : Rep o st s)
    (hkeep : ∀ a, a ∉ s.list b → (∀ q, a ∉ s.hand q) →
      (mem' a).next = (st.mem a).next ∧ (mem' a).prev = (st.mem a).prev) {b' : ℕ} (hb : b' ≠ b) :
    ∃ last, Seg (nexts mem') (prevs mem') none (st.head b').first (s.list b') last none := by
  obtain ⟨last, hseg⟩ := h.linked b'
  have hother : ∀ a ∈ s.list b',
      (mem' a).next = (st.mem a).next ∧ (mem' a).prev = (st.mem a).prev := by
    intro a ha
    refine hkeep a (fun hab => ?_) fun q hq => ?_
    · exact h.apart.disjoint (.bitmap b') (.bitmap b) (by simpa using hb) ha hab
    · exact h.apart.disjoint (.bitmap b') (.hand q) (by simp) ha hq
  exact ⟨last, hseg.congr (fun a ha => (hother a ha).1) fun a ha => (hother a ha).2⟩

/-- Indices and bits do not matter. -/
theorem Rep.congr (h : Rep o st s) (hnext : nexts mem' = nexts st.mem)
    (hprev : prevs mem' = prevs st.mem) : Rep o { st with mem := mem' } s := by
  refine ⟨fun q => ?_, fun b => ?_, h.current, h.element, h.apart, h.created⟩
  · rw [hnext, hprev]
    exact h.pool q
  · rw [hnext, hprev]
    exact h.linked b

/-- An assignment to other fields than the links. -/
theorem links_modify (mem : ℕ → BitmapElement β) (x : ℕ) {f : BitmapElement β → BitmapElement β}
    (hf : ∀ n, (f n).next = n.next ∧ (f n).prev = n.prev) :
    nexts (modify mem x f) = nexts mem ∧ prevs (modify mem x f) = prevs mem := by
  constructor
  · funext a
    rw [nexts, nexts, modify_apply]
    split_ifs with ha
    · rw [(hf _).1, ha]
    · rfl
  · funext a
    rw [prevs, prevs, modify_apply]
    split_ifs with ha
    · rw [(hf _).2, ha]
    · rfl

/-- **Elements move** between two places of one pool. -/
theorem Rep.move (h : Rep o st s)
    (hpool : ∀ q, Pool (nexts mem') (prevs mem') (elements' q) (s'.free q))
    (hlinked : ∀ b, ∃ last,
      Seg (nexts mem') (prevs mem') none (head' b).first (s'.list b) last none)
    (hcurrent : ∀ b, (head' b).current = none → s'.list b = [])
    (helement : o → ∀ b c, (head' b).current = some c → c ∈ s'.list b)
    (hobstack : ∀ b, (head' b).obstack = (st.head b).obstack)
    (hij : i ≠ j) (hsame : i.pool st.head = j.pool st.head)
    (hperm : (s'.content i ++ s'.content j).Perm (s.content i ++ s.content j))
    (hother : ∀ k, k ≠ i → k ≠ j → s'.content k = s.content k) :
    Rep o { st with mem := mem', head := head', elements := elements' } s' := by
  have hpoolOf : ∀ x : Place, x.pool head' = x.pool st.head := by
    intro x
    cases x with
    | free q => rfl
    | bitmap b => exact hobstack b
    | hand q => rfl
  refine ⟨hpool, hlinked, hcurrent, helement, h.apart.move hij hperm hother, fun q a => ?_⟩
  -- an element that moves stays in its pool
  have hmem : ∀ t t' : Places,
      (∀ x ∈ t.content i ++ t.content j, x ∈ t'.content i ++ t'.content j) →
      (∀ k, k ≠ i → k ≠ j → t'.content k = t.content k) →
      (∃ x : Place, x.pool st.head = q ∧ a ∈ t.content x) →
      ∃ x : Place, x.pool st.head = q ∧ a ∈ t'.content x := by
    rintro t t' hsub hsame' ⟨x, hx, ha⟩
    by_cases hxij : x = i ∨ x = j
    · have hpooli : i.pool st.head = q := by
        rcases hxij with rfl | rfl
        · exact hx
        · exact hsame.trans hx
      have ha' : a ∈ t.content i ++ t.content j := by
        rcases hxij with rfl | rfl
        · exact List.mem_append_left _ ha
        · exact List.mem_append_right _ ha
      rcases List.mem_append.mp (hsub a ha') with hi | hj
      · exact ⟨i, hpooli, hi⟩
      · exact ⟨j, hsame.symm.trans hpooli, hj⟩
    · rw [not_or] at hxij
      exact ⟨x, hx, by rwa [hsame' x hxij.1 hxij.2]⟩
  dsimp only
  simp only [h.created q a, hpoolOf]
  exact ⟨hmem s s' (fun x hx => hperm.mem_iff.mpr hx) hother,
    hmem s' s (fun x hx => hperm.mem_iff.mp hx) fun k hi hj => (hother k hi hj).symm⟩

/-- The same, where the list of one bitmap is changed. -/
theorem Rep.moveList (h : Rep o st s)
    (hkeep : ∀ a, a ∉ s.list b → (∀ q, a ∉ s.hand q) →
      (mem' a).next = (st.mem a).next ∧ (mem' a).prev = (st.mem a).prev)
    (hpool : ∀ q, Pool (nexts mem') (prevs mem') (elements' q) (s'.free q))
    (hobstack : h'.obstack = (st.head b).obstack) (hlist : ∀ b' ≠ b, s'.list b' = s.list b')
    (hlinked : ∃ last, Seg (nexts mem') (prevs mem') none h'.first (s'.list b) last none)
    (hcurrent : h'.current = none → s'.list b = []) (helement : o → ∀ c, h'.current = some c → c ∈ s'.list b)
    (hij : i ≠ j) (hsame : i.pool st.head = j.pool st.head)
    (hperm : (s'.content i ++ s'.content j).Perm (s.content i ++ s.content j))
    (hother : ∀ k, k ≠ i → k ≠ j → s'.content k = s.content k) :
    Rep o { st with mem := mem', head := Function.update st.head b h', elements := elements' } s' := by
  refine h.move hpool (fun b' => ?_) (fun b' hnone => ?_) (fun ho b' c hc => ?_) (fun b' => ?_) hij hsame hperm hother
  · by_cases hb : b' = b
    · subst hb
      rw [Function.update_self]
      exact hlinked
    · rw [Function.update_of_ne hb, hlist b' hb]
      exact h.linked_keep hkeep hb
  · by_cases hb : b' = b
    · subst hb
      rw [Function.update_self] at hnone
      exact hcurrent hnone
    · rw [Function.update_of_ne hb] at hnone
      rw [hlist b' hb]
      exact h.current b' hnone
  · by_cases hb : b' = b
    · subst hb
      rw [Function.update_self] at hc
      exact helement ho c hc
    · rw [Function.update_of_ne hb] at hc
      rw [hlist b' hb]
      exact h.element ho b' c hc
  · by_cases hb : b' = b
    · subst hb
      rw [Function.update_self]
      exact hobstack
    · rw [Function.update_of_ne hb]

/-- A place whose list has not changed. -/
theorem content_congr {k : Place} (hfree : ∀ q, k = .free q → s'.free q = s.free q)
    (hlist : ∀ b, k = .bitmap b → s'.list b = s.list b)
    (hhand : ∀ q, k = .hand q → s'.hand q = s.hand q) : s'.content k = s.content k := by
  cases k with
  | free q => exact congrArg List.flatten (hfree q rfl)
  | bitmap b => exact hlist b rfl
  | hand q => exact hhand q rfl

/-- The head of a bitmap after an element has been freed. Source: `bitmap.c` `bitmap_element_free`.
Kind: L -/
theorem freeHead_spec (mem : ℕ → BitmapElement β) (h : BitmapHead) (elt : ℕ)
    (next prev : Option ℕ) :
    (freeHead mem h elt next prev).first = (if h.first = some elt then next else h.first) ∧
      (freeHead mem h elt next prev).obstack = h.obstack ∧
      ((freeHead mem h elt next prev).current = none → h.current = none ∨ (next = none ∧ prev = none)) ∧
      ∀ c, (freeHead mem h elt next prev).current = some c → (c ≠ elt ∧ h.current = some c) ∨ next = some c ∨ prev = some c := by
  obtain ⟨h1, hh1⟩ : ∃ h1, h1 = if h.first = some elt then { h with first := next } else h :=
    ⟨_, rfl⟩
  have hfields : h1.first = (if h.first = some elt then next else h.first) ∧
      h1.obstack = h.obstack ∧ h1.current = h.current := by
    rw [hh1]
    split_ifs <;> exact ⟨rfl, rfl, rfl⟩
  rw [← hfields.1, ← hfields.2.1]
  simp only [freeHead, ← hh1]
  split_ifs with hcur
  · cases hor : next.or prev with
    | some c =>
      refine ⟨rfl, rfl, fun hnone => (by cases hnone), fun c' hc' => .inr ?_⟩
      cases hc'
      exact (Option.or_eq_some_iff.mp hor).imp id And.right
    | none =>
      refine ⟨rfl, rfl, fun _ => .inr ?_, fun c' hc' => by cases hc'⟩
      exact Option.or_eq_none_iff.mp hor
  · refine ⟨rfl, rfl, fun hnone => .inl (hfields.2.2.symm.trans hnone), fun c hc => .inl ⟨?_, hfields.2.2.symm.trans hc⟩⟩
    rintro rfl
    exact hcur hc

/-- **`bitmap_element_free`** moves an element of a bitmap to the free list, as a chain of its own.
Source: `bitmap.c` `bitmap_element_free`, `bitmap_elem_to_freelist`
Kind: L -/
theorem free_spec (h : Rep o st s) {l m : List ℕ} (hlist : s.list b = l ++ elt :: m)
    (hq : (st.head b).obstack = q) :
    Rep o (bitmapElementFree st b elt)
      { s with
        free := Function.update s.free q ([elt] :: s.free q)
        list := Function.update s.list b (l ++ m) } := by
  obtain ⟨last, hseg⟩ := h.linked b
  have hnd : (s.list b).Nodup := h.apart.nodup (.bitmap b)
  rw [hlist] at hseg hnd
  have helt : elt ∈ l ++ elt :: m := List.mem_append_right l (List.mem_cons_self ..)
  obtain ⟨hprev, hnext⟩ := hseg.neighbours
  have hrest : elt ∉ l ++ m := (List.nodup_cons.mp (List.perm_middle.nodup_iff.mp hnd)).1
  -- the memory afterwards
  obtain ⟨mem', hmem'⟩ : ∃ mem', mem' = modify
      (setPrev (setNext st.mem (st.mem elt).prev (st.mem elt).next) (st.mem elt).next
        (st.mem elt).prev) elt
      (fun e => { e with next := none, prev := st.elements q }) := ⟨_, rfl⟩
  have hne : ∀ a ≠ elt,
      (mem' a).next = (if (st.mem elt).prev = some a then (st.mem elt).next else (st.mem a).next) ∧
      (mem' a).prev = (if (st.mem elt).next = some a then (st.mem elt).prev else (st.mem a).prev) := by
    intro a ha
    rw [hmem', modify_apply, if_neg ha, setPrev_next, setNext_next, setPrev_prev, setNext_prev]
    exact ⟨rfl, rfl⟩
  have heq : (mem' elt).next = none ∧ (mem' elt).prev = st.elements q := by
    rw [hmem', modify_apply, if_pos rfl]
    exact ⟨rfl, rfl⟩
  have hkeep : ∀ a, a ∉ s.list b → (∀ q, a ∉ s.hand q) →
      (mem' a).next = (st.mem a).next ∧ (mem' a).prev = (st.mem a).prev := by
    intro a ha _
    rw [hlist] at ha
    obtain ⟨hn, hp⟩ := hne a fun h => ha (h ▸ helt)
    refine ⟨hn.trans (if_neg fun h => ha ?_), hp.trans (if_neg fun h => ha ?_)⟩
    · exact List.mem_append_left _ (hprev a h)
    · exact List.mem_append_right _ (List.mem_cons_of_mem _ (hnext a h))
  have hkept : ∀ a ∈ l ++ m,
      nexts mem' a = (if (st.mem elt).prev = some a then (st.mem elt).next else (st.mem a).next) ∧
        prevs mem' a = if (st.mem elt).next = some a then (st.mem elt).prev else (st.mem a).prev :=
    fun a ha => hne a fun h => hrest (h ▸ ha)
  have hremove := hseg.remove hnd hkept
  obtain ⟨hfirst, hobstack, hcurrent, helement⟩ := freeHead_spec
    (setPrev (setNext st.mem (st.mem elt).prev (st.mem elt).next) (st.mem elt).next
      (st.mem elt).prev) (st.head b) elt (st.mem elt).next (st.mem elt).prev
  have hfree : bitmapElementFree st b elt =
      { st with
        mem := mem'
        head := Function.update st.head b (freeHead
          (setPrev (setNext st.mem (st.mem elt).prev (st.mem elt).next) (st.mem elt).next
            (st.mem elt).prev) (st.head b) elt (st.mem elt).next (st.mem elt).prev)
        elements := Function.update st.elements q (some elt) } := by
    simp only [bitmapElementFree, bitmapElemToFreelist, Function.update_self, hobstack, hq, hmem']
  rw [hfree]
  refine h.moveList hkeep (fun q' => ?_) hobstack (fun b' hb' => ?_) ?_ ?_ ?_
    (i := .bitmap b) (j := .free q) (by simp) hq ?_ fun k hk hk' => ?_
  · by_cases hqq : q' = q
    · subst hqq
      simp only [Function.update_self]
      refine ⟨elt, rfl, ⟨rfl, heq.1⟩, ?_⟩
      rw [show prevs mem' elt = st.elements q' from heq.2]
      exact h.pool_keep hkeep q'
    · simp only [Function.update_of_ne hqq]
      exact h.pool_keep hkeep q'
  · exact Function.update_of_ne hb' ..
  · simp only [hfirst, hseg.first_iff hnd, Function.update_self]
    exact hremove
  · intro hnone
    simp only [Function.update_self, List.append_eq_nil_iff]
    rcases hcurrent hnone with hnone | ⟨hn, hp⟩
    · have hempty := h.current b hnone
      rw [hlist] at hempty
      exact absurd hempty (by simp)
    · exact ⟨hseg.ends.1 hp, hseg.ends.2 hn⟩
  · intro ho c hc
    simp only [Function.update_self, List.mem_append]
    rcases helement c hc with ⟨hne, hc⟩ | hn | hp
    · have hin := h.element ho b c hc
      rw [hlist, List.mem_append, List.mem_cons] at hin
      tauto
    · exact .inr (hnext c hn)
    · exact .inl (hprev c hp)
  · simp only [Places.content, Function.update_self, hlist]
    exact List.perm_middle.trans (List.perm_middle.symm.append_right _)
  · exact content_congr (fun q' hkq => Function.update_of_ne (by rintro rfl; exact hk' hkq) ..)
      (fun b' hkb => Function.update_of_ne (by rintro rfl; exact hk hkb) ..) fun _ _ => rfl

/-- The head of a bitmap that is cut off. Source: `bitmap.c` `bitmap_elt_clear_from`. Kind: L -/
theorem clearHead_spec (mem : ℕ → BitmapElement β) (h : BitmapHead) (prev : Option ℕ)
    (hcurrent : h.current = none → prev = none) :
    ∃ h', clearHead mem h prev = some h' ∧ h'.first = (if prev = none then none else h.first) ∧
      h'.obstack = h.obstack ∧ (h'.current = none → prev = none) ∧
      ∀ c, h'.current = some c → ∃ x, prev = some x ∧ (c = x ∨ (h.current = some c ∧ ¬ (mem c).indx > (mem x).indx)) := by
  cases prev with
  | none => exact ⟨_, rfl, rfl, rfl, fun _ => rfl, fun c hc => by cases hc⟩
  | some prev =>
    cases hc : h.current with
    | none => exact absurd (hcurrent hc) (by simp)
    | some current =>
      simp only [clearHead, hc, bind, Option.bind, reduceCtorEq, if_false]
      split_ifs with hlt
      · exact ⟨_, rfl, rfl, rfl, fun hnone => (by cases hnone), fun c hc' => ⟨prev, rfl, .inl (Option.some.inj hc').symm⟩⟩
      · refine ⟨h, rfl, rfl, rfl, fun hnone => absurd (hc.symm.trans hnone) (by simp), fun c hc' =>
          ⟨prev, rfl, .inr ⟨hc.symm.trans hc', ?_⟩⟩⟩
        obtain rfl := Option.some.inj (hc.symm.trans hc')
        exact hlt

/-- **`bitmap_elt_clear_from`** moves an element and what follows it to the free list, as one chain.
Source: `bitmap.c` `bitmap_elt_clear_from`
Kind: L -/
theorem clearFrom_spec (h : Rep o st s) {l m : List ℕ} (hlist : s.list b = l ++ elt :: m)
    (hq : (st.head b).obstack = q) (hgrowing : o → Growing st elt) :
    ∃ st', bitmapEltClearFrom st b (some elt) = some st' ∧
      Rep o st'
        { s with
          free := Function.update s.free q ((elt :: m) :: s.free q)
          list := Function.update s.list b l } := by
  obtain ⟨last, hseg⟩ := h.linked b
  have hnd : (s.list b).Nodup := h.apart.nodup (.bitmap b)
  rw [hlist] at hseg hnd
  have helt : elt ∈ l ++ elt :: m := List.mem_append_right l (List.mem_cons_self ..)
  obtain ⟨hprev, -⟩ := hseg.neighbours
  have hdisj : l.Disjoint (elt :: m) := (List.nodup_append'.mp hnd).2.2
  have hempty : (st.mem elt).prev = none ↔ l = [] := by
    refine ⟨hseg.ends.1, ?_⟩
    rintro rfl
    exact hseg.start.2
  -- the memory afterwards
  obtain ⟨mem', hmem'⟩ : ∃ mem', mem' = modify (setNext st.mem (st.mem elt).prev none) elt
      (fun e => { e with prev := st.elements q }) := ⟨_, rfl⟩
  have hnextAll : ∀ a, (mem' a).next =
      if (st.mem elt).prev = some a then none else (st.mem a).next := by
    intro a
    rw [← setNext_next, hmem', modify_apply]
    split_ifs with ha
    · rw [ha]
    · rfl
  have hprevAll : ∀ a, (mem' a).prev = if a = elt then st.elements q else (st.mem a).prev := by
    intro a
    rw [hmem', modify_apply]
    split_ifs
    · rfl
    · exact setNext_prev ..
  have hkeep : ∀ a, a ∉ s.list b → (∀ q, a ∉ s.hand q) →
      (mem' a).next = (st.mem a).next ∧ (mem' a).prev = (st.mem a).prev := by
    intro a ha _
    rw [hlist] at ha
    refine ⟨(hnextAll a).trans (if_neg fun h => ha ?_), (hprevAll a).trans (if_neg fun h => ha ?_)⟩
    · exact List.mem_append_left _ (hprev a h)
    · exact h ▸ helt
  have hkept : ∀ a ∈ l,
      nexts mem' a = (if (st.mem elt).prev = some a then none else (st.mem a).next) ∧
        prevs mem' a = (st.mem a).prev :=
    fun a ha => ⟨hnextAll a, (hprevAll a).trans (if_neg fun h =>
      hdisj (h ▸ ha) (List.mem_cons_self ..))⟩
  have htruncate := hseg.truncate hnd hkept
  -- the chain keeps its links
  have hold : Chain (nexts st.mem) (some elt) (elt :: m) := by
    obtain ⟨r, p, -, hseg2⟩ := seg_append.mp hseg
    have hp : p = some elt := hseg2.1
    exact hp ▸ hseg2.chain
  have hchain : Chain (nexts mem') (some elt) (elt :: m) :=
    hold.congr fun a ha => (hnextAll a).trans (if_neg fun h => hdisj (hprev a h) ha)
  obtain ⟨h', hclear, hfirst, hobstack, hcurrent, helement⟩ :=
    clearHead_spec (setNext st.mem (st.mem elt).prev none) (st.head b)
      (st.mem elt).prev fun hnone => by
        have := h.current b hnone
        rw [hlist] at this
        exact absurd this (by simp)
  refine ⟨{ st with
    mem := mem'
    head := Function.update st.head b h'
    elements := Function.update st.elements q (some elt) }, ?_, ?_⟩
  · simp only [bitmapEltClearFrom, hclear, hq, hmem', bind, Option.bind]
  refine h.moveList hkeep (fun q' => ?_) hobstack (fun b' hb' => ?_) ?_ ?_ ?_
    (i := .bitmap b) (j := .free q) (by simp) hq ?_ fun k hk hk' => ?_
  · by_cases hqq : q' = q
    · subst hqq
      simp only [Function.update_self]
      refine ⟨elt, rfl, hchain, ?_⟩
      rw [show prevs mem' elt = st.elements q' from (hprevAll elt).trans (if_pos rfl)]
      exact h.pool_keep hkeep q'
    · simp only [Function.update_of_ne hqq]
      exact h.pool_keep hkeep q'
  · exact Function.update_of_ne hb' ..
  · simp only [hfirst, hempty, Function.update_self]
    exact htruncate
  · intro hnone
    simp only [Function.update_self]
    exact hempty.mp (hcurrent hnone)
  · intro ho c hc
    simp only [Function.update_self]
    obtain ⟨x, hx, rfl | ⟨hc, hle⟩⟩ := helement c hc
    · exact hprev c hx
    · have hin := h.element ho b c hc
      rw [hlist, List.mem_append] at hin
      refine hin.resolve_right fun hm => hle ?_
      rw [setNext_indx, setNext_indx]
      exact hgrowing ho x c hx (hold.reaches hm)
  · simp only [Places.content, Function.update_self, hlist, List.flatten_cons, List.append_assoc]
    exact List.Perm.refl _
  · exact content_congr (fun q' hkq => Function.update_of_ne (by rintro rfl; exact hk' hkq) ..)
      (fun b' hkb => Function.update_of_ne (by rintro rfl; exact hk hkb) ..) fun _ _ => rfl

/-- **A new element** comes into hand. Source: `bitmap.c` `bitmap_element_allocate` (`XOBNEW`).
Kind: L -/
theorem Rep.create (h : Rep o st s) {fresh : ℕ} (hfresh : ∀ q, fresh ∉ st.created q)
    (q : Option ℕ) :
    Rep o { st with created := Function.update st.created q (insert fresh (st.created q)) }
      { s with hand := Function.update s.hand q (fresh :: s.hand q) } := by
  have hnot : ∀ x : Place, fresh ∉ s.content x := fun x hx =>
    hfresh _ ((h.created _ fresh).mpr ⟨x, rfl, hx⟩)
  have hother : ∀ x : Place, x ≠ .hand q → ({ s with
      hand := Function.update s.hand q (fresh :: s.hand q) } : Places).content x = s.content x :=
    fun x hx => content_congr (fun _ _ => rfl) (fun _ _ => rfl) fun q' hxq =>
      Function.update_of_ne (by rintro rfl; exact hx hxq) ..
  have hmem : ∀ (x : Place) a, a ∈ ({ s with
      hand := Function.update s.hand q (fresh :: s.hand q) } : Places).content x ↔
      a ∈ s.content x ∨ (a = fresh ∧ x = .hand q) := by
    intro x a
    by_cases hx : x = .hand q
    · subst hx
      simp [Places.content, or_comm]
    · simp [hother x hx, hx]
  refine ⟨h.pool, h.linked, h.current, h.element,
    h.apart.add hnot (i := .hand q) (Function.update_self ..) hother, fun q' a => ?_⟩
  have hold := h.created q' a
  simp only [hmem]
  by_cases hqq : q' = q
  · subst hqq
    rw [Function.update_self, Finset.mem_insert, hold]
    constructor
    · rintro (ha | ⟨x, hx, ha⟩)
      · exact ⟨.hand q', rfl, .inr ⟨ha, rfl⟩⟩
      · exact ⟨x, hx, .inl ha⟩
    · rintro ⟨x, hx, ha | ⟨ha, -⟩⟩
      · exact .inr ⟨x, hx, ha⟩
      · exact .inl ha
  · rw [Function.update_of_ne hqq, hold]
    constructor
    · rintro ⟨x, hx, ha⟩
      exact ⟨x, hx, .inl ha⟩
    · rintro ⟨x, hx, ha | ⟨-, rfl⟩⟩
      · exact ⟨x, hx, ha⟩
      · exact absurd hx.symm hqq

/-- **The first free element** comes into hand, and the pointer leads to what is left.
Source: `bitmap.c` `bitmap_element_allocate`
Kind: L -/
theorem Rep.take (h : Rep o st s) {p : Option ℕ} {free' : List (List ℕ)}
    (hnext : nexts mem' = nexts st.mem)
    (hprev : ∀ a, a ∉ (s.free q).flatten → (mem' a).prev = (st.mem a).prev)
    (hp : Pool (nexts mem') (prevs mem') p free') (hflat : (s.free q).flatten = e :: free'.flatten) :
    Rep o { st with mem := mem', elements := Function.update st.elements q p }
      { s with
        free := Function.update s.free q free'
        hand := Function.update s.hand q (e :: s.hand q) } := by
  refine h.move (fun q' => ?_) (fun b' => ?_) h.current h.element (fun b' => rfl)
    (i := .free q) (j := .hand q) (by simp) rfl ?_ fun k hk hk' => ?_
  · by_cases hqq : q' = q
    · subst hqq
      simp only [Function.update_self]
      exact hp
    · simp only [Function.update_of_ne hqq]
      refine (h.pool q').congr (fun a _ => by rw [hnext]) fun a ha => hprev a fun ha' => ?_
      exact h.apart.disjoint (.free q') (.free q) (by simpa using hqq) ha ha'
  · obtain ⟨last, hseg⟩ := h.linked b'
    refine ⟨last, hseg.congr (fun a _ => by rw [hnext]) fun a ha => hprev a fun ha' => ?_⟩
    exact h.apart.disjoint (.bitmap b') (.free q) (by simp) ha ha'
  · simp only [Places.content, Function.update_self, hflat]
    exact List.perm_middle
  · exact content_congr
      (fun q' hkq => Function.update_of_ne (by rintro rfl; exact hk hkq) ..) (fun _ _ => rfl)
      fun q' hkq => Function.update_of_ne (by rintro rfl; exact hk' hkq) ..

/-- **`bitmap_element_allocate`** moves the first element of the free list into the hand of its
caller, or a new one.
Source: `bitmap.c` `bitmap_element_allocate`
Kind: L -/
theorem allocate_spec [Zero β] (h : Rep o st s) (hq : (st.head b).obstack = q) {fresh : ℕ}
    (hfresh : ∀ q, fresh ∉ st.created q) :
    ∃ e st' free', bitmapElementAllocate st b fresh = (e, st') ∧ st'.head = st.head ∧
      Rep o st'
        { s with
          free := Function.update s.free q free'
          hand := Function.update s.hand q (e :: s.hand q) } := by
  have hpool := h.pool q
  have hbits : ∀ (mem : ℕ → BitmapElement β) (e : ℕ),
      nexts (modify mem e fun e => { e with bits := 0 }) = nexts mem ∧
      prevs (modify mem e fun e => { e with bits := 0 }) = prevs mem :=
    fun mem e => links_modify mem e (by exact fun n => ⟨rfl, rfl⟩)
  cases hel : st.elements q with
  | none =>
    have hrep := (h.create hfresh q).congr (hbits st.mem fresh).1 (hbits st.mem fresh).2
    have hsame : Function.update s.free q (s.free q) = s.free := Function.update_eq_self ..
    refine ⟨fresh, _, s.free q, ?_, by exact rfl, (congrArg (fun f => Rep o _ { s with
      free := f, hand := Function.update s.hand q (fresh :: s.hand q) }) hsame).mpr hrep⟩
    simp only [bitmapElementAllocate, hq, hel]
  | some e =>
    rw [hel] at hpool
    obtain ⟨c, cs, hcs, hchain, hrest⟩ := hpool.uncons
    cases hn : (st.mem e).next with
    | none =>
      -- the inner list was a singleton
      rw [show nexts st.mem e = none from hn] at hchain
      have hc : c = [] := by
        cases c with
        | nil => rfl
        | cons x c => exact absurd hchain.1 (by simp)
      subst hc
      have hflat : (s.free q).flatten = e :: cs.flatten := by
        rw [hcs]
        rfl
      have hrep := (h.take (show nexts st.mem = nexts st.mem from rfl) (fun _ _ => rfl) hrest hflat).congr
        (hbits st.mem e).1 (hbits st.mem e).2
      refine ⟨e, _, cs, ?_, by exact rfl, hrep⟩
      simp only [bitmapElementAllocate, hq, hel, hn]
      rfl
    | some n =>
      -- the next element of the inner list becomes the first one
      rw [show nexts st.mem e = some n from hn] at hchain
      obtain ⟨c', rfl, hchain'⟩ : ∃ c', c = n :: c' ∧ Chain (nexts st.mem) (nexts st.mem n) c' := by
        cases c with
        | nil => exact absurd hchain (by simp [Chain])
        | cons x c =>
          obtain rfl : n = x := Option.some.inj hchain.1
          exact ⟨c, rfl, hchain.2⟩
      have hflat : (s.free q).flatten = e :: ((n :: c') :: cs).flatten := by
        rw [hcs]
        rfl
      have hnd : (s.free q).flatten.Nodup := h.apart.nodup (.free q)
      rw [hflat, List.flatten_cons, List.cons_append] at hnd
      have hncs : n ∉ cs.flatten := fun hmem =>
        (List.nodup_cons.mp (List.nodup_cons.mp hnd).2).1 (List.mem_append_right _ hmem)
      have hprev := setPrev_prev st.mem (some n) (st.mem e).prev
      have hnext : nexts (setPrev st.mem (some n) (st.mem e).prev) = nexts st.mem :=
        funext (setPrev_next st.mem (some n) (st.mem e).prev)
      have hpool' : Pool (nexts (setPrev st.mem (some n) (st.mem e).prev))
          (prevs (setPrev st.mem (some n) (st.mem e).prev)) (some n) ((n :: c') :: cs) := by
        rw [hnext]
        refine ⟨n, rfl, ⟨rfl, hchain'⟩, ?_⟩
        rw [show prevs (setPrev st.mem (some n) (st.mem e).prev) n = prevs st.mem e from
          (hprev n).trans (if_pos rfl)]
        refine hrest.congr (fun a _ => rfl) fun a ha => (hprev a).trans (if_neg ?_)
        rintro ⟨⟩
        exact hncs ha
      have hrep := (h.take hnext (fun a ha => (hprev a).trans (if_neg (by
        rintro ⟨⟩
        exact ha (by simp [hflat])))) hpool' hflat).congr
        (hbits (setPrev st.mem (some n) (st.mem e).prev) e).1
        (hbits (setPrev st.mem (some n) (st.mem e).prev) e).2
      refine ⟨e, _, (n :: c') :: cs, ?_, by exact rfl, hrep⟩
      simp only [bitmapElementAllocate, hq, hel, hn]
      rfl

/-! ## Linking the new element -/

/-- An element in hand is in no bitmap. -/
theorem Rep.notMem_of_hand (h : Rep o st s) {hand' : List ℕ} (hhand : s.hand q = e :: hand') (b : ℕ) :
    e ∉ s.list b := by
  refine h.apart.disjoint (.hand q) (.bitmap b) (by simp) ?_
  rw [Places.content, hhand]
  exact List.mem_cons_self ..

/-- **An element in hand is linked** between two parts of the list of a bitmap.
Source: `bitmap.c` `bitmap_element_link`, `bitmap_elt_insert_after`
Kind: L -/
theorem insert_spec (h : Rep o st s) (h' : BitmapHead) (mem' : ℕ → BitmapElement β)
    {l m hand' : List ℕ} {r p last : Option ℕ}
    (hlist : s.list b = l ++ m) (hhand : s.hand q = e :: hand')
    (hl : Seg (nexts st.mem) (prevs st.mem) none (st.head b).first l r p)
    (hm : Seg (nexts st.mem) (prevs st.mem) r p m last none)
    (hnew : (mem' e).next = p ∧ (mem' e).prev = r)
    (hold : ∀ a ≠ e, (mem' a).next = (if r = some a then some e else (st.mem a).next) ∧
      (mem' a).prev = if p = some a then some e else (st.mem a).prev)
    (hq : (st.head b).obstack = q) (hobstack : h'.obstack = (st.head b).obstack)
    (hfirst : h'.first = if l = [] then some e else (st.head b).first)
    (hcurrent : h'.current ≠ none) (helement : o → ∀ c, h'.current = some c → c ∈ l ++ e :: m) :
    Rep o { st with mem := mem', head := Function.update st.head b h' }
      { s with
        list := Function.update s.list b (l ++ e :: m)
        hand := Function.update s.hand q hand' } := by
  have hnd : (s.list b).Nodup := h.apart.nodup (.bitmap b)
  rw [hlist] at hnd
  have he : e ∈ s.hand q := by
    rw [hhand]
    exact List.mem_cons_self ..
  have hne : e ∉ l ++ m := hlist ▸ h.notMem_of_hand hhand b
  have hr : ∀ a, r = some a → a ∈ l := by
    intro a ha
    by_cases hl0 : l = []
    · subst hl0
      exact absurd (hl.1.symm.trans ha) (by simp)
    · obtain ⟨x, hx, hrx⟩ := hl.last_mem hl0
      obtain rfl : a = x := Option.some.inj (ha.symm.trans hrx)
      exact hx
  have hp : ∀ a, p = some a → a ∈ m := by
    intro a ha
    cases m with
    | nil => exact absurd (hm.2.trans ha) (by simp)
    | cons x m =>
      obtain rfl : a = x := Option.some.inj (ha.symm.trans hm.1)
      exact List.mem_cons_self ..
  have hkeep : ∀ a, a ∉ s.list b → (∀ q, a ∉ s.hand q) →
      (mem' a).next = (st.mem a).next ∧ (mem' a).prev = (st.mem a).prev := by
    intro a ha haq
    rw [hlist, List.mem_append, not_or] at ha
    obtain ⟨hn, hpr⟩ := hold a fun heq => haq q (heq ▸ he)
    exact ⟨hn.trans (if_neg fun h => ha.1 (hr a h)), hpr.trans (if_neg fun h => ha.2 (hp a h))⟩
  have hkept : ∀ a ∈ l ++ m,
      nexts mem' a = (if r = some a then some e else (st.mem a).next) ∧
        prevs mem' a = if p = some a then some e else (st.mem a).prev :=
    fun a ha => hold a fun heq => hne (heq ▸ ha)
  have hinsert := hl.insert hm hnd hnew hkept
  refine h.moveList hkeep (fun q' => h.pool_keep hkeep q') hobstack (fun b' hb' => ?_) ?_
    (fun hnone => absurd hnone hcurrent) (fun ho c hc => ?_) (i := .hand q) (j := .bitmap b) (by simp) hq.symm ?_
    fun k hk hk' => ?_
  · exact Function.update_of_ne hb' ..
  · simp only [hfirst, Function.update_self]
    exact hinsert
  · simp only [Function.update_self]
    exact helement ho c hc
  · simp only [Places.content, Function.update_self, hlist, hhand]
    exact (List.perm_middle.append_left hand').trans List.perm_middle
  · exact content_congr (fun _ _ => rfl)
      (fun b' hkb => Function.update_of_ne (by rintro rfl; exact hk' hkb) ..)
      fun q' hkq => Function.update_of_ne (by rintro rfl; exact hk hkq) ..

/-- The list of a bitmap around one of its elements. -/
theorem Rep.split (h : Rep o st s) {l m : List ℕ} (hlist : s.list b = l ++ elt :: m) :
    ∃ last, Seg (nexts st.mem) (prevs st.mem) none (st.head b).first l (st.mem elt).prev (some elt) ∧
      Seg (nexts st.mem) (prevs st.mem) (some elt) (st.mem elt).next m last none := by
  obtain ⟨last, hseg⟩ := h.linked b
  rw [hlist] at hseg
  obtain ⟨r, p, h1, hp, hr, h2⟩ := seg_append.mp hseg
  subst hp hr
  exact ⟨last, h1, h2⟩

/-- **`bitmap_elt_insert_after`** puts a new element after an element of the list, or first.
Source: `bitmap.c` `bitmap_elt_insert_after`
Kind: L -/
theorem insertAfter_spec [Zero β] (h : Rep o st s) {elt : Option ℕ} (indx : ℕ) {fresh : ℕ}
    (hfresh : ∀ q, fresh ∉ st.created q) (helt : ∀ x, elt = some x → x ∈ s.list b)
    (hhand : ∀ q, s.hand q = []) :
    ∃ e st' s', bitmapEltInsertAfter st b elt indx fresh = some (e, st') ∧ Rep o st' s' ∧
      ∀ q, s'.hand q = [] := by
  obtain ⟨e, st1, free', halloc, hhead, hrep⟩ := allocate_spec (b := b) h rfl hfresh
  generalize hq : (st.head b).obstack = q at hrep
  obtain ⟨hnext1, hprev1⟩ := links_modify st1.mem e (f := fun x => { x with indx := indx })
    fun n => ⟨rfl, rfl⟩
  have hrep1 := hrep.congr hnext1 hprev1
  have hempty : ∀ q', Function.update (Function.update s.hand q (e :: s.hand q)) q [] q' = [] := by
    intro q'
    rw [Function.update_idem]
    by_cases hqq : q' = q
    · rw [hqq, Function.update_self]
    · rw [Function.update_of_ne hqq, hhand]
  have hq1 : (st1.head b).obstack = q := by rw [hhead, hq]
  have hhand1 : Function.update s.hand q (e :: s.hand q) q = e :: [] := by
    rw [Function.update_self, hhand]
  generalize hmem1 : modify st1.mem e (fun x => { x with indx := indx }) = mem1 at hrep1
  cases elt with
  | none =>
    obtain ⟨last, hseg⟩ := hrep1.linked b
    obtain ⟨h', hh'⟩ : ∃ h', h' = if (st1.head b).current = none then
      { st1.head b with current := some e, indx := indx } else st1.head b := ⟨_, rfl⟩
    have hobstack : h'.obstack = (st1.head b).obstack := by
      rw [hh']
      split_ifs <;> rfl
    have hcurrent : h'.current ≠ none := by
      rw [hh']
      split_ifs with hc
      · simp
      · exact hc
    have hrep2 := insert_spec hrep1 (b := b) (l := []) { h' with first := some e }
      (modify (setPrev (modify mem1 e fun x => { x with next := (st1.head b).first })
        (st1.head b).first (some e)) e fun x => { x with prev := none })
      rfl hhand1 ⟨rfl, rfl⟩ hseg (by simp [modify_apply, setPrev_next])
      (fun a ha => by simp [modify_apply, ha, setPrev_next, setPrev_prev]) hq1 hobstack rfl hcurrent fun ho c hc => by
        rw [hh'] at hc
        split_ifs at hc with hnone
        · exact List.mem_cons.mpr (.inl (Option.some.inj hc).symm)
        · exact List.mem_cons_of_mem _ (hrep1.element ho b c hc)
    refine ⟨e, _, _, ?_, hrep2, hempty⟩
    simp only [bitmapEltInsertAfter, halloc, hmem1, hh']
  | some elt =>
    have helt' : elt ∈ s.list b := helt elt rfl
    obtain ⟨l, m, hlist⟩ := List.append_of_mem helt'
    obtain ⟨last, hl, hm⟩ := Rep.split hrep1 (b := b) hlist
    have hne : elt ≠ e := by
      rintro rfl
      exact hrep1.notMem_of_hand hhand1 b helt'
    have hcurrent : (st1.head b).current ≠ none := by
      intro hnone
      have hnil := hrep1.current b hnone
      dsimp only at hnil
      rw [hlist] at hnil
      exact absurd hnil (by simp)
    have hl' : Seg (nexts mem1) (prevs mem1) none (st1.head b).first (l ++ [elt]) (some elt)
        (mem1 elt).next := seg_append.mpr ⟨_, _, hl, rfl, rfl, rfl, rfl⟩
    have hrep2 := insert_spec hrep1 (b := b) (l := l ++ [elt]) (m := m) (st1.head b)
      (modify (modify (setPrev (modify mem1 e fun x => { x with next := (mem1 elt).next })
        (mem1 elt).next (some e)) elt fun x => { x with next := some e }) e
        fun x => { x with prev := some elt })
      (by simpa using hlist) hhand1 hl' hm
      (by simp [modify_apply, hne.symm, setPrev_next])
      (fun a ha => by
        by_cases hae : a = elt
        · subst hae
          simp [modify_apply, ha, setPrev_prev]
        · simp [modify_apply, ha, hae, Ne.symm hae, setPrev_next, setPrev_prev])
      hq1 rfl (by simp) hcurrent fun ho c hc => by
        have hin := hrep1.element ho b c hc
        dsimp only at hin
        rw [hlist] at hin
        simp only [List.mem_append, List.mem_cons] at hin ⊢
        tauto
    rw [Function.update_eq_self] at hrep2
    refine ⟨e, _, _, ?_, hrep2, hempty⟩
    simp only [bitmapEltInsertAfter, halloc, hmem1, if_neg hcurrent]

/-- The walk to the place of an index stays in the list, and ends.
Source: `bitmap.c` `bitmap_element_link`
Kind: L -/
theorem linkBefore_spec (h : Rep o st s) (indx : ℕ) {l m : List ℕ} (hlist : s.list b = l ++ elt :: m)
    (fuel : ℕ) :
    (∀ ptr, linkBefore st.mem indx fuel elt = some ptr → ptr ∈ s.list b) ∧
      (l.length < fuel → ∃ ptr, linkBefore st.mem indx fuel elt = some ptr) := by
  induction fuel generalizing elt l m with
  | zero =>
    refine ⟨fun ptr hptr => ?_, fun hlt => absurd hlt (Nat.not_lt_zero _)⟩
    cases hptr
  | succ fuel ih =>
    have helt : elt ∈ s.list b := by
      rw [hlist]
      exact List.mem_append_right l (List.mem_cons_self ..)
    obtain ⟨last, hl, -⟩ := h.split hlist
    rw [linkBefore]
    cases hp : (st.mem elt).prev with
    | none => exact ⟨fun ptr hptr => Option.some.inj hptr ▸ helt, fun _ => ⟨elt, rfl⟩⟩
    | some prev =>
      -- the previous element is the last of the first part
      obtain ⟨l', rfl⟩ : ∃ l', l = l' ++ [prev] := by
        rcases List.eq_nil_or_concat l with rfl | ⟨l', x, rfl⟩
        · rw [hp] at hl
          exact absurd hl.1 (by simp)
        · rw [List.concat_eq_append] at hl ⊢
          obtain ⟨r, p, -, hx⟩ := seg_append.mp hl
          obtain rfl : prev = x := Option.some.inj (hp.symm.trans hx.2.2.1)
          exact ⟨l', rfl⟩
      have hlist' : s.list b = l' ++ prev :: (elt :: m) := by simpa using hlist
      obtain ⟨hmem, hends⟩ := ih hlist'
      dsimp only
      split_ifs
      · refine ⟨hmem, fun hlt => hends ?_⟩
        simp only [List.length_append, List.length_singleton] at hlt
        omega
      · exact ⟨fun ptr hptr => Option.some.inj hptr ▸ helt, fun _ => ⟨elt, rfl⟩⟩

/-- The walk in the other direction. Source: `bitmap.c` `bitmap_element_link`. Kind: L -/
theorem linkAfter_spec (h : Rep o st s) (indx : ℕ) {l m : List ℕ} (hlist : s.list b = l ++ elt :: m)
    (fuel : ℕ) :
    (∀ ptr, linkAfter st.mem indx fuel elt = some ptr → ptr ∈ s.list b) ∧
      (m.length < fuel → ∃ ptr, linkAfter st.mem indx fuel elt = some ptr) := by
  induction fuel generalizing elt l m with
  | zero =>
    refine ⟨fun ptr hptr => ?_, fun hlt => absurd hlt (Nat.not_lt_zero _)⟩
    cases hptr
  | succ fuel ih =>
    have helt : elt ∈ s.list b := by
      rw [hlist]
      exact List.mem_append_right l (List.mem_cons_self ..)
    obtain ⟨last, -, hm⟩ := h.split hlist
    rw [linkAfter]
    cases hn : (st.mem elt).next with
    | none => exact ⟨fun ptr hptr => Option.some.inj hptr ▸ helt, fun _ => ⟨elt, rfl⟩⟩
    | some next =>
      rw [hn] at hm
      cases m with
      | nil => exact absurd hm.2 (by simp)
      | cons x m =>
        obtain rfl : next = x := Option.some.inj hm.1
        have hlist' : s.list b = (l ++ [elt]) ++ next :: m := by simpa using hlist
        obtain ⟨hmem, hends⟩ := ih hlist'
        dsimp only
        split_ifs
        · refine ⟨hmem, fun hlt => hends ?_⟩
          rw [List.length_cons] at hlt
          omega
        · exact ⟨fun ptr hptr => Option.some.inj hptr ▸ helt, fun _ => ⟨elt, rfl⟩⟩

/-- The element in hand goes before an element of the list.
Source: `bitmap.c` `bitmap_element_link` (`ptr->prev = element`)
Kind: L -/
theorem link_before (h : Rep o st s) (hq : (st.head b).obstack = q) (hhand : s.hand q = [e]) {ptr : ℕ}
    (hptr : ptr ∈ s.list b) :
    ∃ s', s'.hand = Function.update s.hand q [] ∧ Rep o { st with
      mem := modify (modify (setNext st.mem (st.mem ptr).prev (some e)) e fun x =>
        { x with prev := (st.mem ptr).prev, next := some ptr }) ptr fun x =>
          { x with prev := some e }
      head := Function.update st.head b { st.head b with
        first := if (st.mem ptr).prev = none then some e else (st.head b).first
        current := some e
        indx := (st.mem e).indx } } s' := by
  have hne : ptr ≠ e := by
    rintro rfl
    exact h.notMem_of_hand hhand b hptr
  obtain ⟨l, m, hlist⟩ := List.append_of_mem hptr
  obtain ⟨last, hl, hm⟩ := h.split hlist
  have hm' : Seg (nexts st.mem) (prevs st.mem) (st.mem ptr).prev (some ptr) (ptr :: m) last none :=
    ⟨rfl, rfl, hm⟩
  have hempty : (st.mem ptr).prev = none ↔ l = [] := by
    refine ⟨fun hnone => ?_, fun hl0 => ?_⟩
    · by_contra hl0
      obtain ⟨x, -, hx⟩ := hl.last_mem hl0
      rw [hnone] at hx
      cases hx
    · subst hl0
      exact hl.1
  refine ⟨_, rfl, insert_spec h (b := b) _ _ hlist hhand hl hm' ?_ (fun a ha => ?_) hq rfl ?_ ?_ fun _ c hc => ?_⟩
  · simp [modify_apply, hne.symm]
  · by_cases hap : a = ptr
    · subst hap
      simp [modify_apply, ha, setNext_next]
    · simp [modify_apply, ha, hap, Ne.symm hap, setNext_next, setNext_prev]
  · simp only [hempty]
  · simp
  · simp [Option.some.inj hc]

/-- The element in hand goes after an element of the list.
Source: `bitmap.c` `bitmap_element_link` (`ptr->next = element`)
Kind: L -/
theorem link_after (h : Rep o st s) (hq : (st.head b).obstack = q) (hhand : s.hand q = [e]) {ptr : ℕ}
    (hptr : ptr ∈ s.list b) :
    ∃ s', s'.hand = Function.update s.hand q [] ∧ Rep o { st with
      mem := modify (modify (setPrev st.mem (st.mem ptr).next (some e)) e fun x =>
        { x with next := (st.mem ptr).next, prev := some ptr }) ptr fun x =>
          { x with next := some e }
      head := Function.update st.head b { st.head b with
        current := some e
        indx := (st.mem e).indx } } s' := by
  have hne : ptr ≠ e := by
    rintro rfl
    exact h.notMem_of_hand hhand b hptr
  obtain ⟨l, m, hlist⟩ := List.append_of_mem hptr
  obtain ⟨last, hl, hm⟩ := h.split hlist
  have hl' : Seg (nexts st.mem) (prevs st.mem) none (st.head b).first (l ++ [ptr]) (some ptr)
      (st.mem ptr).next := seg_append.mpr ⟨_, _, hl, rfl, rfl, rfl, rfl⟩
  have hlist' : s.list b = (l ++ [ptr]) ++ m := by simpa using hlist
  refine ⟨_, rfl, insert_spec h (b := b) _ _ hlist' hhand hl' hm ?_ (fun a ha => ?_) hq rfl ?_ ?_ fun _ c hc => ?_⟩
  · simp [modify_apply, hne.symm]
  · by_cases hap : a = ptr
    · subst hap
      simp [modify_apply, ha, setPrev_prev]
    · simp [modify_apply, ha, hap, Ne.symm hap, setPrev_next, setPrev_prev]
  · simp
  · simp
  · simp [Option.some.inj hc]

/-- **`bitmap_element_link`** puts the element in hand into the list, if `current` is in the list or
the list is empty.
Source: `bitmap.c` `bitmap_element_link`
Kind: L -/
theorem link_spec (h : Rep o st s) (hq : (st.head b).obstack = q) (hhand : s.hand q = [e])
    (hcurrent : (st.head b).first = none ∨ ∃ c, (st.head b).current = some c ∧ c ∈ s.list b) :
    (∀ fuel st', bitmapElementLink fuel st b e = some st' →
      ∃ s', s'.hand = Function.update s.hand q [] ∧ Rep o st' s') ∧
    ∀ fuel, (s.list b).length < fuel → ∃ st', bitmapElementLink fuel st b e = some st' := by
  obtain ⟨last, hseg⟩ := h.linked b
  cases hfirst : (st.head b).first with
  | none =>
    rw [hfirst] at hseg
    have hnil : s.list b = [] := hseg.eq_nil
    rw [hnil] at hseg
    have hrep := insert_spec h (b := b) (l := []) (m := [])
      { st.head b with
        first := some e, current := some e, indx := (st.mem e).indx }
      (modify st.mem e fun x => { x with next := none, prev := none })
      hnil hhand ⟨rfl, hfirst.symm⟩ hseg (by simp [modify_apply])
      (fun a ha => by simp [modify_apply, ha]) hq rfl rfl (by simp) fun _ c hc => by simp [Option.some.inj hc]
    have hrun : ∀ fuel, bitmapElementLink fuel st b e = some _ := fun fuel => by
      simp only [bitmapElementLink, hfirst, if_true, bind, Option.bind]
      rfl
    refine ⟨fun fuel st' hst' => ?_, fun fuel _ => ⟨_, hrun fuel⟩⟩
    obtain rfl := Option.some.inj ((hrun fuel).symm.trans hst')
    exact ⟨_, rfl, hrep⟩
  | some f =>
    obtain ⟨c, hc, hcmem⟩ : ∃ c, (st.head b).current = some c ∧ c ∈ s.list b := by
      rcases hcurrent with hnone | hc
      · exact absurd (hfirst.symm.trans hnone) (by simp)
      · exact hc
    have hne : (st.head b).first ≠ none := by simp [hfirst]
    obtain ⟨l, m, hlist⟩ := List.append_of_mem hcmem
    have hlength : (s.list b).length = l.length + (m.length + 1) := by
      rw [hlist, List.length_append, List.length_cons]
    by_cases hlt : (st.mem e).indx < (st.head b).indx
    · -- somewhere before the current element
      have hwalk := linkBefore_spec h (st.mem e).indx hlist
      refine ⟨fun fuel st' hst' => ?_, fun fuel hfuel => ?_⟩
      · cases hw : linkBefore st.mem (st.mem e).indx fuel c with
        | none =>
          simp [bitmapElementLink, hne, hc, hlt, hw] at hst'
        | some ptr =>
          obtain ⟨s', hs', hrep⟩ := link_before h hq hhand ((hwalk fuel).1 ptr hw)
          refine ⟨s', hs', ?_⟩
          simp only [bitmapElementLink, if_neg hne, hc, if_pos hlt, hw, bind, Option.bind,
            Option.some.injEq] at hst'
          exact hst' ▸ hrep
      · obtain ⟨ptr, hw⟩ := (hwalk fuel).2 (by omega)
        refine Option.ne_none_iff_exists'.mp ?_
        simp [bitmapElementLink, hne, hc, hlt, hw]
    · -- somewhere after the current element
      have hwalk := linkAfter_spec h (st.mem e).indx hlist
      refine ⟨fun fuel st' hst' => ?_, fun fuel hfuel => ?_⟩
      · cases hw : linkAfter st.mem (st.mem e).indx fuel c with
        | none =>
          simp [bitmapElementLink, hne, hc, hlt, hw] at hst'
        | some ptr =>
          obtain ⟨s', hs', hrep⟩ := link_after h hq hhand ((hwalk fuel).1 ptr hw)
          refine ⟨s', hs', ?_⟩
          simp only [bitmapElementLink, if_neg hne, hc, if_neg hlt, hw, bind, Option.bind,
            Option.some.injEq] at hst'
          exact hst' ▸ hrep
      · obtain ⟨ptr, hw⟩ := (hwalk fuel).2 (by omega)
        refine Option.ne_none_iff_exists'.mp ?_
        simp [bitmapElementLink, hne, hc, hlt, hw]

/-- **A new element for a bit.** Source: `bitmap.c` `bitmap_set_bit`. Kind: L -/
theorem setBitNew_spec [Zero β] (h : Rep o st s) (indx : ℕ) (bits : β) {fresh : ℕ}
    (hfresh : ∀ q, fresh ∉ st.created q) (hhand : ∀ q, s.hand q = [])
    (hcurrent : (st.head b).first = none ∨ ∃ c, (st.head b).current = some c ∧ c ∈ s.list b) :
    (∀ fuel st', bitmapSetBitNew fuel st b indx bits fresh = some st' →
      ∃ s', (∀ q, s'.hand q = []) ∧ Rep o st' s') ∧
    ∀ fuel, (s.list b).length < fuel →
      ∃ st', bitmapSetBitNew fuel st b indx bits fresh = some st' := by
  obtain ⟨e, st1, free', halloc, hhead, hrep⟩ := allocate_spec (b := b) h rfl hfresh
  generalize hq : (st.head b).obstack = q at hrep
  obtain ⟨hnext1, hprev1⟩ := links_modify st1.mem e
    (f := fun x => { x with indx := indx, bits := bits }) fun n => ⟨rfl, rfl⟩
  have hrep1 := hrep.congr hnext1 hprev1
  have hhand1 : Function.update s.hand q (e :: s.hand q) q = [e] := by
    rw [Function.update_self, hhand]
  have hempty : ∀ q', Function.update (Function.update s.hand q (e :: s.hand q)) q [] q' = [] := by
    intro q'
    rw [Function.update_idem]
    by_cases hqq : q' = q
    · rw [hqq, Function.update_self]
    · rw [Function.update_of_ne hqq, hhand]
  obtain ⟨hlink, hends⟩ := link_spec hrep1 (b := b) (by rw [← hq, ← hhead]) hhand1
    (by rw [← hhead] at hcurrent; exact hcurrent)
  simp only [bitmapSetBitNew, halloc]
  refine ⟨fun fuel st' hst' => ?_, hends⟩
  obtain ⟨s', hs', hrep'⟩ := hlink fuel st' hst'
  exact ⟨s', fun q' => by rw [hs']; exact hempty q', hrep'⟩

/-- **A bitmap without elements may be initialized again**, for another pool.
Source: `bitmap.h` `bitmap_initialize_stat`
Kind: L -/
theorem bitmapInitialize_spec (h : Rep o st s) (hfirst : (st.head b).first = none) (obstack : Option ℕ) :
    Rep o (bitmapInitialize st b obstack) s := by
  have hnil : s.list b = [] := by
    obtain ⟨last, hseg⟩ := h.linked b
    rw [hfirst] at hseg
    exact hseg.eq_nil
  -- nothing is in the place whose pool changes
  have hpool : ∀ (x : Place) a, a ∈ s.content x →
      x.pool (bitmapInitialize st b obstack).head = x.pool st.head := by
    intro x a ha
    cases x with
    | free q => rfl
    | bitmap b' =>
      have hb : b' ≠ b := by
        rintro rfl
        rw [Places.content, hnil] at ha
        exact absurd ha (List.not_mem_nil)
      simp [Place.pool, bitmapInitialize, hb]
    | hand q => rfl
  refine ⟨h.pool, fun b' => ?_, fun b' hnone => ?_, fun ho b' c hc => ?_, h.apart, fun q a => ?_⟩
  · by_cases hb : b' = b
    · subst hb
      rw [hnil]
      exact ⟨none, rfl, by simp [bitmapInitialize]⟩
    · simp only [bitmapInitialize, Function.update_of_ne hb]
      exact h.linked b'
  · by_cases hb : b' = b
    · exact hb ▸ hnil
    · simp only [bitmapInitialize, Function.update_of_ne hb] at hnone
      exact h.current b' hnone
  · by_cases hb : b' = b
    · simp [bitmapInitialize, hb] at hc
    · simp only [bitmapInitialize, Function.update_of_ne hb] at hc
      exact h.element ho b' c hc
  · refine (h.created q a).trans ⟨?_, ?_⟩
    · rintro ⟨x, hx, ha⟩
      exact ⟨x, (hpool x a ha).trans hx, ha⟩
    · rintro ⟨x, hx, ha⟩
      exact ⟨x, (hpool x a ha).symm.trans hx, ha⟩

end Moving

/-! ## Runs -/

section Runs

variable {β : Type}

/-- The elements of a bitmap, from the first one on. Source: `bitmap.h` (`first`, `next`). -/
inductive InList (st : State β) (b : ℕ) : ℕ → Prop
  | first {a : ℕ} : (st.head b).first = some a → InList st b a
  | next {a c : ℕ} : InList st b a → (st.mem a).next = some c → InList st b c

/-- The operations: a bitmap is initialized, a new element is allocated and linked after an element
or by its index, one element is freed, and the tail of a bitmap is freed. The address that the
obstack returns for a new element is part of the operation.
Source: `bitmap.c` -/
inductive Op (β : Type)
  | init (head : ℕ) (obstack : Option ℕ)
  | insertAfter (head : ℕ) (elt : Option ℕ) (indx fresh : ℕ)
  | setBit (head indx : ℕ) (bits : β) (fresh : ℕ)
  | free (head elt : ℕ)
  | clearFrom (head : ℕ) (elt : Option ℕ)

/-- One operation. Source: `bitmap.c`. -/
def exec [Zero β] (fuel : ℕ) (st : State β) : Op β → Option (State β)
  | .init b obstack => some (bitmapInitialize st b obstack)
  | .insertAfter b elt indx fresh => (bitmapEltInsertAfter st b elt indx fresh).map Prod.snd
  | .setBit b indx bits fresh => bitmapSetBitNew fuel st b indx bits fresh
  | .free b elt => some (bitmapElementFree st b elt)
  | .clearFrom b elt => bitmapEltClearFrom st b elt

/-- The search for the place of an index begins at an element. Source: `bitmap.c` `bitmap_element_link`. -/
def HasCurrent (st : State β) (b : ℕ) : Prop := (st.head b).first = none ∨ ∃ c, (st.head b).current = some c ∧ InList st b c

/-- An operation names elements of its bitmap; a new element is at a new address; the search for the
place of an index starts from `current`, which is an element if there is one; and a bitmap is
initialized while it has no elements.
Source: `bitmap.c` -/
def Legal (st : State β) : Op β → Prop
  | .init b _ => (st.head b).first = none
  | .insertAfter b elt _ fresh => (∀ x, elt = some x → InList st b x) ∧ ∀ q, fresh ∉ st.created q
  | .setBit b _ _ fresh => HasCurrent st b ∧ ∀ q, fresh ∉ st.created q
  | .free b elt => InList st b elt
  | .clearFrom b elt => ∀ x, elt = some x → InList st b x

/-- A bitmap is cut off where its indices grow. Source: `bitmap.c` `bitmap_elt_clear_from`. -/
def Ordered (st : State β) : Op β → Prop
  | .clearFrom _ (some elt) => Growing st elt
  | _ => True

/-- **Runs**, from bitmaps without elements. -/
inductive Run [Zero β] : State β → Prop
  | start (mem : ℕ → BitmapElement β) (head : ℕ → BitmapHead)
    (hempty : ∀ b, (head b).first = none ∧ (head b).current = none) :
    Run ⟨mem, head, fun _ => none, fun _ => ∅⟩
  | step {st st' : State β} (fuel : ℕ) (op : Op β) : Run st → Legal st op →
    exec fuel st op = some st' → Run st'

/-- **The free lists and the lists of the bitmaps**, as the pointers show them: no element is in two
of them or twice in one, and together they hold what each pool has created.
Source: `bitmap.h` (comment on `struct bitmap_element_def`) -/
structure Partition (st : State β) (free : Option ℕ → List (List ℕ)) (list : ℕ → List ℕ) : Prop where
  freeList : ∀ q, Pool (nexts st.mem) (prevs st.mem) (st.elements q) (free q)
  bitmaps : ∀ b, ∃ last, Seg (nexts st.mem) (prevs st.mem) none (st.head b).first (list b) last none
  free_nodup : ∀ q, (free q).flatten.Nodup
  list_nodup : ∀ b, (list b).Nodup
  free_disjoint : ∀ q q', q ≠ q' → (free q).flatten.Disjoint (free q').flatten
  list_disjoint : ∀ b b', b ≠ b' → (list b).Disjoint (list b')
  disjoint : ∀ q b, (free q).flatten.Disjoint (list b)
  all : ∀ q a, a ∈ st.created q ↔
    a ∈ (free q).flatten ∨ ∃ b, (st.head b).obstack = q ∧ a ∈ list b

variable {o : Prop} {st st' : State β} {s : Places} {b a fuel : ℕ}

theorem Rep.mem_of_inList (h : Rep o st s) (ha : InList st b a) : a ∈ s.list b := by
  obtain ⟨last, hseg⟩ := h.linked b
  induction ha with
  | first hfirst =>
    cases hl : s.list b with
    | nil =>
      rw [hl] at hseg
      exact absurd (hseg.2.trans hfirst) (by simp)
    | cons x l =>
      rw [hl] at hseg
      obtain rfl : _ = x := Option.some.inj (hfirst.symm.trans hseg.1)
      exact List.mem_cons_self ..
  | next _ hnext ih =>
    obtain ⟨l, m, hlist⟩ := List.append_of_mem ih
    rw [hlist] at hseg ⊢
    exact List.mem_append_right _ (List.mem_cons_of_mem _ (hseg.neighbours.2 _ hnext))

/-- With nothing in hand the elements are in the free lists and in the bitmaps. -/
theorem Rep.partition (h : Rep o st s) (hhand : ∀ q, s.hand q = []) : Partition st s.free s.list := by
  refine ⟨h.pool, h.linked, fun q => h.apart.nodup (.free q), fun b => h.apart.nodup (.bitmap b),
    fun q q' hqq => ?_, fun b b' hbb => ?_, fun q b => ?_, fun q a => ?_⟩
  · exact h.apart.disjoint (.free q) (.free q') (by simpa using hqq)
  · exact h.apart.disjoint (.bitmap b) (.bitmap b') (by simpa using hbb)
  · exact h.apart.disjoint (.free q) (.bitmap b) (by simp)
  · refine (h.created q a).trans ⟨?_, ?_⟩
    · rintro ⟨x, hx, ha⟩
      cases x with
      | free q' =>
        obtain rfl : q' = q := hx
        exact .inl ha
      | bitmap b => exact .inr ⟨b, hx, ha⟩
      | hand q' =>
        rw [Places.content, hhand] at ha
        exact absurd ha (List.not_mem_nil)
    · rintro (ha | ⟨b, hb, ha⟩)
      · exact ⟨.free q, rfl, ha⟩
      · exact ⟨.bitmap b, hb, ha⟩

/-- **One operation.** Source: `bitmap.c`. Kind: L -/
theorem step_spec [Zero β] (h : Rep o st s) (hhand : ∀ q, s.hand q = []) {op : Op β}
    (hlegal : Legal st op) (hordered : o → Ordered st op) :
    (∀ fuel st', exec fuel st op = some st' → ∃ s', (∀ q, s'.hand q = []) ∧ Rep o st' s') ∧
    ∃ n, ∀ fuel, n ≤ fuel → ∃ st', exec fuel st op = some st' := by
  cases op with
  | init b obstack =>
    refine ⟨fun fuel st' hst' => ?_, 0, fun fuel _ => ⟨_, rfl⟩⟩
    obtain rfl := Option.some.inj hst'
    exact ⟨s, hhand, bitmapInitialize_spec h hlegal obstack⟩
  | insertAfter b elt indx fresh =>
    obtain ⟨e, st1, s', hrun, hrep, hhand'⟩ := insertAfter_spec h indx hlegal.2
      (fun x hx => h.mem_of_inList (hlegal.1 x hx)) hhand
    have hexec : ∀ fuel, exec fuel st (.insertAfter b elt indx fresh) = some st1 := fun fuel => by
      rw [exec, hrun]
      rfl
    refine ⟨fun fuel st' hst' => ?_, 0, fun fuel _ => ⟨_, hexec fuel⟩⟩
    obtain rfl := Option.some.inj ((hexec fuel).symm.trans hst')
    exact ⟨s', hhand', hrep⟩
  | setBit b indx bits fresh =>
    obtain ⟨hcurrent, hfresh⟩ := hlegal
    obtain ⟨hrep, hends⟩ := setBitNew_spec h indx bits hfresh hhand
      (hcurrent.imp id fun ⟨c, hc, hin⟩ => ⟨c, hc, h.mem_of_inList hin⟩)
    exact ⟨hrep, (s.list b).length + 1, fun fuel hle => hends fuel hle⟩
  | free b elt =>
    obtain ⟨l, m, hlist⟩ := List.append_of_mem (h.mem_of_inList hlegal)
    refine ⟨fun fuel st' hst' => ?_, 0, fun fuel _ => ⟨_, rfl⟩⟩
    obtain rfl := Option.some.inj hst'
    exact ⟨_, by exact hhand, free_spec h hlist rfl⟩
  | clearFrom b elt =>
    cases elt with
    | none =>
      refine ⟨fun fuel st' hst' => ?_, 0, fun fuel _ => ⟨_, rfl⟩⟩
      obtain rfl := Option.some.inj hst'
      exact ⟨s, hhand, h⟩
    | some elt =>
      obtain ⟨l, m, hlist⟩ := List.append_of_mem (h.mem_of_inList (hlegal elt rfl))
      obtain ⟨st1, hrun, hrep⟩ := clearFrom_spec h hlist rfl hordered
      refine ⟨fun fuel st' hst' => ?_, 0, fun fuel _ => ⟨_, hrun⟩⟩
      obtain rfl := Option.some.inj (hrun.symm.trans hst')
      exact ⟨_, by exact hhand, hrep⟩

theorem Rep.start [Zero β] (mem : ℕ → BitmapElement β) (head : ℕ → BitmapHead)
    (hempty : ∀ b, (head b).first = none ∧ (head b).current = none) :
    Rep o ⟨mem, head, fun _ => none, fun _ => ∅⟩ ⟨fun _ => [], fun _ => [], fun _ => []⟩ := by
  refine ⟨fun _ => rfl, fun b => ⟨none, rfl, (hempty b).1.symm⟩, fun _ _ => rfl,
    fun _ b c hc => absurd ((hempty b).2.symm.trans hc) (by simp), ⟨fun x => ?_, fun x y _ a ha => ?_⟩,
    fun q a => ⟨fun ha => absurd ha (Finset.notMem_empty a), ?_⟩⟩
  · cases x <;> exact List.nodup_nil
  · cases x <;> exact absurd ha (List.not_mem_nil)
  · rintro ⟨x, -, ha⟩
    cases x <;> exact absurd ha (List.not_mem_nil)

/-- **Every state of a run.** Source: `bitmap.c`. Kind: L -/
theorem Run.rep [Zero β] (h : Run st) : ∃ s, (∀ q, s.hand q = []) ∧ Rep False st s := by
  induction h with
  | start mem head hempty => exact ⟨_, fun _ => rfl, Rep.start mem head hempty⟩
  | step fuel op _ hlegal hexec ih =>
    obtain ⟨s, hhand, hrep⟩ := ih
    exact (step_spec hrep hhand hlegal False.elim).1 fuel _ hexec

/-- **Runs that cut bitmaps off in order**; that `current` is an element is not asked of the caller. -/
inductive OrderedRun [Zero β] : State β → Prop
  | start (mem : ℕ → BitmapElement β) (head : ℕ → BitmapHead)
    (hempty : ∀ b, (head b).first = none ∧ (head b).current = none) :
    OrderedRun ⟨mem, head, fun _ => none, fun _ => ∅⟩
  | step {st st' : State β} (fuel : ℕ) (op : Op β) : OrderedRun st → ((∀ b, HasCurrent st b) → Legal st op) →
    Ordered st op → exec fuel st op = some st' → OrderedRun st'

theorem Rep.inList_of_mem (h : Rep o st s) (ha : a ∈ s.list b) : InList st b a := by
  obtain ⟨last, hseg⟩ := h.linked b
  have hchain := hseg.chain
  obtain ⟨f, hf⟩ : ∃ f, (st.head b).first = some f := by
    refine Option.ne_none_iff_exists'.mp fun hnone => List.ne_nil_of_mem ha ?_
    rw [hnone] at hseg
    exact hseg.eq_nil
  rw [hf] at hchain
  refine Relation.ReflTransGen.rec (InList.first hf) ?_ (hchain.reaches ha)
  exact fun _ hnext hin => hin.next hnext

theorem Rep.hasCurrent (h : Rep True st s) (b : ℕ) : HasCurrent st b := by
  obtain ⟨last, hseg⟩ := h.linked b
  cases hc : (st.head b).current with
  | none =>
    rw [h.current b hc] at hseg
    exact .inl hseg.2.symm
  | some c => exact .inr ⟨c, hc, h.inList_of_mem (h.element trivial b c hc)⟩

/-- **`current` is an element** of its bitmap in every state of such a run, which is a run.
Source: `bitmap.h` (`current`), `bitmap.c`
Kind: P -/
theorem OrderedRun.hasCurrent [Zero β] (h : OrderedRun st) : Run st ∧ ∀ b, HasCurrent st b := by
  suffices hrep : Run st ∧ ∃ s, (∀ q, s.hand q = []) ∧ Rep True st s by
    obtain ⟨hrun, s, -, hrep⟩ := hrep
    exact ⟨hrun, hrep.hasCurrent⟩
  induction h with
  | start mem head hempty => exact ⟨.start mem head hempty, _, fun _ => rfl, Rep.start mem head hempty⟩
  | step fuel op _ hlegal hordered hexec ih =>
    obtain ⟨hrun, s, hhand, hrep⟩ := ih
    have hlegal := hlegal hrep.hasCurrent
    exact ⟨.step fuel op hrun hlegal hexec, (step_spec hrep hhand hlegal fun _ => hordered).1 fuel _ hexec⟩

/-- **The pool of elements**: in every state of every run the free lists and the lists of the bitmaps
are disjoint and hold every element that was created, once. So the element that
`bitmap_element_allocate` returns is in no bitmap; and every legal operation has a result.
Source: `bitmap.c` `bitmap_elem_to_freelist`, `bitmap_element_free`, `bitmap_element_allocate`,
`bitmap_elt_clear_from`
Kind: P -/
theorem bitmap_element_pool [Zero β] (h : Run st) :
    ∃ free list, Partition st free list ∧
      (∀ b fresh, (∀ q, fresh ∉ st.created q) →
        ∀ b', (bitmapElementAllocate st b fresh).1 ∉ list b') ∧
      ∀ op, Legal st op → ∃ n, ∀ fuel, n ≤ fuel → ∃ st', exec fuel st op = some st' := by
  obtain ⟨s, hhand, hrep⟩ := h.rep
  refine ⟨s.free, s.list, hrep.partition hhand, fun b fresh hfresh b' => ?_,
    fun op hlegal => (step_spec hrep hhand hlegal False.elim).2⟩
  obtain ⟨e, st', free', halloc, -, hrep'⟩ := allocate_spec (b := b) hrep rfl hfresh
  rw [halloc]
  exact hrep'.notMem_of_hand (Function.update_self ..) b'

/-- Bitmap 0 gets the elements 1 and 2 from the garbage-collected memory, 2 before 1, and loses both
at once.
Source: none: example -/
def cleared : Option (State ℕ) := do
  let st : State ℕ :=
    ⟨fun _ => ⟨none, none, 0, 0⟩, fun _ => ⟨none, none, 0, none⟩, fun _ => none, fun _ => ∅⟩
  let st ← exec 0 st (.insertAfter 0 none 5 1)
  let st ← exec 0 st (.insertAfter 0 none 3 2)
  exec 0 st (.clearFrom 0 (some 2))

/-- The chain of the two elements is the free list, and the next element is 2.
Source: `bitmap.c` `bitmap_elt_clear_from`, `bitmap_element_allocate`
Kind: C -/
theorem bitmap_element_pool_cleared :
    ∃ st, cleared = some st ∧ (bitmapElementAllocate st 0 3).1 = 2 ∧
      ∃ free list, Partition st free list ∧
        (∀ b fresh, (∀ q, fresh ∉ st.created q) →
          ∀ b', (bitmapElementAllocate st b fresh).1 ∉ list b') ∧
        ∀ op, Legal st op → ∃ n, ∀ fuel, n ≤ fuel → ∃ st', exec fuel st op = some st' := by
  refine ⟨_, rfl, rfl, bitmap_element_pool ?_⟩
  have hstart : Run (⟨fun _ => ⟨none, none, 0, 0⟩, fun _ => ⟨none, none, 0, none⟩, fun _ => none,
      fun _ => ∅⟩ : State ℕ) := .start _ _ fun _ => ⟨rfl, rfl⟩
  have hfirst := Run.step (β := ℕ) 0 (.insertAfter 0 none 5 1) hstart
    ⟨fun x hx => absurd hx (by simp), fun q => Finset.notMem_empty 1⟩ rfl
  have hsecond := Run.step 0 (.insertAfter 0 none 3 2) hfirst
    ⟨fun x hx => absurd hx (by simp), fun q => by
      rcases q with _ | q
      · decide
      · exact Finset.notMem_empty 2⟩ rfl
  refine .step 0 (.clearFrom 0 (some 2)) hsecond (fun x hx => ?_) rfl
  obtain rfl := Option.some.inj hx
  exact .first rfl

end Runs

end GccCore.Gcc.Bitmap
