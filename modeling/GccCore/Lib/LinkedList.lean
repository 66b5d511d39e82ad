import Mathlib.Data.List.Basic
import Mathlib.Data.List.Nodup
import Mathlib.Data.List.Perm.Basic
import Mathlib.Logic.Relation

/-!
# Doubly linked lists and lists of chains

Elements of any type, each with a link to the next and to the previous element, or to none.

* **Segments** (`Seg`): a piece of a doubly linked list, with the links that enter and leave it.
  Inserting (`Seg.insert`), removing (`Seg.remove`) and cutting off (`Seg.truncate`) are stated by
  what the links have to be afterwards.
* **Chains** (`Chain`): singly linked lists; their `prev` links may be anything.
* **Lists of chains** (`Pool`): the first elements of the chains are linked by their `prev` links.
* **Places** (`Apart`): every element is in at most one place, and there only once. Moving elements
  between two places keeps it so (`Apart.move`).
-/

namespace GccCore.Lib.LinkedList

variable {α : Type*} {next prev next' prev' : α → Option α} {p q p' q' r s last first : Option α}
  {l m : List α} {e : α}

/-! ## Segments -/

/-- From the pointer `p`, with `q` before it, the links lead through the list to the pointer `p'`,
with `q'` before it. -/
def Seg (next prev : α → Option α) :
    Option α → Option α → List α → Option α → Option α → Prop
  | q, p, [], q', p' => q' = q ∧ p' = p
  | q, p, a :: l, q', p' => p = some a ∧ prev a = q ∧ Seg next prev (some a) (next a) l q' p'

theorem seg_append :
    Seg next prev q p (l ++ m) q' p' ↔
      ∃ r s, Seg next prev q p l r s ∧ Seg next prev r s m q' p' := by
  induction l generalizing q p with
  | nil => simp [Seg]
  | cons a l ih => simp [Seg, ih, and_assoc]

/-- A segment sees the links of its elements only. -/
theorem Seg.congr (h : Seg next prev q p l q' p') (hnext : ∀ a ∈ l, next' a = next a)
    (hprev : ∀ a ∈ l, prev' a = prev a) : Seg next' prev' q p l q' p' := by
  induction l generalizing q p with
  | nil => exact h
  | cons a l ih =>
    obtain ⟨hp, hq, hrest⟩ := h
    refine ⟨hp, (hprev a (List.mem_cons_self ..)).trans hq, ?_⟩
    rw [hnext a (List.mem_cons_self ..)]
    exact ih hrest (fun b hb => hnext b (List.mem_cons_of_mem _ hb))
      fun b hb => hprev b (List.mem_cons_of_mem _ hb)

/-- The pointer into a segment that is not empty. -/
theorem Seg.start (h : Seg next prev q p (e :: l) q' p') : p = some e ∧ prev e = q := ⟨h.1, h.2.1⟩

/-- A segment that the null pointer leads into is empty. -/
theorem Seg.eq_nil (h : Seg next prev q none l q' p') : l = [] := by
  cases l with
  | nil => rfl
  | cons a l => exact absurd h.1 (by simp)

/-- The last element of a segment that is not empty. -/
theorem Seg.last_mem (h : Seg next prev q p l q' p') (hl : l ≠ []) : ∃ a ∈ l, q' = some a := by
  induction l generalizing q p with
  | nil => exact absurd rfl hl
  | cons a l ih =>
    cases l with
    | nil => exact ⟨a, List.mem_cons_self .., h.2.2.1⟩
    | cons b l =>
      obtain ⟨c, hc, hq⟩ := ih h.2.2 (List.cons_ne_nil b l)
      exact ⟨c, List.mem_cons_of_mem _ hc, hq⟩

/-- The neighbours of an element. -/
theorem Seg.neighbours (h : Seg next prev none first (l ++ e :: m) last none) :
    (∀ a, prev e = some a → a ∈ l) ∧ ∀ a, next e = some a → a ∈ m := by
  obtain ⟨r, s, h1, -, hq, h2⟩ := seg_append.mp h
  refine ⟨fun a ha => ?_, fun a ha => ?_⟩
  · rw [hq] at ha
    by_cases hl : l = []
    · subst hl
      rw [h1.1] at ha
      cases ha
    · obtain ⟨b, hb, hr⟩ := h1.last_mem hl
      obtain rfl : a = b := Option.some.inj (ha.symm.trans hr)
      exact hb
  · rw [ha] at h2
    cases m with
    | nil => cases h2.2
    | cons b m =>
      obtain rfl : a = b := Option.some.inj h2.1
      exact List.mem_cons_self ..

/-- An element without a neighbour is at an end. -/
theorem Seg.ends (h : Seg next prev none first (l ++ e :: m) last none) :
    (prev e = none → l = []) ∧ (next e = none → m = []) := by
  obtain ⟨r, s, h1, -, hq, h2⟩ := seg_append.mp h
  refine ⟨fun hnone => ?_, fun hnone => ?_⟩
  · by_contra hl
    obtain ⟨a, -, hr⟩ := h1.last_mem hl
    rw [← hq, hnone] at hr
    cases hr
  · cases m with
    | nil => rfl
    | cons a m =>
      rw [h2.1] at hnone
      cases hnone

/-- The pointer to a list, and whether an element is its first. -/
theorem Seg.first_iff (h : Seg next prev none first (l ++ e :: m) last none)
    (hnd : (l ++ e :: m).Nodup) : first = some e ↔ l = [] := by
  cases l with
  | nil => exact ⟨fun _ => rfl, fun _ => h.1⟩
  | cons a l =>
    refine ⟨fun hfirst => ?_, fun hl => absurd hl (List.cons_ne_nil a l)⟩
    obtain rfl : a = e := Option.some.inj (h.1.symm.trans hfirst)
    exact absurd (List.mem_append_right l (List.mem_cons_self ..)) (List.nodup_cons.mp hnd).1

section Surgery

variable [DecidableEq α]

/-- The link out of a segment is redirected. -/
theorem Seg.relinkEnd (h : Seg next prev q p l q' p') (hnd : l.Nodup)
    (hnext : ∀ a ∈ l, next' a = if q' = some a then s else next a)
    (hprev : ∀ a ∈ l, prev' a = prev a) :
    Seg next' prev' q (if l = [] then s else p) l q' s := by
  induction l generalizing q p with
  | nil => exact ⟨h.1, rfl⟩
  | cons a l ih =>
    obtain ⟨hp, hq, hrest⟩ := h
    obtain ⟨ha, hnd'⟩ := List.nodup_cons.mp hnd
    have hlast := hnext a (List.mem_cons_self ..)
    have hrest' := ih hrest hnd' (fun b hb => hnext b (List.mem_cons_of_mem _ hb))
      fun b hb => hprev b (List.mem_cons_of_mem _ hb)
    rw [if_neg (List.cons_ne_nil a l)]
    refine ⟨hp, (hprev a (List.mem_cons_self ..)).trans hq, ?_⟩
    by_cases hl : l = []
    · subst hl
      rw [hlast, if_pos hrest.1]
      exact hrest'
    · obtain ⟨b, hb, hqb⟩ := hrest.last_mem hl
      have hne : q' ≠ some a := by
        rintro rfl
        exact ha (Option.some.inj hqb ▸ hb)
      rw [hlast, if_neg hne]
      rwa [if_neg hl] at hrest'

/-- The link back from a segment is redirected. -/
theorem Seg.relinkStart (h : Seg next prev q p l q' p') (hnd : l.Nodup)
    (hnext : ∀ a ∈ l, next' a = next a)
    (hprev : ∀ a ∈ l, prev' a = if p = some a then r else prev a) :
    Seg next' prev' r p l (if l = [] then r else q') p' := by
  cases l with
  | nil => exact ⟨rfl, h.2⟩
  | cons a l =>
    obtain ⟨hp, -, hrest⟩ := h
    obtain ⟨ha, -⟩ := List.nodup_cons.mp hnd
    rw [if_neg (List.cons_ne_nil a l)]
    refine ⟨hp, (hprev a (List.mem_cons_self ..)).trans (if_pos hp), ?_⟩
    rw [hnext a (List.mem_cons_self ..)]
    refine hrest.congr (fun b hb => hnext b (List.mem_cons_of_mem _ hb)) fun b hb => ?_
    have hab : p ≠ some b := by
      rw [hp]
      rintro ⟨⟩
      exact ha hb
    exact (hprev b (List.mem_cons_of_mem _ hb)).trans (if_neg hab)

/-- **Insertion** between two parts of a list. -/
theorem Seg.insert (h1 : Seg next prev none first l r s) (h2 : Seg next prev r s m last none)
    (hnd : (l ++ m).Nodup) (hnew : next' e = s ∧ prev' e = r)
    (hold : ∀ a ∈ l ++ m, next' a = (if r = some a then some e else next a) ∧
      prev' a = if s = some a then some e else prev a) :
    ∃ last', Seg next' prev' none (if l = [] then some e else first) (l ++ e :: m) last' none := by
  obtain ⟨hndl, hndm, hdisj⟩ := List.nodup_append'.mp hnd
  -- the one before is in the first part, the one after in the second
  have hr : ∀ a ∈ m, r ≠ some a := by
    intro a ha hra
    by_cases hl : l = []
    · subst hl
      rw [h1.1] at hra
      cases hra
    · obtain ⟨b, hb, hrb⟩ := h1.last_mem hl
      obtain rfl : a = b := Option.some.inj (hra.symm.trans hrb)
      exact hdisj hb ha
  have hs : ∀ a ∈ l, s ≠ some a := by
    intro a ha hsa
    cases m with
    | nil => exact absurd (h2.2.trans hsa) (by simp)
    | cons b m =>
      obtain rfl : a = b := Option.some.inj (hsa.symm.trans h2.1)
      exact hdisj ha (List.mem_cons_self ..)
  have hl : Seg next' prev' none (if l = [] then some e else first) l r (some e) := h1.relinkEnd hndl
    (fun a ha => (hold a (List.mem_append_left m ha)).1)
    fun a ha => by rw [(hold a (List.mem_append_left m ha)).2, if_neg (hs a ha)]
  have hm : Seg next' prev' (some e) s m (if m = [] then some e else last) none := h2.relinkStart hndm
    (fun a ha => by rw [(hold a (List.mem_append_right l ha)).1, if_neg (hr a ha)])
    fun a ha => (hold a (List.mem_append_right l ha)).2
  refine ⟨if m = [] then some e else last, seg_append.mpr ⟨r, some e, hl, rfl, hnew.2, ?_⟩⟩
  rw [hnew.1]
  exact hm

/-- **Removal** of an element. -/
theorem Seg.remove (h : Seg next prev none first (l ++ e :: m) last none)
    (hnd : (l ++ e :: m).Nodup)
    (hold : ∀ a ∈ l ++ m, next' a = (if prev e = some a then next e else next a) ∧
      prev' a = if next e = some a then prev e else prev a) :
    ∃ last', Seg next' prev' none (if l = [] then next e else first) (l ++ m) last' none := by
  obtain ⟨hndl, hndem, hdisj⟩ := List.nodup_append'.mp hnd
  obtain ⟨hprev, hnext⟩ := h.neighbours
  obtain ⟨r, s, h1, -, hq, h2⟩ := seg_append.mp h
  subst hq
  have hr : ∀ a ∈ m, prev e ≠ some a := fun a ha hra =>
    hdisj (hprev a hra) (List.mem_cons_of_mem _ ha)
  have hs : ∀ a ∈ l, next e ≠ some a := fun a ha hsa =>
    hdisj ha (List.mem_cons_of_mem _ (hnext a hsa))
  have hl : Seg next' prev' none (if l = [] then next e else first) l (prev e) (next e) := h1.relinkEnd hndl
    (fun a ha => (hold a (List.mem_append_left m ha)).1)
    fun a ha => by rw [(hold a (List.mem_append_left m ha)).2, if_neg (hs a ha)]
  have hm : Seg next' prev' (prev e) (next e) m (if m = [] then prev e else last) none := h2.relinkStart
    (List.nodup_cons.mp hndem).2
    (fun a ha => by rw [(hold a (List.mem_append_right l ha)).1, if_neg (hr a ha)])
    fun a ha => (hold a (List.mem_append_right l ha)).2
  exact ⟨if m = [] then prev e else last, seg_append.mpr ⟨prev e, next e, hl, hm⟩⟩

/-- **Cutting off** an element and what follows it. -/
theorem Seg.truncate (h : Seg next prev none first (l ++ e :: m) last none)
    (hnd : (l ++ e :: m).Nodup)
    (hold : ∀ a ∈ l, next' a = (if prev e = some a then none else next a) ∧ prev' a = prev a) :
    ∃ last', Seg next' prev' none (if l = [] then none else first) l last' none := by
  obtain ⟨hndl, -, -⟩ := List.nodup_append'.mp hnd
  obtain ⟨r, s, h1, -, hq, -⟩ := seg_append.mp h
  subst hq
  exact ⟨prev e, h1.relinkEnd hndl (fun a ha => (hold a ha).1) fun a ha => (hold a ha).2⟩

end Surgery

/-! ## Chains and lists of chains -/

/-- From the pointer `p` the `next` links lead through the list to the end. -/
def Chain (next : α → Option α) : Option α → List α → Prop
  | p, [] => p = none
  | p, a :: l => p = some a ∧ Chain next (next a) l

/-- The members of a chain are reached from its first one. -/
theorem Chain.reaches {a c : α} (h : Chain next (some a) l) (hc : c ∈ l) : Relation.ReflTransGen (fun x y => next x = some y) a c := by
  induction l generalizing a with
  | nil => exact absurd hc List.not_mem_nil
  | cons b l ih =>
    obtain ⟨hb, hl⟩ := h
    cases hb
    rcases List.mem_cons.mp hc with rfl | hc
    · exact .refl
    · cases l with
      | nil => exact absurd hc List.not_mem_nil
      | cons x l => exact (ih (hl.1 ▸ hl) hc).head hl.1

theorem Chain.congr (h : Chain next p l) (hnext : ∀ a ∈ l, next' a = next a) : Chain next' p l := by
  induction l generalizing p with
  | nil => exact h
  | cons a l ih =>
    refine ⟨h.1, ?_⟩
    rw [hnext a (List.mem_cons_self ..)]
    exact ih h.2 fun b hb => hnext b (List.mem_cons_of_mem _ hb)

theorem Seg.chain (h : Seg next prev q p l q' none) : Chain next p l := by
  induction l generalizing q p with
  | nil => exact h.2.symm
  | cons a l ih => exact ⟨h.1, ih h.2.2⟩

/-- A list of chains: the first chain begins at `p`, and the `prev` link of its first element leads
to the next one. -/
def Pool (next prev : α → Option α) : Option α → List (List α) → Prop
  | p, [] => p = none
  | p, c :: cs => ∃ a, p = some a ∧ Chain next p c ∧ Pool next prev (prev a) cs

/-- A list of chains sees the links of its elements only. -/
theorem Pool.congr {cs : List (List α)} (h : Pool next prev p cs)
    (hnext : ∀ a ∈ cs.flatten, next' a = next a) (hprev : ∀ a ∈ cs.flatten, prev' a = prev a) :
    Pool next' prev' p cs := by
  induction cs generalizing p with
  | nil => exact h
  | cons c cs ih =>
    obtain ⟨a, hp, hchain, hrest⟩ := h
    have hac : a ∈ c := by
      cases c with
      | nil => exact absurd (hchain.symm.trans hp) (by simp)
      | cons b c =>
        obtain rfl : a = b := Option.some.inj (hp.symm.trans hchain.1)
        exact List.mem_cons_self ..
    simp only [List.flatten_cons, List.mem_append] at hnext hprev
    refine ⟨a, hp, hchain.congr fun b hb => hnext b (.inl hb), ?_⟩
    rw [hprev a (.inl hac)]
    exact ih hrest (fun b hb => hnext b (.inr hb)) fun b hb => hprev b (.inr hb)

/-- The first chain, and the others. -/
theorem Pool.uncons {cs : List (List α)} (h : Pool next prev (some e) cs) :
    ∃ c cs', cs = (e :: c) :: cs' ∧ Chain next (next e) c ∧ Pool next prev (prev e) cs' := by
  cases cs with
  | nil => cases h
  | cons c cs =>
    obtain ⟨a, ha, hchain, hrest⟩ := h
    obtain rfl : e = a := Option.some.inj ha
    cases c with
    | nil => cases hchain
    | cons x c =>
      obtain rfl : e = x := Option.some.inj hchain.1
      exact ⟨c, cs, rfl, hchain.2, hrest⟩

/-! ## Places -/

section Places

variable {ι : Type*} {content content' : ι → List α} {i j : ι}

/-- Every element is in at most one place, and there only once. -/
structure Apart (content : ι → List α) : Prop where
  nodup : ∀ i, (content i).Nodup
  disjoint : ∀ i j, i ≠ j → (content i).Disjoint (content j)

/-- **Moving** elements between two places. -/
theorem Apart.move (h : Apart content) (hij : i ≠ j)
    (hperm : (content' i ++ content' j).Perm (content i ++ content j))
    (hother : ∀ k, k ≠ i → k ≠ j → content' k = content k) : Apart content' := by
  have hnd : (content' i ++ content' j).Nodup :=
    hperm.nodup_iff.mpr (List.nodup_append'.mpr ⟨h.nodup i, h.nodup j, h.disjoint i j hij⟩)
  obtain ⟨hndi, hndj, hdij⟩ := List.nodup_append'.mp hnd
  -- what is now in one of the two places was in one of them
  have hold : ∀ k, k = i ∨ k = j → ∀ a ∈ content' k, a ∈ content i ∨ a ∈ content j := by
    intro k hk a ha
    have hmem : a ∈ content' i ++ content' j := by
      rcases hk with rfl | rfl
      · exact List.mem_append_left _ ha
      · exact List.mem_append_right _ ha
    exact List.mem_append.mp (hperm.mem_iff.mp hmem)
  have hnew : ∀ k k', k = i ∨ k = j → k' ≠ i → k' ≠ j → (content' k).Disjoint (content' k') := by
    intro k k' hk hi hj a ha ha'
    rw [hother k' hi hj] at ha'
    rcases hold k hk a ha with hai | haj
    · exact h.disjoint i k' hi.symm hai ha'
    · exact h.disjoint j k' hj.symm haj ha'
  refine ⟨fun k => ?_, fun k k' hkk' => ?_⟩
  · by_cases hi : k = i
    · exact hi ▸ hndi
    · by_cases hj : k = j
      · exact hj ▸ hndj
      · rw [hother k hi hj]
        exact h.nodup k
  · by_cases hk : k = i ∨ k = j
    · by_cases hk' : k' = i ∨ k' = j
      · rcases hk with rfl | rfl
        · rcases hk' with rfl | rfl
          · exact absurd rfl hkk'
          · exact hdij
        · rcases hk' with rfl | rfl
          · exact fun a ha ha' => hdij ha' ha
          · exact absurd rfl hkk'
      · rw [not_or] at hk'
        exact hnew k k' hk hk'.1 hk'.2
    · rw [not_or] at hk
      by_cases hk' : k' = i ∨ k' = j
      · exact fun a ha ha' => hnew k' k hk' hk.1 hk.2 ha' ha
      · rw [not_or] at hk'
        rw [hother k hk.1 hk.2, hother k' hk'.1 hk'.2]
        exact h.disjoint k k' hkk'

/-- **A new element** in one place. -/
theorem Apart.add (h : Apart content) (he : ∀ k, e ∉ content k) (hi : content' i = e :: content i)
    (hother : ∀ k, k ≠ i → content' k = content k) : Apart content' := by
  have hmem : ∀ k, ∀ a ∈ content' k, a ∈ content k ∨ (a = e ∧ k = i) := by
    intro k a ha
    by_cases hk : k = i
    · subst hk
      rw [hi, List.mem_cons] at ha
      exact ha.symm.imp id fun h => ⟨h, rfl⟩
    · rw [hother k hk] at ha
      exact .inl ha
  refine ⟨fun k => ?_, fun k k' hkk' a ha ha' => ?_⟩
  · by_cases hk : k = i
    · rw [hk, hi]
      exact List.nodup_cons.mpr ⟨he i, h.nodup i⟩
    · rw [hother k hk]
      exact h.nodup k
  · rcases hmem k a ha with hak | ⟨rfl, hk⟩
    · rcases hmem k' a ha' with hak' | ⟨rfl, -⟩
      · exact h.disjoint k k' hkk' hak hak'
      · exact he k hak
    · rcases hmem k' a ha' with hak' | ⟨-, hk'⟩
      · exact he k' hak'
      · exact hkk' (hk.trans hk'.symm)

end Places

end GccCore.Lib.LinkedList
