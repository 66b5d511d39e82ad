import Mathlib.Algebra.BigOperators.Fin
import Mathlib.Algebra.Order.BigOperators.Group.Finset
import Mathlib.Data.Fintype.Card
import Mathlib.Logic.Function.Iterate
import Mathlib.Order.Lattice
import Mathlib.Tactic.Linarith

/-!
# Worklist iteration

A system of equations over cells, solved by items that wait in a queue. An item meets the values of the cells that
it reads and assigns to its own cells; the items that read a changed cell go back into the queue unless they wait
there already. Boundary items meet nothing: their input is the bottom, and they are handled once.

* **Systems** (`System`), their laws (`System.Lawful`) and **runs** (`System.step`, `System.solve`).
* **One step** (`Invariant.step`): values only fall, and an item that does not wait has its equations satisfied.
* **Any order** (`Invariant.step_any`): the same for steps that take any item, and values stay above every solution.
* **The result** (`solve_spec`): the queue runs empty and all equations hold.
-/

set_option linter.unusedSectionVars false

namespace GccCore.Lib.Worklist

/-! ## Systems and runs -/

/-- Items with the cells they assign, what they meet, and the readers of each cell. -/
structure System (B C L : Type*) where
  boundary : B → Bool
  meet : B → (C → L) → L
  flow : C → L → L
  cells : B → List C
  readers : C → List B

/-- The queue, the marks of the items in it (and of the boundary), the inputs and the values of the cells. -/
structure State (B C L : Type*) where
  queue : List B
  marked : B → Bool
  input : B → L
  val : C → L

section Runs

variable {B C L : Type*} [DecidableEq B] [DecidableEq C] [DecidableEq L] [LE L] [OrderBot L]

/-- An item goes to the end of the queue unless it is marked. -/
def State.enqueue (σ : State B C L) (b : B) : State B C L :=
  if σ.marked b then σ
  else { σ with queue := σ.queue ++ [b], marked := Function.update σ.marked b true }

/-- What an item meets. -/
def System.incoming (S : System B C L) (b : B) (val : C → L) : L :=
  if S.boundary b then ⊥ else S.meet b val

/-- A cell is assigned; its readers are enqueued if it changed. -/
def System.assign (S : System B C L) (v : L) (σ : State B C L) (c : C) : State B C L :=
  if S.flow c v = σ.val c then σ
  else (S.readers c).foldl State.enqueue { σ with val := Function.update σ.val c (S.flow c v) }

/-- The first item is taken off the queue and handled. -/
def System.step (S : System B C L) (σ : State B C L) : State B C L :=
  match σ.queue with
  | [] => σ
  | b :: queue =>
    let v := S.incoming b σ.val
    (S.cells b).foldl (S.assign v)
      { queue := queue
        marked := if S.boundary b then σ.marked else Function.update σ.marked b false
        input := Function.update σ.input b v
        val := σ.val }

/-- A bound on the number of steps for values of a given height. -/
def stepBound (B C : Type*) [Fintype B] [Fintype C] (height : ℕ) : ℕ :=
  Fintype.card C * height * (Fintype.card B + 1) + Fintype.card B

/-- The run that begins with every item in the queue. -/
def System.solve [Fintype B] [Fintype C] (S : System B C L) (height : ℕ) (order : List B) (input : B → L)
    (val : C → L) : State B C L :=
  S.step^[stepBound B C height] ⟨order, fun _ => true, input, val⟩

end Runs

/-! ## One step -/

section Step

variable {B C L : Type*} [DecidableEq B] [DecidableEq C] [DecidableEq L] [PartialOrder L] [OrderBot L]
variable {S : System B C L} {σ : State B C L}

/-- Monotone equations; every cell has one item, and the readers of a cell are all items whose input depends on
it. -/
structure System.Lawful (S : System B C L) : Prop where
  meet_mono : ∀ b, Monotone (S.meet b)
  flow_mono : ∀ c, Monotone (S.flow c)
  cells_disjoint : ∀ b b' c, c ∈ S.cells b → c ∈ S.cells b' → b = b'
  meet_congr : ∀ b X Y, S.boundary b = false → (∀ c, X c ≠ Y c → b ∉ S.readers c) → S.meet b X = S.meet b Y

/-- The marked items are those in the queue and those of the boundary. -/
structure QueueOk (S : System B C L) (σ : State B C L) : Prop where
  nodup : σ.queue.Nodup
  marked_of_mem : ∀ b ∈ σ.queue, σ.marked b = true
  mem_of_marked : ∀ b, S.boundary b = false → σ.marked b = true → b ∈ σ.queue
  marked_of_boundary : ∀ b, S.boundary b = true → σ.marked b = true

/-- The queue is kept, values are above what their equations say, and the equations of items that do not wait
hold. -/
structure Invariant (S : System B C L) (σ : State B C L) : Prop where
  queue_ok : QueueOk S σ
  above : ∀ b, ∀ c ∈ S.cells b, S.flow c (S.incoming b σ.val) ≤ σ.val c
  settled : ∀ b, b ∉ σ.queue → σ.input b = S.incoming b σ.val ∧
    ∀ c ∈ S.cells b, σ.val c = S.flow c (S.incoming b σ.val)

/-- What enqueueing leaves alone and what it achieves. -/
structure Enqueued (S : System B C L) (σ σ' : State B C L) (bs : List B) : Prop where
  queue_ok : QueueOk S σ'
  input_eq : σ'.input = σ.input
  val_eq : σ'.val = σ.val
  queue_subset : σ.queue ⊆ σ'.queue
  mem_queue : ∀ b ∈ bs, S.boundary b = false → b ∈ σ'.queue

/-- One item is enqueued. -/
theorem QueueOk.enqueue (h : QueueOk S σ) (b : B) : Enqueued S σ (σ.enqueue b) [b] := by
  unfold State.enqueue
  cases hb : σ.marked b
  · have hnot : b ∉ σ.queue := by
      intro hmem
      rw [h.marked_of_mem b hmem] at hb
      exact Bool.false_ne_true hb.symm
    rw [if_neg Bool.false_ne_true]
    refine ⟨⟨?_, ?_, ?_, ?_⟩, rfl, rfl, List.subset_append_left _ _, ?_⟩
    · exact List.nodup_append'.mpr ⟨h.nodup, List.nodup_singleton b, by simpa using hnot⟩
    · intro b' hb'
      rcases List.mem_append.mp hb' with hmem | hmem
      · by_cases heq : b' = b
        · subst heq
          exact Function.update_self _ _ _
        · exact (Function.update_of_ne heq _ _).trans (h.marked_of_mem b' hmem)
      · rw [List.mem_singleton.mp hmem]
        exact Function.update_self _ _ _
    · intro b' hbound hmark
      by_cases heq : b' = b
      · subst heq
        exact List.mem_append_right _ (List.mem_singleton_self _)
      · exact List.mem_append_left _
          (h.mem_of_marked b' hbound ((Function.update_of_ne heq _ _).symm.trans hmark))
    · intro b' hbound
      by_cases heq : b' = b
      · subst heq
        exact Function.update_self _ _ _
      · exact (Function.update_of_ne heq _ _).trans (h.marked_of_boundary b' hbound)
    · intro b' hb' _
      rw [List.mem_singleton.mp hb']
      exact List.mem_append_right _ (List.mem_singleton_self _)
  · rw [if_pos rfl]
    refine ⟨h, rfl, rfl, List.Subset.refl _, ?_⟩
    intro b' hb' hbound
    rw [List.mem_singleton.mp hb'] at hbound ⊢
    exact h.mem_of_marked b hbound hb

/-- A list of items is enqueued. -/
theorem QueueOk.enqueue_all (h : QueueOk S σ) (bs : List B) :
    Enqueued S σ (bs.foldl State.enqueue σ) bs := by
  induction bs generalizing σ with
  | nil => exact ⟨h, rfl, rfl, List.Subset.refl _, fun b hb => absurd hb List.not_mem_nil⟩
  | cons b bs ih =>
    have hone := h.enqueue b
    have hrest := ih hone.queue_ok
    refine ⟨hrest.queue_ok, hrest.input_eq.trans hone.input_eq, hrest.val_eq.trans hone.val_eq,
      List.Subset.trans hone.queue_subset hrest.queue_subset, ?_⟩
    intro b' hb' hbound
    rcases List.mem_cons.mp hb' with heq | hmem
    · exact hrest.queue_subset (hone.mem_queue b' (List.mem_singleton.mpr heq) hbound)
    · exact hrest.mem_queue b' hmem hbound

/-- What assigning to cells leaves alone and what it achieves. -/
structure Assigned (S : System B C L) (v : L) (σ σ' : State B C L) (cs : List C) : Prop where
  queue_ok : QueueOk S σ'
  input_eq : σ'.input = σ.input
  val_mem : ∀ c ∈ cs, σ'.val c = S.flow c v
  val_not_mem : ∀ c, c ∉ cs → σ'.val c = σ.val c
  queue_subset : σ.queue ⊆ σ'.queue
  mem_queue : ∀ c, σ'.val c ≠ σ.val c → ∀ b ∈ S.readers c, S.boundary b = false → b ∈ σ'.queue
  queue_eq : σ'.val = σ.val → σ'.queue = σ.queue

/-- One cell is assigned. -/
theorem QueueOk.assign (h : QueueOk S σ) (v : L) (c : C) : Assigned S v σ (S.assign v σ c) [c] := by
  unfold System.assign
  by_cases hsame : S.flow c v = σ.val c
  · rw [if_pos hsame]
    refine ⟨h, rfl, ?_, fun _ _ => rfl, List.Subset.refl _, fun c' hne => absurd rfl hne, fun _ => rfl⟩
    intro c' hc'
    rw [List.mem_singleton.mp hc', hsame]
  · rw [if_neg hsame]
    have hok : QueueOk S { σ with val := Function.update σ.val c (S.flow c v) } :=
      ⟨h.nodup, h.marked_of_mem, h.mem_of_marked, h.marked_of_boundary⟩
    have hall := hok.enqueue_all (S.readers c)
    refine ⟨hall.queue_ok, hall.input_eq, ?_, ?_, hall.queue_subset, ?_, ?_⟩
    · intro c' hc'
      rw [List.mem_singleton.mp hc', hall.val_eq]
      exact Function.update_self _ _ _
    · intro c' hc'
      rw [hall.val_eq]
      exact Function.update_of_ne (fun heq => hc' (List.mem_singleton.mpr heq)) _ _
    · intro c' hne b hb hbound
      have heq : c' = c := by
        by_contra hother
        rw [hall.val_eq] at hne
        exact hne (Function.update_of_ne hother _ _)
      rw [heq] at hb
      exact hall.mem_queue b hb hbound
    · intro hval
      refine absurd ?_ hsame
      rw [hall.val_eq] at hval
      rw [← congrFun hval c]
      exact (Function.update_self c (S.flow c v) σ.val).symm

/-- A list of cells is assigned. -/
theorem QueueOk.assign_all (h : QueueOk S σ) (v : L) (cs : List C) :
    Assigned S v σ (cs.foldl (S.assign v) σ) cs := by
  induction cs generalizing σ with
  | nil =>
    exact ⟨h, rfl, fun c hc => absurd hc List.not_mem_nil, fun _ _ => rfl, List.Subset.refl _,
      fun c hne => absurd rfl hne, fun _ => rfl⟩
  | cons c cs ih =>
    have hone : Assigned S v σ (S.assign v σ c) [c] := h.assign v c
    have hrest := ih hone.queue_ok
    have hfirst : ∀ c', (S.assign v σ c).val c' ≠ σ.val c' → c' = c := by
      intro c' hne
      by_contra hother
      exact hne (hone.val_not_mem c' (fun hc' => hother (List.mem_singleton.mp hc')))
    have hlast : (cs.foldl (S.assign v) (S.assign v σ c)).val c = S.flow c v := by
      by_cases hmem : c ∈ cs
      · exact hrest.val_mem c hmem
      · rw [hrest.val_not_mem c hmem]
        exact hone.val_mem c (List.mem_singleton_self c)
    refine ⟨hrest.queue_ok, hrest.input_eq.trans hone.input_eq, ?_, ?_,
      List.Subset.trans hone.queue_subset hrest.queue_subset, ?_, ?_⟩
    · intro c' hc'
      rcases List.mem_cons.mp hc' with heq | hmem
      · rw [heq]
        exact hlast
      · exact hrest.val_mem c' hmem
    · intro c' hc'
      rw [List.mem_cons, not_or] at hc'
      rw [List.foldl_cons, hrest.val_not_mem c' hc'.2]
      exact hone.val_not_mem c' (fun hmem => hc'.1 (List.mem_singleton.mp hmem))
    · intro c' hne b hb hbound
      by_cases hstep : (S.assign v σ c).val c' = σ.val c'
      · refine hrest.mem_queue c' ?_ b hb hbound
        rw [hstep]
        exact hne
      · exact hrest.queue_subset (hone.mem_queue c' hstep b hb hbound)
    · intro hval
      -- a cell that changed keeps its new value, so nothing changed on the way
      have hsame : (S.assign v σ c).val = σ.val := by
        funext c'
        by_contra hne
        have heq := hfirst c' hne
        subst heq
        apply hne
        rw [hone.val_mem c' (List.mem_singleton_self c'), ← hlast]
        exact congrFun hval c'
      have htail : (cs.foldl (S.assign v) (S.assign v σ c)).val = (S.assign v σ c).val := by
        rw [hsame]
        exact hval
      exact (hrest.queue_eq htail).trans (hone.queue_eq hsame)

/-- Values that fall make inputs fall. -/
theorem System.Lawful.incoming_mono (h : S.Lawful) (b : B) {X Y : C → L} (hle : X ≤ Y) :
    S.incoming b X ≤ S.incoming b Y := by
  unfold System.incoming
  split
  · exact le_rfl
  · exact h.meet_mono b hle

/-- The first item is taken off; it loses its mark unless it belongs to the boundary. -/
theorem QueueOk.take (h : QueueOk S σ) {b : B} {queue : List B} (hq : σ.queue = b :: queue) (input : B → L) :
    QueueOk S
      { queue := queue
        marked := if S.boundary b then σ.marked else Function.update σ.marked b false
        input := input
        val := σ.val } := by
  have hnodup := h.nodup
  rw [hq] at hnodup
  obtain ⟨hnot, hrest⟩ := List.nodup_cons.mp hnodup
  have hmem : ∀ b', b' ∈ queue → b' ∈ σ.queue := by
    intro b' hb'
    rw [hq]
    exact List.mem_cons_of_mem _ hb'
  refine ⟨hrest, ?_, ?_, ?_⟩
  · intro b' hb'
    have hne : b' ≠ b := by
      rintro rfl
      exact hnot hb'
    dsimp only
    split
    · exact h.marked_of_mem b' (hmem b' hb')
    · rw [Function.update_of_ne hne]
      exact h.marked_of_mem b' (hmem b' hb')
  · intro b' hbound hmark
    have hne : b' ≠ b := by
      rintro rfl
      dsimp only at hmark
      rw [hbound, if_neg Bool.false_ne_true, Function.update_self] at hmark
      exact Bool.false_ne_true hmark
    have hold : σ.marked b' = true := by
      dsimp only at hmark
      split at hmark
      · exact hmark
      · rwa [Function.update_of_ne hne] at hmark
    have hin := h.mem_of_marked b' hbound hold
    rw [hq] at hin
    exact (List.mem_cons.mp hin).resolve_left hne
  · intro b' hbound
    dsimp only
    split
    · exact h.marked_of_boundary b' hbound
    · rename_i hnb
      have hne : b' ≠ b := by
        rintro rfl
        exact hnb hbound
      rw [Function.update_of_ne hne]
      exact h.marked_of_boundary b' hbound

/-- What handling the first item does. -/
theorem Invariant.step_spec (h : Invariant S σ) {b : B} {queue : List B} (hq : σ.queue = b :: queue) :
    ∃ σ₁ : State B C L, σ₁.queue = queue ∧ σ₁.val = σ.val ∧
      σ₁.input = Function.update σ.input b (S.incoming b σ.val) ∧
      Assigned S (S.incoming b σ.val) σ₁ (S.step σ) (S.cells b) := by
  refine ⟨{ queue := queue
            marked := if S.boundary b then σ.marked else Function.update σ.marked b false
            input := Function.update σ.input b (S.incoming b σ.val)
            val := σ.val }, rfl, rfl, rfl, ?_⟩
  have hok := h.queue_ok.take hq (Function.update σ.input b (S.incoming b σ.val))
  have hall := hok.assign_all (S.incoming b σ.val) (S.cells b)
  unfold System.step
  rw [hq]
  exact hall

/-- Values only fall. -/
theorem Invariant.step_val_le (h : Invariant S σ) : (S.step σ).val ≤ σ.val := by
  rcases hq : σ.queue with _ | ⟨b, queue⟩
  · unfold System.step
    rw [hq]
  · obtain ⟨σ₁, _, hval, _, hdone⟩ := h.step_spec hq
    intro c
    by_cases hc : c ∈ S.cells b
    · rw [hdone.val_mem c hc]
      exact h.above b c hc
    · rw [hdone.val_not_mem c hc, hval]

/-- **One step** keeps the invariant: an item whose input changed is back in the queue. -/
theorem Invariant.step (hS : S.Lawful) (h : Invariant S σ) : Invariant S (S.step σ) := by
  have hfall := h.step_val_le
  rcases hq : σ.queue with _ | ⟨b, queue⟩
  · unfold System.step
    rw [hq]
    exact h
  · obtain ⟨σ₁, hqueue, hval, hinput, hdone⟩ := h.step_spec hq
    -- the input of an item that does not wait has not changed
    have hsame : ∀ b', b' ∉ (S.step σ).queue → S.incoming b' (S.step σ).val = S.incoming b' σ.val := by
      intro b' hnot
      unfold System.incoming
      cases hbound : S.boundary b'
      · rw [if_neg Bool.false_ne_true, if_neg Bool.false_ne_true]
        apply hS.meet_congr b' _ _ hbound
        intro c hne hread
        rw [← hval] at hne
        exact hnot (hdone.mem_queue c hne b' hread hbound)
      · rfl
    refine ⟨hdone.queue_ok, ?_, ?_⟩
    · intro b' c hc
      have hle : S.flow c (S.incoming b' (S.step σ).val) ≤ S.flow c (S.incoming b' σ.val) :=
        hS.flow_mono c (hS.incoming_mono b' hfall)
      by_cases heq : b' = b
      · subst heq
        rw [hdone.val_mem c hc]
        exact hle
      · have hother : c ∉ S.cells b := fun hmem => heq (hS.cells_disjoint b' b c hc hmem)
        rw [hdone.val_not_mem c hother, hval]
        exact le_trans hle (h.above b' c hc)
    · intro b' hnot
      rw [hsame b' hnot, hdone.input_eq, hinput]
      by_cases heq : b' = b
      · subst heq
        rw [Function.update_self]
        exact ⟨rfl, fun c hc => hdone.val_mem c hc⟩
      · have hold : b' ∉ σ.queue := by
          rw [hq]
          intro hmem
          rcases List.mem_cons.mp hmem with hb | hmem
          · exact heq hb
          · apply hnot
            apply hdone.queue_subset
            rw [hqueue]
            exact hmem
        rw [Function.update_of_ne heq]
        obtain ⟨hin, hcells⟩ := h.settled b' hold
        refine ⟨hin, ?_⟩
        intro c hc
        have hother : c ∉ S.cells b := fun hmem => heq (hS.cells_disjoint b' b c hc hmem)
        rw [hdone.val_not_mem c hother, hval]
        exact hcells c hc

/-- A cell of no item is never assigned. -/
theorem Invariant.step_val_of_no_item (h : Invariant S σ) {c : C} (hc : ∀ b, c ∉ S.cells b) :
    (S.step σ).val c = σ.val c := by
  rcases hq : σ.queue with _ | ⟨b, queue⟩
  · unfold System.step
    rw [hq]
  · obtain ⟨σ₁, _, hval, _, hdone⟩ := h.step_spec hq
    rw [hdone.val_not_mem c (hc b), hval]

/-- Values that are below what their equations say. -/
def System.Below (S : System B C L) (X : C → L) : Prop := ∀ b, ∀ c ∈ S.cells b, X c ≤ S.flow c (S.incoming b X)

/-- Values never fall below those that are below what their equations say. -/
theorem Invariant.le_step_val (hS : S.Lawful) (h : Invariant S σ) {X : C → L} (hX : S.Below X) (hle : X ≤ σ.val) :
    X ≤ (S.step σ).val := by
  rcases hq : σ.queue with _ | ⟨b, queue⟩
  · unfold System.step
    rw [hq]
    exact hle
  · obtain ⟨σ₁, _, hval, _, hdone⟩ := h.step_spec hq
    intro c
    by_cases hc : c ∈ S.cells b
    · rw [hdone.val_mem c hc]
      exact le_trans (hX b c hc) (hS.flow_mono c (hS.incoming_mono b hle))
    · rw [hdone.val_not_mem c hc, hval]
      exact hle c

/-- The order of the queue does not matter. -/
theorem Invariant.perm (h : Invariant S σ) {queue : List B} (hperm : queue.Perm σ.queue) :
    Invariant S { σ with queue := queue } := by
  refine ⟨⟨hperm.nodup_iff.mpr h.queue_ok.nodup, ?_, ?_, h.queue_ok.marked_of_boundary⟩, h.above, ?_⟩
  · intro b hb
    exact h.queue_ok.marked_of_mem b (hperm.mem_iff.mp hb)
  · intro b hbound hmark
    exact hperm.mem_iff.mpr (h.queue_ok.mem_of_marked b hbound hmark)
  · intro b hb
    exact h.settled b (fun hmem => hb (hperm.mem_iff.mpr hmem))

/-- A step that takes any item of the queue. -/
def System.StepAny (S : System B C L) (σ σ' : State B C L) : Prop :=
  σ.queue ≠ [] ∧ ∃ queue, queue.Perm σ.queue ∧ σ' = S.step { σ with queue := queue }

end Step

/-! ## The result -/

section Result

variable {B C L : Type*} [DecidableEq B] [DecidableEq C] [DecidableEq L] [PartialOrder L] [OrderBot L]
variable [Fintype B] [Fintype C] {S : System B C L} {σ : State B C L} {rank : L → ℕ}

/-- What is left to do: the values can only fall so far. -/
def remaining (rank : L → ℕ) (σ : State B C L) : ℕ :=
  (∑ c, rank (σ.val c)) * (Fintype.card B + 1) + σ.queue.length

/-- Every step with an item in the queue leaves less to do. -/
theorem Invariant.remaining_step_lt (hS : S.Lawful) (hrank : StrictMono rank) (h : Invariant S σ)
    (hne : σ.queue ≠ []) : remaining rank (S.step σ) < remaining rank σ := by
  obtain ⟨b, queue, hq⟩ := List.exists_cons_of_ne_nil hne
  obtain ⟨σ₁, hqueue, hval, _, hdone⟩ := h.step_spec hq
  unfold remaining
  by_cases hsame : (S.step σ).val = σ.val
  · have hless : (S.step σ).queue.length < σ.queue.length := by
      rw [hdone.queue_eq (hsame.trans hval.symm), hqueue, hq, List.length_cons]
      exact Nat.lt_succ_self _
    rw [hsame]
    omega
  · have hlt : (S.step σ).val < σ.val := lt_of_le_of_ne h.step_val_le hsame
    obtain ⟨hle, c, hc⟩ := Pi.lt_def.mp hlt
    have hsum : ∑ c, rank ((S.step σ).val c) < ∑ c, rank (σ.val c) :=
      Finset.sum_lt_sum (fun c _ => hrank.monotone (hle c)) ⟨c, Finset.mem_univ c, hrank hc⟩
    have hlen : (S.step σ).queue.length ≤ Fintype.card B := (h.step hS).queue_ok.nodup.length_le_card
    nlinarith

/-- With enough steps the queue runs empty. -/
theorem Invariant.iterate (hS : S.Lawful) (hrank : StrictMono rank) (h : Invariant S σ) {n : ℕ}
    (hn : σ.queue = [] ∨ remaining rank σ ≤ n) :
    Invariant S (S.step^[n] σ) ∧ (S.step^[n] σ).queue = [] ∧
      ∀ c, (∀ b, c ∉ S.cells b) → (S.step^[n] σ).val c = σ.val c := by
  induction n generalizing σ with
  | zero =>
    refine ⟨h, ?_, fun _ _ => rfl⟩
    rcases hn with hq | hn
    · exact hq
    · unfold remaining at hn
      have hlen : σ.queue.length = 0 := by omega
      exact List.length_eq_zero_iff.mp hlen
  | succ n ih =>
    rw [Function.iterate_succ_apply]
    have hless : (S.step σ).queue = [] ∨ remaining rank (S.step σ) ≤ n := by
      by_cases hq : σ.queue = []
      · left
        unfold System.step
        rw [hq]
        exact hq
      · right
        have hlt := h.remaining_step_lt hS hrank hq
        have hle := hn.resolve_left hq
        omega
    obtain ⟨hinv, hempty, hkept⟩ := ih (h.step hS) hless
    refine ⟨hinv, hempty, ?_⟩
    intro c hc
    rw [hkept c hc]
    exact h.step_val_of_no_item hc

/-- Runs stay above what is below the equations. -/
theorem Invariant.le_iterate (hS : S.Lawful) (h : Invariant S σ) {X : C → L} (hX : S.Below X) (hle : X ≤ σ.val) (n : ℕ) :
    X ≤ (S.step^[n] σ).val := by
  induction n generalizing σ with
  | zero => exact hle
  | succ n ih =>
    rw [Function.iterate_succ_apply]
    exact ih (h.step hS) (h.le_step_val hS hX hle)

/-- **A step that takes any item** keeps the invariant, leaves less to do, stays above what is below the equations and
does not touch cells of no item. -/
theorem Invariant.step_any (hS : S.Lawful) (hrank : StrictMono rank) (h : Invariant S σ) {σ' : State B C L}
    (hstep : S.StepAny σ σ') :
    Invariant S σ' ∧ remaining rank σ' < remaining rank σ ∧ (∀ X, S.Below X → X ≤ σ.val → X ≤ σ'.val) ∧
      ∀ c, (∀ b, c ∉ S.cells b) → σ'.val c = σ.val c := by
  obtain ⟨hne, queue, hperm, rfl⟩ := hstep
  have hinv := h.perm hperm
  have hne' : queue ≠ [] := fun hnil => hne (by rw [hnil] at hperm; exact hperm.symm.eq_nil)
  have hless := hinv.remaining_step_lt hS hrank hne'
  have hsame : remaining rank ({ σ with queue := queue } : State B C L) = remaining rank σ := by
    unfold remaining
    rw [hperm.length_eq]
  rw [hsame] at hless
  refine ⟨hinv.step hS, hless, ?_, ?_⟩
  · intro X hX hle
    exact hinv.le_step_val hS hX hle
  · intro c hc
    exact hinv.step_val_of_no_item hc

variable {order : List B} {input : B → L} {val : C → L} {height : ℕ}

/-- The state in which a run begins. -/
theorem invariant_start (hnodup : order.Nodup) (hall : ∀ b, b ∈ order)
    (habove : ∀ b, ∀ c ∈ S.cells b, S.flow c (S.incoming b val) ≤ val c) :
    Invariant S ⟨order, fun _ => true, input, val⟩ := by
  refine ⟨⟨hnodup, fun _ _ => rfl, fun b _ _ => hall b, fun _ _ => rfl⟩, habove, ?_⟩
  intro b hb
  exact absurd (hall b) hb

/-- **The result of a run** that begins above the solution: the queue is empty, every equation holds, and cells
of no item keep their value. -/
theorem solve_spec (hS : S.Lawful) (hrank : StrictMono rank) (hheight : ∀ l, rank l ≤ height)
    (hnodup : order.Nodup) (hall : ∀ b, b ∈ order)
    (habove : ∀ b, ∀ c ∈ S.cells b, S.flow c (S.incoming b val) ≤ val c) :
    (S.solve height order input val).queue = [] ∧
      (∀ b, (S.solve height order input val).input b =
        S.incoming b (S.solve height order input val).val) ∧
      (∀ b, ∀ c ∈ S.cells b, (S.solve height order input val).val c =
        S.flow c ((S.solve height order input val).input b)) ∧
      ∀ c, (∀ b, c ∉ S.cells b) → (S.solve height order input val).val c = val c := by
  have hinv : Invariant S ⟨order, fun _ => true, input, val⟩ := invariant_start hnodup hall habove
  have hbound : remaining rank (⟨order, fun _ => true, input, val⟩ : State B C L) ≤ stepBound B C height := by
    unfold remaining stepBound
    have hsum : ∑ c, rank (val c) ≤ Fintype.card C * height := by
      have := Finset.sum_le_card_nsmul Finset.univ (fun c => rank (val c)) height (fun c _ => hheight _)
      rwa [smul_eq_mul, Finset.card_univ] at this
    have hlen : order.length ≤ Fintype.card B := hnodup.length_le_card
    exact Nat.add_le_add (Nat.mul_le_mul_right _ hsum) hlen
  obtain ⟨hend, hempty, hkept⟩ := hinv.iterate hS hrank (Or.inr hbound)
  have hsettled : ∀ b, _ := fun b => hend.settled b (by rw [hempty]; exact List.not_mem_nil)
  refine ⟨hempty, fun b => (hsettled b).1, ?_, hkept⟩
  intro b c hc
  unfold System.solve
  rw [(hsettled b).1]
  exact (hsettled b).2 c hc

end Result

end GccCore.Lib.Worklist
