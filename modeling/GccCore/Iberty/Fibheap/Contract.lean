import GccCore.Iberty.Fibheap.Operations
import Mathlib.Tactic.NormNum

/-!
# `libiberty/fibheap.c`: the heap as a priority queue

Several heaps live in one memory. Next to the pointers runs an account of what the caller has put in
and taken out (`Bags`): for each heap the nodes that were inserted and not extracted.

* **The contract** (`Contract`): the nodes that the pointers lead to are those of the account, keys do
  not fall towards the leaves, `min` is a root of least key and `nodes` the number of nodes.
* **Runs** (`fibheap_contract`): it holds in every state of every run, every call returns, and
  `fibheap_extract_min` returns the data of a node of least key, as long as the roots fit the array of
  `fibheap_consolidate` (`Room`).
* **The array can be too short** (`fibheap_overruns_array`): with a `long` of four bytes, the first
  extraction from a heap of `2 ^ 33 + 1` nodes indexes past it.
-/

namespace GccCore.Iberty.Fibheap

open GccCore.Lib.Ring

/-! ## What the pointers lead to -/

section Reach

variable {δ : Type} {mem : Mem δ} {heap : FibHeap} {N s : Finset ℕ} {p : Option ℕ} {a : ℕ}

/-- The nodes of a circular list, from its first one on. Source: `fibheap.h` (`right`). -/
inductive Listed (mem : Mem δ) (p : Option ℕ) : ℕ → Prop
  | first {a : ℕ} : p = some a → Listed mem p a
  | next {a : ℕ} : Listed mem p a → Listed mem p (mem a).right

/-- The nodes of a heap: those of the root list, and those listed as children of its nodes.
Source: `fibheap.h` (`root`, `child`) -/
inductive Held (mem : Mem δ) (heap : FibHeap) : ℕ → Prop
  | root {a : ℕ} : Listed mem heap.root a → Held mem heap a
  | child {b a : ℕ} : Held mem heap b → Listed mem (mem b).child a → Held mem heap a

theorem listed_iff (hring : Linked mem s) (hp : PointsInto p s) : Listed mem p a ↔ a ∈ s := by
  constructor
  · intro h
    induction h with
    | first heq =>
      rw [heq] at hp
      exact hp
    | next _ ih => exact (IsRing.neighbours hring ih).1
  · intro ha
    cases hp' : p with
    | none =>
      rw [hp'] at hp
      have hempty : s = ∅ := hp
      rw [hempty] at ha
      exact absurd ha (Finset.notMem_empty a)
    | some b =>
      rw [hp'] at hp
      exact IsRing.forall_of_right hring hp (Listed.first rfl) (fun x _ hx => hx.next) a ha

/-- The children that are listed are those by parent pointers. -/
theorem HeapInv.listed_child (h : HeapInv mem heap N) {b : ℕ} (hb : b ∈ N) :
    Listed mem (mem b).child a ↔ a ∈ N ∧ (mem a).parent = some b := by
  have hinv := h.forest.node b hb (by simp)
  rw [listed_iff hinv.ring hinv.child, mem_kids]

theorem HeapInv.listed_root (h : HeapInv mem heap N) :
    Listed mem heap.root a ↔ a ∈ N ∧ (mem a).parent = none := by
  rw [listed_iff h.roots.1 h.roots.2, mem_tops]

/-- **The pointers lead to all nodes**, and to no others. -/
theorem HeapInv.held_iff (h : HeapInv mem heap N) : Held mem heap a ↔ a ∈ N := by
  constructor
  · intro ha
    induction ha with
    | root hroot => exact (h.listed_root.mp hroot).1
    | child _ hlist ih => exact ((h.listed_child ih).mp hlist).1
  · intro ha
    by_contra hnot
    obtain ⟨rank, hrank⟩ := h.forest.rank
    classical
    -- the highest node that is not reached has no parent, or one that is reached
    obtain ⟨b, hb, hmax⟩ := Finset.exists_max_image (N.filter fun b => ¬ Held mem heap b) rank
      ⟨a, Finset.mem_filter.mpr ⟨ha, hnot⟩⟩
    obtain ⟨hbN, hbnot⟩ := Finset.mem_filter.mp hb
    apply hbnot
    cases hp : (mem b).parent with
    | none => exact .root (h.listed_root.mpr ⟨hbN, hp⟩)
    | some q =>
      have hqN := h.forest.parent_mem b hbN q hp
      have hq : Held mem heap q := by
        by_contra hq
        have := hmax q (Finset.mem_filter.mpr ⟨hqN, hq⟩)
        exact absurd (hrank b hbN q hp) (not_lt.mpr this)
      exact .child hq ((h.listed_child hqN).mpr ⟨hbN, hp⟩)

end Reach

/-! ## Runs -/

section Runs

variable {δ : Type}

/-- The heaps of a program, by their addresses, and the memory of their nodes. -/
structure State (δ : Type) where
  mem : Mem δ
  heaps : ℕ → Option FibHeap

/-- The calls. The address that `xcalloc` returns is part of the call.
Source: `fibheap.h` -/
inductive Op (δ : Type)
  | new (h : ℕ)
  | insert (h node : ℕ) (key : ℤ) (data : δ)
  | extractMin (h : ℕ)
  | replaceKey (h node : ℕ) (key : ℤ)
  | union (ha hb : ℕ)

/-- One call; the result is the data that `fibheap_extract_min` returns.
Source: `fibheap.c` -/
def exec (sizeofLong fuel : ℕ) (st : State δ) : Op δ → Except Failure (Option δ × State δ)
  | .new h => .ok (none, ⟨st.mem, Function.update st.heaps h (some fibheapNew)⟩)
  | .insert h node key data =>
    match st.heaps h with
    | none => .error .nullPointer
    | some heap =>
      let (mem, heap) := fibheapInsert st.mem heap node key data
      .ok (none, ⟨mem, Function.update st.heaps h (some heap)⟩)
  | .extractMin h =>
    match st.heaps h with
    | none => .error .nullPointer
    | some heap => do
      let (ret, mem, heap) ← fibheapExtractMin sizeofLong fuel st.mem heap
      .ok (ret, ⟨mem, Function.update st.heaps h (some heap)⟩)
  | .replaceKey h node key =>
    match st.heaps h with
    | none => .error .nullPointer
    | some heap => do
      let (_, mem, heap) ← fibheapReplaceKey fuel st.mem heap node key
      .ok (none, ⟨mem, Function.update st.heaps h (some heap)⟩)
  | .union ha hb =>
    match st.heaps ha, st.heaps hb with
    | some heapa, some heapb => do
      let (side, mem, heap) ← fibheapUnion st.mem heapa heapb
      match side with
      | .heapa => .ok (none, ⟨mem,
          Function.update (Function.update st.heaps hb none) ha (some heap)⟩)
      | .heapb => .ok (none, ⟨mem,
          Function.update (Function.update st.heaps ha none) hb (some heap)⟩)
    | _, _ => .error .nullPointer

/-- **The account**: the nodes inserted into each heap and not yet extracted, with their keys and
data. -/
structure Bags (δ : Type) where
  bag : ℕ → Option (Finset ℕ)
  key : ℕ → ℤ
  data : ℕ → δ

/-- The account after a call; `m` is the node that left the heap, if any. -/
def Bags.after (s : Bags δ) (m : Option ℕ) : Op δ → Bags δ
  | .new h => { s with bag := Function.update s.bag h (some ∅) }
  | .insert h node key data =>
    { bag := Function.update s.bag h ((s.bag h).map (insert node))
      key := Function.update s.key node key
      data := Function.update s.data node data }
  | .extractMin h =>
    match m with
    | none => s
    | some m => { s with bag := Function.update s.bag h ((s.bag h).map fun N => N.erase m) }
  | .replaceKey _ node key => { s with key := Function.update s.key node key }
  | .union ha hb =>
    match s.bag ha, s.bag hb with
    | some A, some B =>
      if A = ∅ then
        { s with bag := Function.update (Function.update s.bag ha none) hb (some (A ∪ B)) }
      else { s with bag := Function.update (Function.update s.bag hb none) ha (some (A ∪ B)) }
    | _, _ => s

/-- The node that a call takes out. Source: `fibheap.c` `fibheap_extr_min_node` (`ret`). -/
def removed (st : State δ) : Op δ → Option ℕ
  | .extractMin h => (st.heaps h).bind FibHeap.min
  | _ => none

/-- What callers keep to: heaps are live, an allocated address is not in use, a key is not raised,
and the heaps of a union are two.
Source: `fibheap.h` -/
def Legal (s : Bags δ) : Op δ → Prop
  | .new h => s.bag h = none
  | .insert h node _ _ => (∃ N, s.bag h = some N) ∧ ∀ h' N, s.bag h' = some N → node ∉ N
  | .extractMin h => ∃ N, s.bag h = some N
  | .replaceKey h node key => ∃ N, s.bag h = some N ∧ node ∈ N ∧ key ≤ s.key node
  | .union ha hb => ha ≠ hb ∧ (∃ A, s.bag ha = some A) ∧ ∃ B, s.bag hb = some B

/-- **The room** that an extraction needs: over the other roots and the children of the minimum, the
powers `2 ^ degree` sum up to less than `2 ^ (1 + 8 * sizeof (long))`.
Source: `fibheap.c` `fibheap_consolidate` (`a[1 + 8 * sizeof (long)]`) -/
def Room (sizeofLong : ℕ) (st : State δ) (s : Bags δ) : Op δ → Prop
  | .extractMin h => ∀ heap N m, st.heaps h = some heap → s.bag h = some N → heap.min = some m →
      extractWeight st.mem N m < 2 ^ (1 + 8 * sizeofLong)
  | _ => True

/-- The fuel exceeds the size of every heap. -/
def Enough (fuel : ℕ) (s : Bags δ) : Prop := ∀ h N, s.bag h = some N → N.card < fuel

/-- **Runs** from a state without heaps, with the account of each. -/
inductive Run (sizeofLong : ℕ) : State δ → Bags δ → Prop
  | start (mem : Mem δ) (key : ℕ → ℤ) (data : ℕ → δ) :
      Run sizeofLong ⟨mem, fun _ => none⟩ ⟨fun _ => none, key, data⟩
  | step {st st' : State δ} {s : Bags δ} {op : Op δ} {fuel : ℕ} {r : Option δ} :
      Run sizeofLong st s → Legal s op → Room sizeofLong st s op → Enough fuel s →
      exec sizeofLong fuel st op = .ok (r, st') → Run sizeofLong st' (s.after (removed st op) op)

/-- What is promised of one heap that holds the nodes `N`.
Source: `fibheap.h` -/
structure Meets (mem : Mem δ) (heap : FibHeap) (s : Bags δ) (N : Finset ℕ) : Prop where
  holds : ∀ a, Held mem heap a ↔ a ∈ N
  contents : ∀ a ∈ N, (mem a).key = s.key a ∧ (mem a).data = s.data a
  order : ∀ p c, Held mem heap p → Listed mem (mem p).child c → (mem p).key ≤ (mem c).key
  no_min : heap.min = none → N = ∅
  min_root : ∀ m, heap.min = some m → Listed mem heap.root m ∧ ∀ a ∈ N, (mem m).key ≤ (mem a).key
  nodes : heap.nodes = N.card

/-- **The contract.** Source: `fibheap.h`. -/
def Contract (st : State δ) (s : Bags δ) : Prop :=
  ∀ h, (∃ heap N, st.heaps h = some heap ∧ s.bag h = some N ∧ Meets st.mem heap s N) ∨
    (st.heaps h = none ∧ s.bag h = none)

/-- What a call returns: nothing, but for an extraction from a heap with nodes, which returns the
data of the node taken out, a node of least key.
Source: `fibheap.h` (`fibheap_extract_min`) -/
def Returns (s : Bags δ) (m : Option ℕ) (r : Option δ) : Op δ → Prop
  | .extractMin h => ∀ N, s.bag h = some N → (N = ∅ ∧ m = none ∧ r = none) ∨
      ∃ a ∈ N, m = some a ∧ r = some (s.data a) ∧ ∀ b ∈ N, s.key a ≤ s.key b
  | _ => m = none ∧ r = none

end Runs

/-! ## One call -/

section Step

variable {δ : Type} {st st' : State δ} {s : Bags δ} {mem' : Mem δ} {heap' : FibHeap} {N' : Finset ℕ}
  {key' : ℕ → ℤ} {data' : ℕ → δ} {h : ℕ} {sizeofLong fuel : ℕ}

/-- **The invariant of runs**: each live heap is well formed on its nodes, no node is in two heaps,
and the nodes carry the keys and data of the account. -/
structure Rep (st : State δ) (s : Bags δ) : Prop where
  live : ∀ h, (∃ heap N, st.heaps h = some heap ∧ s.bag h = some N ∧ HeapInv st.mem heap N) ∨
    (st.heaps h = none ∧ s.bag h = none)
  disjoint : ∀ h h' N N', h ≠ h' → s.bag h = some N → s.bag h' = some N' → Disjoint N N'
  contents : ∀ h N, s.bag h = some N → ∀ a ∈ N, (st.mem a).key = s.key a ∧ (st.mem a).data = s.data a

/-- A live heap. -/
theorem Rep.heap (hrep : Rep st s) {N : Finset ℕ} (hN : s.bag h = some N) :
    ∃ heap, st.heaps h = some heap ∧ HeapInv st.mem heap N := by
  rcases hrep.live h with ⟨heap, N', hheap, hN', hinv⟩ | ⟨-, hnone⟩
  · obtain rfl : N = N' := Option.some.inj (hN.symm.trans hN')
    exact ⟨heap, hheap, hinv⟩
  · rw [hN] at hnone
    cases hnone

/-- **One heap changes**, and the others keep their nodes. -/
theorem Rep.replace (hrep : Rep st s) (hinv : HeapInv mem' heap' N')
    (hcont : ∀ a ∈ N', (mem' a).key = key' a ∧ (mem' a).data = data' a)
    (hother : ∀ h' ≠ h, ∀ N, s.bag h' = some N → Disjoint N N' ∧
      ∀ a ∈ N, mem' a = st.mem a ∧ key' a = s.key a ∧ data' a = s.data a) :
    Rep ⟨mem', Function.update st.heaps h (some heap')⟩
      ⟨Function.update s.bag h (some N'), key', data'⟩ := by
  have hbag : ∀ h' N, Function.update s.bag h (some N') h' = some N →
      (h' = h ∧ N = N') ∨ (h' ≠ h ∧ s.bag h' = some N) := by
    intro h' N hN
    by_cases hh : h' = h
    · subst hh
      rw [Function.update_self] at hN
      exact .inl ⟨rfl, (Option.some.inj hN).symm⟩
    · rw [Function.update_of_ne hh] at hN
      exact .inr ⟨hh, hN⟩
  refine ⟨fun h' => ?_, fun h₁ h₂ N₁ N₂ hne hN₁ hN₂ => ?_, fun h' N hN a ha => ?_⟩
  · by_cases hh : h' = h
    · subst hh
      exact .inl ⟨heap', N', Function.update_self .., Function.update_self .., hinv⟩
    · rcases hrep.live h' with ⟨heap, N, hheap, hN, hinv'⟩ | ⟨hheap, hN⟩
      · refine .inl ⟨heap, N, ?_, ?_, hinv'.congr fun a ha => ((hother h' hh N hN).2 a ha).1⟩
        · exact (Function.update_of_ne hh ..).trans hheap
        · exact (Function.update_of_ne hh ..).trans hN
      · refine .inr ⟨?_, ?_⟩
        · exact (Function.update_of_ne hh ..).trans hheap
        · exact (Function.update_of_ne hh ..).trans hN
  · rcases hbag h₁ N₁ hN₁ with ⟨rfl, rfl⟩ | ⟨hh₁, hold₁⟩
    · rcases hbag h₂ N₂ hN₂ with ⟨rfl, -⟩ | ⟨hh₂, hold₂⟩
      · exact absurd rfl hne
      · exact ((hother h₂ hh₂ N₂ hold₂).1).symm
    · rcases hbag h₂ N₂ hN₂ with ⟨rfl, rfl⟩ | ⟨hh₂, hold₂⟩
      · exact (hother h₁ hh₁ N₁ hold₁).1
      · exact hrep.disjoint h₁ h₂ N₁ N₂ hne hold₁ hold₂
  · rcases hbag h' N hN with ⟨rfl, rfl⟩ | ⟨hh, hN⟩
    · exact hcont a ha
    · obtain ⟨hmem, hkey, hdata⟩ := (hother h' hh N hN).2 a ha
      obtain ⟨hk, hd⟩ := hrep.contents h' N hN a ha
      exact ⟨(congrArg FibNode.key hmem).trans (hk.trans hkey.symm),
        (congrArg FibNode.data hmem).trans (hd.trans hdata.symm)⟩

/-- A heap is freed. Source: `fibheap.c` `fibheap_union` (`free (heapb)`). Kind: L -/
theorem Rep.drop (hrep : Rep st s) (h : ℕ) :
    Rep ⟨st.mem, Function.update st.heaps h none⟩ ⟨Function.update s.bag h none, s.key, s.data⟩ := by
  have hbag : ∀ h' N, Function.update s.bag h none h' = some N → s.bag h' = some N := by
    intro h' N hN
    by_cases hh : h' = h
    · subst hh
      rw [Function.update_self] at hN
      cases hN
    · rwa [Function.update_of_ne hh] at hN
  refine ⟨fun h' => ?_, fun h₁ h₂ N₁ N₂ hne hN₁ hN₂ => ?_, fun h' N hN => ?_⟩
  · by_cases hh : h' = h
    · subst hh
      exact .inr ⟨Function.update_self .., Function.update_self ..⟩
    · simp only [Function.update_of_ne hh]
      exact hrep.live h'
  · exact hrep.disjoint h₁ h₂ N₁ N₂ hne (hbag h₁ N₁ hN₁) (hbag h₂ N₂ hN₂)
  · exact hrep.contents h' N (hbag h' N hN)

/-- A change within the nodes of one heap. -/
theorem Rep.replace_within (hrep : Rep st s) {N : Finset ℕ} (hN : s.bag h = some N)
    (hinv : HeapInv mem' heap' N') (hsub : N' ⊆ N) (hframe : ∀ a ∉ N, mem' a = st.mem a)
    (hkeys : ∀ a ∉ N, key' a = s.key a)
    (hcont : ∀ a ∈ N', (mem' a).key = key' a ∧ (mem' a).data = s.data a) :
    Rep ⟨mem', Function.update st.heaps h (some heap')⟩
      ⟨Function.update s.bag h (some N'), key', s.data⟩ := by
  refine hrep.replace hinv hcont fun h' hh N₁ hN₁ => ?_
  have hdisj := hrep.disjoint h' h N₁ N hh hN₁ hN
  refine ⟨hdisj.mono_right hsub, fun a ha => ?_⟩
  have haN : a ∉ N := Finset.disjoint_left.mp hdisj ha
  exact ⟨hframe a haN, hkeys a haN, rfl⟩

/-- `fibheap_insert` in a run. Source: `fibheap.c` `fibheap_insert`. Kind: L -/
theorem step_insert {node : ℕ} {key : ℤ} {data : δ} (hrep : Rep st s)
    (hlegal : Legal s (.insert h node key data)) :
    ∃ st', exec sizeofLong fuel st (.insert h node key data) = .ok (none, st') ∧
      Rep st' (s.after none (.insert h node key data)) := by
  obtain ⟨⟨N, hN⟩, hfresh⟩ := hlegal
  obtain ⟨heap, hheap, hinv⟩ := hrep.heap hN
  have hnode : node ∉ N := hfresh h N hN
  obtain ⟨hinv', hsame, -, -⟩ := insert_spec hinv hnode key data
  simp only [exec, hheap]
  refine ⟨_, rfl, ?_⟩
  rw [Bags.after, hN, Option.map_some]
  refine hrep.replace hinv' (fun a ha => ?_) fun h' hh N₁ hN₁ => ?_
  · obtain ⟨hk, hd⟩ := hsame.1 a
    rw [hk, hd]
    by_cases han : a = node
    · subst han
      simp [fibnodeNew]
    · have haN : a ∈ N := Finset.mem_of_mem_insert_of_ne ha han
      simp only [Function.update_of_ne han]
      exact hrep.contents h N hN a haN
  · have hnode₁ : node ∉ N₁ := hfresh h' N₁ hN₁
    have hdisj := hrep.disjoint h' h N₁ N hh hN₁ hN
    refine ⟨Finset.disjoint_insert_right.mpr ⟨hnode₁, hdisj⟩, fun a ha => ?_⟩
    have han : a ≠ node := fun heq => hnode₁ (heq ▸ ha)
    have haN : a ∉ insert node N := by
      rw [Finset.mem_insert, not_or]
      exact ⟨han, Finset.disjoint_left.mp hdisj ha⟩
    rw [hsame.2 a haN]
    simp only [Function.update_of_ne han]
    exact ⟨trivial, trivial, trivial⟩

/-- `fibheap_extract_min` in a run. Source: `fibheap.c` `fibheap_extract_min`. Kind: L -/
theorem step_extractMin (hrep : Rep st s) (hlegal : Legal s (.extractMin h))
    (hroom : Room sizeofLong st s (.extractMin h)) (hfuel : Enough fuel s) :
    ∃ r st', exec sizeofLong fuel st (.extractMin h) = .ok (r, st') ∧
      Rep st' (s.after (removed st (.extractMin h)) (.extractMin h)) ∧
      Returns s (removed st (.extractMin h)) r (.extractMin h) := by
  obtain ⟨N, hN⟩ := hlegal
  obtain ⟨heap, hheap, hinv⟩ := hrep.heap hN
  have hremoved : removed st (.extractMin h) = heap.min := by
    simp [removed, hheap]
  rw [hremoved]
  simp only [exec, hheap]
  cases hm : heap.min with
  | none =>
    have hempty := hinv.eq_empty hm
    have heq : fibheapExtractMin sizeofLong fuel st.mem heap = .ok (none, st.mem, heap) := by
      rw [fibheapExtractMin, hm]
    rw [heq]
    refine ⟨none, _, rfl, ?_, fun N' hN' => .inl ?_⟩
    · have hself : Function.update st.heaps h (some heap) = st.heaps :=
        Function.update_eq_self_iff.mpr hheap.symm
      rw [hself]
      exact hrep
    · obtain rfl : N = N' := Option.some.inj (hN.symm.trans hN')
      exact ⟨hempty, rfl, rfl⟩
  | some m =>
    obtain ⟨⟨hmN, -⟩, hmin⟩ := hinv.min_le hm
    obtain ⟨mem', heap', heq, hinv', hsame⟩ :=
      (extractMin_spec hinv hm (hfuel h N hN)).1 (hroom heap N m hheap hN hm)
    have hcont := hrep.contents h N hN
    rw [heq]
    refine ⟨_, _, rfl, ?_, fun N' hN' => .inr ⟨m, ?_, rfl, ?_, ?_⟩⟩
    · rw [Bags.after, hN, Option.map_some]
      refine hrep.replace_within hN hinv' (Finset.erase_subset m N) hsame.2 (fun _ _ => rfl)
        fun a ha => ?_
      obtain ⟨hk, hd⟩ := hsame.1 a
      rw [hk, hd]
      exact hcont a (Finset.mem_of_mem_erase ha)
    · obtain rfl : N = N' := Option.some.inj (hN.symm.trans hN')
      exact hmN
    · rw [(hcont m hmN).2]
    · obtain rfl : N = N' := Option.some.inj (hN.symm.trans hN')
      intro b hb
      rw [← (hcont m hmN).1, ← (hcont b hb).1]
      exact hmin b hb

/-- `fibheap_replace_key` in a run. Source: `fibheap.c` `fibheap_replace_key`. Kind: L -/
theorem step_replaceKey {node : ℕ} {key : ℤ} (hrep : Rep st s)
    (hlegal : Legal s (.replaceKey h node key)) (hfuel : Enough fuel s) :
    ∃ st', exec sizeofLong fuel st (.replaceKey h node key) = .ok (none, st') ∧
      Rep st' (s.after none (.replaceKey h node key)) := by
  obtain ⟨N, hN, hnode, hle⟩ := hlegal
  obtain ⟨heap, hheap, hinv⟩ := hrep.heap hN
  have hcont := hrep.contents h N hN
  rw [← (hcont node hnode).1] at hle
  obtain ⟨mem', heap', heq, hinv', hsame⟩ :=
    replaceKeyData_spec hinv hnode hle (hfuel h N hN) (st.mem node).data
  simp only [exec, hheap, fibheapReplaceKey, heq, bind, Except.bind]
  refine ⟨_, rfl, ?_⟩
  have hbag : Function.update s.bag h (some N) = s.bag := Function.update_eq_self_iff.mpr hN.symm
  have hafter : s.after none (.replaceKey h node key) =
      ⟨Function.update s.bag h (some N), Function.update s.key node key, s.data⟩ := by
    rw [hbag]
    rfl
  rw [hafter]
  refine hrep.replace_within hN hinv' subset_rfl (fun a ha => ?_) (fun a ha => ?_) fun a ha => ?_
  · have han : a ≠ node := fun heq => ha (heq ▸ hnode)
    rw [hsame.2 a ha, modify_apply, if_neg han]
  · have han : a ≠ node := fun heq => ha (heq ▸ hnode)
    rw [Function.update_of_ne han]
  · obtain ⟨hk, hd⟩ := hsame.1 a
    rw [hk, hd, modify_apply]
    by_cases han : a = node
    · subst han
      rw [if_pos rfl, Function.update_self]
      exact ⟨rfl, (hcont a ha).2⟩
    · rw [if_neg han, Function.update_of_ne han]
      exact hcont a ha

/-- `fibheap_union` in a run. Source: `fibheap.c` `fibheap_union`. Kind: L -/
theorem step_union {ha hb : ℕ} (hrep : Rep st s) (hlegal : Legal s (.union ha hb)) :
    ∃ st', exec sizeofLong fuel st (.union ha hb) = .ok (none, st') ∧
      Rep st' (s.after none (.union ha hb)) := by
  obtain ⟨hne, ⟨A, hA⟩, B, hB⟩ := hlegal
  obtain ⟨heapa, hheapa, hinva⟩ := hrep.heap hA
  obtain ⟨heapb, hheapb, hinvb⟩ := hrep.heap hB
  obtain ⟨mem', heap', heq, hinv', hsame⟩ :=
    union_spec hinva hinvb (hrep.disjoint ha hb A B hne hA hB)
  have hcont : ∀ a ∈ A ∪ B, (mem' a).key = s.key a ∧ (mem' a).data = s.data a := by
    intro a hmem
    obtain ⟨hk, hd⟩ := hsame.1 a
    rw [hk, hd]
    rcases Finset.mem_union.mp hmem with hmem | hmem
    · exact hrep.contents ha A hA a hmem
    · exact hrep.contents hb B hB a hmem
  -- the freed heap first, then the one that is returned
  have hstep : ∀ keep free, ((keep = ha ∧ free = hb) ∨ (keep = hb ∧ free = ha)) →
      Rep ⟨mem', Function.update (Function.update st.heaps free none) keep (some heap')⟩
        ⟨Function.update (Function.update s.bag free none) keep (some (A ∪ B)), s.key, s.data⟩ := by
    intro keep free hkf
    refine (hrep.drop free).replace hinv' hcont fun h' hh N hN => ?_
    dsimp only at hN ⊢
    have hfree : h' ≠ free := by
      rintro rfl
      rw [Function.update_self] at hN
      cases hN
    rw [Function.update_of_ne hfree] at hN
    have hh' : h' ≠ ha ∧ h' ≠ hb := by
      rcases hkf with ⟨rfl, rfl⟩ | ⟨rfl, rfl⟩
      · exact ⟨hh, hfree⟩
      · exact ⟨hfree, hh⟩
    have hdisj : Disjoint N (A ∪ B) := Finset.disjoint_union_right.mpr
      ⟨hrep.disjoint h' ha N A hh'.1 hN hA, hrep.disjoint h' hb N B hh'.2 hN hB⟩
    exact ⟨hdisj, fun a hmem => ⟨hsame.2 a (Finset.disjoint_left.mp hdisj hmem), rfl, rfl⟩⟩
  simp only [exec, hheapa, hheapb, heq, bind, Except.bind, Bags.after, hA, hB]
  by_cases hempty : A = ∅
  · simp only [if_pos hempty]
    exact ⟨_, rfl, hstep hb ha (.inr ⟨rfl, rfl⟩)⟩
  · simp only [if_neg hempty]
    exact ⟨_, rfl, hstep ha hb (.inl ⟨rfl, rfl⟩)⟩

/-- **One call.** It returns, keeps the invariant, and returns what it should.
Source: `fibheap.c`
Kind: L -/
theorem step_spec (hrep : Rep st s) {op : Op δ} (hlegal : Legal s op)
    (hroom : Room sizeofLong st s op) (hfuel : Enough fuel s) :
    ∃ r st', exec sizeofLong fuel st op = .ok (r, st') ∧ Rep st' (s.after (removed st op) op) ∧
      Returns s (removed st op) r op := by
  cases op with
  | new h =>
    refine ⟨none, _, rfl, ?_, rfl, rfl⟩
    refine hrep.replace (heapInv_new st.mem) (fun a ha => absurd ha (Finset.notMem_empty a))
      fun h' _ N _ => ⟨Finset.disjoint_empty_right N, fun a _ => ⟨rfl, rfl, rfl⟩⟩
  | insert h node key data =>
    obtain ⟨st', heq, hrep'⟩ := step_insert hrep hlegal
    exact ⟨none, st', heq, hrep', rfl, rfl⟩
  | extractMin h => exact step_extractMin hrep hlegal hroom hfuel
  | replaceKey h node key =>
    obtain ⟨st', heq, hrep'⟩ := step_replaceKey hrep hlegal hfuel
    exact ⟨none, st', heq, hrep', rfl, rfl⟩
  | union ha hb =>
    obtain ⟨st', heq, hrep'⟩ := step_union hrep hlegal
    exact ⟨none, st', heq, hrep', rfl, rfl⟩

/-- The invariant in every state of a run. -/
theorem Run.rep (hrun : Run sizeofLong st s) : Rep st s := by
  induction hrun with
  | start mem key data =>
    refine ⟨fun h => .inr ⟨rfl, rfl⟩, fun _ _ _ _ _ hN => ?_, fun _ _ hN => ?_⟩
    · cases hN
    · cases hN
  | step _ hlegal hroom hfuel hexec ih =>
    obtain ⟨r', st'', heq, hrep', -⟩ := step_spec ih hlegal hroom hfuel
    rw [hexec] at heq
    obtain ⟨rfl, rfl⟩ := Prod.mk.inj (Except.ok.inj heq)
    exact hrep'

theorem Rep.contract (hrep : Rep st s) : Contract st s := by
  intro h
  rcases hrep.live h with ⟨heap, N, hheap, hN, hinv⟩ | hdead
  · refine .inl ⟨heap, N, hheap, hN, fun a => hinv.held_iff, hrep.contents h N hN,
      fun p c hp hc => ?_, hinv.eq_empty, fun m hm => ?_, hinv.nodes⟩
    · have hpN := hinv.held_iff.mp hp
      obtain ⟨hcN, hcp⟩ := (hinv.listed_child hpN).mp hc
      exact hinv.forest.order c hcN p hcp
    · obtain ⟨hroot, hle⟩ := hinv.min_le hm
      exact ⟨hinv.listed_root.mpr hroot, hle⟩
  · exact .inr hdead

/-- **The priority queue.** In every state of a run whose extractions have room the contract holds,
and every legal call with room returns and goes on with the run; an extraction returns the data of a
node of least key, the one that leaves the account.
Source: `fibheap.h`
Kind: P -/
theorem fibheap_contract (hrun : Run sizeofLong st s) :
    Contract st s ∧ ∀ op fuel, Legal s op → Room sizeofLong st s op → Enough fuel s →
      ∃ r st', exec sizeofLong fuel st op = .ok (r, st') ∧
        Run sizeofLong st' (s.after (removed st op) op) ∧ Returns s (removed st op) r op := by
  refine ⟨hrun.rep.contract, fun op fuel hlegal hroom hfuel => ?_⟩
  obtain ⟨r, st', heq, -, hret⟩ := step_spec hrun.rep hlegal hroom hfuel
  exact ⟨r, st', heq, hrun.step hlegal hroom hfuel heq, hret⟩

end Step

/-! ## The array can be too short -/

section Overrun

/-- The heap at address 0 after `n` nodes of key 0 have been inserted, at the addresses below `n`.
Source: none: example -/
def filled : ℕ → Mem Unit × FibHeap
  | 0 => (fun a => fibnodeNew a 0 (), fibheapNew)
  | n + 1 => fibheapInsert (filled n).1 (filled n).2 n 0 ()

/-- The state with this heap. Source: none: example. -/
def filledState (n : ℕ) : State Unit :=
  ⟨(filled n).1, Function.update (fun _ => none) 0 (some (filled n).2)⟩

/-- Its account. Source: none: example. -/
def filledBags (n : ℕ) : Bags Unit :=
  ⟨Function.update (fun _ => none) 0 (some (Finset.range n)), fun _ => 0, fun _ => ()⟩

theorem filledBags_eq {n h : ℕ} {N : Finset ℕ} (hN : (filledBags n).bag h = some N) :
    h = 0 ∧ N = Finset.range n := by
  unfold filledBags at hN
  dsimp only at hN
  by_cases hh : h = 0
  · subst hh
    rw [Function.update_self] at hN
    exact ⟨rfl, (Option.some.inj hN).symm⟩
  · rw [Function.update_of_ne hh] at hN
    cases hN

theorem filledBags_insert (n : ℕ) :
    (filledBags n).after none (.insert 0 n 0 ()) = filledBags (n + 1) := by
  simp only [Bags.after, filledBags, Function.update_self, Option.map_some, Function.update_idem,
    Function.update_eq_self, Finset.range_add_one]

/-- The insertions are a run. Source: none: example. Kind: L -/
theorem filled_run (sizeofLong n : ℕ) : Run sizeofLong (filledState n) (filledBags n) := by
  induction n with
  | zero =>
    have hstart : Run sizeofLong (⟨(filled 0).1, fun _ => none⟩ : State Unit)
        ⟨fun _ => none, fun _ => 0, fun _ => ()⟩ := Run.start _ _ _
    have henough : Enough 1 (⟨fun _ => none, fun _ => 0, fun _ => ()⟩ : Bags Unit) := by
      intro h N hN
      cases hN
    have hexec : exec sizeofLong 1 (⟨(filled 0).1, fun _ => none⟩ : State Unit) (.new 0) =
        .ok (none, filledState 0) := rfl
    exact hstart.step (show Legal _ (.new 0) from rfl) trivial henough hexec
  | succ n ih =>
    have hlegal : Legal (filledBags n) (.insert 0 n 0 ()) := by
      refine ⟨⟨Finset.range n, rfl⟩, fun h N hN => ?_⟩
      rw [(filledBags_eq hN).2]
      exact Finset.notMem_range_self
    have henough : Enough (n + 1) (filledBags n) := by
      intro h N hN
      rw [(filledBags_eq hN).2, Finset.card_range]
      exact Nat.lt_succ_self n
    have hexec : exec sizeofLong (n + 1) (filledState n) (.insert 0 n 0 ()) =
        .ok (none, filledState (n + 1)) := by
      simp only [exec, filledState, Function.update_self, Function.update_idem]
      rfl
    have hstep := ih.step hlegal trivial henough hexec
    rwa [show removed (filledState n) (.insert 0 n 0 ()) = none from rfl, filledBags_insert] at hstep

/-- All nodes are roots without children. Source: none: example. Kind: L -/
theorem filled_spec (n : ℕ) :
    HeapInv (filled n).1 (filled n).2 (Finset.range n) ∧
      tops (filled n).1 (Finset.range n) = Finset.range n ∧ ∀ a, ((filled n).1 a).degree = 0 := by
  induction n with
  | zero => exact ⟨heapInv_new _, rfl, fun a => rfl⟩
  | succ n ih =>
    obtain ⟨hinv, htops, hdeg⟩ := ih
    obtain ⟨hinv', -, htops', hdeg'⟩ := insert_spec hinv Finset.notMem_range_self 0 ()
    rw [Finset.range_add_one, filled]
    refine ⟨hinv', ?_, fun a => ?_⟩
    · rw [htops', htops]
    · rw [hdeg', hdeg, ite_self]

/-- The weight of such a heap is the number of the other nodes. Source: none: example. Kind: L -/
theorem filled_weight {n m : ℕ} (hm : m < n) :
    extractWeight (filled n).1 (Finset.range n) m = n - 1 := by
  obtain ⟨-, htops, hdeg⟩ := filled_spec n
  have hkids : kids (filled n).1 (Finset.range n) m ⊆ Finset.range n := Finset.filter_subset _ _
  simp only [extractWeight, htops, Finset.union_eq_left.mpr hkids, hdeg, pow_zero, ← Finset.card_eq_sum_ones]
  rw [Finset.card_erase_of_mem (Finset.mem_range.mpr hm), Finset.card_range]

/-- **The contract at work**: ten nodes are inserted where a `long` has eight bytes, and one is
extracted.
Source: none: example
Kind: C -/
theorem fibheap_contract_ten :
    Contract (filledState 10) (filledBags 10) ∧
      ∃ r st', exec 8 11 (filledState 10) (.extractMin 0) = .ok (r, st') ∧
        Returns (filledBags 10) (removed (filledState 10) (.extractMin 0)) r (.extractMin 0) := by
  obtain ⟨hcontract, hcall⟩ := fibheap_contract (filled_run 8 10)
  have hroom : Room 8 (filledState 10) (filledBags 10) (.extractMin 0) := by
    intro heap N m hheap hN hm
    obtain rfl : (filled 10).2 = heap := Option.some.inj hheap
    rw [(filledBags_eq hN).2]
    obtain ⟨⟨hmN, -⟩, -⟩ := (filled_spec 10).1.min_le hm
    rw [show (filledState 10).mem = (filled 10).1 from rfl, filled_weight (Finset.mem_range.mp hmN)]
    norm_num
  have henough : Enough 11 (filledBags 10) := by
    intro h N hN
    rw [(filledBags_eq hN).2, Finset.card_range]
    norm_num
  obtain ⟨r, st', heq, -, hret⟩ := hcall (.extractMin 0) 11 ⟨Finset.range 10, rfl⟩ hroom henough
  exact ⟨hcontract, r, st', heq, hret⟩

/-- The extraction from such a heap with more than `2 ^ (1 + 8 * sizeof (long))` nodes.
Source: none: example
Kind: L -/
theorem filled_overrun {sizeofLong fuel n : ℕ} (hn : 2 ^ (1 + 8 * sizeofLong) < n)
    (hfuel : Enough fuel (filledBags n)) :
    exec sizeofLong fuel (filledState n) (.extractMin 0) = .error .outOfBounds := by
  have hinv := (filled_spec n).1
  have hcard := hfuel 0 (Finset.range n) rfl
  have hmin : ∃ m, (filled n).2.min = some m := by
    refine Option.ne_none_iff_exists'.mp fun hnone => ?_
    have hempty := hinv.eq_empty hnone
    rw [Finset.range_eq_empty_iff] at hempty
    exact absurd hn (hempty ▸ Nat.not_lt_zero _)
  obtain ⟨m, hm⟩ := hmin
  obtain ⟨⟨hmN, -⟩, -⟩ := hinv.min_le hm
  have hbig : 2 ^ (1 + 8 * sizeofLong) ≤ extractWeight (filled n).1 (Finset.range n) m := by
    rw [filled_weight (Finset.mem_range.mp hmN)]
    omega
  have herr := (extractMin_spec hinv hm hcard).2 hbig
  simp only [exec, filledState, Function.update_self, herr]
  rfl

/-- **The array is too short.** Where a `long` has four bytes, `2 ^ 33 + 1` insertions and one
extraction are a run of legal calls, and the extraction indexes past the array.
Source: `fibheap.c` `fibheap_consolidate` (`a[1 + 8 * sizeof (long)]`)
Kind: C -/
theorem fibheap_overruns_array :
    Run 4 (filledState (2 ^ 33 + 1)) (filledBags (2 ^ 33 + 1)) ∧
      Legal (filledBags (2 ^ 33 + 1)) (.extractMin 0) ∧
      ∀ fuel, Enough fuel (filledBags (2 ^ 33 + 1)) →
        exec 4 fuel (filledState (2 ^ 33 + 1)) (.extractMin 0) = .error .outOfBounds :=
  ⟨filled_run 4 _, ⟨_, rfl⟩, fun _ hfuel => filled_overrun (by norm_num) hfuel⟩

end Overrun

end GccCore.Iberty.Fibheap
