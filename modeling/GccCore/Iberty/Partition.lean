import GccCore.Lib.LinkCircle
import Mathlib.Data.Fintype.Card
import Mathlib.Data.Set.Card

/-!
# `libiberty/partition.c`: a partition of integers

* **The model**: the array of `struct partition_elem`. A pointer into the array is the index of its
  element, so a partition of `n` elements has no pointer that leaves it.
* **The invariant** (`Wf`): each class is one circle of `next` links, its canonical element is one of
  its members, and the canonical element counts the class. `partition_union` keeps it and joins two
  classes (`partitionUnion_spec`).
* **Whole runs** (`partition_contract`): after any unions the classes are those of the equivalence
  that the united pairs generate.
-/

namespace GccCore.Iberty.Partition

open GccCore.Lib.LinkCircle

/-- Source: `partition.h` `struct partition_elem`. -/
structure PartitionElem (n : ℕ) where
  classElement : Fin n
  next : Fin n
  /-- An `unsigned`, valid for the canonical element of a class only. -/
  classCount : ℕ

/-- Source: `partition.h` `struct partition_def`, with `num_elements` in the type. -/
structure PartitionDef (n : ℕ) where
  elements : Fin n → PartitionElem n

/-! ## The code -/

section Code

variable {n : ℕ}

/-- Source: `partition.c` `partition_new`. -/
def partitionNew (n : ℕ) : PartitionDef n :=
  { elements := fun e => { classElement := e, next := e, classCount := 1 } }

/-- Source: `partition.h` `partition_find`. -/
def partitionFind (part : PartitionDef n) (element : Fin n) : Fin n :=
  (part.elements element).classElement

/-- `p->class_element = class_element`. Source: `partition.c` `partition_union`. -/
def setClassElement (elements : Fin n → PartitionElem n) (p classElement : Fin n) :
    Fin n → PartitionElem n :=
  Function.update elements p { elements p with classElement := classElement }

/-- `p->next = next`. Source: `partition.c` `partition_union`. -/
def setNext (elements : Fin n → PartitionElem n) (p next : Fin n) : Fin n → PartitionElem n :=
  Function.update elements p { elements p with next := next }

/-- `elements[p].class_count += count`, unsigned.
Source: `partition.c` `partition_union` -/
def addClassCount (elements : Fin n → PartitionElem n) (p : Fin n) (count : ℕ) :
    Fin n → PartitionElem n :=
  Function.update elements p
    { elements p with classCount := ((elements p).classCount + count) % 2 ^ 32 }

/-- `for (p = e2->next; p != e2; p = p->next) p->class_element = class_element;` from `p` on.
Source: `partition.c` `partition_union` -/
def updateClass (e2 classElement : Fin n) :
    ℕ → (Fin n → PartitionElem n) → Fin n → Option (Fin n → PartitionElem n)
  | 0, _, _ => none
  | fuel + 1, elements, p =>
    if p = e2 then some elements
    else
      let elements := setClassElement elements p classElement
      updateClass e2 classElement fuel elements (elements p).next

/-- The part of `partition_union` after the larger class has been chosen.
Source: `partition.c` `partition_union` -/
def uniteInto (fuel : ℕ) (part : PartitionDef n) (elem1 elem2 classElement : Fin n) :
    Option (Fin n × PartitionDef n) := do
  let elements := part.elements
  -- Keep a count of the number of elements in the list.
  let elements := addClassCount elements classElement
    (elements (elements elem2).classElement).classCount
  -- Update the class fields in elem2's class list.
  let elements := setClassElement elements elem2 classElement
  let elements ← updateClass elem2 classElement fuel elements (elements elem2).next
  -- Splice the circular lists.
  let oldNext := (elements elem1).next
  let elements := setNext elements elem1 (elements elem2).next
  let elements := setNext elements elem2 oldNext
  return (classElement, { elements := elements })

/-- Source: `partition.c` `partition_union`. -/
def partitionUnion (fuel : ℕ) (part : PartitionDef n) (elem1 elem2 : Fin n) :
    Option (Fin n × PartitionDef n) :=
  let classElement := (part.elements elem1).classElement
  -- If they're already in the same class, do nothing.
  if classElement = (part.elements elem2).classElement then some (classElement, part)
  -- Make sure ELEM1 is in the larger class of the two.  If not, swap them.
  else if (part.elements elem1).classCount < (part.elements elem2).classCount then
    uniteInto fuel part elem2 elem1 (part.elements elem2).classElement
  else uniteInto fuel part elem1 elem2 classElement

/-- A sequence of calls of `partition_union`. Source: `partition.h`. -/
def partitionUnions (fuel : ℕ) : PartitionDef n → List (Fin n × Fin n) → Option (PartitionDef n)
  | part, [] => some part
  | part, (elem1, elem2) :: pairs => do
    let (_, part) ← partitionUnion fuel part elem1 elem2
    partitionUnions fuel part pairs

/-! ### What each write leaves as it was -/

section Writes

variable (elements : Fin n → PartitionElem n) (p q x : Fin n) (count : ℕ)

@[simp] theorem setClassElement_classElement :
    (setClassElement elements p q x).classElement =
      if x = p then q else (elements x).classElement := by
  by_cases h : x = p <;> simp [setClassElement, h]

@[simp] theorem setClassElement_next :
    (setClassElement elements p q x).next = (elements x).next := by
  by_cases h : x = p <;> simp [setClassElement, h]

@[simp] theorem setClassElement_classCount :
    (setClassElement elements p q x).classCount = (elements x).classCount := by
  by_cases h : x = p <;> simp [setClassElement, h]

@[simp] theorem setNext_classElement :
    (setNext elements p q x).classElement = (elements x).classElement := by
  by_cases h : x = p <;> simp [setNext, h]

@[simp] theorem setNext_next :
    (setNext elements p q x).next = if x = p then q else (elements x).next := by
  by_cases h : x = p <;> simp [setNext, h]

@[simp] theorem setNext_classCount :
    (setNext elements p q x).classCount = (elements x).classCount := by
  by_cases h : x = p <;> simp [setNext, h]

@[simp] theorem addClassCount_classElement :
    (addClassCount elements p count x).classElement = (elements x).classElement := by
  by_cases h : x = p <;> simp [addClassCount, h]

@[simp] theorem addClassCount_next :
    (addClassCount elements p count x).next = (elements x).next := by
  by_cases h : x = p <;> simp [addClassCount, h]

@[simp] theorem addClassCount_classCount :
    (addClassCount elements p count x).classCount =
      if x = p then ((elements p).classCount + count) % 2 ^ 32 else (elements x).classCount := by
  by_cases h : x = p <;> simp [addClassCount, h]

end Writes

end Code

/-! ## The invariant -/

section Invariant

variable {n : ℕ}

/-- The `next` links of a partition. -/
def links (part : PartitionDef n) (x : Fin n) : Fin n := (part.elements x).next

/-- The class of an element. -/
def classOf (part : PartitionDef n) (x : Fin n) : Finset (Fin n) :=
  Finset.univ.filter fun y => partitionFind part y = partitionFind part x

@[simp] theorem mem_classOf {part : PartitionDef n} {x y : Fin n} :
    y ∈ classOf part x ↔ partitionFind part y = partitionFind part x := by
  simp [classOf]

/-- **The invariant of a partition.** Source: `partition.h`. -/
structure Wf (part : PartitionDef n) : Prop where
  canonical : ∀ x, partitionFind part (partitionFind part x) = partitionFind part x
  circular : ∀ x, ∃ l, Circle (links part) x l ∧ ∀ y, y ∈ x :: l ↔ y ∈ classOf part x
  counted : ∀ x, (part.elements (partitionFind part x)).classCount = (classOf part x).card

/-- A new partition: each element is in a class by itself.
Source: `partition.c` `partition_new`
Kind: L -/
theorem partitionNew_wf (n : ℕ) : Wf (partitionNew n) := by
  have hclass : ∀ x, classOf (partitionNew n) x = {x} := by
    intro x
    ext y
    simp [partitionFind, partitionNew]
  refine ⟨fun x => rfl, fun x => ⟨[], circle_nil rfl, fun y => ?_⟩, fun x => ?_⟩
  · rw [hclass, Finset.mem_singleton, List.mem_singleton]
  · rw [hclass, Finset.card_singleton]
    rfl

/-- Same class: an equivalence. -/
theorem sameClass_equivalence (part : PartitionDef n) :
    Equivalence fun x y => partitionFind part x = partitionFind part y :=
  ⟨fun _ => rfl, Eq.symm, Eq.trans⟩

/-- The classes of two elements that are not in one class have no common element. -/
theorem classOf_disjoint {part : PartitionDef n} {x y : Fin n}
    (hne : partitionFind part x ≠ partitionFind part y) :
    Disjoint (classOf part x) (classOf part y) := by
  rw [Finset.disjoint_left]
  intro z hx hy
  rw [mem_classOf] at hx hy
  exact hne (hx.symm.trans hy)

end Invariant

/-! ## Union -/

section Union

variable {n : ℕ} {part part' : PartitionDef n} {elem1 elem2 : Fin n}

/-- **The loop over the second class**: it comes to its end, with the class element of what it
passes set and all else as it was.
Source: `partition.c` `partition_union`
Kind: L -/
theorem updateClass_spec {e2 c : Fin n} {l : List (Fin n)} {fuel : ℕ}
    {elements : Fin n → PartitionElem n} {p : Fin n}
    (hwalk : Walk (fun x => (elements x).next) p l e2) (hnot : e2 ∉ l) (hfuel : l.length < fuel) :
    ∃ elements', updateClass e2 c fuel elements p = some elements' ∧
      ∀ x, (elements' x).classElement = (if x ∈ l then c else (elements x).classElement) ∧
        (elements' x).next = (elements x).next ∧
        (elements' x).classCount = (elements x).classCount := by
  induction l generalizing fuel elements p with
  | nil =>
    obtain ⟨fuel, rfl⟩ := Nat.exists_eq_succ_of_ne_zero (Nat.ne_of_gt hfuel)
    obtain rfl : p = e2 := hwalk
    refine ⟨elements, ?_, fun x => ?_⟩
    · rw [updateClass, if_pos rfl]
    · simp
  | cons y l ih =>
    obtain ⟨fuel, rfl⟩ := Nat.exists_eq_succ_of_ne_zero (Nat.ne_of_gt (Nat.zero_lt_of_lt hfuel))
    obtain ⟨rfl, hrest⟩ := hwalk
    have hne : y ≠ e2 := fun h => hnot (h ▸ List.mem_cons_self ..)
    have hwalk' : Walk (fun x => (setClassElement elements y c x).next)
        (setClassElement elements y c y).next l e2 := by
      simpa using hrest
    obtain ⟨elements', hrun, hspec⟩ :=
      ih hwalk' (fun h => hnot (List.mem_cons_of_mem _ h)) (Nat.lt_of_succ_lt_succ hfuel)
    refine ⟨elements', ?_, fun x => ?_⟩
    · rw [updateClass, if_neg hne]
      exact hrun
    · obtain ⟨hclass, hnext, hcount⟩ := hspec x
      simp only [setClassElement_classElement, setClassElement_next, setClassElement_classCount]
        at hclass hnext hcount
      refine ⟨?_, hnext, hcount⟩
      rw [hclass]
      by_cases hx : x = y <;> simp [hx]

/-- What the union of two classes writes: the second class gets the class element of the first, the
two elements exchange their links, and the class element counts both classes.
Source: `partition.c` `partition_union` -/
structure United (part part' : PartitionDef n) (elem1 elem2 : Fin n) : Prop where
  find_eq : ∀ x, partitionFind part' x =
    if partitionFind part x = partitionFind part elem2 then partitionFind part elem1
    else partitionFind part x
  links_eq : ∀ x, links part' x =
    if x = elem1 then links part elem2 else if x = elem2 then links part elem1 else links part x
  count_eq : ∀ x, (part'.elements x).classCount =
    if x = partitionFind part elem1 then
      ((part.elements (partitionFind part elem1)).classCount +
        (part.elements (partitionFind part elem2)).classCount) % 2 ^ 32
    else (part.elements x).classCount

/-- The code after the choice of the larger class does what `United` says.
Source: `partition.c` `partition_union`
Kind: L -/
theorem uniteInto_spec (hw : Wf part) {fuel : ℕ} (hfuel : n ≤ fuel)
    (hne : partitionFind part elem1 ≠ partitionFind part elem2) :
    ∃ part', uniteInto fuel part elem1 elem2 (partitionFind part elem1) =
        some (partitionFind part elem1, part') ∧ United part part' elem1 elem2 := by
  obtain ⟨l, hcircle, hl⟩ := hw.circular elem2
  obtain ⟨hnot, hnodup⟩ := List.nodup_cons.mp hcircle.nodup
  have hlength : l.length < fuel := by
    have hcard := hcircle.nodup.length_le_card
    rw [Fintype.card_fin, List.length_cons] at hcard
    omega
  have hmem : ∀ x, (x = elem2 ∨ x ∈ l) ↔ partitionFind part x = partitionFind part elem2 := by
    intro x
    rw [← mem_classOf, ← hl, List.mem_cons]
  have hdiff : elem2 ≠ elem1 := fun h => hne (h ▸ rfl)
  -- the elements after the two writes before the loop
  let c := partitionFind part elem1
  let count := (part.elements (part.elements elem2).classElement).classCount
  let before := setClassElement (addClassCount part.elements c count) elem2 c
  have hlinks : (fun x => (before x).next) = links part := by
    funext x
    simp [before, links]
  have hwalk : Walk (fun x => (before x).next) (before elem2).next l elem2 := by
    rw [hlinks, congrFun hlinks elem2]
    exact hcircle.walk
  obtain ⟨after, hrun, hafter⟩ := updateClass_spec (c := c) hwalk hnot hlength
  refine ⟨{ elements := setNext (setNext after elem1 (after elem2).next) elem2 (after elem1).next },
    ?_, fun x => ?_, fun x => ?_, fun x => ?_⟩
  · simp only [uniteInto]
    rw [hrun]
    rfl
  · simp only [partitionFind, setNext_classElement, (hafter x).1]
    simp only [before, setClassElement_classElement, addClassCount_classElement]
    have hx := hmem x
    by_cases hxl : x ∈ l
    · rw [if_pos hxl]
      exact (if_pos (hx.mp (.inr hxl))).symm
    · rw [if_neg hxl]
      by_cases h2 : x = elem2
      · rw [if_pos h2]
        exact (if_pos (hx.mp (.inl h2))).symm
      · rw [if_neg h2]
        exact (if_neg fun h => (hx.mpr h).elim h2 hxl).symm
  · simp only [links, setNext_next, (hafter _).2.1]
    simp only [before, setClassElement_next, addClassCount_next]
    by_cases h2 : x = elem2
    · rw [if_pos h2, if_neg (h2 ▸ hdiff), if_pos h2]
    · rw [if_neg h2]
      exact if_congr Iff.rfl rfl (if_neg h2).symm
  · simp only [setNext_classCount, (hafter x).2.2]
    simp only [before, setClassElement_classCount, addClassCount_classCount]
    rfl

section Joining

variable (hu : United part part' elem1 elem2)
  (hne : partitionFind part elem1 ≠ partitionFind part elem2)

include hu hne

/-- The classes of two elements are joined. Source: `partition.c` `partition_union`. Kind: L -/
theorem United.join (x y : Fin n) :
    partitionFind part' x = partitionFind part' y ↔
      Join (fun x y => partitionFind part x = partitionFind part y) elem1 elem2 x y := by
  simp only [Join, hu.find_eq]
  by_cases hx : partitionFind part x = partitionFind part elem2 <;>
    by_cases hy : partitionFind part y = partitionFind part elem2
  · simp [hx, hy]
  · simp [hx, hy, hne.symm, Ne.symm hy]
  · simp [hx, hy, hne]
  · simp [hx, hy, Ne.symm hy]

/-- The class of the two elements. Source: `partition.c` `partition_union`. Kind: L -/
theorem United.classOf_of_mem {x : Fin n} (hx : x ∈ classOf part elem1 ∪ classOf part elem2) :
    classOf part' x = classOf part elem1 ∪ classOf part elem2 := by
  ext y
  rw [Finset.mem_union, mem_classOf, mem_classOf] at hx
  simp only [mem_classOf, hu.join hne, Join, Finset.mem_union]
  rcases hx with hx | hx
  · simp [hx, hne, eq_comm]
  · simp only [hx]
    tauto

/-- The other classes. Source: `partition.c` `partition_union`. Kind: L -/
theorem United.classOf_of_notMem {x : Fin n} (hx : x ∉ classOf part elem1 ∪ classOf part elem2) :
    classOf part' x = classOf part x := by
  ext y
  rw [Finset.mem_union, mem_classOf, mem_classOf, not_or] at hx
  simp only [mem_classOf, hu.join hne, Join]
  simp [Ne.symm hx.1, Ne.symm hx.2]

/-- The spliced circle holds both classes. Source: `partition.c` `partition_union`. Kind: L -/
theorem United.circular (hw : Wf part) (x : Fin n) :
    ∃ l, Circle (links part') x l ∧ ∀ y, y ∈ x :: l ↔ y ∈ classOf part' x := by
  have hdiff : elem2 ≠ elem1 := fun h => hne (h ▸ rfl)
  by_cases hx : x ∈ classOf part elem1 ∪ classOf part elem2
  · obtain ⟨l, hcircle₁, hl⟩ := hw.circular elem1
    obtain ⟨m, hcircle₂, hm⟩ := hw.circular elem2
    have hdisj : (elem1 :: l).Disjoint (elem2 :: m) := fun y hy₁ hy₂ =>
      Finset.disjoint_left.mp (classOf_disjoint hne) ((hl y).mp hy₁) ((hm y).mp hy₂)
    have hspliced : Circle (links part') elem1 (m ++ elem2 :: l) := by
      refine hcircle₁.splice hcircle₂ hdisj ?_ ?_ fun y h1 h2 => ?_
      · rw [hu.links_eq, if_pos rfl]
      · rw [hu.links_eq, if_neg hdiff, if_pos rfl]
      · rw [hu.links_eq, if_neg h1, if_neg h2]
    have hall : ∀ y, y ∈ elem1 :: (m ++ elem2 :: l) ↔ y ∈ classOf part elem1 ∪ classOf part elem2 := by
      intro y
      rw [Finset.mem_union, ← hl, ← hm]
      simp only [List.mem_cons, List.mem_append]
      tauto
    obtain ⟨k, hk, hperm⟩ := hspliced.rotate ((hall x).mpr hx)
    refine ⟨k, hk, fun y => ?_⟩
    rw [hu.classOf_of_mem hne hx, ← hall, hperm.mem_iff]
  · obtain ⟨l, hcircle, hl⟩ := hw.circular x
    refine ⟨l, hcircle.congr fun y hy => ?_, fun y => ?_⟩
    · -- the class of x holds neither of the two elements
      have hyx : partitionFind part y = partitionFind part x := mem_classOf.mp ((hl y).mp hy)
      rw [Finset.mem_union, mem_classOf, mem_classOf, not_or, ← hyx] at hx
      have hne₁ : y ≠ elem1 := fun h => hx.1 (by rw [h])
      have hne₂ : y ≠ elem2 := fun h => hx.2 (by rw [h])
      rw [hu.links_eq, if_neg hne₁, if_neg hne₂]
    · rw [hu.classOf_of_notMem hne hx, hl]

/-- The class element counts both classes, and no `unsigned` is left.
Source: `partition.c` `partition_union`
Kind: L -/
theorem United.counted (hw : Wf part) (hn : n < 2 ^ 31) (x : Fin n) :
    (part'.elements (partitionFind part' x)).classCount = (classOf part' x).card := by
  have hboth : (classOf part elem1).card + (classOf part elem2).card =
      (classOf part elem1 ∪ classOf part elem2).card :=
    (Finset.card_union_of_disjoint (classOf_disjoint hne)).symm
  have hcard : (classOf part elem1 ∪ classOf part elem2).card ≤ n := by
    simpa using Finset.card_le_univ (classOf part elem1 ∪ classOf part elem2)
  by_cases hx : x ∈ classOf part elem1 ∪ classOf part elem2
  · have hfind : partitionFind part' x = partitionFind part elem1 := by
      rw [Finset.mem_union, mem_classOf, mem_classOf] at hx
      rw [hu.find_eq]
      split_ifs with h2
      · rfl
      · exact hx.resolve_right h2
    rw [hu.classOf_of_mem hne hx, hfind, hu.count_eq, if_pos rfl, hw.counted, hw.counted, hboth]
    exact Nat.mod_eq_of_lt (by omega)
  · rw [hu.classOf_of_notMem hne hx]
    rw [Finset.mem_union, mem_classOf, mem_classOf, not_or] at hx
    have hfind : partitionFind part' x = partitionFind part x := by
      rw [hu.find_eq, if_neg hx.2]
    rw [hfind, hu.count_eq, if_neg hx.1, hw.counted]

/-- **The union of two classes keeps the invariant.** Source: `partition.c` `partition_union`.
Kind: P -/
theorem United.wf (hw : Wf part) (hn : n < 2 ^ 31) : Wf part' := by
  refine ⟨fun x => ?_, hu.circular hne hw, hu.counted hne hw hn⟩
  have hkeep : ∀ y, partitionFind part y ≠ partitionFind part elem2 →
      partitionFind part' y = partitionFind part y := fun y hy => by rw [hu.find_eq, if_neg hy]
  by_cases hx : partitionFind part x = partitionFind part elem2
  · have hfind : partitionFind part' x = partitionFind part elem1 := by
      rw [hu.find_eq, if_pos hx]
    rw [hfind, hkeep _ (by rwa [hw.canonical]), hw.canonical]
  · rw [hkeep x hx, hkeep _ (by rwa [hw.canonical]), hw.canonical]

end Joining

/-- `partition_union` in terms of `partition_find`. Source: `partition.c` `partition_union`. Kind: L -/
theorem partitionUnion_eq (fuel : ℕ) (part : PartitionDef n) (elem1 elem2 : Fin n) :
    partitionUnion fuel part elem1 elem2 =
      if partitionFind part elem1 = partitionFind part elem2 then
        some (partitionFind part elem1, part)
      else if (part.elements elem1).classCount < (part.elements elem2).classCount then
        uniteInto fuel part elem2 elem1 (partitionFind part elem2)
      else uniteInto fuel part elem1 elem2 (partitionFind part elem1) := rfl

/-- **Union** keeps the invariant, joins the classes of the two elements and returns the canonical
element of the union class.
Source: `partition.c` `partition_union`
Kind: P -/
theorem partitionUnion_spec (hw : Wf part) (hn : n < 2 ^ 31) {fuel : ℕ} (hfuel : n ≤ fuel)
    (elem1 elem2 : Fin n) :
    ∃ part', partitionUnion fuel part elem1 elem2 = some (partitionFind part' elem1, part') ∧
      Wf part' ∧ ∀ x y, partitionFind part' x = partitionFind part' y ↔
        Join (fun x y => partitionFind part x = partitionFind part y) elem1 elem2 x y := by
  rw [partitionUnion_eq]
  by_cases hsame : partitionFind part elem1 = partitionFind part elem2
  · refine ⟨part, if_pos hsame, hw, fun x y => ⟨.inl, ?_⟩⟩
    rintro (h | ⟨h1, h2⟩ | ⟨h1, h2⟩)
    · exact h
    · exact h1.trans (hsame.trans h2)
    · exact h1.trans (hsame.symm.trans h2)
  · by_cases hless : (part.elements elem1).classCount < (part.elements elem2).classCount
    · obtain ⟨part', hrun, hu⟩ := uniteInto_spec hw hfuel (Ne.symm hsame)
      have hfind : partitionFind part' elem1 = partitionFind part elem2 := by
        rw [hu.find_eq, if_pos rfl]
      refine ⟨part', ?_, hu.wf (Ne.symm hsame) hw hn, fun x y => ?_⟩
      · rw [if_neg hsame, if_pos hless, hfind]
        exact hrun
      · rw [hu.join (Ne.symm hsame)]
        exact or_congr Iff.rfl or_comm
    · obtain ⟨part', hrun, hu⟩ := uniteInto_spec hw hfuel hsame
      have hfind : partitionFind part' elem1 = partitionFind part elem1 := by
        rw [hu.find_eq, if_neg hsame]
      refine ⟨part', ?_, hu.wf hsame hw hn, hu.join hsame⟩
      rw [if_neg hsame, if_neg hless, hfind]
      exact hrun

end Union

/-! ## Runs -/

section Runs

variable {n : ℕ}

/-- The equivalence that the united pairs generate. -/
def Related (pairs : List (Fin n × Fin n)) : Fin n → Fin n → Prop :=
  Relation.EqvGen fun x y => (x, y) ∈ pairs

/-- **A run from any partition**: the classes are those that the old classes and the united pairs
generate.
Source: `partition.c`
Kind: P -/
theorem partitionUnions_spec (hn : n < 2 ^ 31) {fuel : ℕ} (hfuel : n ≤ fuel)
    (pairs : List (Fin n × Fin n)) {part : PartitionDef n} (hw : Wf part) :
    ∃ part', partitionUnions fuel part pairs = some part' ∧ Wf part' ∧
      ∀ x y, partitionFind part' x = partitionFind part' y ↔
        Relation.EqvGen (fun x y => partitionFind part x = partitionFind part y ∨
          (x, y) ∈ pairs) x y := by
  induction pairs generalizing part with
  | nil =>
    refine ⟨part, rfl, hw, fun x y => ?_⟩
    simp only [List.not_mem_nil, or_false]
    exact ((sameClass_equivalence part).eqvGen_iff).symm
  | cons pair pairs ih =>
    obtain ⟨elem1, elem2⟩ := pair
    obtain ⟨part₁, hrun₁, hw₁, hjoin⟩ := partitionUnion_spec hw hn hfuel elem1 elem2
    obtain ⟨part', hrun, hw', hclasses⟩ := ih hw₁
    refine ⟨part', ?_, hw', fun x y => ?_⟩
    · rw [partitionUnions, hrun₁]
      exact hrun
    · rw [hclasses, eqvGen_or fun x y =>
        (hjoin x y).trans (eqvGen_join (sameClass_equivalence part)).symm]
      simp only [List.mem_cons, Prod.mk.injEq, or_assoc]

/-- **Partitions.** After `partition_new` and any unions, two elements have one class element if and
only if the united pairs relate them; the class element is in the class; the links from any element
run around its class and nothing else; and the class element counts the class.
Source: `partition.c` `partition_new`, `partition_union`
Kind: P -/
theorem partition_contract (hn : n < 2 ^ 31) {fuel : ℕ} (hfuel : n ≤ fuel)
    (pairs : List (Fin n × Fin n)) :
    ∃ part, partitionUnions fuel (partitionNew n) pairs = some part ∧
      (∀ x y, (part.elements x).classElement = (part.elements y).classElement ↔
        Related pairs x y) ∧
      ∀ x, Related pairs x (part.elements x).classElement ∧
        (∃ l, Circle (fun y => (part.elements y).next) x l ∧
          ∀ y, y ∈ x :: l ↔ Related pairs x y) ∧
        (part.elements (part.elements x).classElement).classCount =
          Set.ncard { y | Related pairs x y } := by
  obtain ⟨part, hrun, hw, hclasses⟩ := partitionUnions_spec hn hfuel pairs (partitionNew_wf n)
  have hrelated : ∀ x y, partitionFind part x = partitionFind part y ↔ Related pairs x y := by
    intro x y
    rw [hclasses]
    exact eqvGen_eq_or
  have hset : ∀ x, { y | Related pairs x y } = ↑(classOf part x) := by
    intro x
    ext y
    rw [Set.mem_ofPred_eq, ← hrelated, Finset.mem_coe, mem_classOf, eq_comm]
  refine ⟨part, hrun, hrelated, fun x => ⟨?_, ?_, ?_⟩⟩
  · exact (hrelated x _).mp (hw.canonical x).symm
  · obtain ⟨l, hcircle, hl⟩ := hw.circular x
    refine ⟨l, hcircle, fun y => ?_⟩
    rw [hl, mem_classOf, ← hrelated, eq_comm]
  · rw [hset, Set.ncard_coe_finset]
    exact hw.counted x

/-- Three elements, two of them united: the run with fuel for three. -/
theorem partition_contract_three :
    (3 < 2 ^ 31 ∧ 3 ≤ 3) ∧
      ∃ part, partitionUnions 3 (partitionNew 3) [(0, 1)] = some part ∧
        (∀ x y, (part.elements x).classElement = (part.elements y).classElement ↔
          Related [(0, 1)] x y) ∧
        ∀ x, Related [(0, 1)] x (part.elements x).classElement ∧
          (∃ l, Circle (fun y => (part.elements y).next) x l ∧
            ∀ y, y ∈ x :: l ↔ Related [(0, 1)] x y) ∧
          (part.elements (part.elements x).classElement).classCount =
            Set.ncard { y | Related [(0, 1)] x y } :=
  ⟨⟨by omega, Nat.le_refl 3⟩, partition_contract (by omega) (Nat.le_refl 3) [(0, 1)]⟩

end Runs

end GccCore.Iberty.Partition
