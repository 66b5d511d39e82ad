import Mathlib.Data.Fintype.Card
import Mathlib.Data.Finite.Defs
import Mathlib.Data.Set.Finite.Basic
import Mathlib.Logic.Relation
import Mathlib.Order.WellFounded
import Mathlib.Data.Fintype.EquivFin

/-!
# Expansion by splicing

Some elements of a list stand for further lists, which are spliced in and scanned again.

* **Expansion** (`Expands`): what a list expands to; at most one list (`Expands.unique`).
* **Scanning again** (`rescan`): a scan that splices in front of what is left finds exactly the expansion
  (`rescan_iff`).
* **Ending** (`exists_expands_iff`, `acc_iff_no_cycle`): there is an expansion if and only if no element leads to a
  cycle, where only finitely many elements stand for something.
* **Cutting** (`Expands.exists_cut`): if only a front part of each list is spliced in, the result is the same exactly when
  nothing was cut off.
-/

namespace GccCore.Lib.Expansion

variable {α : Type*}

/-! ## Expansion -/

/-- What a list expands to: an element that stands for a list is replaced by what that list expands to. -/
inductive Expands (next : α → Option (List α)) : List α → List α → Prop
  | nil : Expands next [] []
  | keep {a : α} {as out : List α} : next a = none → Expands next as out → Expands next (a :: as) (a :: out)
  | splice {a : α} {bs as mid out : List α} : next a = some bs → Expands next bs mid → Expands next as out →
      Expands next (a :: as) (mid ++ out)

section Basic

variable {next : α → Option (List α)} {as bs out mid : List α}

theorem Expands.append (ha : Expands next as mid) (hb : Expands next bs out) :
    Expands next (as ++ bs) (mid ++ out) := by
  induction ha with
  | nil => exact hb
  | keep hnone _ ih => exact .keep hnone ih
  | splice hsome hin _ _ ih =>
    rw [List.append_assoc]
    exact .splice hsome hin ih

theorem Expands.split (h : Expands next (as ++ bs) out) :
    ∃ mid rest, Expands next as mid ∧ Expands next bs rest ∧ out = mid ++ rest := by
  induction as generalizing out with
  | nil => exact ⟨[], out, .nil, h, rfl⟩
  | cons a as ih =>
    rw [List.cons_append] at h
    cases h with
    | keep hnone htail =>
      obtain ⟨mid, rest, has, hbs, rfl⟩ := ih htail
      exact ⟨a :: mid, rest, .keep hnone has, hbs, rfl⟩
    | splice hsome hin htail =>
      obtain ⟨mid, rest, has, hbs, rfl⟩ := ih htail
      exact ⟨_, rest, .splice hsome hin has, hbs, (List.append_assoc _ _ _).symm⟩

/-- **One result**: a list expands to at most one list. -/
theorem Expands.unique (h : Expands next as out) : ∀ {out'}, Expands next as out' → out' = out := by
  induction h with
  | nil =>
    intro out' h'
    cases h'
    rfl
  | keep hnone _ ih =>
    intro out' h'
    cases h' with
    | keep _ htail => rw [ih htail]
    | splice hsome _ _ =>
      rw [hnone] at hsome
      cases hsome
  | splice hsome _ _ ihin ih =>
    intro out' h'
    cases h' with
    | keep hnone _ =>
      rw [hsome] at hnone
      cases hnone
    | splice hsome' hin' htail' =>
      rw [hsome] at hsome'
      cases hsome'
      rw [ihin hin', ih htail']

end Basic

/-! ## Scanning again -/

/-- A scan that splices lists in front of what is left, and goes on there. -/
def rescan (next : α → Option (List α)) : ℕ → List α → Option (List α)
  | _, [] => some []
  | 0, _ :: _ => none
  | n + 1, a :: as =>
    match next a with
    | none => (rescan next n as).map (a :: ·)
    | some bs => rescan next n (bs ++ as)

section Rescan

variable {next : α → Option (List α)} {as out : List α}

theorem rescan_nil (n : ℕ) : rescan next n [] = some [] := by
  cases n <;> rfl

theorem expands_of_rescan : ∀ {n : ℕ} {as out : List α}, rescan next n as = some out → Expands next as out
  | n, [], out, h => by
    rw [rescan_nil] at h
    cases h
    exact .nil
  | 0, _ :: _, _, h => by cases h
  | n + 1, a :: as, out, h => by
    rw [rescan] at h
    rcases ha : next a with _ | bs
    · rw [ha] at h
      obtain ⟨rest, hrest, rfl⟩ := Option.map_eq_some_iff.mp h
      exact .keep ha (expands_of_rescan hrest)
    · rw [ha] at h
      obtain ⟨mid, rest, hbs, has, rfl⟩ := (expands_of_rescan h).split
      exact .splice ha hbs has

/-- Before the scan of `rest` comes the scan of `as`. -/
theorem Expands.rescan_append (h : Expands next as out) :
    ∀ {k : ℕ} {rest o : List α}, rescan next k rest = some o → ∃ n, rescan next n (as ++ rest) = some (out ++ o) := by
  induction h with
  | nil =>
    intro k rest o hrest
    exact ⟨k, hrest⟩
  | keep hnone _ ih =>
    intro k rest o hrest
    obtain ⟨n, hn⟩ := ih hrest
    refine ⟨n + 1, ?_⟩
    rw [List.cons_append, rescan, hnone]
    dsimp only
    rw [hn]
    rfl
  | splice hsome _ _ ihin ih =>
    intro k rest o hrest
    obtain ⟨n, hn⟩ := ih hrest
    obtain ⟨m, hm⟩ := ihin hn
    refine ⟨m + 1, ?_⟩
    rw [List.cons_append, rescan, hsome]
    dsimp only
    rw [hm, List.append_assoc]

/-- **The scan** finds the expansion. -/
theorem rescan_iff : (∃ n, rescan next n as = some out) ↔ Expands next as out := by
  constructor
  · rintro ⟨n, hn⟩
    exact expands_of_rescan hn
  · intro h
    obtain ⟨n, hn⟩ := h.rescan_append (rescan_nil 0)
    rw [List.append_nil, List.append_nil] at hn
    exact ⟨n, hn⟩

end Rescan

/-! ## Ending -/

/-- An element of the list that another one stands for. -/
def Child (next : α → Option (List α)) (b a : α) : Prop := ∃ bs, next a = some bs ∧ b ∈ bs

/-- What an element leads to. -/
def Reaches (next : α → Option (List α)) : α → α → Prop := Relation.ReflTransGen fun a b => Child next b a

/-- An element that leads back to itself. -/
def Cyclic (next : α → Option (List α)) (a : α) : Prop := Relation.TransGen (fun a b => Child next b a) a a

section Ending

variable {next : α → Option (List α)} {as out : List α} {a : α}

theorem acc_of_none (h : next a = none) : Acc (Child next) a := by
  refine ⟨a, ?_⟩
  rintro b ⟨bs, hsome, _⟩
  rw [h] at hsome
  cases hsome

theorem Expands.acc (h : Expands next as out) : ∀ a ∈ as, Acc (Child next) a := by
  induction h with
  | nil =>
    intro a ha
    cases ha
  | keep hnone _ ih =>
    intro b hb
    rcases List.mem_cons.mp hb with rfl | hb
    · exact acc_of_none hnone
    · exact ih b hb
  | splice hsome _ _ ihin ih =>
    intro b hb
    rcases List.mem_cons.mp hb with rfl | hb
    · refine ⟨b, ?_⟩
      rintro c ⟨cs, hcs, hc⟩
      rw [hsome] at hcs
      cases hcs
      exact ihin c hc
    · exact ih b hb

/-- Lists expand if their elements do. -/
theorem exists_expands_of_forall (h : ∀ a ∈ as, ∃ out, Expands next [a] out) : ∃ out, Expands next as out := by
  induction as with
  | nil => exact ⟨[], .nil⟩
  | cons a as ih =>
    obtain ⟨mid, hmid⟩ := h a List.mem_cons_self
    obtain ⟨out, hout⟩ := ih fun b hb => h b (List.mem_cons_of_mem a hb)
    exact ⟨mid ++ out, hmid.append hout⟩

theorem exists_expands_of_acc (h : Acc (Child next) a) : ∃ out, Expands next [a] out := by
  induction h with
  | intro a _ ih =>
    rcases hnext : next a with _ | bs
    · exact ⟨[a], .keep hnext .nil⟩
    · obtain ⟨mid, hmid⟩ := exists_expands_of_forall fun b hb => ih b ⟨bs, hnext, hb⟩
      exact ⟨mid ++ [], .splice hnext hmid .nil⟩

/-- **Ending**: a list expands if and only if nothing in it can be expanded for ever. -/
theorem exists_expands_iff : (∃ out, Expands next as out) ↔ ∀ a ∈ as, Acc (Child next) a := by
  constructor
  · rintro ⟨out, h⟩
    exact h.acc
  · intro h
    apply exists_expands_of_forall
    intro a ha
    exact exists_expands_of_acc (h a ha)

theorem Reaches.acc {b : α} (hreach : Reaches next a b) (h : Acc (Child next) a) : Acc (Child next) b := by
  induction hreach with
  | refl => exact h
  | tail _ hchild ih => exact ih.inv hchild

theorem not_cyclic_of_acc (h : Acc (Child next) a) : ¬ Cyclic next a := by
  have htrans : Acc (Relation.TransGen (Child next)) a := h.transGen
  intro hcycle
  have hcycle' : Relation.TransGen (Child next) a a := Relation.transGen_swap.mp hcycle
  clear hcycle h
  induction htrans with
  | intro a _ ih => exact ih a hcycle' hcycle'

/-- **Cycles**: where finitely many elements stand for something, an element that can be expanded for ever leads to
a cycle. -/
theorem acc_iff_no_cycle (hfin : {a | next a ≠ none}.Finite) :
    Acc (Child next) a ↔ ∀ b, Reaches next a b → ¬ Cyclic next b := by
  constructor
  · intro h b hreach
    exact not_cyclic_of_acc (hreach.acc h)
  · intro hno
    -- the elements that `a` leads to and that stand for something, under "leads to in at least one step"
    let S := {b : α // Reaches next a b ∧ next b ≠ none}
    have hS : Finite S := (hfin.subset fun b hb => hb.2).to_subtype
    let r : S → S → Prop := fun c b => Relation.TransGen (fun a b => Child next b a) b.1 c.1
    have htrans : IsTrans S r := ⟨fun x y z hxy hyz => hyz.trans hxy⟩
    have hirrefl : Std.Irrefl r := ⟨fun b hb => hno b.1 b.2.1 hb⟩
    have hwf : WellFounded r := Finite.wellFounded_of_trans_of_irrefl r
    have hall : ∀ b : S, Acc (Child next) b.1 := by
      intro b
      induction b using hwf.induction with
      | _ b ih =>
        refine ⟨b.1, ?_⟩
        intro c hchild
        by_cases hc : next c = none
        · exact acc_of_none hc
        · exact ih ⟨c, b.2.1.tail hchild, hc⟩ (Relation.TransGen.single hchild)
    by_cases ha : next a = none
    · exact acc_of_none ha
    · exact hall ⟨a, Relation.ReflTransGen.refl, ha⟩

end Ending

/-! ## Cutting -/

/-- Nothing is cut off from what the elements of a list lead to. -/
def Whole (next : α → Option (List α)) (cut : List α → List α) (as : List α) : Prop :=
  ∀ a ∈ as, ∀ b, Reaches next a b → ∀ bs, next b = some bs → cut bs = bs

section Cutting

variable {next : α → Option (List α)} {cut : List α → List α} {a : α} {as bs out : List α}

theorem whole_cons_of_none (h : next a = none) : Whole next cut (a :: as) ↔ Whole next cut as := by
  constructor
  · intro hw b hb
    exact hw b (List.mem_cons_of_mem a hb)
  · intro hw b hb c hreach cs hcs
    rcases List.mem_cons.mp hb with rfl | hb
    · rcases Relation.ReflTransGen.cases_head hreach with rfl | ⟨d, ⟨ds, hds, _⟩, _⟩
      · rw [h] at hcs
        cases hcs
      · rw [h] at hds
        cases hds
    · exact hw b hb c hreach cs hcs

theorem whole_cons_of_some (h : next a = some bs) :
    Whole next cut (a :: as) ↔ cut bs = bs ∧ Whole next cut bs ∧ Whole next cut as := by
  constructor
  · intro hw
    refine ⟨hw a List.mem_cons_self a Relation.ReflTransGen.refl bs h, ?_, ?_⟩
    · intro b hb c hreach
      exact hw a List.mem_cons_self c (Relation.ReflTransGen.head ⟨bs, h, hb⟩ hreach)
    · intro b hb
      exact hw b (List.mem_cons_of_mem a hb)
  · rintro ⟨hbs, hin, has⟩ b hb c hreach cs hcs
    rcases List.mem_cons.mp hb with rfl | hb
    · rcases Relation.ReflTransGen.cases_head hreach with rfl | ⟨d, ⟨ds, hds, hd⟩, hrest⟩
      · rw [h] at hcs
        cases hcs
        exact hbs
      · rw [h] at hds
        cases hds
        exact hin d hd c hrest cs hcs
    · exact has b hb c hreach cs hcs

/-- **Cutting**: where what is cut off begins with an element that stands for itself, the expansion with cut lists is
never longer, and it is the same if and only if nothing is cut off. -/
theorem Expands.exists_cut (hcut : ∀ bs, cut bs = bs ∨ ∃ y ys, bs = cut bs ++ y :: ys ∧ next y = none)
    (h : Expands next as out) :
    ∃ out', Expands (fun a => (next a).map cut) as out' ∧ out'.length ≤ out.length ∧
      (out'.length = out.length → Whole next cut as) ∧ (Whole next cut as → out' = out) := by
  induction h with
  | nil =>
    refine ⟨[], .nil, le_refl _, ?_, fun _ => rfl⟩
    intro _ a ha
    cases ha
  | @keep a as out hnone _ ih =>
    obtain ⟨out', hexp, hle, heq, hwhole⟩ := ih
    refine ⟨a :: out', .keep (by rw [hnone]; rfl) hexp, Nat.succ_le_succ hle, ?_, ?_⟩
    · intro hlen
      rw [whole_cons_of_none hnone]
      exact heq (Nat.succ_injective hlen)
    · intro hw
      rw [whole_cons_of_none hnone] at hw
      rw [hwhole hw]
  | @splice a bs as mid out hsome _ _ ihin ih =>
    obtain ⟨mid', hmid, hmidle, hmideq, hmidwhole⟩ := ihin
    obtain ⟨out', hexp, hle, heq, hwhole⟩ := ih
    have hnext : (fun a => (next a).map cut) a = some (cut bs) := by
      dsimp only
      rw [hsome]
      rfl
    rcases hcut bs with hsame | ⟨y, ys, hbs, hy⟩
    · refine ⟨mid' ++ out', .splice hnext (by rw [hsame]; exact hmid) hexp, ?_, ?_, ?_⟩
      · simp only [List.length_append]
        omega
      · intro hlen
        simp only [List.length_append] at hlen
        rw [whole_cons_of_some hsome]
        exact ⟨hsame, hmideq (by omega), heq (by omega)⟩
      · intro hw
        rw [whole_cons_of_some hsome] at hw
        rw [hmidwhole hw.2.1, hwhole hw.2.2]
    · -- something is cut off: it would have contributed at least `y`
      rw [hbs] at hmid
      obtain ⟨front, rest, hfront, hrest, rfl⟩ := hmid.split
      have hpos : 0 < rest.length := by
        cases hrest with
        | keep _ _ => exact Nat.succ_pos _
        | splice hy' _ _ =>
          rw [hy] at hy'
          cases hy'
      rw [List.length_append] at hmidle
      have hlt : (front ++ out').length < (mid ++ out).length := by
        simp only [List.length_append]
        omega
      refine ⟨front ++ out', .splice hnext hfront hexp, le_of_lt hlt, ?_, ?_⟩
      · intro hlen
        exact absurd hlen (ne_of_lt hlt)
      · intro hw
        rw [whole_cons_of_some hsome] at hw
        have hlong := congrArg List.length hbs
        rw [hw.1, List.length_append, List.length_cons] at hlong
        omega

end Cutting

end GccCore.Lib.Expansion
