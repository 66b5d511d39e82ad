import GccCore.Gcc.Lcm.Worklists
import Mathlib.Data.List.Count

/-!
# Lazy code motion keeps values available and adds no work

A program computes and kills expressions in its blocks. The sets `INSERT` and `DELETE` change what happens on a path:
a computation is added on an edge, and the first one in a block is left out.

* **Programs** (`Event`, `LocalProps`) and what happens on a path (`happens`).
* **Solutions** (`Solution`): the equations for one expression, without the solvers.
* **Availability** (`Solution.computed_before_delete`) and **work** (`Solution.count_le`), by induction on the path.
* **The function** (`pre_edge_lcm_contract`), for flow graphs without an edge from `ENTRY` to `EXIT` beside others
  into `EXIT`; such an edge gets every expression (`shortcut_adds_work`).
-/

namespace GccCore.Gcc.Lcm

/-! ## Programs -/

/-- What a piece of code does to an expression. -/
inductive Event
  | compute
  | kill
  deriving DecidableEq

/-- The local properties of a program: computed before any kill, computed and not killed afterwards, not killed.
Source: `gcse.c` `compute_pre_data`, `mode-switching.c` `optimize_mode_switching` -/
structure LocalProps {g : FlowGraph} {k : ℕ} (prog : Fin g.numBlocks → Fin k → List Event)
    (transp avloc antloc kill : Block g.numBlocks → Bits k) : Prop where
  antloc_iff : ∀ b i, antloc (.block b) i = true ↔ (prog b i).head? = some .compute
  avloc_iff : ∀ b i, avloc (.block b) i = true ↔ (prog b i).getLast? = some .compute
  transp_iff : ∀ b i, transp (.block b) i = true ↔ .kill ∉ prog b i
  kill_eq : (∀ b, kill (.block b) = (transp (.block b))ᶜ) ∨
    ∀ b, kill (.block b) = (transp (.block b) ⊔ avloc (.block b))ᶜ

section Paths

variable {g : FlowGraph}

/-- The events in a block; the two fixed blocks have none. -/
def inBlock (events : Fin g.numBlocks → List Event) : Block g.numBlocks → List Event
  | .block b => events b
  | _ => []

/-- What happens on a path, with code on edges. -/
def happens (onEdge : Fin g.numEdges → List Event) (events : Fin g.numBlocks → List Event)
    (es : List (Fin g.numEdges)) : List Event :=
  es.flatMap fun e => onEdge e ++ inBlock events (g.dest e)

/-- The computation inserted on an edge. Source: `gcse.c` `pre_edge_insert`. -/
def inserted (insert : Fin g.numEdges → Prop) [DecidablePred insert] (e : Fin g.numEdges) : List Event :=
  if insert e then [.compute] else []

/-- The events of a block without its first computation if that is deleted. Source: `gcse.c` `pre_delete`. -/
def remaining (del : Fin g.numBlocks → Prop) [DecidablePred del] (events : Fin g.numBlocks → List Event)
    (b : Fin g.numBlocks) : List Event :=
  if del b then (events b).tail else events b

/-- One more edge. -/
theorem happens_snoc (onEdge : Fin g.numEdges → List Event) (events : Fin g.numBlocks → List Event)
    (es : List (Fin g.numEdges)) (e : Fin g.numEdges) :
    happens onEdge events (es ++ [e]) = happens onEdge events es ++ onEdge e ++ inBlock events (g.dest e) := by
  unfold happens
  rw [List.flatMap_append, List.flatMap_singleton, List.append_assoc]

/-- A path of some edges has a last one. -/
theorem fromEntry_snoc {es : List (Fin g.numEdges)} {e : Fin g.numEdges} {b : Block g.numBlocks}
    (h : g.FromEntry (es ++ [e]) b) : g.FromEntry es (g.src e) ∧ g.dest e = b := by
  generalize hes : es ++ [e] = es' at h
  cases h with
  | nil => exact absurd hes (by simp)
  | snoc e' h =>
    obtain ⟨h1, h2⟩ := List.append_inj' hes rfl
    cases h2
    subst h1
    exact ⟨h, rfl⟩

/-- A path without edges has not left `ENTRY`. -/
theorem fromEntry_nil {b : Block g.numBlocks} (h : g.FromEntry [] b) : b = .entry := by
  generalize hes : ([] : List (Fin g.numEdges)) = es at h
  cases h with
  | nil => rfl
  | snoc e h => exact absurd hes (by simp)

end Paths

/-! ## Solutions -/

/-- The equations of lazy code motion for one expression. Source: `lcm.c` `pre_edge_lcm`. -/
structure Solution (g : FlowGraph) (events : Fin g.numBlocks → List Event) where
  kill : Fin g.numBlocks → Prop
  avin : Fin g.numBlocks → Prop
  avout : Fin g.numBlocks → Prop
  antin : Fin g.numBlocks → Prop
  antout : Fin g.numBlocks → Prop
  laterin : Fin g.numBlocks → Prop
  later : Fin g.numEdges → Prop
  insert : Fin g.numEdges → Prop
  del : Fin g.numBlocks → Prop
  kill_or : ∀ b, kill b ∨ .kill ∉ events b ∨ (events b).getLast? = some .compute
  not_kill : ∀ b, .kill ∉ events b → ¬ kill b
  avout_iff : ∀ b, avout b ↔ (events b).getLast? = some .compute ∨ (avin b ∧ ¬ kill b)
  avin_pred : ∀ b e, avin b → g.dest e = .block b → ∃ p, g.src e = .block p ∧ avout p
  antin_iff : ∀ b, antin b ↔ (events b).head? = some .compute ∨ (.kill ∉ events b ∧ antout b)
  antout_succ : ∀ b e, antout b → g.src e = .block b → ∃ s, g.dest e = .block s ∧ antin s
  later_entry : ∀ b e, g.src e = .entry → g.dest e = .block b → (later e ↔ antin b)
  later_shortcut : ∀ e, g.src e = .entry → g.dest e = .exit → later e
  later_block : ∀ p b e, g.src e = .block p → g.dest e = .block b →
    (later e ↔ (antin b ∧ ¬ avout p ∧ (kill p ∨ ¬ antout p)) ∨
      (laterin p ∧ (events p).head? ≠ some .compute))
  later_exit : ∀ p e, g.src e = .block p → g.dest e = .exit →
    (later e ↔ laterin p ∧ (events p).head? ≠ some .compute)
  laterin_pred : ∀ b e, laterin b → g.dest e = .block b → later e
  insert_iff : ∀ b e, g.dest e = .block b → (insert e ↔ later e ∧ ¬ laterin b)
  insert_exit : ∀ e, g.dest e = .exit → (insert e ↔ later e ∧ ¬ ∀ e', g.dest e' = .exit → later e')
  del_iff : ∀ b, del b ↔ (events b).head? = some .compute ∧ ¬ laterin b

namespace Solution

variable {g : FlowGraph} {events : Fin g.numBlocks → List Event} (s : Solution g events)

/-- A block that neither kills nor computes does nothing. -/
theorem eq_nil_of_no_event {es : List Event} (hkill : Event.kill ∉ es) (hlast : es.getLast? ≠ some .compute) :
    es = [] := by
  rcases hes : es.getLast? with _ | ev
  · exact List.getLast?_eq_none_iff.mp hes
  · cases ev with
    | compute => exact absurd hes hlast
    | kill => exact absurd (List.mem_of_getLast? hes) hkill

/-! ### Availability -/

section Availability

variable [DecidablePred s.del]

/-- What a block leaves behind if its computation is not to be repeated on the way out: a value, or the value that
came in. -/
theorem leaves_value {p : Fin g.numBlocks} {e e' : Fin g.numEdges} {b : Fin g.numBlocks} (hsrc : g.src e = .block p)
    (hdest : g.dest e = .block b) (hin : g.dest e' = .block p) (hlater : ¬ s.later e)
    (hwant : s.antin b ∨ s.avout p) :
    (remaining s.del events p).getLast? = some .compute ∨
      (remaining s.del events p = [] ∧ ¬ s.laterin p ∧
        (s.antin p ∨ ∃ q, g.src e' = .block q ∧ s.avout q)) := by
  rw [s.later_block p b e hsrc hdest, not_or] at hlater
  obtain ⟨hearliest, hpostponed⟩ := hlater
  unfold remaining
  by_cases hlast : (events p).getLast? = some .compute
  · by_cases hdel : s.del p
    · -- the computation that is left out may have been the only one
      obtain ⟨hhead, hnot⟩ := (s.del_iff p).mp hdel
      rw [if_pos hdel]
      rcases hev : events p with _ | ⟨ev, evs⟩
      · rw [hev] at hlast
        cases hlast
      · rcases hevs : evs with _ | ⟨ev', evs'⟩
        · exact Or.inr ⟨rfl, hnot, Or.inl ((s.antin_iff p).mpr (Or.inl hhead))⟩
        · left
          rw [hev, hevs, List.getLast?_cons_cons] at hlast
          exact hlast
    · rw [if_neg hdel]
      exact Or.inl hlast
  · -- nothing happens in the block, so the value came in
    have hthrough : Event.kill ∉ events p ∧ (s.avin p ∨ s.antout p) := by
      by_cases hav : s.avout p
      · obtain ⟨havin, hnokill⟩ := ((s.avout_iff p).mp hav).resolve_left hlast
        exact ⟨((s.kill_or p).resolve_left hnokill).resolve_right hlast, Or.inl havin⟩
      · have hant := hwant.resolve_right hav
        have hkeep : ¬ s.kill p ∧ s.antout p := by
          by_contra hnot
          exact hearliest ⟨hant, hav, by tauto⟩
        exact ⟨((s.kill_or p).resolve_left hkeep.1).resolve_right hlast, Or.inr hkeep.2⟩
    obtain ⟨hnokill, hflow⟩ := hthrough
    have hnil := eq_nil_of_no_event hnokill hlast
    have hnohead : (events p).head? ≠ some .compute := by
      rw [hnil]
      simp
    have hnotlater : ¬ s.laterin p := fun h => hpostponed ⟨h, hnohead⟩
    right
    refine ⟨?_, hnotlater, ?_⟩
    · rw [hnil]
      split <;> rfl
    · rcases hflow with havin | hantout
      · exact Or.inr (s.avin_pred p e' havin hin)
      · exact Or.inl ((s.antin_iff p).mpr (Or.inr ⟨hnokill, hantout⟩))

variable [DecidablePred s.insert]

/-- On arrival at a block into which nothing is postponed, an anticipated or available value has been computed and
not killed since. -/
theorem computed_on_arrival (es : List (Fin g.numEdges)) :
    ∀ (e : Fin g.numEdges) (b : Fin g.numBlocks), g.FromEntry es (g.src e) → g.dest e = .block b →
      ¬ s.laterin b → (s.antin b ∨ ∃ p, g.src e = .block p ∧ s.avout p) →
      (happens (inserted s.insert) (remaining s.del events) es ++ inserted s.insert e).getLast? =
        some .compute := by
  induction es using List.reverseRecOn with
  | nil =>
    intro e b hpath hdest hlater hwant
    have hsrc := fromEntry_nil hpath
    have hant : s.antin b := by
      rcases hwant with hant | ⟨p, hp, _⟩
      · exact hant
      · rw [hsrc] at hp
        cases hp
    have hins : s.insert e :=
      (s.insert_iff b e hdest).mpr ⟨(s.later_entry b e hsrc hdest).mpr hant, hlater⟩
    unfold inserted
    rw [if_pos hins]
    rfl
  | append_singleton es e' ih =>
    intro e b hpath hdest hlater hwant
    by_cases hl : s.later e
    · have hins : s.insert e := (s.insert_iff b e hdest).mpr ⟨hl, hlater⟩
      unfold inserted
      rw [if_pos hins, List.getLast?_append]
      rfl
    · obtain ⟨hpath', hin⟩ := fromEntry_snoc hpath
      rcases g.src_cases e with hsrc | ⟨p, hsrc⟩
      · rw [hsrc] at hin
        exact absurd hin (g.dest_ne_entry e')
      · rw [hsrc] at hin
        have hwant' : s.antin b ∨ s.avout p := by
          rcases hwant with hant | ⟨q, hq, hav⟩
          · exact Or.inl hant
          · rw [hsrc] at hq
            cases hq
            exact Or.inr hav
        have hnoins : inserted s.insert e = [] := by
          unfold inserted
          rw [if_neg (fun hins => hl ((s.insert_iff b e hdest).mp hins).1)]
        rw [hnoins, List.append_nil, happens_snoc, hin]
        change (_ ++ remaining s.del events p).getLast? = _
        rcases s.leaves_value hsrc hdest hin hl hwant' with hlast | ⟨hnil, hlater', hwant''⟩
        · rw [List.getLast?_append, hlast]
          rfl
        · rw [hnil, List.append_nil]
          exact ih e' p hpath' hin hlater' hwant''

/-- **Availability**: where a computation is deleted, the last thing that happened to the expression on the way is
that it was computed, by an insertion or by a computation that remains.
Source: `lcm.c` `pre_edge_lcm`
Kind: L -/
theorem computed_before_delete {es : List (Fin g.numEdges)} {e : Fin g.numEdges} {b : Fin g.numBlocks}
    (hpath : g.FromEntry es (g.src e)) (hdest : g.dest e = .block b) (hdel : s.del b) :
    (happens (inserted s.insert) (remaining s.del events) es ++ inserted s.insert e).getLast? =
      some .compute := by
  obtain ⟨hhead, hlater⟩ := (s.del_iff b).mp hdel
  exact s.computed_on_arrival es e b hpath hdest hlater (Or.inl ((s.antin_iff b).mpr (Or.inl hhead)))

end Availability

/-! ### Work -/

section Work

/-- On a path from `ENTRY`, what is postponed along an edge is anticipated where the edge leads. -/
theorem antin_of_later (es : List (Fin g.numEdges)) :
    ∀ e : Fin g.numEdges, g.FromEntry es (g.src e) → s.later e →
      (∃ b, g.dest e = .block b ∧ s.antin b) ∨ (g.src e = .entry ∧ g.dest e = .exit) := by
  induction es using List.reverseRecOn with
  | nil =>
    intro e hpath hlater
    have hsrc := fromEntry_nil hpath
    rcases g.dest_cases e with hdest | ⟨b, hdest⟩
    · exact Or.inr ⟨hsrc, hdest⟩
    · exact Or.inl ⟨b, hdest, (s.later_entry b e hsrc hdest).mp hlater⟩
  | append_singleton es e' ih =>
    intro e hpath hlater
    obtain ⟨hpath', hin⟩ := fromEntry_snoc hpath
    rcases g.src_cases e with hsrc | ⟨p, hsrc⟩
    · rw [hsrc] at hin
      exact absurd hin (g.dest_ne_entry e')
    · rw [hsrc] at hin
      left
      -- postponed through the block: it was anticipated there, and still is behind it
      have hthrough : s.laterin p ∧ (events p).head? ≠ some .compute →
          ∃ b, g.dest e = .block b ∧ s.antin b := by
        rintro ⟨hlaterin, hhead⟩
        have hlater' := s.laterin_pred p e' hlaterin hin
        rcases ih e' hpath' hlater' with ⟨q, hq, hant⟩ | ⟨_, hexit⟩
        · rw [hin] at hq
          cases hq
          obtain ⟨_, hantout⟩ := ((s.antin_iff p).mp hant).resolve_left hhead
          exact s.antout_succ p e hantout hsrc
        · rw [hin] at hexit
          cases hexit
      rcases g.dest_cases e with hdest | ⟨b, hdest⟩
      · exact hthrough ((s.later_exit p e hsrc hdest).mp hlater)
      · rcases (s.later_block p b e hsrc hdest).mp hlater with ⟨hant, _⟩ | hpost
        · exact ⟨b, hdest, hant⟩
        · exact hthrough hpost

variable [DecidablePred s.antin] [DecidablePred s.laterin]

/-- A computation in advance: anticipated on entry to a block, and not postponed into it. -/
def advance : Block g.numBlocks → ℕ
  | .block b => if s.antin b ∧ ¬ s.laterin b then 1 else 0
  | _ => 0

theorem advance_block (b : Fin g.numBlocks) :
    s.advance (.block b) = if s.antin b ∧ ¬ s.laterin b then 1 else 0 := rfl

variable [DecidablePred s.insert]

/-- An insertion is a computation in advance. -/
theorem count_inserted_le {es : List (Fin g.numEdges)} {e : Fin g.numEdges} (hpath : g.FromEntry es (g.src e))
    (hshort : (∃ e, g.src e = .entry ∧ g.dest e = .exit) → ∀ e, g.dest e = .exit → g.src e = .entry) :
    (inserted s.insert e).count .compute ≤ s.advance (g.dest e) := by
  unfold inserted
  split
  case isFalse => exact Nat.zero_le _
  case isTrue hins =>
    rcases g.dest_cases e with hdest | ⟨b, hdest⟩
    · obtain ⟨hlater, hnotall⟩ := (s.insert_exit e hdest).mp hins
      rcases s.antin_of_later es e hpath hlater with ⟨b, hb, _⟩ | ⟨hsrc, _⟩
      · rw [hdest] at hb
        cases hb
      · refine absurd ?_ hnotall
        intro e' hdest'
        exact s.later_shortcut e' (hshort ⟨e, hsrc, hdest⟩ e' hdest') hdest'
    · obtain ⟨hlater, hnot⟩ := (s.insert_iff b e hdest).mp hins
      rcases s.antin_of_later es e hpath hlater with ⟨b', hb', hant⟩ | ⟨_, hexit⟩
      · rw [hdest] at hb' ⊢
        cases hb'
        rw [advance_block, if_pos ⟨hant, hnot⟩]
        rfl
      · rw [hdest] at hexit
        cases hexit

variable [DecidablePred s.del]

/-- A block and the edge behind it never get ahead: an advance that is not used up by a deletion is carried on. -/
theorem advance_step {es : List (Fin g.numEdges)} {p : Fin g.numBlocks} {e : Fin g.numEdges}
    (hpath : g.FromEntry es (g.src e)) (hsrc : g.src e = .block p)
    (hshort : (∃ e, g.src e = .entry ∧ g.dest e = .exit) → ∀ e, g.dest e = .exit → g.src e = .entry) :
    s.advance (.block p) + (remaining s.del events p).count .compute + (inserted s.insert e).count .compute ≤
      (events p).count .compute + s.advance (g.dest e) := by
  have hins := s.count_inserted_le hpath hshort
  unfold remaining
  by_cases hdel : s.del p
  · obtain ⟨hhead, hnot⟩ := (s.del_iff p).mp hdel
    obtain ⟨evs, hev⟩ := List.head?_eq_some_iff.mp hhead
    have hone : s.advance (.block p) ≤ 1 := by
      rw [advance_block]
      split <;> omega
    rw [if_pos hdel, hev, List.tail_cons, List.count_cons_self]
    omega
  · rw [if_neg hdel, advance_block]
    split
    case isFalse => omega
    case isTrue hadv =>
      obtain ⟨hant, hnot⟩ := hadv
      have hhead : (events p).head? ≠ some .compute := fun h => hdel ((s.del_iff p).mpr ⟨h, hnot⟩)
      obtain ⟨hnokill, hantout⟩ := ((s.antin_iff p).mp hant).resolve_left hhead
      obtain ⟨b, hdest, hantb⟩ := s.antout_succ p e hantout hsrc
      have hnotlater : ¬ s.later e := by
        rw [s.later_block p b e hsrc hdest]
        rintro (⟨_, _, hkill | hno⟩ | ⟨hl, _⟩)
        · exact s.not_kill p hnokill hkill
        · exact hno hantout
        · exact hnot hl
      have hnoins : inserted s.insert e = [] := by
        unfold inserted
        rw [if_neg (fun h => hnotlater ((s.insert_iff b e hdest).mp h).1)]
      have hnotin : ¬ s.laterin b := fun h => hnotlater (s.laterin_pred b e h hdest)
      rw [hnoins, hdest, advance_block, if_pos ⟨hantb, hnotin⟩, List.count_nil]
      omega

/-- The computations up to the arrival at a block. -/
theorem count_arrival_le
    (hshort : (∃ e, g.src e = .entry ∧ g.dest e = .exit) → ∀ e, g.dest e = .exit → g.src e = .entry)
    (es : List (Fin g.numEdges)) : ∀ e : Fin g.numEdges, g.FromEntry es (g.src e) →
      (happens (inserted s.insert) (remaining s.del events) es ++ inserted s.insert e).count .compute ≤
        (happens (fun _ => []) events es).count .compute + s.advance (g.dest e) := by
  induction es using List.reverseRecOn with
  | nil =>
    intro e hpath
    have hins := s.count_inserted_le hpath hshort
    simpa [happens] using hins
  | append_singleton es e' ih =>
    intro e hpath
    obtain ⟨hpath', hin⟩ := fromEntry_snoc hpath
    rcases g.src_cases e with hsrc | ⟨p, hsrc⟩
    · rw [hsrc] at hin
      exact absurd hin (g.dest_ne_entry e')
    · rw [hsrc] at hin
      have hbefore := ih e' hpath'
      have hstep := s.advance_step hpath hsrc hshort
      rw [hin] at hbefore
      rw [List.count_append] at hbefore
      have hafter : inBlock (remaining s.del events) (.block p) = remaining s.del events p := rfl
      have hold : inBlock events (.block p) = events p := rfl
      rw [happens_snoc, happens_snoc, hin, hafter, hold, List.append_nil, List.count_append,
        List.count_append, List.count_append, List.count_append]
      omega

/-- **Work**: no path from `ENTRY` to `EXIT` has more computations than before. Source: `lcm.c` `pre_edge_lcm`. Kind: L -/
theorem count_le
    (hshort : (∃ e, g.src e = .entry ∧ g.dest e = .exit) → ∀ e, g.dest e = .exit → g.src e = .entry)
    {es : List (Fin g.numEdges)} (hpath : g.FromEntry es .exit) :
    (happens (inserted s.insert) (remaining s.del events) es).count .compute ≤
      (happens (fun _ => []) events es).count .compute := by
  obtain ⟨es', e, rfl, hpath', hdest⟩ := hpath.exists_last (by simp)
  have harrival := s.count_arrival_le hshort es' e hpath'
  rw [happens_snoc, happens_snoc, hdest, List.append_nil]
  rw [hdest] at harrival
  change (_ ++ []).count _ ≤ (_ ++ []).count _
  rw [List.append_nil, List.append_nil]
  exact harrival

end Work

end Solution

/-! ## The function -/

section Function

variable {g : FlowGraph} {k : ℕ} {prog : Fin g.numBlocks → Fin k → List Event}
variable {transp avloc antloc kill : Block g.numBlocks → Bits k}

/-- The sets that `pre_edge_lcm` computes satisfy the equations for every expression.
Source: `lcm.c` `pre_edge_lcm` -/
def preEdgeLcmSolution (h : LocalProps prog transp avloc antloc kill) (i : Fin k) :
    Solution g (fun b => prog b i) :=
  let avail := computeAvailable g avloc kill
  let ant := computeAntinoutEdge g antloc transp
  let earliest := computeEarliest g ant.assigned ant.met avail.assigned kill
  let sets := computeLaterin g earliest antloc
  have havail : Available g avloc kill avail.met fun b => avail.assigned (.block b) :=
    (available_greatest g (computeAvailable_solved g avloc kill)).1
  have hant : Anticipated g antloc transp ant.met fun b => ant.assigned (.block b) :=
    (antinout_greatest g (computeAntinoutEdge_solved g antloc transp)).1
  have hlater : Later g earliest antloc sets.laterin sets.later := (later_greatest g (computeLaterin_solved g earliest antloc)).1
  { kill := fun b => kill (.block b) i = true
    avin := fun b => avail.met b i = true
    avout := fun b => avail.assigned (.block b) i = true
    antin := fun b => ant.assigned (.block b) i = true
    antout := fun b => ant.met b i = true
    laterin := fun b => sets.laterin b i = true
    later := fun e => sets.later e i = true
    insert := fun e => (preEdgeLcm g transp avloc antloc kill).insert e i = true
    del := fun b => (preEdgeLcm g transp avloc antloc kill).del b i = true
    kill_or := by
      intro b
      rw [← h.transp_iff, ← h.avloc_iff]
      rcases h.kill_eq with hk | hk
      · rw [hk]
        cases htr : transp (.block b) i <;> simp [htr]
      · rw [hk]
        cases htr : transp (.block b) i <;> cases hav : avloc (.block b) i <;> simp [htr, hav]
    not_kill := by
      intro b hb
      rw [← h.transp_iff] at hb
      rcases h.kill_eq with hk | hk <;> rw [hk] <;> simp [hb]
    avout_iff := by
      intro b
      rw [← h.avloc_iff]
      have heq := congrFun (havail.avout_eq b) i
      simp [avail, heq]
    avin_pred := fun b e hb he => havail.pred hb he
    antin_iff := by
      intro b
      rw [← h.antloc_iff, ← h.transp_iff]
      have heq := congrFun (hant.antin_eq b) i
      simp [ant, heq]
    antout_succ := fun b e hb he => hant.succ hb he
    later_entry := by
      intro b e hsrc hdest
      have heq := hlater.later_entry e hsrc
      simp [sets, heq, earliest, computeEarliest, hsrc, hdest]
    later_shortcut := by
      intro e hsrc hdest
      have heq := hlater.later_entry e hsrc
      have hexit := congrFun ((computeAntinoutEdge_solved g antloc transp).kept .exit fun b hb => by cases List.mem_singleton.mp hb) i
      simp [sets, heq, earliest, computeEarliest, hsrc, hdest, ant, hexit]
    later_block := by
      intro p b e hsrc hdest
      rw [ne_eq, ← h.antloc_iff]
      have heq := congrFun (hlater.later_eq e p hsrc) i
      simp [sets, heq, earliest, computeEarliest, hsrc, hdest, and_assoc]
    later_exit := by
      intro p e hsrc hdest
      rw [ne_eq, ← h.antloc_iff]
      have heq := congrFun (hlater.later_eq e p hsrc) i
      simp [sets, heq, earliest, computeEarliest, hsrc, hdest]
    laterin_pred := fun b e hb he => (hlater.laterin_iff b i).mp hb e he
    insert_iff := by
      intro b e hdest
      simp [preEdgeLcm, computeInsertDelete, hdest, sets, earliest, ant, avail]
    insert_exit := by
      intro e hdest
      have hexit : sets.laterinExit i = true ↔ ∀ e, g.dest e = .exit → sets.later e i = true :=
        (intersectionOfEdges_iff i).trans (forall_congr' fun e => imp_congr_left (g.mem_preds _ e))
      rw [← hexit]
      simp [preEdgeLcm, computeInsertDelete, hdest, sets, earliest, ant, avail]
    del_iff := by
      intro b
      rw [← h.antloc_iff]
      simp [preEdgeLcm, computeInsertDelete, sets, earliest, ant, avail] }

instance (h : LocalProps prog transp avloc antloc kill) (i : Fin k) :
    DecidablePred (preEdgeLcmSolution h i).insert := fun _ => inferInstanceAs (Decidable (_ = true))

instance (h : LocalProps prog transp avloc antloc kill) (i : Fin k) :
    DecidablePred (preEdgeLcmSolution h i).del := fun _ => inferInstanceAs (Decidable (_ = true))

/-- What happens to an expression on a path after insertion and deletion. Source: `gcse.c` `one_pre_gcse_pass`. -/
def happensAfter (p : Placement g k) (prog : Fin g.numBlocks → Fin k → List Event) (i : Fin k)
    (es : List (Fin g.numEdges)) : List Event :=
  happens (inserted (fun e => p.insert e i = true)) (remaining (fun b => p.del b i = true) (fun b => prog b i)) es

/-- **Lazy code motion**: on every path from `ENTRY`, an expression that is deleted from a block was computed last
and not killed since; and no path from `ENTRY` to `EXIT` evaluates an expression more often than before. An edge from
`ENTRY` to `EXIT` must not compete with other edges into `EXIT`.
Source: `lcm.c` `pre_edge_lcm`
Kind: P -/
theorem pre_edge_lcm_contract (g : FlowGraph) (k : ℕ) (prog : Fin g.numBlocks → Fin k → List Event)
    (transp avloc antloc kill : Block g.numBlocks → Bits k) (h : LocalProps prog transp avloc antloc kill)
    (hshort : (∃ e, g.src e = .entry ∧ g.dest e = .exit) → ∀ e, g.dest e = .exit → g.src e = .entry) :
    let p := preEdgeLcm g transp avloc antloc kill
    (∀ i es e b, g.FromEntry es (g.src e) → g.dest e = .block b → p.del b i = true →
        (happensAfter p prog i es ++ inserted (fun e => p.insert e i = true) e).getLast? = some .compute) ∧
      ∀ i es, g.FromEntry es .exit →
        (happensAfter p prog i es).count .compute ≤
          (happens (fun _ => []) (fun b => prog b i) es).count .compute := by
  intro p
  refine ⟨?_, ?_⟩
  · intro i es e b hpath hdest hdel
    exact (preEdgeLcmSolution h i).computed_before_delete hpath hdest hdel
  · intro i es hpath
    have := Classical.decPred (preEdgeLcmSolution h i).antin
    have := Classical.decPred (preEdgeLcmSolution h i).laterin
    exact (preEdgeLcmSolution h i).count_le hshort hpath

end Function

/-- One block is a block. -/
local instance neZeroOne : NeZero 1 := ⟨Nat.one_ne_zero⟩

/-- Two blocks have a first one. -/
local instance neZeroTwo : NeZero 2 := ⟨Nat.succ_ne_zero 1⟩

/-- Two blocks, one behind the other. Source: none: example. -/
def straightGraph : FlowGraph :=
  .ofEdges 2 ![.entry, .block 0, .block 1] ![.block 0, .block 1, .exit] (by decide) (by decide)

/-- The placement for one expression that every block computes and none kills. Source: none: example. -/
def placementOfAll (g : FlowGraph) : Placement g 1 :=
  preEdgeLcm g (fun _ _ => true) (fun _ _ => true) (fun _ _ => true) (fun _ _ => false)

/-- Its local properties. Source: none: example. Kind: L -/
theorem localProps_of_all (g : FlowGraph) :
    @LocalProps g 1 (fun _ _ => [.compute]) (fun _ _ => true) (fun _ _ => true) (fun _ _ => true)
      (fun _ _ => false) := by
  refine ⟨by simp, by simp, by simp, Or.inl fun _ => ?_⟩
  funext i
  rfl

/-- The second computation is deleted, and its value is there. Source: none: example. Kind: C -/
theorem pre_edge_lcm_contract_straight :
    (placementOfAll straightGraph).del (1 : Fin 2) 0 = true ∧
      (happensAfter (placementOfAll straightGraph) (fun _ _ => [.compute]) 0 [(0 : Fin 3)] ++
        inserted (fun e => (placementOfAll straightGraph).insert e 0 = true) (1 : Fin 3)).getLast? =
          some .compute := by
  have hdel : (placementOfAll straightGraph).del (1 : Fin 2) 0 = true := by decide +kernel
  have hpath : straightGraph.FromEntry [(0 : Fin 3)] (.block (0 : Fin 2)) :=
    FlowGraph.FromEntry.snoc (g := straightGraph) (0 : Fin 3) FlowGraph.FromEntry.nil
  have hshort : (∃ e, straightGraph.src e = .entry ∧ straightGraph.dest e = .exit) →
      ∀ e, straightGraph.dest e = .exit → straightGraph.src e = .entry := by
    have hnone : ∀ e, ¬ (straightGraph.src e = .entry ∧ straightGraph.dest e = .exit) := by decide
    rintro ⟨e, he⟩
    exact absurd he (hnone e)
  exact ⟨hdel, (pre_edge_lcm_contract straightGraph 1 _ _ _ _ _ (localProps_of_all straightGraph) hshort).1
    0 [(0 : Fin 3)] (1 : Fin 3) (1 : Fin 2) hpath rfl hdel⟩

/-- A block that can be bypassed from `ENTRY` straight to `EXIT`. Source: none: example. -/
def shortcutGraph : FlowGraph :=
  .ofEdges 1 ![.entry, .entry, .block 0] ![.exit, .block 0, .exit] (by decide) (by decide)

/-- The edge from `ENTRY` to `EXIT` reads the set of `EXIT`, which was never assigned: the path along it evaluates an
expression that the program does not evaluate there.
Source: none: example
Kind: C -/
theorem shortcut_adds_work :
    (∀ b, ∃ es e es', shortcutGraph.FromEntry (es ++ e :: es') .exit ∧ shortcutGraph.dest e = .block b) ∧
      @LocalProps shortcutGraph 1 (fun _ _ => [.compute]) (fun _ _ => true) (fun _ _ => true)
        (fun _ _ => true) (fun _ _ => false) ∧
      shortcutGraph.FromEntry [(0 : Fin 3)] .exit ∧
      (@happens shortcutGraph (fun _ => []) (fun _ => [.compute]) [(0 : Fin 3)]).count .compute = 0 ∧
      (happensAfter (preEdgeLcm shortcutGraph (fun _ _ => true) (fun _ _ => true) (fun _ _ => true)
        (fun _ _ => false)) (fun _ (_ : Fin 1) => [.compute]) 0 [(0 : Fin 3)]).count .compute = 1 := by
  have hnil : shortcutGraph.FromEntry [] .entry := FlowGraph.FromEntry.nil
  refine ⟨?_, localProps_of_all shortcutGraph, ?_, by decide +kernel, by decide +kernel⟩
  · intro b
    have hone : shortcutGraph.FromEntry [(1 : Fin 3)] (.block (0 : Fin 1)) :=
      FlowGraph.FromEntry.snoc (g := shortcutGraph) (1 : Fin 3) hnil
    have htwo : shortcutGraph.FromEntry [(1 : Fin 3), (2 : Fin 3)] .exit :=
      FlowGraph.FromEntry.snoc (g := shortcutGraph) (2 : Fin 3) hone
    refine ⟨[], (1 : Fin 3), [(2 : Fin 3)], htwo, ?_⟩
    have hb : b = (0 : Fin 1) := @Subsingleton.elim (Fin 1) _ b 0
    rw [hb]
    rfl
  · exact FlowGraph.FromEntry.snoc (g := shortcutGraph) (0 : Fin 3) hnil

end GccCore.Gcc.Lcm
