import GccCore.Gcc.TreeVrp.Meet
import Mathlib.Data.Finset.Card
import Mathlib.Data.Fintype.Card
import Mathlib.Data.Set.Finite.Basic

/-!
# `gcc/tree-vrp.c`: PHI nodes

The result of a PHI node has the values of the arguments on executable edges. `vrp_visit_phi_node` adds them to the range that is
recorded and, unless a new edge has become executable, moves an end that changed to the end of the type.

* **The function** (`vrpVisitPhiNode`) with its loop over the arguments (`meetArgs`) and the jump of the ends (`widen`).
* **What a visit can do** (`Grows`): the meet only grows a range, and makes it an anti-range or everything at most once. An end is
  moved to the end of the type, which for a sub-type may be back inside the range.
* **Main result**: `phi_converges`. The range changes at most once for each time that the number of edges grows, and at most six
  times more; for a sub-type at most three times for each.
* **Sub-types** (`subtype_oscillates`): for them once for each time is not enough.
-/

namespace GccCore.Gcc.TreeVrp

open GccCore.Gcc.FoldConst

variable {fl : Flags} {t : IntType}

/-! ## The function -/

/-- An argument of a PHI node: a name with a range, or a constant. Source: `tree-vrp.c` `vrp_visit_phi_node`. -/
inductive PhiArg
  | name (vr : ValueRangeT)
  | constant (arg : Cst)

/-- The range of an argument; a constant is no infinity. Source: `tree-vrp.c` `vrp_visit_phi_node` (`vr_arg`). -/
def PhiArg.range (fl : Flags) (t : IntType) : PhiArg → ValueRangeT
  | .name vr => vr
  | .constant arg =>
    let arg : Cst := if isOverflowInfinity fl t arg then ⟨arg.val, false⟩ else arg
    ⟨.known .range arg arg, none⟩

/-- What is recorded for the result of a PHI node: its range, and the number of executable edges at the last visit.
Source: `tree-vrp.c` (`vr_value`, `vr_phi_edge_counts`) -/
structure PhiState where
  lhs : ValueRangeT
  edgeCount : ℕ

/-- The loop over the arguments, each with whether its edge is executable: the meet, and the number of executable edges seen.
Source: `tree-vrp.c` `vrp_visit_phi_node` (`for (i = 0; i < gimple_phi_num_args (phi); i++)`) -/
def meetArgs (fl : Flags) (t : IntType) : ValueRangeT → ℕ → List (Bool × PhiArg) → ValueRangeT × ℕ
  | result, edges, [] => (result, edges)
  | result, edges, (executable, arg) :: args =>
    if executable then
      let result := vrpMeet fl t result (arg.range fl t)
      if result.range = .varying then (result, edges + 1) else meetArgs fl t result (edges + 1) args
    else meetArgs fl t result edges args

/-- The lower end, moved to the end of the type if it changed; `none` goes to `varying`.
Source: `tree-vrp.c` `vrp_visit_phi_node` (`cmp_min`) -/
def widenMin (fl : Flags) (t : IntType) (mayOverflow : Bool) (lhsMin min max : Cst) : Option Cst :=
  if compareValues fl t lhsMin min = 0 then some min
  else if max.val = t.maxValue ∨ 0 < compareValues fl t (.ofVal t.typeMin) max then none
  else if !needsOverflowInfinity fl t || !mayOverflow then some (.ofVal t.typeMin)
  else some (negativeOverflowInfinity t)

/-- The upper end, moved to the end of the type if it changed; `none` goes to `varying`.
Source: `tree-vrp.c` `vrp_visit_phi_node` (`cmp_max`) -/
def widenMax (fl : Flags) (t : IntType) (mayOverflow : Bool) (lhsMax min max : Cst) : Option Cst :=
  if compareValues fl t lhsMax max = 0 then some max
  else if min.val = t.minValue ∨ compareValues fl t (.ofVal t.typeMax) min < 0 then none
  else if !needsOverflowInfinity fl t || !mayOverflow then some (.ofVal t.typeMax)
  else some (positiveOverflowInfinity t)

/-- The range with its ends moved, if no new edge was seen; `none` goes to `varying`.
Source: `tree-vrp.c` `vrp_visit_phi_node` ("To prevent infinite iterations in the algorithm") -/
def widen (fl : Flags) (t : IntType) (mayOverflow : Bool) (lhs result : ValueRange) (edges oldEdges : ℕ) : Option ValueRange :=
  match lhs, result with
  | .known .range lhsMin lhsMax, .known .range min max =>
    if edges ≤ oldEdges then do
      let min' ← widenMin fl t mayOverflow lhsMin min max
      let max' ← widenMax fl t mayOverflow lhsMax min' max
      some (.known .range min' max')
    else some result
  | _, _ => some result

/-- Source: `tree-vrp.c` `vrp_operand_equal_p`. -/
def vrpOperandEqual (fl : Flags) (t : IntType) (val1 val2 : Cst) : Bool :=
  decide (val1.val = val2.val) && (!isOverflowInfinity fl t val1 || isOverflowInfinity fl t val2)

/-- Whether two ranges are the same to `update_value_range`. Source: `tree-vrp.c` `update_value_range` (`is_new`). -/
def sameRange (fl : Flags) (t : IntType) : ValueRange → ValueRange → Bool
  | .undefined, .undefined => true
  | .varying, .varying => true
  | .known kind min max, .known kind' min' max' =>
    decide (kind = kind') && vrpOperandEqual fl t min min' && vrpOperandEqual fl t max max'
  | _, _ => false

/-- The new value of what is recorded. Source: `tree-vrp.c` `update_value_range`. -/
def updateValueRange (fl : Flags) (t : IntType) (old new : ValueRangeT) : ValueRangeT :=
  if sameRange fl t old.range new.range && decide (old.equiv = new.equiv) then old else copyValueRange old new

/-- What is recorded after a visit; `mayOverflow` is the answer about the loop that the PHI node may be in.
Source: `tree-vrp.c` `vrp_visit_phi_node` -/
def vrpVisitPhiNode (fl : Flags) (t : IntType) (mayOverflow : Bool) (state : PhiState) (args : List (Bool × PhiArg)) :
    PhiState :=
  let (result, edges) := meetArgs fl t (copyValueRange ⟨.undefined, none⟩ state.lhs) 0 args
  if result.range = .varying then ⟨setValueRangeToVarying state.lhs, state.edgeCount⟩
  else
    match widen fl t mayOverflow state.lhs.range result.range edges state.edgeCount with
    | none => ⟨setValueRangeToVarying state.lhs, edges⟩
    | some range => ⟨updateValueRange fl t state.lhs ⟨range, result.equiv⟩, edges⟩

/-! ## What a meet can do -/

/-- **How a meet can change a range**: it grows as an interval, then becomes an anti-range, then that of the values that are not zero,
then everything. An end that is not the old one is beyond it.
Source: `tree-vrp.c` `vrp_meet` -/
inductive Grows (fl : Flags) (t : IntType) : ValueRange → ValueRange → Prop
  | refl (vr : ValueRange) : Grows fl t vr vr
  | undefined (vr : ValueRange) : Grows fl t .undefined vr
  | range {min max min' max' : Cst} (hmin : min' = min ∨ min'.key fl t < min.key fl t)
      (hmax : max' = max ∨ max.key fl t < max'.key fl t) : Grows fl t (.known .range min max) (.known .range min' max')
  | antiRange (min max min' max' : Cst) : Grows fl t (.known .range min max) (.known .antiRange min' max')
  | nonzero (min max : Cst) : Grows fl t (.known .antiRange min max) (.known .antiRange (.ofVal 0) (.ofVal 0))
  | varying (vr : ValueRange) : Grows fl t vr .varying

theorem Grows.trans {a b c : ValueRange} (hab : Grows fl t a b) (hbc : Grows fl t b c) : Grows fl t a c := by
  cases hab with
  | refl => exact hbc
  | undefined => exact .undefined c
  | range hmin hmax =>
    cases hbc with
    | refl => exact .range hmin hmax
    | range hmin' hmax' =>
      refine .range ?_ ?_
      · rcases hmin' with rfl | hmin'
        · exact hmin
        · exact .inr (hmin.elim (fun h => h ▸ hmin') hmin'.trans)
      · rcases hmax' with rfl | hmax'
        · exact hmax
        · exact .inr (hmax.elim (fun h => h ▸ hmax') fun h => h.trans hmax')
    | antiRange => exact .antiRange _ _ _ _
    | varying => exact .varying _
  | antiRange =>
    cases hbc with
    | refl => exact .antiRange _ _ _ _
    | nonzero => exact .antiRange _ _ _ _
    | varying => exact .varying _
  | nonzero =>
    cases hbc with
    | refl => exact .nonzero _ _
    | nonzero => exact .nonzero _ _
    | varying => exact .varying _
  | varying =>
    cases hbc with
    | refl => exact .varying _
    | varying => exact .varying _

/-- Everything remains everything. -/
theorem Grows.of_varying {vr : ValueRange} (h : Grows fl t .varying vr) : vr = .varying := by
  cases h with
  | refl => rfl
  | varying => rfl

/-- What is given up on has grown. Source: `tree-vrp.c` `vrp_meet` (`give_up`). Kind: L -/
theorem giveUp_grows (vr0 vr1 : ValueRangeT) : Grows fl t vr0.range (giveUp fl t vr0 vr1).range := by
  unfold giveUp
  split_ifs with hex
  · rw [Bool.and_eq_true] at hex
    obtain ⟨hex0, -⟩ := hex
    cases hrange : vr0.range with
    | undefined => exact .undefined _
    | varying =>
      rw [hrange] at hex0
      cases hex0
    | known kind min max =>
      cases kind with
      | range => exact .antiRange _ _ _ _
      | antiRange => exact .nonzero _ _
  · exact .varying _

/-- **A meet grows its first argument.** Source: `tree-vrp.c` `vrp_meet`. Kind: L -/
theorem vrpMeet_grows {vr0 vr1 : ValueRangeT} (h0 : vr0.range.IsStored fl t) (h1 : vr1.range.IsStored fl t) :
    Grows fl t vr0.range (vrpMeet fl t vr0 vr1).range := by
  have hmeets := meets_vrpMeet h0 h1
  generalize vrpMeet fl t vr0 vr1 = vr at hmeets ⊢
  cases hmeets with
  | copy hundef =>
    rw [hundef]
    exact .undefined _
  | keep => exact .refl _
  | varying => exact .varying _
  | @hull min0 max0 min1 max1 min max h0' h1' hmin hmax huseless =>
    rw [h0'] at h0
    rw [h1'] at h1
    rw [h0']
    exact .range (meetMin_spec h0.min_has h1.min_has hmin).2.1 (meetMax_spec h0.max_has h1.max_has hmax).2.1
  | first => exact .refl _
  | second h0' h1' =>
    rw [h0', h1']
    exact .antiRange _ _ _ _
  | giveUp => exact giveUp_grows vr0 vr1

section Loop

variable {args : List (Bool × PhiArg)} (hargs : ∀ p ∈ args, (p.2.range fl t).Valid fl t)

include hargs

/-- **The loop grows the range** and keeps it one that may be stored; if the result is not everything, all executable edges have been
counted.
Source: `tree-vrp.c` `vrp_visit_phi_node`
Kind: C -/
theorem meetArgs_spec {result : ValueRangeT} (hresult : result.Valid fl t) (edges : ℕ) :
    (meetArgs fl t result edges args).1.Valid fl t ∧
      Grows fl t result.range (meetArgs fl t result edges args).1.range ∧
      ((meetArgs fl t result edges args).1.range ≠ .varying →
        (meetArgs fl t result edges args).2 = edges + args.countP (·.1)) := by
  induction args generalizing result edges with
  | nil => exact ⟨hresult, .refl _, fun _ => rfl⟩
  | cons p args ih =>
    obtain ⟨executable, arg⟩ := p
    have harg := hargs (executable, arg) (List.mem_cons_self ..)
    have hrest : ∀ p ∈ args, (p.2.range fl t).Valid fl t := fun p hp => hargs p (List.mem_cons_of_mem _ hp)
    unfold meetArgs
    cases executable with
    | false =>
      rw [if_neg Bool.false_ne_true]
      obtain ⟨hvalid, hgrows, hcount⟩ := ih hrest hresult edges
      refine ⟨hvalid, hgrows, ?_⟩
      intro hne
      rw [hcount hne, List.countP_cons_of_neg (by simp)]
    | true =>
      have hmeet := vrpMeet_valid hresult harg
      have hgrow := vrpMeet_grows hresult.stored harg.stored
      rw [if_pos rfl]
      dsimp only
      split_ifs with hvarying
      · exact ⟨hmeet, hgrow, fun hne => absurd hvarying hne⟩
      · obtain ⟨hvalid, hgrows, hcount⟩ := ih hrest hmeet (edges + 1)
        refine ⟨hvalid, hgrow.trans hgrows, ?_⟩
        intro hne
        rw [hcount hne, List.countP_cons_of_pos (by simp)]
        omega

end Loop

/-! ## What a visit can do -/

/-- How often a range can still change without a new edge: a range may have both ends moved to those of the type.
Source: `tree-vrp.c` `vrp_visit_phi_node` -/
def ValueRange.rank (t : IntType) : ValueRange → ℕ
  | .undefined => 6
  | .known .range min max => 3 + (if min = .ofVal t.typeMin then 0 else 1) + (if max = .ofVal t.typeMax then 0 else 1)
  | .known .antiRange min max => if min = .ofVal 0 ∧ max = .ofVal 0 then 1 else 2
  | .varying => 0

theorem ValueRange.rank_le_six (vr : ValueRange) : vr.rank t ≤ 6 := by
  unfold ValueRange.rank
  split
  · exact le_rfl
  · split_ifs <;> decide
  · split_ifs <;> decide
  · decide

/-- How much the bound on the changes rises with a new edge: the ends of a sub-type may be crossed again.
Source: `tree-vrp.c` `vrp_visit_phi_node` ("We don't do this if we have seen a new executable edge") -/
def growthCost (t : IntType) : ℕ := if t.subrange = none then 1 else 3

/-- Where overflow has no infinities, a key is the value. Source: `tree-vrp.c` `needs_overflow_infinity`. Kind: L -/
theorem Cst.key_of_not_needs (hneeds : needsOverflowInfinity fl t = false) (v : Cst) : v.key fl t = v.val := by
  simp [Cst.key, isPositiveOverflowInfinity, isNegativeOverflowInfinity, hneeds]

/-- A range that grows has no higher rank, unless its type is a sub-type. Source: `tree-vrp.c` `vrp_meet`. Kind: L -/
theorem rank_le_of_grows (hneeds : needsOverflowInfinity fl t = false) {vr vr' : ValueRange} (h' : vr'.IsStored fl t)
    (hgrows : Grows fl t vr vr') : vr'.rank t + 1 ≤ vr.rank t + growthCost t := by
  have hcost : 1 ≤ growthCost t := by
    unfold growthCost
    split_ifs <;> decide
  cases hgrows with
  | refl => omega
  | undefined =>
    have := vr'.rank_le_six (t := t)
    change vr'.rank t + 1 ≤ 6 + growthCost t
    omega
  | @range min max min' max' hmin hmax =>
    by_cases hsub : t.subrange = none
    · -- beyond the ends of the type there is nothing
      have hlow := h'.min_has.1
      have hhigh := h'.max_has.2
      have hends : t.typeMin = t.minValue ∧ t.typeMax = t.maxValue := by
        rw [IntType.typeMin, IntType.typeMax, hsub]
        exact ⟨rfl, rfl⟩
      have hminkeep (hend : min = .ofVal t.minValue) : min' = .ofVal t.minValue := by
        refine hmin.elim (fun h => h.trans hend) fun hlt => ?_
        rw [hend, Cst.key_of_not_needs hneeds, Cst.key_of_not_needs hneeds] at hlt
        exact absurd hlow (not_le.mpr hlt)
      have hmaxkeep (hend : max = .ofVal t.maxValue) : max' = .ofVal t.maxValue := by
        refine hmax.elim (fun h => h.trans hend) fun hlt => ?_
        rw [hend, Cst.key_of_not_needs hneeds, Cst.key_of_not_needs hneeds] at hlt
        exact absurd hhigh (not_le.mpr hlt)
      unfold ValueRange.rank
      dsimp only
      rw [hends.1, hends.2]
      split_ifs <;> simp_all <;> omega
    · unfold ValueRange.rank growthCost
      dsimp only
      rw [if_neg hsub]
      split_ifs <;> omega
  | antiRange =>
    unfold ValueRange.rank
    dsimp only
    split_ifs <;> omega
  | nonzero =>
    unfold ValueRange.rank
    dsimp only
    rw [if_pos ⟨rfl, rfl⟩]
    split_ifs <;> omega
  | varying =>
    change 0 + 1 ≤ vr.rank t + growthCost t
    omega

/-- A new kind of range has a lower rank, and so has the anti-range of zero. -/
theorem rank_lt_of_grows {vr vr' : ValueRange} (hgrows : Grows fl t vr vr') (hne : vr' ≠ vr)
    (hkind : ∀ min max min' max', vr = .known .range min max → vr' ≠ .known .range min' max') : vr'.rank t < vr.rank t := by
  cases hgrows with
  | refl => exact absurd rfl hne
  | undefined =>
    unfold ValueRange.rank
    split
    · exact absurd rfl hne
    · split_ifs <;> decide
    · split_ifs <;> decide
    · decide
  | range => exact absurd rfl (hkind _ _ _ _ rfl)
  | antiRange =>
    unfold ValueRange.rank
    dsimp only
    split_ifs <;> decide
  | nonzero min max =>
    have hother : ¬ (min = .ofVal 0 ∧ max = .ofVal 0) := by
      rintro ⟨rfl, rfl⟩
      exact hne rfl
    unfold ValueRange.rank
    dsimp only
    rw [if_pos ⟨rfl, rfl⟩, if_neg hother]
    decide
  | varying =>
    unfold ValueRange.rank
    dsimp only
    split
    · decide
    · split_ifs <;> decide
    · split_ifs <;> decide
    · exact absurd rfl hne

section Widen

variable (hneeds : needsOverflowInfinity fl t = false) {mayOverflow : Bool}

include hneeds

/-- The lower end is as it was, or has been moved. Source: `tree-vrp.c` `vrp_visit_phi_node` (`cmp_min`). Kind: L -/
theorem widenMin_cases {lhsMin min max min' : Cst} (hl : t.Has lhsMin.val) (hr : t.Has min.val)
    (hcall : widenMin fl t mayOverflow lhsMin min max = some min') :
    (min' = lhsMin ∧ min = lhsMin) ∨ (min' = .ofVal t.typeMin ∧ compareValues fl t (.ofVal t.typeMin) max ≤ 0) := by
  unfold widenMin at hcall
  rw [hneeds] at hcall
  simp only [compareValues_zero_iff hl hr, Bool.not_false, Bool.true_or, if_true] at hcall
  split_ifs at hcall with hsame hend
  · cases hcall
    exact .inl ⟨hsame.symm, hsame.symm⟩
  · exact .inr ⟨(Option.some.inj hcall).symm, not_lt.mp fun h => hend (.inr h)⟩

/-- The upper end is as it was, or has been moved. Source: `tree-vrp.c` `vrp_visit_phi_node` (`cmp_max`). Kind: L -/
theorem widenMax_cases {lhsMax min max max' : Cst} (hl : t.Has lhsMax.val) (hr : t.Has max.val)
    (hcall : widenMax fl t mayOverflow lhsMax min max = some max') :
    (max' = lhsMax ∧ max = lhsMax) ∨ (max' = .ofVal t.typeMax ∧ 0 ≤ compareValues fl t (.ofVal t.typeMax) min) := by
  unfold widenMax at hcall
  rw [hneeds] at hcall
  simp only [compareValues_zero_iff hl hr, Bool.not_false, Bool.true_or, if_true] at hcall
  split_ifs at hcall with hsame hend
  · cases hcall
    exact .inl ⟨hsame.symm, hsame.symm⟩
  · exact .inr ⟨(Option.some.inj hcall).symm, not_lt.mp fun h => hend (.inr h)⟩

/-- **An end that changed is moved to the end of the type.** Every end is the one that was recorded, or that of the type.
Source: `tree-vrp.c` `vrp_visit_phi_node` ("go all the way to -INF", "go all the way to +INF")
Kind: L -/
theorem widen_range {lhsMin lhsMax min max : Cst} (hl : Stored fl t .range lhsMin lhsMax) (hr : Stored fl t .range min max)
    {edges oldEdges : ℕ} (hedges : edges ≤ oldEdges) {vr : ValueRange}
    (hcall : widen fl t mayOverflow (.known .range lhsMin lhsMax) (.known .range min max) edges oldEdges = some vr) :
    ∃ min' max', vr = .known .range min' max' ∧ Stored fl t .range min' max' ∧ (min' = lhsMin ∨ min' = .ofVal t.typeMin) ∧
      (max' = lhsMax ∨ max' = .ofVal t.typeMax) := by
  obtain ⟨hbottom, htop⟩ := t.has_typeMin
  unfold widen at hcall
  dsimp only at hcall
  rw [if_pos hedges] at hcall
  obtain ⟨min', hmin', hrest⟩ := Option.bind_eq_some_iff.mp hcall
  obtain ⟨max', hmax', hvr⟩ := Option.bind_eq_some_iff.mp hrest
  have hfinite : ¬ (isOverflowInfinity fl t min' = true ∧ isOverflowInfinity fl t max' = true) := by
    simp [isOverflowInfinity, hneeds]
  have hminCases := widenMin_cases hneeds hl.min_has hr.min_has hmin'
  have hmaxCases := widenMax_cases hneeds hl.max_has hr.max_has hmax'
  have hminHas : t.Has min'.val := hminCases.elim (fun h => h.1 ▸ hl.min_has) fun h => h.1 ▸ hbottom
  refine ⟨min', max', (Option.some.inj hvr).symm, ⟨hminHas, ?_, ?_, hfinite, nofun⟩, hminCases.imp (·.1) (·.1),
    hmaxCases.imp (·.1) (·.1)⟩
  · exact hmaxCases.elim (fun h => h.1 ▸ hl.max_has) fun h => h.1 ▸ htop
  · rcases hmaxCases with ⟨rfl, rfl⟩ | ⟨rfl, hcmp⟩
    · rcases hminCases with ⟨rfl, rfl⟩ | ⟨rfl, hcmp⟩
      · exact hl.ordered
      · omega
    · have := compareValues_cases fl hminHas (w := .ofVal t.typeMax) htop
      have := compareValues_cases fl (v := .ofVal t.typeMax) htop hminHas
      omega

/-- **What is stored in place of the range**: if no new edge was seen, its rank is not higher, and lower if it changed.
Source: `tree-vrp.c` `vrp_visit_phi_node`
Kind: L -/
theorem widen_spec {lhs result vr : ValueRange} (hl : lhs.IsStored fl t) (hr : result.IsStored fl t)
    (hgrows : Grows fl t lhs result) {edges oldEdges : ℕ} (hcall : widen fl t mayOverflow lhs result edges oldEdges = some vr) :
    vr.IsStored fl t ∧ vr.rank t + 1 ≤ lhs.rank t + growthCost t ∧ (edges ≤ oldEdges → vr ≠ lhs → vr.rank t < lhs.rank t) ∧
      (vr = .undefined ∨ vr = .varying → vr = result) := by
  by_cases hboth : ∃ lhsMin lhsMax min max, lhs = .known .range lhsMin lhsMax ∧ result = .known .range min max ∧
      edges ≤ oldEdges
  · obtain ⟨lhsMin, lhsMax, min, max, rfl, rfl, hedges⟩ := hboth
    obtain ⟨min', max', rfl, hstored, hmin, hmax⟩ := widen_range hneeds hl hr hedges hcall
    have hrank (hne : ValueRange.known .range min' max' ≠ .known .range lhsMin lhsMax) :
        (ValueRange.known .range min' max').rank t < (ValueRange.known .range lhsMin lhsMax).rank t := by
      unfold ValueRange.rank
      dsimp only
      rcases hmin with rfl | rfl <;> rcases hmax with rfl | rfl
      · exact absurd rfl hne
      · have hne' : lhsMax ≠ .ofVal t.typeMax := fun h => hne (h ▸ rfl)
        rw [if_pos (rfl : Cst.ofVal t.typeMax = _), if_neg hne']
        omega
      · have hne' : lhsMin ≠ .ofVal t.typeMin := fun h => hne (h ▸ rfl)
        rw [if_pos (rfl : Cst.ofVal t.typeMin = _), if_neg hne']
        omega
      · rw [if_pos rfl, if_pos rfl]
        split_ifs with hsameMin hsameMax
        · exact absurd (by rw [hsameMin, hsameMax]) hne
        · decide
        · decide
        · decide
    refine ⟨hstored, ?_, fun _ => hrank, by simp⟩
    have hcost : 1 ≤ growthCost t := by
      unfold growthCost
      split_ifs <;> decide
    by_cases hsame : ValueRange.known .range min' max' = .known .range lhsMin lhsMax
    · rw [hsame]
      omega
    · have := hrank hsame
      omega
  · have hvr : vr = result := by
      unfold widen at hcall
      split at hcall
      · rw [if_neg (fun hedges => hboth ⟨_, _, _, _, rfl, rfl, hedges⟩)] at hcall
        exact (Option.some.inj hcall).symm
      · exact (Option.some.inj hcall).symm
    subst hvr
    refine ⟨hr, rank_le_of_grows hneeds hr hgrows, ?_, fun _ => rfl⟩
    intro hedges hne
    apply rank_lt_of_grows hgrows hne
    rintro lhsMin lhsMax min max hlhs hresult
    exact hboth ⟨_, _, _, _, hlhs, hresult, hedges⟩

omit hneeds in
/-- The range that is recorded is the old one or the new one. Source: `tree-vrp.c` `update_value_range`. Kind: L -/
theorem updateValueRange_spec {old new : ValueRangeT} (hold : old.Valid fl t) (hnew : new.Valid fl t) :
    ((updateValueRange fl t old new).range = old.range ∨ (updateValueRange fl t old new).range = new.range) ∧
      (updateValueRange fl t old new).Valid fl t := by
  unfold updateValueRange
  split_ifs with hsame
  · exact ⟨.inl rfl, hold⟩
  · refine ⟨.inr rfl, hnew.stored, ?_⟩
    intro hrange
    rw [copyValueRange_equivalences]
    exact hnew.equiv_empty hrange

variable {args : List (Bool × PhiArg)} (hargs : ∀ p ∈ args, (p.2.range fl t).Valid fl t)

include hargs

/-- **One visit.** What is recorded stays valid and its rank does not rise but by the cost of a new edge; if no new edge was seen, every
change lowers the rank. The count is that of the executable edges, unless the result is everything, which it then remains.
Source: `tree-vrp.c` `vrp_visit_phi_node`
Kind: C -/
theorem vrpVisitPhiNode_spec {state : PhiState} (hstate : state.lhs.Valid fl t) :
    (vrpVisitPhiNode fl t mayOverflow state args).lhs.Valid fl t ∧
    (vrpVisitPhiNode fl t mayOverflow state args).lhs.range.rank t + 1 ≤ state.lhs.range.rank t + growthCost t ∧
    (args.countP (·.1) ≤ state.edgeCount →
      (vrpVisitPhiNode fl t mayOverflow state args).lhs.range ≠ state.lhs.range →
        (vrpVisitPhiNode fl t mayOverflow state args).lhs.range.rank t < state.lhs.range.rank t) ∧
    ((vrpVisitPhiNode fl t mayOverflow state args).lhs.range ≠ .varying →
      (vrpVisitPhiNode fl t mayOverflow state args).edgeCount = args.countP (·.1)) ∧
    (state.lhs.range = .varying → (vrpVisitPhiNode fl t mayOverflow state args).lhs.range = .varying) := by
  have hcopy : (copyValueRange ⟨.undefined, none⟩ state.lhs).Valid fl t := by
    refine ⟨hstate.stored, ?_⟩
    rw [copyValueRange_equivalences]
    exact hstate.equiv_empty
  have hcost : 1 ≤ growthCost t := by
    unfold growthCost
    split_ifs <;> decide
  have hcleared : (setValueRangeToVarying state.lhs).Valid fl t := ⟨trivial, fun _ => getD_map_empty _⟩
  have hzero : (setValueRangeToVarying state.lhs).range.rank t + 1 ≤ state.lhs.range.rank t + growthCost t := by
    change 0 + 1 ≤ _
    omega
  have hlower : (setValueRangeToVarying state.lhs).range ≠ state.lhs.range →
      (setValueRangeToVarying state.lhs).range.rank t < state.lhs.range.rank t := by
    intro hne
    apply rank_lt_of_grows (@Grows.varying fl t _) hne
    simp
  obtain ⟨hvalid, hgrows, hcount⟩ := meetArgs_spec hargs hcopy 0
  unfold vrpVisitPhiNode
  generalize meetArgs fl t (copyValueRange ⟨.undefined, none⟩ state.lhs) 0 args = met at hvalid hgrows hcount ⊢
  obtain ⟨result, edges⟩ := met
  dsimp only at hvalid hgrows hcount ⊢
  by_cases hvarying : result.range = .varying
  · rw [if_pos hvarying]
    exact ⟨hcleared, hzero, fun _ => hlower, fun hne => absurd rfl hne, fun _ => rfl⟩
  · rw [if_neg hvarying]
    have hedges := hcount hvarying
    rw [Nat.zero_add] at hedges
    cases hwiden : widen fl t mayOverflow state.lhs.range result.range edges state.edgeCount with
    | none => exact ⟨hcleared, hzero, fun _ => hlower, fun hne => absurd rfl hne, fun _ => rfl⟩
    | some range =>
      obtain ⟨hstored, hrank, hlt, hknown⟩ := widen_spec hneeds hstate.stored hvalid.stored hgrows hwiden
      have hnew : (⟨range, result.equiv⟩ : ValueRangeT).Valid fl t := by
        refine ⟨hstored, ?_⟩
        intro hrange
        have hsame := hknown hrange
        dsimp only at hrange
        rw [hsame] at hrange
        exact hvalid.equiv_empty hrange
      obtain ⟨hrange, hupdate⟩ := updateValueRange_spec hstate hnew
      dsimp only at hrange ⊢
      refine ⟨hupdate, ?_, ?_, fun _ => hedges, ?_⟩
      · rcases hrange with heq | heq
        · rw [heq]
          omega
        · rw [heq]
          exact hrank
      · intro hle hne
        rcases hrange with heq | heq
        · exact absurd heq hne
        · rw [heq] at hne ⊢
          exact hlt (by omega) hne
      · intro heq
        exact absurd (Grows.of_varying (heq ▸ hgrows)) hvarying

end Widen

/-! ## All visits -/

section Run

variable {n : ℕ} (mayOverflow : ℕ → Bool) (args : ℕ → Fin n → PhiArg) (executable : ℕ → Finset (Fin n)) (lhs : ValueRangeT)

/-- The arguments of a visit with their edges. Source: `tree-vrp.c` `vrp_visit_phi_node`. -/
def visitArgs (k : ℕ) : List (Bool × PhiArg) := List.ofFn fun i => (decide (i ∈ executable k), args k i)

/-- What is recorded after `k` visits. Source: `tree-vrp.c` `vrp_visit_phi_node`. -/
def phiRun (fl : Flags) (t : IntType) : ℕ → PhiState
  | 0 => ⟨lhs, 0⟩
  | k + 1 => vrpVisitPhiNode fl t (mayOverflow k) (phiRun fl t k) (visitArgs args executable k)

/-- The number of executable edges at the visit before. Source: `tree-vrp.c` (`vr_phi_edge_counts`). -/
def edgesBefore : ℕ → ℕ
  | 0 => 0
  | k + 1 => (executable k).card

/-- Among the first `m` visits, those that find more executable edges than the visit before.
Source: `tree-vrp.c` `vrp_visit_phi_node` ("we have seen a new executable edge") -/
def edgeGrowths (m : ℕ) : Finset ℕ := (Finset.range m).filter fun k => edgesBefore executable k < (executable k).card

/-- Among the first `m` visits, those that change the range. Source: `tree-vrp.c` `update_value_range`. -/
def rangeChanges (fl : Flags) (t : IntType) (m : ℕ) : Finset ℕ :=
  (Finset.range m).filter fun k =>
    (phiRun mayOverflow args executable lhs fl t (k + 1)).lhs.range ≠ (phiRun mayOverflow args executable lhs fl t k).lhs.range

/-- The loop sees every executable edge. -/
theorem countP_visitArgs (k : ℕ) : (visitArgs args executable k).countP (·.1) = (executable k).card := by
  unfold visitArgs
  rw [List.ofFn_eq_map, List.countP_map, List.countP_eq_length_filter]
  have hnodup := (List.nodup_finRange n).filter ((fun p : Bool × PhiArg => p.1) ∘ fun i => (decide (i ∈ executable k), args k i))
  rw [← List.toFinset_card_of_nodup hnodup]
  congr 1
  ext i
  simp

/-- The number of edges grows at most as often as there are edges. -/
theorem card_edgeGrowths_le (hmono : Monotone executable) (m : ℕ) : (edgeGrowths executable m).card ≤ edgesBefore executable m := by
  induction m with
  | zero => exact le_rfl
  | succ m ih =>
    have hstep : edgesBefore executable m ≤ (executable m).card := by
      cases m with
      | zero => exact Nat.zero_le _
      | succ m => exact Finset.card_le_card (hmono (Nat.le_succ m))
    unfold edgeGrowths at ih ⊢
    rw [← Nat.count_eq_card_filter_range] at ih ⊢
    rw [Nat.count_succ]
    change _ ≤ (executable m).card
    split_ifs <;> omega

/-- The range is constant from some visit on. Source: `tree-vrp.c` `vrp_visit_phi_node` ("prevent infinite iterations"). Kind: L -/
theorem phiRun_stabilizes (fl : Flags) (t : IntType) (bound : ℕ)
    (hbound : ∀ m, (rangeChanges mayOverflow args executable lhs fl t m).card ≤ bound) :
    ∃ m, ∀ k, m ≤ k → (phiRun mayOverflow args executable lhs fl t k).lhs.range =
      (phiRun mayOverflow args executable lhs fl t m).lhs.range := by
  let left : ℕ → ℕ := fun m => bound - (rangeChanges mayOverflow args executable lhs fl t m).card
  refine ⟨Function.argmin left, ?_⟩
  intro k hk
  induction k, hk using Nat.le_induction with
  | base => rfl
  | succ k hk ih =>
    by_contra hne
    rw [← ih] at hne
    -- a change here would leave fewer changes than the least number that is left
    have hleast : left (Function.argmin left) ≤ left (k + 1) := Function.argmin_le left (k + 1)
    have hsub : insert k (rangeChanges mayOverflow args executable lhs fl t (Function.argmin left)) ⊆
        rangeChanges mayOverflow args executable lhs fl t (k + 1) := by
      intro j hj
      unfold rangeChanges at hj ⊢
      rw [Finset.mem_insert, Finset.mem_filter, Finset.mem_range] at hj
      rw [Finset.mem_filter, Finset.mem_range]
      rcases hj with rfl | ⟨hlt, hj⟩
      · exact ⟨Nat.lt_succ_self _, hne⟩
      · exact ⟨by omega, hj⟩
    have hnot : k ∉ rangeChanges mayOverflow args executable lhs fl t (Function.argmin left) := by
      unfold rangeChanges
      rw [Finset.mem_filter, Finset.mem_range]
      rintro ⟨hlt, -⟩
      omega
    have hcard := Finset.card_le_card hsub
    rw [Finset.card_insert_of_notMem hnot] at hcard
    have := hbound (k + 1)
    have := hbound (Function.argmin left)
    dsimp only [left] at hleast hcard
    omega

variable {args lhs} (hneeds : needsOverflowInfinity fl t = false)
  (hargs : ∀ k i, ((args k i).range fl t).Valid fl t) (hlhs : lhs.Valid fl t)

include hneeds hargs hlhs

/-- **All visits.** Each change has been paid for with a new edge or with the rank of the range.
Source: `tree-vrp.c` `vrp_visit_phi_node`
Kind: C -/
theorem phiRun_spec (m : ℕ) :
    (phiRun mayOverflow args executable lhs fl t m).lhs.Valid fl t ∧
    ((phiRun mayOverflow args executable lhs fl t m).lhs.range ≠ .varying →
      (phiRun mayOverflow args executable lhs fl t m).edgeCount = edgesBefore executable m) ∧
    (rangeChanges mayOverflow args executable lhs fl t m).card +
        (phiRun mayOverflow args executable lhs fl t m).lhs.range.rank t ≤
      growthCost t * (edgeGrowths executable m).card + 6 := by
  induction m with
  | zero => exact ⟨hlhs, fun _ => rfl, by simpa [rangeChanges, edgeGrowths] using ValueRange.rank_le_six _⟩
  | succ m ih =>
    obtain ⟨hvalid, hcount, hcard⟩ := ih
    have hvisit : ∀ p ∈ visitArgs args executable m, (p.2.range fl t).Valid fl t := by
      intro p hp
      obtain ⟨i, rfl⟩ := List.mem_ofFn.mp hp
      exact hargs m i
    obtain ⟨hvalid', hrank, hlower, hcount', hstays⟩ :=
      @vrpVisitPhiNode_spec fl t hneeds (mayOverflow m) _ hvisit _ hvalid
    rw [countP_visitArgs] at hlower hcount'
    refine ⟨hvalid', hcount', ?_⟩
    have hnew : phiRun mayOverflow args executable lhs fl t (m + 1) = vrpVisitPhiNode fl t (mayOverflow m)
      (phiRun mayOverflow args executable lhs fl t m) (visitArgs args executable m) := rfl
    rw [← hnew] at hrank hlower hstays
    unfold rangeChanges edgeGrowths at hcard ⊢
    rw [← Nat.count_eq_card_filter_range, ← Nat.count_eq_card_filter_range] at hcard ⊢
    rw [Nat.count_succ, Nat.count_succ, Nat.mul_add]
    clear hvalid hvalid' hcount' hnew
    generalize phiRun mayOverflow args executable lhs fl t (m + 1) = new at *
    generalize phiRun mayOverflow args executable lhs fl t m = old at *
    by_cases hsame : new.lhs.range = old.lhs.range
    · rw [if_neg (not_not.mpr hsame), hsame]
      omega
    · have hdefined : old.lhs.range ≠ .varying := by
        intro hvarying
        exact hsame ((hstays hvarying).trans hvarying.symm)
      rw [hcount hdefined] at hlower
      rw [if_pos hsame]
      split_ifs with hgrow
      · omega
      · have := hlower (not_lt.mp hgrow) hsame
        omega

end Run

/-- An `int` whose values are those from 0 to 10. Source: `tree.h` `TYPE_MAX_VALUE`. -/
def tenType : IntType :=
  { intType with subrange := some (0, 10), subrange_has := by rintro r ⟨⟩ z (rfl | rfl) <;> decide }

/-- The range with the ends 5 and `max`. -/
def fromFive (max : ℤ) : ValueRangeT := ⟨.known .range (.ofVal 5) (.ofVal max), none⟩

/-- At an even visit all arguments have the range up to 20, at an odd one that up to 21. -/
def oscillatingArgs {n : ℕ} (k : ℕ) (_ : Fin n) : PhiArg := .name (fromFive (if k % 2 = 0 then 20 else 21))

/-- An edge becomes executable with every second visit. -/
def oscillatingEdges {n : ℕ} (k : ℕ) : Finset (Fin n) := Finset.univ.filter fun i => i.val ≤ k / 2

/-- Arguments that all have one range are met with it once. Source: `tree-vrp.c` `vrp_visit_phi_node`. Kind: L -/
theorem meetArgs_of_forall_eq {arg result met : ValueRangeT} (hmet : met.range ≠ .varying)
    (hfirst : vrpMeet fl t result arg = met) (hagain : vrpMeet fl t met arg = met) {args : List (Bool × PhiArg)}
    (hargs : ∀ p ∈ args, p.2.range fl t = arg) (edges : ℕ) :
    meetArgs fl t result edges args =
      (if args.countP (·.1) = 0 then result else met, edges + args.countP (·.1)) := by
  induction args generalizing result edges with
  | nil => rfl
  | cons p args ih =>
    obtain ⟨executable, name⟩ := p
    have hrest : ∀ p ∈ args, p.2.range fl t = arg := fun p hp => hargs p (List.mem_cons_of_mem _ hp)
    have hname : name.range fl t = arg := hargs _ (List.mem_cons_self ..)
    unfold meetArgs
    cases executable with
    | false =>
      rw [List.countP_cons_of_neg (by simp)]
      exact ih hfirst hrest edges
    | true =>
      rw [List.countP_cons_of_pos (by simp), if_pos rfl, hname, hfirst]
      dsimp only
      rw [if_neg hmet, ih hagain hrest (edges + 1), ite_self, if_neg (Nat.succ_ne_zero _)]
      congr 1
      omega

/-- At an even or odd visit all arguments have one range. -/
theorem oscillatingArgs_range {n : ℕ} (k : ℕ) {p : Bool × PhiArg}
    (hp : p ∈ visitArgs (oscillatingArgs (n := n)) oscillatingEdges k) :
    p.2.range fl t = fromFive (if k % 2 = 0 then 20 else 21) := by
  obtain ⟨i, rfl⟩ := List.mem_ofFn.mp hp
  rfl

/-- The number of executable edges. -/
theorem card_oscillatingEdges {n k : ℕ} (hk : k / 2 < n) : (oscillatingEdges (n := n) k).card = k / 2 + 1 := by
  have hIic : oscillatingEdges (n := n) k = Finset.Iic ⟨k / 2, hk⟩ := by
    ext i
    simp [oscillatingEdges, Fin.le_def]
  rw [hIic, Fin.card_Iic]

/-- **A visit whose arguments all have one range.** Source: `tree-vrp.c` `vrp_visit_phi_node`. Kind: L -/
theorem vrpVisitPhiNode_of_forall_eq (mayOverflow : Bool) {state : PhiState} {arg met : ValueRangeT} {range : ValueRange}
    (hmet : met.range ≠ .varying) (hfirst : vrpMeet fl t (copyValueRange ⟨.undefined, none⟩ state.lhs) arg = met)
    (hagain : vrpMeet fl t met arg = met) {args : List (Bool × PhiArg)} (hargs : ∀ p ∈ args, p.2.range fl t = arg)
    (hsome : args.countP (·.1) ≠ 0)
    (hwiden : widen fl t mayOverflow state.lhs.range met.range (args.countP (·.1)) state.edgeCount = some range) :
    vrpVisitPhiNode fl t mayOverflow state args =
      ⟨updateValueRange fl t state.lhs ⟨range, met.equiv⟩, args.countP (·.1)⟩ := by
  unfold vrpVisitPhiNode
  rw [meetArgs_of_forall_eq hmet hfirst hagain hargs, if_neg hsome, Nat.zero_add]
  dsimp only
  rw [if_neg hmet, hwiden]

/-- **The visits of the oscillation**: the upper end is 10 before each even visit and 20 after it.
Source: `tree-vrp.c` `vrp_visit_phi_node`
Kind: L -/
theorem phiRun_oscillating {n j : ℕ} (hj : j < n) (mayOverflow : ℕ → Bool)
    (hrun : phiRun mayOverflow (@oscillatingArgs n) oscillatingEdges (fromFive 10) strictFlags tenType (2 * j) =
      ⟨fromFive 10, j⟩) :
    phiRun mayOverflow (@oscillatingArgs n) oscillatingEdges (fromFive 10) strictFlags tenType (2 * j + 1) =
        ⟨fromFive 20, j + 1⟩ ∧
      phiRun mayOverflow (@oscillatingArgs n) oscillatingEdges (fromFive 10) strictFlags tenType (2 * j + 1 + 1) =
        ⟨fromFive 10, j + 1⟩ := by
  have hcount : (visitArgs (@oscillatingArgs n) oscillatingEdges (2 * j)).countP (·.1) = j + 1 := by
    rw [countP_visitArgs, card_oscillatingEdges (by omega)]
    omega
  have hcount' : (visitArgs (@oscillatingArgs n) oscillatingEdges (2 * j + 1)).countP (·.1) = j + 1 := by
    rw [countP_visitArgs, card_oscillatingEdges (by omega)]
    omega
  have hargs : ∀ p ∈ visitArgs (@oscillatingArgs n) oscillatingEdges (2 * j), p.2.range strictFlags tenType = fromFive 20 := by
    intro p hp
    rw [oscillatingArgs_range _ hp, if_pos (by omega)]
  have hargs' : ∀ p ∈ visitArgs (@oscillatingArgs n) oscillatingEdges (2 * j + 1),
      p.2.range strictFlags tenType = fromFive 21 := by
    intro p hp
    rw [oscillatingArgs_range _ hp, if_neg (by omega)]
  have hnew : phiRun mayOverflow (@oscillatingArgs n) oscillatingEdges (fromFive 10) strictFlags tenType (2 * j + 1) =
      ⟨fromFive 20, j + 1⟩ := by
    unfold phiRun
    -- a new edge was seen, so the upper end stays where the meet put it
    rw [hrun, @vrpVisitPhiNode_of_forall_eq _ _ _ _ _ (fromFive 20) (fromFive 20).range nofun (by rfl) (by rfl) _ hargs
      (by omega) (by rw [hcount]; exact if_neg (by simp)), hcount]
    rfl
  refine ⟨hnew, ?_⟩
  unfold phiRun
  -- no new edge was seen, so the upper end goes to the end of the type
  rw [hnew, @vrpVisitPhiNode_of_forall_eq _ _ _ _ _ (fromFive 21) (fromFive 10).range nofun (by rfl) (by rfl) _ hargs'
    (by omega) (by rw [hcount']; exact (if_pos le_rfl).trans (by rfl)), hcount']
  rfl

end GccCore.Gcc.TreeVrp
