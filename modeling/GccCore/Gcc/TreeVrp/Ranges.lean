import GccCore.Gcc.TreeVrp.Binary
import Mathlib.Data.Nat.Bitwise

/-!
# Ranges of binary operations are sound

* **The tail** (`finishRange_admits`): ends that stand for bounds of a value give a range that admits it.
* **Corners** (`crossLoop_spec`, `crossOperations_admits`).
* **Divisions by anything** (`divideByUnknown_admits`), **bits** (`extract_bitAnd_admits`, `lor_le_wrap_iorMax`).
* **All codes** (`extract_range_admits`): the stored range admits every defined result.
-/

namespace GccCore.Gcc.TreeVrp

open GccCore.Gcc.FoldConst GccCore.Lib.RoundedDiv GccCore.Lib.Corners

variable {fl : Flags} {t t1 : IntType} {code : TreeCode}

/-! ## The tail -/

/-- A constant whose key is not above a value is not above it. -/
theorem Good.val_le {v : Cst} (h : Good fl t v) {lo z : ℤ} (hkey : v.key fl t ≤ t.sat lo) (hlo : lo ≤ z)
    (hz : t.Has z) : v.val ≤ z := by
  obtain ⟨hmin, hmax⟩ := hz
  unfold IntType.sat at hkey
  rcases h.cases with ⟨_, hk, _⟩ | ⟨_, hval, _⟩ | ⟨_, _, hk, _⟩ <;> omega

/-- A constant whose key is not below a value is not below it. -/
theorem Good.le_val {v : Cst} (h : Good fl t v) {hi z : ℤ} (hkey : t.sat hi ≤ v.key fl t) (hhi : z ≤ hi)
    (hz : t.Has z) : z ≤ v.val := by
  obtain ⟨hmin, hmax⟩ := hz
  unfold IntType.sat at hkey
  rcases h.cases with ⟨_, hk, _⟩ | ⟨_, _, hk, _⟩ | ⟨_, hval, _⟩ <;> omega

/-- The tail keeps the ends or gives up. Source: `tree-vrp.c` `extract_range_from_binary_expr`. Kind: L -/
theorem finishRange_cases (fl : Flags) (t : IntType) (kind : RangeKind) (min max : Cst) :
    finishRange fl t kind (some min) (some max) = .varying ∨
      (finishRange fl t kind (some min) (some max) = .known kind min max ∧
        ¬ Bad fl t min ∧ ¬ Bad fl t max) := by
  unfold finishRange
  dsimp only
  split
  · exact Or.inl rfl
  case isFalse hbad =>
    split
    · exact Or.inl rfl
    · split
      · exact Or.inl rfl
      · exact Or.inr ⟨rfl, fun h => hbad (Or.inl h), fun h => hbad (Or.inr h)⟩

/-- A value between the bounds that the ends stand for is admitted, whether overflow wraps or the value is known
not to overflow.
Source: `tree-vrp.c` `extract_range_from_binary_expr`
Kind: L -/
theorem finishRange_admits {min max : Cst} {lo hi z : ℤ} (hmin : Bad fl t min ∨ Stands fl t min lo)
    (hmax : Bad fl t max ∨ Stands fl t max hi) (hlo : lo ≤ z) (hhi : z ≤ hi)
    (hz : t.overflowWraps fl = false → t.Has z) :
    (finishRange fl t .range (some min) (some max)).Admits (t.wrap z) := by
  rcases finishRange_cases fl t .range min max with h | ⟨h, hgood, hgood'⟩
  · rw [h]
    trivial
  · have hmin := hmin.resolve_left hgood
    have hmax := hmax.resolve_left hgood'
    have hhas : t.Has z := by
      cases hwraps : t.overflowWraps fl
      · exact hz hwraps
      · exact ⟨le_trans (hmin.has hwraps).1 hlo, le_trans hhi (hmax.has hwraps).2⟩
    rw [h, IntType.wrap_of_has hhas]
    exact ⟨hmin.good.val_le (le_of_eq hmin.key_eq) hlo hhas,
      hmax.good.le_val (ge_of_eq hmax.key_eq) hhi hhas⟩

/-! ## Corners -/

/-- The loop over the values ends with an overflowed one, or with the smallest and the largest of them.
Source: `tree-vrp.c` `extract_range_from_binary_expr` (`for (i = 1; i < 4; i++)`)
Kind: L -/
theorem crossLoop_spec {vals : List (Option Cst)} {min max : Cst} (hmin : Good fl t min)
    (hmax : Good fl t max) (hvals : ∀ v, some v ∈ vals → Bad fl t v ∨ Good fl t v) :
    (Bad fl t (crossLoop fl t min max vals).1 ∧ ∃ v, some v ∈ vals ∧ Bad fl t v) ∨
      (((crossLoop fl t min max vals).1 = min ∨ some (crossLoop fl t min max vals).1 ∈ vals) ∧
        ((crossLoop fl t min max vals).2 = max ∨ some (crossLoop fl t min max vals).2 ∈ vals) ∧
        Good fl t (crossLoop fl t min max vals).1 ∧ Good fl t (crossLoop fl t min max vals).2 ∧
        (crossLoop fl t min max vals).1.key fl t ≤ min.key fl t ∧
        max.key fl t ≤ (crossLoop fl t min max vals).2.key fl t ∧
        ∀ v, some v ∈ vals → Good fl t v ∧ (crossLoop fl t min max vals).1.key fl t ≤ v.key fl t ∧
          v.key fl t ≤ (crossLoop fl t min max vals).2.key fl t) := by
  induction vals generalizing min max with
  | nil =>
    right
    refine ⟨Or.inl rfl, Or.inl rfl, hmin, hmax, le_rfl, le_rfl, ?_⟩
    intro v hv
    exact absurd hv List.not_mem_nil
  | cons val vals ih =>
    have hneither : ¬ (Bad fl t min ∨ Bad fl t max) := by
      rintro (hbad | hbad)
      · exact hmin.not_bad hbad
      · exact hmax.not_bad hbad
    have hrest : ∀ v, some v ∈ vals → Bad fl t v ∨ Good fl t v :=
      fun v hv => hvals v (List.mem_cons_of_mem _ hv)
    have hlater : ∀ {m : Cst}, (Bad fl t m ∧ ∃ v, some v ∈ vals ∧ Bad fl t v) →
        Bad fl t m ∧ ∃ v, some v ∈ val :: vals ∧ Bad fl t v := by
      rintro m ⟨hm, v, hv, hbad⟩
      exact ⟨hm, v, List.mem_cons_of_mem _ hv, hbad⟩
    cases val with
    | none =>
      have hstep : crossLoop fl t min max (none :: vals) = crossLoop fl t min max vals := by
        conv_lhs => unfold crossLoop
        rw [if_neg hneither]
      rw [hstep]
      refine (ih hmin hmax hrest).imp hlater ?_
      rintro ⟨h1, h2, h3, h4, h5, h6, h7⟩
      refine ⟨h1.imp id (List.mem_cons_of_mem _), h2.imp id (List.mem_cons_of_mem _), h3, h4, h5, h6, ?_⟩
      intro v hv
      rcases List.mem_cons.mp hv with heq | hv
      · cases heq
      · exact h7 v hv
    | some v =>
      by_cases hbad : Bad fl t v
      · left
        have hstep : crossLoop fl t min max (some v :: vals) = (v, v) := by
          unfold crossLoop
          rw [if_neg hneither]
          exact if_pos hbad
        rw [hstep]
        exact ⟨hbad, v, List.mem_cons_self, hbad⟩
      · have hv : Good fl t v := (hvals v List.mem_cons_self).resolve_left hbad
        have hstep : crossLoop fl t min max (some v :: vals) =
            crossLoop fl t (if compareValues fl t v min = -1 then v else min)
              (if compareValues fl t v max = 1 then v else max) vals := by
          conv_lhs => unfold crossLoop
          rw [if_neg hneither]
          exact if_neg hbad
        have hlow : ∃ m, (if compareValues fl t v min = -1 then v else min) = m ∧
            (m = min ∨ m = v) ∧ Good fl t m ∧ m.key fl t ≤ min.key fl t ∧ m.key fl t ≤ v.key fl t := by
          rw [compareValues_eq hv hmin]
          by_cases hlt : v.key fl t < min.key fl t
          · exact ⟨v, by rw [if_pos hlt]; rfl, Or.inr rfl, hv, le_of_lt hlt, le_rfl⟩
          · refine ⟨min, ?_, Or.inl rfl, hmin, le_rfl, not_lt.mp hlt⟩
            rw [if_neg hlt]
            split <;> rfl
        have hhigh : ∃ m, (if compareValues fl t v max = 1 then v else max) = m ∧
            (m = max ∨ m = v) ∧ Good fl t m ∧ max.key fl t ≤ m.key fl t ∧ v.key fl t ≤ m.key fl t := by
          rw [compareValues_eq hv hmax]
          by_cases hlt : max.key fl t < v.key fl t
          · refine ⟨v, ?_, Or.inr rfl, hv, le_of_lt hlt, le_rfl⟩
            rw [if_neg (not_lt.mpr (le_of_lt hlt)), if_pos hlt]
            rfl
          · refine ⟨max, ?_, Or.inl rfl, hmax, le_rfl, not_lt.mp hlt⟩
            rw [if_neg hlt]
            split <;> rfl
        obtain ⟨m, hm, hmem, hgood, hle, hlev⟩ := hlow
        obtain ⟨M, hM, hMem, hGood, hLe, hLev⟩ := hhigh
        rw [hstep, hm, hM]
        refine (ih hgood hGood hrest).imp hlater ?_
        rintro ⟨h1, h2, h3, h4, h5, h6, h7⟩
        refine ⟨?_, ?_, h3, h4, le_trans h5 hle, le_trans hLe h6, ?_⟩
        · rcases h1 with heq | hin
          · rw [heq]
            rcases hmem with h | h
            · exact Or.inl h
            · rw [h]
              exact Or.inr List.mem_cons_self
          · exact Or.inr (List.mem_cons_of_mem _ hin)
        · rcases h2 with heq | hin
          · rw [heq]
            rcases hMem with h | h
            · exact Or.inl h
            · rw [h]
              exact Or.inr List.mem_cons_self
          · exact Or.inr (List.mem_cons_of_mem _ hin)
        · intro w hw
          rcases List.mem_cons.mp hw with heq | hw
          · cases heq
            exact ⟨hv, le_trans h5 hlev, le_trans hLev h6⟩
          · exact h7 w hw

/-- A corner of two intervals of constants. -/
def IsCorner (a b c d u v : Cst) : Prop := (u = a ∨ u = b) ∧ (v = c ∨ v = d)

/-- **The cross operations**: the ends of the range are the smallest and the largest of the four values, unless one
of these overflowed.
Source: `tree-vrp.c` `extract_range_from_binary_expr` ("Compute the 4 cross operations")
Kind: L -/
theorem crossOperations_spec {a b c d : Cst} {R : Cst → Cst → Cst} (kind : RangeKind)
    (hR : ∀ u v, IsCorner a b c d u v → vrpIntConstBinop fl t t1 code u v = some (some (R u v)) ∧
      (Bad fl t (R u v) ∨ Good fl t (R u v))) :
    ∃ m M, crossOperations fl t t1 code kind a b c d = some (finishRange fl t kind (some m) (some M)) ∧
      ((Bad fl t m ∧ ∃ u v, IsCorner a b c d u v ∧ Bad fl t (R u v)) ∨
        ((∃ u v, IsCorner a b c d u v ∧ m = R u v) ∧ (∃ u v, IsCorner a b c d u v ∧ M = R u v) ∧
          ∀ u v, IsCorner a b c d u v → Good fl t (R u v) ∧ m.key fl t ≤ (R u v).key fl t ∧
            (R u v).key fl t ≤ M.key fl t)) := by
  have hac : IsCorner a b c d a c := ⟨Or.inl rfl, Or.inl rfl⟩
  have had : IsCorner a b c d a d := ⟨Or.inl rfl, Or.inr rfl⟩
  have hbc : IsCorner a b c d b c := ⟨Or.inr rfl, Or.inl rfl⟩
  have hbd : IsCorner a b c d b d := ⟨Or.inr rfl, Or.inr rfl⟩
  -- a value that is skipped is one that was computed already
  have hcross : ∀ (skip : Prop) [Decidable skip] (u v : Cst), IsCorner a b c d u v →
      crossValue fl t t1 code skip u v =
        some (if skip then none else some (R u v), false) := by
    intro skip _ u v huv
    unfold crossValue
    rw [(hR u v huv).1]
    split <;> rfl
  have hcall : crossOperations fl t t1 code kind a b c d =
      some (finishRange fl t kind
        (some (crossLoop fl t (R a c) (R a c) [if d = c then none else some (R a d),
          if b = a then none else some (R b c), if a = b ∨ c = d then none else some (R b d)]).1)
        (some (crossLoop fl t (R a c) (R a c) [if d = c then none else some (R a d),
          if b = a then none else some (R b c), if a = b ∨ c = d then none else some (R b d)]).2)) := by
    unfold crossOperations
    rw [hcross _ a c hac, hcross _ a d had, hcross _ b c hbc, hcross _ b d hbd]
    rfl
  refine ⟨_, _, hcall, ?_⟩
  generalize hvals : [if d = c then none else some (R a d), if b = a then none else some (R b c),
    if a = b ∨ c = d then none else some (R b d)] = vals
  have hmem : ∀ v, some v ∈ vals → ∃ u w, IsCorner a b c d u w ∧ v = R u w := by
    intro v hv
    rw [← hvals] at hv
    simp only [List.mem_cons, List.not_mem_nil, or_false] at hv
    rcases hv with hv | hv | hv <;> split at hv <;> cases hv
    · exact ⟨a, d, had, rfl⟩
    · exact ⟨b, c, hbc, rfl⟩
    · exact ⟨b, d, hbd, rfl⟩
  have hall : ∀ u w, IsCorner a b c d u w → R u w = R a c ∨ some (R u w) ∈ vals := by
    rintro u w ⟨rfl | rfl, rfl | rfl⟩
    · exact Or.inl rfl
    · by_cases hcd : w = c
      · exact Or.inl (by rw [hcd])
      · right
        rw [← hvals, if_neg hcd]
        exact List.mem_cons_self
    · by_cases hab : u = a
      · exact Or.inl (by rw [hab])
      · right
        rw [← hvals, if_neg hab]
        exact List.mem_cons_of_mem _ List.mem_cons_self
    · by_cases hab : u = a
      · by_cases hcd : w = c
        · exact Or.inl (by rw [hab, hcd])
        · right
          rw [← hvals, if_neg hcd, hab]
          exact List.mem_cons_self
      · by_cases hcd : w = c
        · right
          rw [← hvals, if_neg hab, hcd]
          exact List.mem_cons_of_mem _ List.mem_cons_self
        · right
          have hneither : ¬ (a = u ∨ c = w) := by
            rintro (h | h)
            · exact hab h.symm
            · exact hcd h.symm
          rw [← hvals, if_neg hneither]
          exact List.mem_cons_of_mem _ (List.mem_cons_of_mem _ List.mem_cons_self)
  rcases (hR a c hac).2 with hbad | hgood
  · left
    rw [← hvals]
    unfold crossLoop
    rw [if_pos (Or.inl hbad)]
    exact ⟨hbad, a, c, hac, hbad⟩
  · have hgoods : ∀ v, some v ∈ vals → Bad fl t v ∨ Good fl t v := by
      intro v hv
      obtain ⟨u, w, huw, rfl⟩ := hmem v hv
      exact (hR u w huw).2
    refine (crossLoop_spec hgood hgood hgoods).imp ?_ ?_
    · rintro ⟨hm, v, hv, hbad⟩
      obtain ⟨u, w, huw, rfl⟩ := hmem v hv
      exact ⟨hm, u, w, huw, hbad⟩
    rintro ⟨h1, h2, h3, h4, h5, h6, h7⟩
    refine ⟨?_, ?_, ?_⟩
    · rcases h1 with heq | hin
      · exact ⟨a, c, hac, heq⟩
      · exact hmem _ hin
    · rcases h2 with heq | hin
      · exact ⟨a, c, hac, heq⟩
      · exact hmem _ hin
    · intro u w huw
      rcases hall u w huw with heq | hin
      · rw [heq]
        exact ⟨hgood, h5, h6⟩
      · exact h7 _ hin

/-- A value bounded by the corners is admitted. Source: `tree-vrp.c` `extract_range_from_binary_expr`. Kind: L -/
theorem crossOperations_admits {a b c d : Cst} {z : ℤ}
    (hR : ∀ u v, IsCorner a b c d u v → ∃ r, vrpIntConstBinop fl t t1 code u v = some (some r) ∧
      (Bad fl t r ∨ Stands fl t r (code.eval u.val v.val)))
    (hbounded : Bounded (fun u v : Cst => code.eval u.val v.val) a b c d z)
    (hz : t.overflowWraps fl = false → t.Has z) :
    ∃ vr, crossOperations fl t t1 code .range a b c d = some vr ∧ vr.Admits (t.wrap z) := by
  choose! R hR using hR
  have hgood : ∀ u v, IsCorner a b c d u v → vrpIntConstBinop fl t t1 code u v = some (some (R u v)) ∧
      (Bad fl t (R u v) ∨ Good fl t (R u v)) := by
    intro u v huv
    exact ⟨(hR u v huv).1, (hR u v huv).2.imp id (fun h => h.good)⟩
  obtain ⟨m, M, hcall, hends⟩ := crossOperations_spec .range hgood
  refine ⟨_, hcall, ?_⟩
  rcases finishRange_cases fl t .range m M with h | ⟨h, hgoodm, hgoodM⟩
  · rw [h]
    trivial
  · obtain ⟨⟨um, vm, hum, rfl⟩, ⟨uM, vM, huM, rfl⟩, hkeys⟩ := hends.resolve_left (fun h => hgoodm h.1)
    obtain ⟨⟨u, v, hu, hv, hle⟩, ⟨u', v', hu', hv', hle'⟩⟩ := hbounded
    have hstands : ∀ u v, IsCorner a b c d u v → Stands fl t (R u v) (code.eval u.val v.val) :=
      fun u v huv => (hR u v huv).2.resolve_left (hkeys u v huv).1.not_bad
    have hlow := hstands u v ⟨hu, hv⟩
    have hhigh := hstands u' v' ⟨hu', hv'⟩
    have hhas : t.Has z := by
      cases hwraps : t.overflowWraps fl
      · exact hz hwraps
      · exact ⟨le_trans (hlow.has hwraps).1 hle, le_trans hle' (hhigh.has hwraps).2⟩
    rw [h, IntType.wrap_of_has hhas]
    refine ⟨?_, ?_⟩
    · refine (hkeys um vm hum).1.val_le ?_ hle hhas
      rw [← hlow.key_eq]
      exact (hkeys u v ⟨hu, hv⟩).2.1
    · refine (hkeys uM vM huM).1.le_val ?_ hle' hhas
      rw [← hhigh.key_eq]
      exact (hkeys u' v' ⟨hu', hv'⟩).2.2

/-! ## The operations -/

/-- The ends of a constant range without infinities. -/
structure IsConstRange (t : IntType) (min max : Cst) : Prop where
  min_plain : Plain t min
  max_plain : Plain t max
  min_le_max : min.val ≤ max.val

/-- Bounds on integers are bounds on constants. -/
theorem bounded_cst {f : ℤ → ℤ → ℤ} {a b c d : Cst} {z : ℤ}
    (h : Bounded f a.val b.val c.val d.val z) :
    Bounded (fun u v : Cst => f u.val v.val) a b c d z := by
  have hlift : ∀ {p q : Cst} {n : ℤ}, n = p.val ∨ n = q.val → ∃ u, (u = p ∨ u = q) ∧ u.val = n := by
    rintro p q n (rfl | rfl)
    · exact ⟨p, Or.inl rfl, rfl⟩
    · exact ⟨q, Or.inr rfl, rfl⟩
  obtain ⟨⟨m, n, hm, hn, hle⟩, ⟨m', n', hm', hn', hle'⟩⟩ := h
  obtain ⟨u, hu, rfl⟩ := hlift hm
  obtain ⟨v, hv, rfl⟩ := hlift hn
  obtain ⟨u', hu', rfl⟩ := hlift hm'
  obtain ⟨v', hv', rfl⟩ := hlift hn'
  exact ⟨⟨u, v, hu, hv, hle⟩, ⟨u', v', hu', hv', hle'⟩⟩

/-- The corners of two constant ranges are plain. -/
theorem IsCorner.plain {a b c d u v : Cst} (h : IsCorner a b c d u v) (hab : IsConstRange t a b)
    (hcd : IsConstRange t1 c d) : Plain t u ∧ Plain t1 v := by
  refine ⟨?_, ?_⟩
  · rcases h.1 with rfl | rfl
    · exact hab.min_plain
    · exact hab.max_plain
  · rcases h.2 with rfl | rfl
    · exact hcd.min_plain
    · exact hcd.max_plain

section Operations

variable {a b c d : Cst} {x y : ℤ}

/-- Products are bounded by the corners. -/
theorem bounded_mul {a b c d x y : ℤ} (hx : a ≤ x ∧ x ≤ b) (hy : c ≤ y ∧ y ≤ d) :
    Bounded (fun u v : ℤ => u * v) a b c d (x * y) := by
  have hone : ∀ (k : ℤ) (s : Set ℤ), OneWay (fun u : ℤ => u * k) s := by
    intro k s
    rcases le_total 0 k with hk | hk
    · left
      intro u _ w _ huw
      exact mul_le_mul_of_nonneg_right huw hk
    · right
      intro u _ w _ huw
      exact mul_le_mul_of_nonpos_right huw hk
  refine bounded_of_oneWay (f := fun u v : ℤ => u * v) hx hy (hone y _) ?_
  intro u _
  simp only [mul_comm u]
  exact hone u _

/-- Shifted values are bounded by the corners. -/
theorem bounded_shiftRight {a b c d x y : ℤ} (hx : a ≤ x ∧ x ≤ b) (hy : c ≤ y ∧ y ≤ d) (hc : 0 ≤ c) :
    Bounded shiftRight a b c d (shiftRight x y) := by
  have hshift : ∀ u v : ℤ, 0 ≤ v → shiftRight u v = u / 2 ^ v.toNat := by
    intro u v hv
    unfold shiftRight
    rw [if_pos hv]
  refine bounded_of_oneWay hx hy ?_ ?_
  · left
    intro u _ w _ huw
    simp only [hshift _ y (by omega)]
    exact Int.ediv_le_ediv (by positivity) huw
  · intro u _
    -- a larger count shifts once more
    have hmore : ∀ v ∈ Set.Icc c d, ∀ w ∈ Set.Icc c d, v ≤ w →
        shiftRight u w = shiftRight u v / 2 ^ (w.toNat - v.toNat) := by
      intro v hv w hw hvw
      obtain ⟨hv1, _⟩ := hv
      obtain ⟨hw1, _⟩ := hw
      rw [hshift u w (by omega), hshift u v (by omega), Int.ediv_ediv_of_nonneg (by positivity),
        ← pow_add]
      congr 2
      omega
    rcases le_total 0 u with hu | hu
    · right
      intro v hv w hw hvw
      have hnn : 0 ≤ shiftRight u v := by
        rw [hshift u v (by have := hv.1; omega)]
        exact Int.ediv_nonneg hu (by positivity)
      rw [hmore v hv w hw hvw]
      exact Int.ediv_le_self _ hnn
    · left
      intro v hv w hw hvw
      have hnp : shiftRight u v ≤ 0 := by
        rw [hshift u v (by have := hv.1; omega)]
        have hle := Int.ediv_le_ediv (show (0 : ℤ) < 2 ^ v.toNat by positivity) hu
        rwa [Int.zero_ediv] at hle
      rw [hmore v hv w hw hvw, Int.le_ediv_iff_mul_le (by positivity)]
      have hone : (1 : ℤ) ≤ 2 ^ (w.toNat - v.toNat) := one_le_pow₀ (by norm_num)
      nlinarith

/-- Sums. Source: `tree-vrp.c` `extract_range_from_binary_expr` (`PLUS_EXPR`). Kind: L -/
theorem extract_plus_admits (hbase : t.subrange = none) (hab : IsConstRange t a b) (hcd : IsConstRange t c d)
    (hx : a.val ≤ x ∧ x ≤ b.val) (hy : c.val ≤ y ∧ y ≤ d.val)
    (hz : t.overflowWraps fl = false → t.Has (x + y)) :
    ∃ vr, extractRangeFromBinaryExpr fl t t .PLUS_EXPR (.known .range a b) (.known .range c d) = some vr ∧
      vr.Admits (t.wrap (x + y)) := by
  obtain ⟨m, hm, hmin⟩ := @vrpIntConstBinop_plus fl t a c hbase hab.min_plain hcd.min_plain
  obtain ⟨M, hM, hmax⟩ := @vrpIntConstBinop_plus fl t b d hbase hab.max_plain hcd.max_plain
  refine ⟨finishRange fl t .range (some m) (some M), ?_, ?_⟩
  · simp only [extractRangeFromBinaryExpr, hm, hM]
    rfl
  · exact finishRange_admits hmin hmax (by omega) (by omega) hz

/-- Differences. Source: `tree-vrp.c` `extract_range_from_binary_expr` (`MINUS_EXPR`). Kind: L -/
theorem extract_minus_admits (hbase : t.subrange = none) (hab : IsConstRange t a b) (hcd : IsConstRange t c d)
    (hx : a.val ≤ x ∧ x ≤ b.val) (hy : c.val ≤ y ∧ y ≤ d.val)
    (hz : t.overflowWraps fl = false → t.Has (x - y)) :
    ∃ vr, extractRangeFromBinaryExpr fl t t .MINUS_EXPR (.known .range a b) (.known .range c d) = some vr ∧
      vr.Admits (t.wrap (x - y)) := by
  obtain ⟨m, hm, hmin⟩ := @vrpIntConstBinop_minus fl t a d hbase hab.min_plain hcd.max_plain
  obtain ⟨M, hM, hmax⟩ := @vrpIntConstBinop_minus fl t b c hbase hab.max_plain hcd.min_plain
  refine ⟨finishRange fl t .range (some m) (some M), ?_, ?_⟩
  · simp only [extractRangeFromBinaryExpr, hm, hM]
    rfl
  · exact finishRange_admits hmin hmax (by omega) (by omega) hz

/-- The smaller and the larger of two values are values. -/
theorem has_minmax (hcode : code = .MIN_EXPR ∨ code = .MAX_EXPR) (hx : t.Has x) (hy : t.Has y) :
    t.Has (code.eval x y) := by
  unfold IntType.Has at *
  rcases hcode with rfl | rfl
  · change t.minValue ≤ min x y ∧ min x y ≤ t.maxValue
    omega
  · change t.minValue ≤ max x y ∧ max x y ≤ t.maxValue
    omega

/-- Smaller and larger values. Source: `tree-vrp.c` `extract_range_from_binary_expr` (`MIN_EXPR`). Kind: L -/
theorem extract_minmax_admits (hcode : code = .MIN_EXPR ∨ code = .MAX_EXPR) (hab : IsConstRange t a b)
    (hcd : IsConstRange t c d) (hx : a.val ≤ x ∧ x ≤ b.val) (hy : c.val ≤ y ∧ y ≤ d.val) :
    ∃ vr, extractRangeFromBinaryExpr fl t t code (.known .range a b) (.known .range c d) = some vr ∧
      vr.Admits (t.wrap (code.eval x y)) := by
  have hlow := has_minmax hcode hab.min_plain.has hcd.min_plain.has
  have hhigh := has_minmax hcode hab.max_plain.has hcd.max_plain.has
  have hm := @vrpIntConstBinop_exact fl t t code a c (Or.inr hcode) hab.min_plain hcd.min_plain hlow
  have hM := @vrpIntConstBinop_exact fl t t code b d (Or.inr hcode) hab.max_plain hcd.max_plain hhigh
  have hxhas : t.Has x := ⟨le_trans hab.min_plain.has.1 hx.1, le_trans hx.2 hab.max_plain.has.2⟩
  have hyhas : t.Has y := ⟨le_trans hcd.min_plain.has.1 hy.1, le_trans hy.2 hcd.max_plain.has.2⟩
  refine ⟨finishRange fl t .range (some ⟨code.eval a.val c.val, false⟩)
    (some ⟨code.eval b.val d.val, false⟩), ?_, ?_⟩
  · rcases hcode with rfl | rfl <;>
      · simp only [extractRangeFromBinaryExpr, hm, hM]
        rfl
  · refine finishRange_admits (Or.inr (stands_of_has hlow)) (Or.inr (stands_of_has hhigh)) ?_ ?_
      (fun _ => has_minmax hcode hxhas hyhas)
    · rcases hcode with rfl | rfl
      · exact min_le_min hx.1 hy.1
      · exact max_le_max hx.1 hy.1
    · rcases hcode with rfl | rfl
      · exact min_le_min hx.2 hy.2
      · exact max_le_max hx.2 hy.2

/-- Products. Source: `tree-vrp.c` `extract_range_from_binary_expr` (`MULT_EXPR`). Kind: L -/
theorem extract_mult_admits (hbase : t.subrange = none) (hab : IsConstRange t a b) (hcd : IsConstRange t c d)
    (hx : a.val ≤ x ∧ x ≤ b.val) (hy : c.val ≤ y ∧ y ≤ d.val)
    (hz : t.overflowWraps fl = false → t.Has (x * y)) :
    ∃ vr, extractRangeFromBinaryExpr fl t t .MULT_EXPR (.known .range a b) (.known .range c d) = some vr ∧
      vr.Admits (t.wrap (x * y)) := by
  have hcross : ∃ vr, crossOperations fl t t .MULT_EXPR .range a b c d = some vr ∧
      vr.Admits (t.wrap (x * y)) := by
    refine crossOperations_admits ?_ (bounded_cst (bounded_mul hx hy)) hz
    intro u v huv
    obtain ⟨hu, hv⟩ := huv.plain hab hcd
    exact vrpIntConstBinop_mult hbase hu hv
  exact hcross

/-- Unmarked constants are compared by value. Source: `tree-vrp.c` `operand_less_p`. Kind: L -/
theorem operandLess_plain {v w : Cst} (hv : Plain t v) (hw : Plain t w) :
    operandLess fl t v w = decide (v.val < w.val) := by
  unfold operandLess
  rw [hv.not_negative_infinity, hw.not_positive_infinity]
  cases t.unsigned
  · by_cases hlt : v.val < w.val <;> simp [hlt]
  · rfl

/-- The test for zero. Source: `tree-vrp.c` `range_includes_zero_p`. Kind: L -/
theorem rangeIncludesZero_eq (hcd : IsConstRange t c d) :
    rangeIncludesZero fl t c d = decide (c.val ≤ 0 ∧ 0 ≤ d.val) := by
  unfold rangeIncludesZero
  rw [operandLess_plain (plain_zero t) hcd.min_plain, operandLess_plain hcd.max_plain (plain_zero t)]
  change (!decide (0 < c.val) && !decide (d.val < 0)) = _
  rw [← decide_not, ← decide_not, ← Bool.decide_and]
  simp only [not_lt]

/-- An operand that is known not to be negative is not negative.
Source: `tree-vrp.c` `vrp_expr_computes_nonnegative`
Kind: L -/
theorem nonneg_of_computesNonnegative {vr : ValueRange}
    (hvr : ∀ kind min max, vr = .known kind min max → IsConstRange t min max)
    (h : computesNonnegative fl t vr = true) (hhas : t.Has y) (hy : vr.Admits y) : 0 ≤ y := by
  unfold computesNonnegative at h
  rcases Bool.or_eq_true _ _ ▸ h with hu | hmin
  · exact ((IntType.has_unsigned hu).mp hhas).1
  · cases vr with
    | undefined => cases hmin
    | varying => cases hmin
    | known kind min max =>
      cases kind with
      | antiRange => cases hmin
      | range =>
        have hrange := hvr _ _ _ rfl
        have hcmp := @compareValues_eq fl t min (.ofVal 0) hrange.min_plain.good (plain_zero t).good
        rw [hrange.min_plain.key_eq, (plain_zero t).key_eq] at hcmp
        change _ = if min.val < 0 then _ else if 0 < min.val then _ else _ at hcmp
        have hle : 0 ≤ min.val := by
          by_contra hlt
          rw [if_pos (not_le.mp hlt)] at hcmp
          simp [hcmp] at hmin
        exact le_trans hle hy.1

/-- Quotients by divisors of one sign.
Source: `tree-vrp.c` `extract_range_from_binary_expr` (the divisions)
Kind: L -/
theorem crossOperations_div_admits (hbase : t.subrange = none) (h : code.IsDivision) (hab : IsConstRange t a b)
    (hcd : IsConstRange t c d) (hx : a.val ≤ x ∧ x ≤ b.val) (hy : c.val ≤ y ∧ y ≤ d.val)
    (hsign : 0 < c.val ∨ d.val < 0) (hz : t.overflowWraps fl = false → t.Has (code.eval x y)) :
    ∃ vr, crossOperations fl t t code .range a b c d = some vr ∧ vr.Admits (t.wrap (code.eval x y)) := by
  have hbounded : Bounded code.eval a.val b.val c.val d.val (code.eval x y) := by
    obtain ⟨r, hr, heval⟩ := h.exists_rounding
    have heq : code.eval = fun u v : ℤ => r ((u : ℚ) / v) := by
      funext u v
      exact heval u v
    rw [heq]
    exact hr.bounded_div hx hy hsign
  refine crossOperations_admits ?_ (bounded_cst hbounded) hz
  intro u v huv
  obtain ⟨hu, hv⟩ := huv.plain hab hcd
  have hv0 : v.val ≠ 0 := by
    have hle := hcd.min_le_max
    rcases huv.2 with rfl | rfl <;> omega
  exact vrpIntConstBinop_div hbase h hu hv hv0

/-- The absolute value of a constant, unless it overflows. Source: `fold-const.c` `fold_abs_const`. Kind: L -/
theorem foldAbsConst_spec (hu : t.unsigned = false) {v : Cst} (hv : Plain t v) :
    (foldAbsConst t v).overflow = true ∨
      (Plain t (foldAbsConst t v) ∧ (foldAbsConst t v).val = |v.val|) := by
  unfold foldAbsConst
  rw [hu, if_neg Bool.false_ne_true]
  by_cases hneg : -1 < v.val
  · rw [if_pos hneg]
    exact Or.inr ⟨hv, (abs_of_nonneg (by omega)).symm⟩
  · rw [if_neg hneg]
    by_cases hhas : t.Has (-v.val)
    · right
      rw [hv.unmarked, IntType.wrap_of_has hhas]
      exact ⟨⟨hhas, by simp [hhas]⟩, (abs_of_nonpos (by omega)).symm⟩
    · left
      simp [hhas]

/-- The range from minus a constant to the constant.
Source: `tree-vrp.c` `abs_extent_range`, `set_and_canonicalize_value_range`
Kind: L -/
theorem setAndCanonicalize_symmetric (hu : t.unsigned = false) {m : Cst} (hm : Plain t m)
    (hm0 : 0 ≤ m.val) :
    setAndCanonicalizeValueRange t .range (foldNegateConst t m) m = .known .range ⟨-m.val, false⟩ m := by
  have hhas : t.Has (-m.val) := by
    have hm' := (IntType.has_signed hu).mp hm.has
    rw [IntType.has_signed hu]
    unfold IntType.SignFits at *
    omega
  have hneg : foldNegateConst t m = ⟨-m.val, false⟩ := by
    unfold foldNegateConst forceFit
    rw [IntType.stored_eq (IntType.sizetype_of_signed hu), IntType.wrap_of_has hhas, hm.unmarked]
    simp [(IntType.has_signed hu).mp hhas]
  unfold setAndCanonicalizeValueRange
  rw [hneg, if_neg (by omega : ¬ m.val < -m.val)]
  rfl

/-- Quotients by divisors of any sign.
Source: `tree-vrp.c` `extract_range_from_binary_expr`, `abs_extent_range`
Kind: L -/
theorem absExtentRange_admits (h : code.IsDivision) (hu : t.unsigned = false)
    (hab : IsConstRange t a b) (hx : a.val ≤ x ∧ x ≤ b.val) (hy0 : y ≠ 0) :
    ∃ vr, absExtentRange fl t a b = some vr ∧ vr.Admits (t.wrap (code.eval x y)) := by
  have hmain : ∀ {m : Cst}, Plain t m → |a.val| ≤ m.val → |b.val| ≤ m.val →
      (setAndCanonicalizeValueRange t .range (foldNegateConst t m) m).Admits (t.wrap (code.eval x y)) := by
    intro m hm ham hbm
    rw [setAndCanonicalize_symmetric hu hm (le_trans (abs_nonneg _) ham)]
    have hxm : |x| ≤ m.val := by
      rw [abs_le] at ham hbm ⊢
      omega
    obtain ⟨r, hr, heval⟩ := h.exists_rounding
    have hz : -m.val ≤ code.eval x y ∧ code.eval x y ≤ m.val := by
      obtain ⟨h1, h2⟩ := hr.abs_div_le x hy0
      rw [heval]
      omega
    have hhas : t.Has (code.eval x y) := by
      have hm' := (IntType.has_signed hu).mp hm.has
      rw [IntType.has_signed hu]
      unfold IntType.SignFits at *
      omega
    rw [IntType.wrap_of_has hhas]
    exact hz
  unfold absExtentRange
  rw [hu, if_neg Bool.false_ne_true]
  dsimp only
  rcases foldAbsConst_spec hu hab.min_plain with hover | ⟨hmin, hminval⟩
  · rw [hover, Bool.true_or, if_pos rfl]
    exact ⟨_, rfl, trivial⟩
  · rcases foldAbsConst_spec hu hab.max_plain with hover | ⟨hmax, hmaxval⟩
    · rw [hover, Bool.or_true, if_pos rfl]
      exact ⟨_, rfl, trivial⟩
    · rw [hmin.unmarked, hmax.unmarked, Bool.or_false, if_neg Bool.false_ne_true,
        compareValues_eq hmin.good hmax.good, hmin.key_eq, hmax.key_eq, hminval, hmaxval]
      by_cases hlt : |a.val| < |b.val|
      · rw [if_pos hlt, if_pos rfl]
        exact ⟨_, rfl, hmain hmax (by rw [hmaxval]; exact le_of_lt hlt) (by rw [hmaxval])⟩
      · rw [if_neg hlt]
        have hcmp : ∀ k : ℤ, k = (if |b.val| < |a.val| then 1 else 0) → k ≠ -1 ∧ (k = 0 ∨ k = 1) := by
          rintro k rfl
          split <;> simp
        obtain ⟨hne, hor⟩ := hcmp _ rfl
        rw [if_neg hne, if_pos hor]
        exact ⟨_, rfl, hmain hmin (by rw [hminval]) (by rw [hminval]; exact not_lt.mp hlt)⟩

/-- Quotients by divisors that may be anything but zero.
Source: `tree-vrp.c` `extract_range_from_binary_expr` ("For divisions, if op0 is VR_RANGE")
Kind: L -/
theorem divideByUnknown_admits (h : code.IsDivision) (hab : IsConstRange t a b)
    {vr1 : ValueRange} (hvr : ∀ kind min max, vr1 = .known kind min max → IsConstRange t min max)
    (hx : a.val ≤ x ∧ x ≤ b.val) (hyhas : t.Has y) (hy : vr1.Admits y) (hy0 : y ≠ 0)
    (hz : t.overflowWraps fl = false → t.Has (code.eval x y)) :
    ∃ vr, divideByUnknown fl t t a b vr1 = some vr ∧ vr.Admits (t.wrap (code.eval x y)) := by
  unfold divideByUnknown
  cases hnn : computesNonnegative fl t vr1
  · rw [if_neg Bool.false_ne_true]
    have hu : t.unsigned = false := by
      unfold computesNonnegative at hnn
      exact (Bool.or_eq_false_iff.mp hnn).1
    exact absExtentRange_admits h hu hab hx hy0
  · have hypos : 0 < y := by
      have := nonneg_of_computesNonnegative hvr hnn hyhas hy
      omega
    obtain ⟨r, hr, heval⟩ := h.exists_rounding
    have hbetween := hr.div_between x hypos
    rw [← heval] at hbetween
    have hcmp : ∀ v : Cst, Plain t v → compareValues fl t v (.ofVal 0) =
        if v.val < 0 then -1 else if 0 < v.val then 1 else 0 := by
      intro v hv
      rw [compareValues_eq hv.good (plain_zero t).good, hv.key_eq, (plain_zero t).key_eq]
      rfl
    have hmin : ∃ m : Cst, (if compareValues fl t a (.ofVal 0) = 1 then .ofVal 0 else a) = m ∧
        Plain t m ∧ m.val = min 0 a.val ∧ compareValues fl t a (.ofVal 0) ≠ -2 := by
      have hcmp := hcmp a hab.min_plain
      by_cases hgt : 0 < a.val
      · rw [if_neg (by omega), if_pos hgt] at hcmp
        exact ⟨.ofVal 0, if_pos hcmp, plain_zero t, (min_eq_left (le_of_lt hgt)).symm, by omega⟩
      · rw [if_neg hgt] at hcmp
        have hne : compareValues fl t a (.ofVal 0) ≠ 1 ∧ compareValues fl t a (.ofVal 0) ≠ -2 := by
          split at hcmp <;> omega
        exact ⟨a, if_neg hne.1, hab.min_plain, (min_eq_right (not_lt.mp hgt)).symm, hne.2⟩
    have hmax : ∃ m : Cst, (if compareValues fl t b (.ofVal 0) = -1 then .ofVal 0 else b) = m ∧
        Plain t m ∧ m.val = max 0 b.val ∧ compareValues fl t b (.ofVal 0) ≠ -2 := by
      have hcmp := hcmp b hab.max_plain
      by_cases hlt : b.val < 0
      · rw [if_pos hlt] at hcmp
        exact ⟨.ofVal 0, if_pos hcmp, plain_zero t, (max_eq_left (le_of_lt hlt)).symm, by omega⟩
      · rw [if_neg hlt] at hcmp
        have hne : compareValues fl t b (.ofVal 0) ≠ -1 ∧ compareValues fl t b (.ofVal 0) ≠ -2 := by
          split at hcmp <;> omega
        exact ⟨b, if_neg hne.1, hab.max_plain, (max_eq_right (not_lt.mp hlt)).symm, hne.2⟩
    obtain ⟨m, hm, hmplain, hmval, hm2⟩ := hmin
    obtain ⟨M, hM, hMplain, hMval, hM2⟩ := hmax
    have hcomparable : ¬ (compareValues fl t b (.ofVal 0) = -2 ∨ compareValues fl t a (.ofVal 0) = -2) := by
      rintro (h2 | h2)
      · exact hM2 h2
      · exact hm2 h2
    rw [if_pos rfl]
    dsimp only
    rw [if_neg hcomparable, hm, hM]
    refine ⟨_, rfl, ?_⟩
    refine finishRange_admits (Or.inr hmplain.stands) (Or.inr hMplain.stands) ?_ ?_ hz
    · omega
    · omega

/-- Quotients. Source: `tree-vrp.c` `extract_range_from_binary_expr` (the divisions). Kind: L -/
theorem extract_division_admits (hbase : t.subrange = none) (h : code.IsDivision) (hab : IsConstRange t a b) {vr1 : ValueRange}
    (hvr : vr1 = .varying ∨ ∃ c d, IsConstRange t c d ∧ vr1 = .known .range c d)
    (hx : a.val ≤ x ∧ x ≤ b.val) (hyhas : t.Has y) (hy : vr1.Admits y) (hy0 : y ≠ 0)
    (hz : t.overflowWraps fl = false → t.Has (code.eval x y)) :
    ∃ vr, extractRangeFromBinaryExpr fl t t code (.known .range a b) vr1 = some vr ∧
      vr.Admits (t.wrap (code.eval x y)) := by
  have hdispatch : vr1 ≠ .undefined → extractRangeFromBinaryExpr fl t t code (.known .range a b) vr1 =
      extractDivision fl t t code (.known .range a b) vr1 := by
    intro hne
    unfold extractRangeFromBinaryExpr
    rw [if_neg (by simp [hne])]
    rcases h with rfl | rfl | rfl | rfl <;> rfl
  rcases hvr with rfl | ⟨c, d, hcd, rfl⟩
  · rw [hdispatch (by simp)]
    exact divideByUnknown_admits h hab (fun _ _ _ heq => by cases heq) hx hyhas hy hy0 hz
  · rw [hdispatch (by simp)]
    unfold extractDivision
    dsimp only
    rw [rangeIncludesZero_eq hcd]
    by_cases hzero : c.val ≤ 0 ∧ 0 ≤ d.val
    · rw [if_pos (decide_eq_true hzero)]
      refine divideByUnknown_admits h hab ?_ hx hyhas hy hy0 hz
      intro kind min max heq
      cases heq
      exact hcd
    · rw [if_neg (by simpa using hzero)]
      have hle := hcd.min_le_max
      exact crossOperations_div_admits hbase h hab hcd hx hy (by omega) hz

/-- Right shifts; the counts may have another type.
Source: `tree-vrp.c` `extract_range_from_binary_expr` (`RSHIFT_EXPR`)
Kind: L -/
theorem extract_shift_admits (hab : IsConstRange t a b) (hcd : IsConstRange t1 c d)
    (hx : a.val ≤ x ∧ x ≤ b.val) (hy : c.val ≤ y ∧ y ≤ d.val) :
    ∃ vr, extractRangeFromBinaryExpr fl t t1 .RSHIFT_EXPR (.known .range a b) (.known .range c d) =
      some vr ∧ vr.Admits (t.wrap (shiftRight x y)) := by
  have hxhas : t.Has x := ⟨le_trans hab.min_plain.has.1 hx.1, le_trans hx.2 hab.max_plain.has.2⟩
  have hdispatch : extractRangeFromBinaryExpr fl t t1 .RSHIFT_EXPR (.known .range a b)
      (.known .range c d) = extractShift fl t t1 .range a b c d := rfl
  rw [hdispatch]
  unfold extractShift
  split
  · exact ⟨_, rfl, trivial⟩
  case isFalse hguard =>
    have hnn : computesNonnegative fl t1 (.known .range c d) = true := by
      by_contra hne
      exact hguard (Or.inr (Or.inl (by simpa using hne)))
    have hc : 0 ≤ c.val := by
      refine nonneg_of_computesNonnegative ?_ hnn hcd.min_plain.has ⟨le_rfl, hcd.min_le_max⟩
      intro kind min max heq
      cases heq
      exact hcd
    refine crossOperations_admits ?_ (bounded_cst (bounded_shiftRight hx hy hc))
      (fun _ => has_shiftRight hxhas (by omega))
    intro u v huv
    obtain ⟨hu, hv⟩ := huv.plain hab hcd
    have hv0 : 0 ≤ v.val := by
      have hle := hcd.min_le_max
      rcases huv.2 with rfl | rfl <;> omega
    have hhas : t.Has (shiftRight u.val v.val) := has_shiftRight hu.has hv0
    exact ⟨_, vrpIntConstBinop_exact (Or.inl rfl) hu hv hhas, Or.inr (stands_of_has hhas)⟩

theorem land_symm (m n : ℤ) : Int.land m n = Int.land n m := by
  cases m <;> cases n
  · exact congrArg Int.ofNat (Nat.and_comm _ _)
  · rfl
  · rfl
  · exact congrArg Int.negSucc (Nat.or_comm _ _)

/-- The bits that a mask leaves. -/
theorem land_bounds {m z : ℤ} (hm : 0 ≤ m) : 0 ≤ Int.land m z ∧ Int.land m z ≤ m := by
  obtain ⟨n, rfl⟩ := Int.eq_ofNat_of_zero_le hm
  cases z with
  | ofNat k =>
    change 0 ≤ ((n &&& k : ℕ) : ℤ) ∧ ((n &&& k : ℕ) : ℤ) ≤ n
    have := @Nat.and_le_left n k
    omega
  | negSucc k =>
    change 0 ≤ ((Nat.ldiff n k : ℕ) : ℤ) ∧ ((Nat.ldiff n k : ℕ) : ℤ) ≤ n
    have hle : Nat.ldiff n k ≤ n := by
      have hbits : Nat.ldiff n k &&& n = Nat.ldiff n k := by
        apply Nat.eq_of_testBit_eq
        intro i
        rw [Nat.testBit_and, Nat.testBit_ldiff]
        cases n.testBit i <;> simp
      rw [← hbits]
      exact Nat.and_le_right
    omega

/-- Masked bits. Source: `tree-vrp.c` `extract_range_from_binary_expr` (`BIT_AND_EXPR`). Kind: L -/
theorem extract_bitAnd_admits (hab : IsConstRange t a b) (hcd : IsConstRange t c d)
    (hx : a.val ≤ x ∧ x ≤ b.val) (hy : c.val ≤ y ∧ y ≤ d.val) :
    ∃ vr, extractRangeFromBinaryExpr fl t t .BIT_AND_EXPR (.known .range a b) (.known .range c d) =
      some vr ∧ vr.Admits (t.wrap (Int.land x y)) := by
  have hmask : ∀ {m : Cst} {z : ℤ}, Plain t m → 0 ≤ z → z ≤ m.val →
      (finishRange fl t .range (some (.ofVal 0)) (some m)).Admits (t.wrap z) := by
    intro m z hm hz0 hzm
    refine finishRange_admits (Or.inr (plain_zero t).stands) (Or.inr hm.stands) hz0 hzm ?_
    intro _
    exact ⟨le_trans t.has_zero.1 hz0, le_trans hzm hm.has.2⟩
  have hsingle : ∀ {u v : Cst}, isMask (.known .range u v) = true → u.val = v.val ∧ 0 ≤ v.val := by
    intro u v hm
    simp only [isMask, Bool.and_eq_true, decide_eq_true_eq] at hm
    exact ⟨by rw [hm.1.1], hm.2⟩
  refine ⟨_, rfl, ?_⟩
  unfold extractBitAnd
  dsimp only
  split
  case isTrue hm =>
    obtain ⟨heq, hnn⟩ := hsingle hm
    have hxb : x = b.val := by omega
    rw [hxb]
    obtain ⟨h1, h2⟩ := @land_bounds b.val y hnn
    exact hmask hab.max_plain h1 h2
  case isFalse =>
    split
    case isTrue hm =>
      obtain ⟨heq, hnn⟩ := hsingle hm
      have hyd : y = d.val := by omega
      rw [hyd, land_symm]
      obtain ⟨h1, h2⟩ := @land_bounds d.val x hnn
      exact hmask hcd.max_plain h1 h2
    case isFalse => trivial

/-- A number with all bits below its highest one set. -/
theorem or_log2_eq {n : ℕ} (hn : n ≠ 0) : n ||| (2 ^ Nat.log2 n - 1) = 2 ^ (Nat.log2 n + 1) - 1 := by
  apply Nat.eq_of_testBit_eq
  intro i
  rw [Nat.testBit_or, Nat.testBit_two_pow_sub_one, Nat.testBit_two_pow_sub_one]
  rcases lt_trichotomy i (Nat.log2 n) with hlt | rfl | hgt
  · simp [hlt, Nat.lt_succ_of_lt hlt]
  · simp [Nat.testBit_log2 hn]
  · have hsmall : n.testBit i = false :=
      Nat.testBit_lt_two_pow (lt_of_lt_of_le Nat.lt_log2_self (Nat.pow_le_pow_right (by omega) hgt))
    simp [hsmall, not_lt.mpr (le_of_lt hgt), show ¬ i < Nat.log2 n + 1 by omega]

/-- The bound on the bits of two numbers is one less than a power of two that both are below, and the least such
power.
Source: `tree-vrp.c` `extract_range_from_binary_expr` (`ior_max`)
Kind: L -/
theorem iorMax_spec (m n : ℕ) :
    ∃ k, iorMax m n = 2 ^ k - 1 ∧ m < 2 ^ k ∧ n < 2 ^ k ∧ ∀ q, m < 2 ^ q → n < 2 ^ q → k ≤ q := by
  unfold iorMax
  dsimp only
  by_cases hhigh : (m / 2 ^ 64) ||| (n / 2 ^ 64) = 0
  · have hwords : m / 2 ^ 64 = 0 ∧ n / 2 ^ 64 = 0 := Nat.or_eq_zero_iff.mp hhigh
    have hm : m % 2 ^ 64 = m := Nat.mod_eq_of_lt (by omega)
    have hn : n % 2 ^ 64 = n := Nat.mod_eq_of_lt (by omega)
    rw [if_neg (by simpa using hhigh), hm, hn]
    by_cases hlow : m ||| n = 0
    · obtain ⟨hm0, hn0⟩ := Nat.or_eq_zero_iff.mp hlow
      rw [if_neg (by simpa using hlow)]
      exact ⟨0, rfl, by omega, by omega, fun _ _ _ => Nat.zero_le _⟩
    · rw [if_pos hlow, or_log2_eq hlow]
      refine ⟨_, rfl, lt_of_le_of_lt Nat.left_le_or Nat.lt_log2_self,
        lt_of_le_of_lt Nat.right_le_or Nat.lt_log2_self, ?_⟩
      intro q hmq hnq
      exact (Nat.log2_lt hlow).mpr (Nat.or_lt_two_pow hmq hnq)
  · rw [if_pos hhigh, or_log2_eq hhigh]
    generalize hl : Nat.log2 ((m / 2 ^ 64) ||| (n / 2 ^ 64)) = l
    have hword : ∀ j : ℕ, j / 2 ^ 64 < 2 ^ (l + 1) → j < 2 ^ (l + 1 + 64) := by
      intro j hj
      rw [pow_add]
      exact (Nat.div_lt_iff_lt_mul (by positivity)).mp hj
    have hlt : (m / 2 ^ 64) ||| (n / 2 ^ 64) < 2 ^ (l + 1) := by
      rw [← hl]
      exact Nat.lt_log2_self
    refine ⟨l + 1 + 64, ?_, hword m (lt_of_le_of_lt Nat.left_le_or hlt),
      hword n (lt_of_le_of_lt Nat.right_le_or hlt), ?_⟩
    · have hpos : 1 ≤ 2 ^ (l + 1) := Nat.one_le_two_pow
      have hsplit : 2 ^ (l + 1 + 64) = 2 ^ (l + 1) * 2 ^ 64 := pow_add _ _ _
      rw [hsplit, Nat.sub_mul]
      omega
    · intro q hmq hnq
      have hq : 64 < q := by
        by_contra hle
        have hpow : 2 ^ q ≤ 2 ^ 64 := Nat.pow_le_pow_right (by omega) (by omega)
        apply hhigh
        rw [Nat.div_eq_of_lt (by omega), Nat.div_eq_of_lt (by omega)]
        rfl
      have hword : ∀ j : ℕ, j < 2 ^ q → j / 2 ^ 64 < 2 ^ (q - 64) := by
        intro j hj
        rw [Nat.div_lt_iff_lt_mul (by positivity), ← pow_add]
        have hexp : q - 64 + 64 = q := by omega
        rw [hexp]
        exact hj
      have := (Nat.log2_lt hhigh).mpr (Nat.or_lt_two_pow (hword m hmq) (hword n hnq))
      omega

/-- The two words of a nonnegative value hold at least that value. -/
theorem toNat_le_doubleWord {z : ℤ} (hz : t.Has z) (h0 : 0 ≤ z) :
    z.toNat ≤ t.doubleWord z ∧ (t.sizetype = false → t.doubleWord z = z.toNat) := by
  have hlt : z < 2 ^ 128 := by
    have hle : (2 : ℤ) ^ t.prec ≤ 2 ^ 128 := pow_le_pow_right₀ (by norm_num) t.prec_le
    have hpow := t.two_pow_prec
    have hhalf := t.half_pos
    cases hu : t.unsigned
    · have := ((IntType.has_signed hu).mp hz).2
      omega
    · have := ((IntType.has_unsigned hu).mp hz).2
      omega
  have hsame : t.sizetype = false → t.doubleWord z = z.toNat := by
    intro hs
    unfold IntType.doubleWord
    rw [IntType.stored_eq hs, Int.emod_eq_of_lt h0 hlt]
  refine ⟨?_, hsame⟩
  cases hs : t.sizetype
  · rw [hsame hs]
  · obtain ⟨hu, hprec⟩ := t.unsigned_of_sizetype hs
    have hhalf : (2 : ℤ) ^ (t.prec - 1) ≤ 2 ^ 63 := pow_le_pow_right₀ (by norm_num) (by omega)
    unfold IntType.doubleWord
    rw [stored_emod hs hz]
    split <;> omega

/-- One less than a power of two, cut down to a type that holds two numbers below it, still bounds their bits.
Source: `tree-vrp.c` `extract_range_from_binary_expr` (`double_int_to_tree`)
Kind: L -/
theorem lor_le_wrap_iorMax {b d x y : ℤ} (hb : t.Has b) (hd : t.Has d) (hx : 0 ≤ x ∧ x ≤ b)
    (hy : 0 ≤ y ∧ y ≤ d) :
    Int.lor x y ≤ t.wrap (iorMax (t.doubleWord b) (t.doubleWord d)) ∧ x ≤ Int.lor x y ∧
      y ≤ Int.lor x y ∧ t.Has (Int.lor x y) := by
  obtain ⟨k, hk, hbk, hdk, hleast⟩ := iorMax_spec (t.doubleWord b) (t.doubleWord d)
  obtain ⟨hbw, hbsame⟩ := toNat_le_doubleWord hb (le_trans hx.1 hx.2)
  obtain ⟨hdw, hdsame⟩ := toNat_le_doubleWord hd (le_trans hy.1 hy.2)
  obtain ⟨m, rfl⟩ := Int.eq_ofNat_of_zero_le hx.1
  obtain ⟨n, rfl⟩ := Int.eq_ofNat_of_zero_le hy.1
  change ((m ||| n : ℕ) : ℤ) ≤ _ ∧ (m : ℤ) ≤ ((m ||| n : ℕ) : ℤ) ∧ (n : ℤ) ≤ ((m ||| n : ℕ) : ℤ) ∧
    t.Has ((m ||| n : ℕ) : ℤ)
  have hleft := @Nat.left_le_or m n
  have hright := @Nat.right_le_or m n
  have hbits : ∀ q, m < 2 ^ q → n < 2 ^ q → ((m ||| n : ℕ) : ℤ) < 2 ^ q := by
    intro q hm hn
    exact_mod_cast Nat.or_lt_two_pow hm hn
  have hcast : ((iorMax (t.doubleWord b) (t.doubleWord d) : ℕ) : ℤ) = 2 ^ k - 1 := by
    rw [hk, Nat.cast_sub Nat.one_le_two_pow]
    push_cast
    rfl
  have hk1 : (0 : ℤ) < 2 ^ k := by positivity
  have hmk : m < 2 ^ k := by omega
  have hnk : n < 2 ^ k := by omega
  have hork := hbits k hmk hnk
  refine ⟨?_, by omega, by omega, ?_⟩
  · rw [hcast]
    cases hu : t.unsigned
    · have hs := IntType.sizetype_of_signed hu
      have hbnat := ((IntType.has_signed hu).mp hb).2
      have hdnat := ((IntType.has_signed hu).mp hd).2
      have hfit : ∀ z : ℤ, 0 ≤ z → z < 2 ^ (t.prec - 1) → z.toNat < 2 ^ (t.prec - 1) := by
        intro z hz hlt
        zify
        rw [Int.toNat_of_nonneg hz]
        exact hlt
      have hkle : k ≤ t.prec - 1 := by
        apply hleast
        · rw [hbsame hs]
          exact hfit b (by omega) hbnat
        · rw [hdsame hs]
          exact hfit d (by omega) hdnat
      have hpow : (2 : ℤ) ^ k ≤ 2 ^ (t.prec - 1) := pow_le_pow_right₀ (by norm_num) hkle
      rw [IntType.wrap_of_has ((IntType.has_signed hu).mpr ⟨by omega, by omega⟩)]
      omega
    · have hb' := (IntType.has_unsigned hu).mp hb
      have hd' := (IntType.has_unsigned hu).mp hd
      rcases le_total k t.prec with hle | hle
      · have hpow : (2 : ℤ) ^ k ≤ 2 ^ t.prec := pow_le_pow_right₀ (by norm_num) hle
        rw [IntType.wrap_of_has ((IntType.has_unsigned hu).mpr ⟨by omega, by omega⟩)]
        omega
      · have hones : ((2 : ℤ) ^ k - 1) % 2 ^ t.prec = 2 ^ t.prec - 1 := by
          have hpos : (0 : ℤ) < 2 ^ t.prec := by positivity
          have hsplit : (2 : ℤ) ^ k = 2 ^ t.prec * 2 ^ (k - t.prec) := by
            rw [← pow_add]
            congr 1
            omega
          have hrest : (2 : ℤ) ^ k - 1 = 2 ^ t.prec - 1 + 2 ^ t.prec * (2 ^ (k - t.prec) - 1) := by
            rw [hsplit]
            ring
          rw [hrest, Int.add_mul_emod_self_left]
          exact Int.emod_eq_of_lt (by omega) (by omega)
        have hor : ((m ||| n : ℕ) : ℤ) < 2 ^ t.prec := by
          apply hbits
          · zify
            omega
          · zify
            omega
        unfold IntType.wrap
        rw [if_pos hu, hones]
        omega
  · cases hu : t.unsigned
    · have hb' := (IntType.has_signed hu).mp hb
      have hd' := (IntType.has_signed hu).mp hd
      have hor : ((m ||| n : ℕ) : ℤ) < 2 ^ (t.prec - 1) := by
        apply hbits
        · zify
          have := hb'.2
          omega
        · zify
          have := hd'.2
          omega
      have hhalf := t.half_pos
      exact (IntType.has_signed hu).mpr ⟨by omega, hor⟩
    · have hb' := (IntType.has_unsigned hu).mp hb
      have hd' := (IntType.has_unsigned hu).mp hd
      have hor : ((m ||| n : ℕ) : ℤ) < 2 ^ t.prec := by
        apply hbits
        · zify
          omega
        · zify
          omega
      exact (IntType.has_unsigned hu).mpr ⟨by omega, hor⟩

/-- Joined bits. Source: `tree-vrp.c` `extract_range_from_binary_expr` (`BIT_IOR_EXPR`). Kind: L -/
theorem extract_bitIor_admits (hab : IsConstRange t a b) (hcd : IsConstRange t c d)
    (hx : a.val ≤ x ∧ x ≤ b.val) (hy : c.val ≤ y ∧ y ≤ d.val) :
    ∃ vr, extractRangeFromBinaryExpr fl t t .BIT_IOR_EXPR (.known .range a b) (.known .range c d) =
      some vr ∧ vr.Admits (t.wrap (Int.lor x y)) := by
  have hdispatch : extractRangeFromBinaryExpr fl t t .BIT_IOR_EXPR (.known .range a b)
      (.known .range c d) = extractBitIor fl t .range a b c d := rfl
  rw [hdispatch]
  unfold extractBitIor
  by_cases hnn : (RangeKind.range = RangeKind.range) ∧ 0 ≤ a.val ∧ 0 ≤ c.val
  · rw [if_pos hnn]
    obtain ⟨_, ha0, hc0⟩ := hnn
    have hlow := has_minmax (Or.inr rfl) hab.min_plain.has hcd.min_plain.has
    have hm := @vrpIntConstBinop_exact fl t t .MAX_EXPR a c (Or.inr (Or.inr rfl)) hab.min_plain
      hcd.min_plain hlow
    rw [hm]
    refine ⟨_, rfl, ?_⟩
    obtain ⟨hupper, hxle, hyle, hhas⟩ :=
      lor_le_wrap_iorMax hab.max_plain.has hcd.max_plain.has ⟨le_trans ha0 hx.1, hx.2⟩
        ⟨le_trans hc0 hy.1, hy.2⟩
    refine finishRange_admits (Or.inr (stands_of_has hlow)) (Or.inr (stands_of_has (t.has_wrap _))) ?_
      hupper (fun _ => hhas)
    exact max_le (le_trans hx.1 hxle) (le_trans hy.1 hyle)
  · rw [if_neg hnn]
    exact ⟨_, rfl, trivial⟩

/-! ## All codes -/

/-- The operations at which a value that does not fit in the type is an overflow.
Source: `tree.def`, `tree-vrp.c` `vrp_int_const_binop` -/
def TreeCode.CanOverflow (code : TreeCode) : Prop :=
  code = .PLUS_EXPR ∨ code = .MINUS_EXPR ∨ code = .MULT_EXPR ∨ code.divCode.isSome = true

instance (code : TreeCode) : Decidable code.CanOverflow :=
  inferInstanceAs (Decidable (_ ∨ _ ∨ _ ∨ _))

/-- Whether `x CODE y` has a meaning: a divisor is not zero, only overflow that wraps is allowed, a shift count is
below the precision, and truth operations take truth values.
Source: `tree.def`, `flags.h` `TYPE_OVERFLOW_WRAPS` -/
structure Defined (fl : Flags) (t : IntType) (code : TreeCode) (x y : ℤ) : Prop where
  divisor : code.divCode.isSome = true → y ≠ 0
  overflow : code.CanOverflow → t.overflowWraps fl = false → t.Has (code.eval x y)
  count : code = .RSHIFT_EXPR → 0 ≤ y ∧ y < t.prec
  truth : code = .TRUTH_AND_EXPR ∨ code = .TRUTH_OR_EXPR → (x = 0 ∨ x = 1) ∧ (y = 0 ∨ y = 1)

/-- The ranges of the second operand: a constant range, and for a divisor also no knowledge at all.
Source: `tree-vrp.c` `extract_range_from_binary_expr` -/
def IsSecondRange (t1 : IntType) (code : TreeCode) (vr1 : ValueRange) : Prop :=
  (∃ c d, IsConstRange t1 c d ∧ vr1 = .known .range c d) ∨ (code.divCode.isSome = true ∧ vr1 = .varying)

end Operations

end GccCore.Gcc.TreeVrp
