import GccCore.Gcc.Sparseset.Contract

/-!
# `gcc/sparseset.c`: comparing sets, and what it leaves behind

`sparseset_equal_p` returns from within its iteration when it meets a member of the one set that is
not in the other.

* **The answer** (`equalP_spec`) is right. After an early return the iteration is left running, at an
  index below the number of members.
* **What a running iteration does** (`DeletesExactly`): `sparseset_clear_bit` takes out exactly its
  element as long as the index is below the number of members.
* **Runs** (`sparseset_idle`): in a run without an early return every deletion is exact.
-/

namespace GccCore.Gcc.Sparseset

section Model

/-- The loop of `sparseset_equal_p`, with the `return` inside it.
Source: `sparseset.c` `sparseset_equal_p` (`EXECUTE_IF_SET_IN_SPARSESET`) -/
def equalLoop (a b : ℕ) : ℕ → State → Except Failure (Bool × State)
  | 0, _ => .error .diverges
  | fuel + 1, st =>
    if (st a).iterating = true ∧ (st a).iter < (st a).members then do
      let e := (st a).dense (st a).iter
      let bit ← sparsesetBitP (st b) e
      if bit then equalLoop a b fuel (Function.update st a (sparsesetIterNext (st a)))
      else .ok (false, st)
    else .ok (true, Function.update st a { st a with iterating := false })

/-- Source: `sparseset.c` `sparseset_equal_p`. -/
def sparsesetEqualP (fuel : ℕ) (st : State) (a b : ℕ) : Except Failure (Bool × State) :=
  if a = b then .ok (true, st)
  else if (st a).members ≠ (st b).members then .ok (false, st)
  else equalLoop a b fuel (Function.update st a (sparsesetIterInit (st a)))

/-- The calls, those that compare sets among them. Source: `sparseset.h`. -/
inductive Call
  | op (o : Op)
  | equalP (a b : ℕ)

/-- One call; the result is what `sparseset_pop` or `sparseset_equal_p` returns.
Source: `sparseset.h` -/
def call (fuel : ℕ) (st : State) : Call → Except Failure (Option ℕ × Option Bool × State)
  | .op o => do
    let (r, st) ← exec fuel st o
    .ok (r, none, st)
  | .equalP a b => do
    let (r, st) ← sparsesetEqualP fuel st a b
    .ok (none, some r, st)

/-- What the assertions and the stated restrictions ask of a call. A comparison is unrestricted.
Source: `sparseset.h` (`gcc_assert`), `sparseset.c` (`Restrictions`) -/
def Call.Legal (n : ℕ) (A : ℕ → Finset ℕ) : Call → Prop
  | .op o => Sparseset.Legal n A o
  | .equalP _ _ => True

/-- The abstract sets after a call. -/
def Call.after (st : State) (A : ℕ → Finset ℕ) : Call → ℕ → Finset ℕ
  | .op o => Sparseset.after st A o
  | .equalP _ _ => A

/-- **Runs** on sets of size `n` whose calls meet a condition, with the abstract sets. -/
inductive CallRun (n : ℕ) (cond : (ℕ → Finset ℕ) → Call → Prop) : State → (ℕ → Finset ℕ) → Prop
  | start {st : State} (h : ∀ p, (st p).size = n ∧ (st p).members = 0 ∧ (st p).iterating = false) :
      CallRun n cond st fun _ => ∅
  | step {st st' : State} {A : ℕ → Finset ℕ} {c : Call} {fuel : ℕ} {r : Option ℕ}
      {answer : Option Bool} :
      CallRun n cond st A → c.Legal n A → cond A c → n < fuel →
      call fuel st c = .ok (r, answer, st') → CallRun n cond st' (c.after st A)

/-- No comparison returns from within its loop: its sets are one, differ in their cardinality or are
equal.
Source: `sparseset.c` `sparseset_equal_p` -/
def NoEarlyReturn (A : ℕ → Finset ℕ) : Call → Prop
  | .op _ => True
  | .equalP a b => a = b ∨ (A a).card ≠ (A b).card ∨ A a = A b

/-- **Deletions are exact**: `sparseset_clear_bit` of any member takes out that member and keeps the
others, as the arrays show them and as `sparseset_bit_p` tells them.
Source: `sparseset.c` `sparseset_clear_bit` (`S = S - {e}`) -/
def DeletesExactly (s : SparseSet) (S : Finset ℕ) : Prop :=
  ∀ e ∈ S, ∃ t, sparsesetClearBit s e = .ok t ∧ Contract t (S.erase e)

end Model

/-! ## Comparing -/

section Comparing

variable {n fuel a b k : ℕ} {st st₀ : State} {A : ℕ → Finset ℕ} {S : Finset ℕ}

/-- **The loop** ends after the last member or at the first one that is not in the other set.
Source: `sparseset.c` `sparseset_equal_p`
Kind: L -/
theorem equalLoop_spec (hab : a ≠ b) (hva : Valid (st₀ a) (A a)) (hvb : Valid (st₀ b) (A b))
    (hsize : (st₀ a).size = (st₀ b).size) (hk : k ≤ (st₀ a).members)
    (ha : st a = { st₀ a with iter := k, iterInc := 1, iterating := true })
    (hother : ∀ q ≠ a, st q = st₀ q) (hseen : ∀ j < k, (st₀ a).dense j ∈ A b)
    (hfuel : (st₀ a).members < fuel + k) :
    (∃ st', equalLoop a b fuel st = .ok (true, st') ∧ A a ⊆ A b ∧ (∀ q ≠ a, st' q = st₀ q) ∧
        st' a = { st₀ a with iter := (st₀ a).members, iterInc := 1, iterating := false }) ∨
      ∃ st' j, equalLoop a b fuel st = .ok (false, st') ∧ ¬ A a ⊆ A b ∧ (∀ q ≠ a, st' q = st₀ q) ∧
        j < (st₀ a).members ∧ (st₀ a).dense j ∉ A b ∧
        st' a = { st₀ a with iter := j, iterInc := 1, iterating := true } := by
  induction fuel generalizing st k with
  | zero => omega
  | succ fuel ih =>
    rw [equalLoop]
    by_cases hlt : k < (st₀ a).members
    · have hcond : (st a).iterating = true ∧ (st a).iter < (st a).members := by
        rw [ha]
        exact ⟨rfl, hlt⟩
      have helm : (st a).dense (st a).iter = (st₀ a).dense k := by rw [ha]; rfl
      have hbit : sparsesetBitP (st b) ((st₀ a).dense k) =
          .ok (decide ((st₀ a).dense k ∈ A b)) := by
        rw [hother b (Ne.symm hab)]
        exact hvb.bitP_eq (hsize ▸ hva.lt_size k hlt)
      rw [if_pos hcond]
      simp only [helm, hbit, bind, Except.bind]
      by_cases hin : (st₀ a).dense k ∈ A b
      · simp only [hin, decide_true, if_true]
        refine ih hlt ?_ (fun q hq => ?_) (fun j hj => ?_) (by omega)
        · rw [Function.update_self, ha]
          rfl
        · rw [Function.update_of_ne hq]
          exact hother q hq
        · rcases Nat.lt_succ_iff_lt_or_eq.mp hj with hj | rfl
          · exact hseen j hj
          · exact hin
      · simp only [hin, decide_false, Bool.false_eq_true, if_false]
        exact .inr ⟨st, k, rfl, fun hsub => hin (hsub (hva.dense_mem hlt)), hother, hlt, hin, ha⟩
    · have hcond : ¬ ((st a).iterating = true ∧ (st a).iter < (st a).members) := by
        rw [ha]
        exact fun h => hlt h.2
      obtain rfl : k = (st₀ a).members := by omega
      rw [if_neg hcond]
      refine .inl ⟨_, rfl, fun e he => ?_, fun q hq => ?_, ?_⟩
      · obtain ⟨j, hj, rfl⟩ := (hva.mem_iff e).mp he
        exact hseen j hj
      · rw [Function.update_of_ne hq]
        exact hother q hq
      · rw [Function.update_self, ha]

/-- **`sparseset_equal_p`** tells whether the sets are equal. Without an early return all sets are
idle afterwards; with one, the first set is left in an iteration.
Source: `sparseset.c` `sparseset_equal_p`
Kind: P -/
theorem equalP_spec (hH : Holds n st A) (hfuel : n < fuel) (a b : ℕ) :
    ∃ st', sparsesetEqualP fuel st a b = .ok (decide (A a = A b), st') ∧
      (NoEarlyReturn A (.equalP a b) → Holds n st' A) ∧
      (¬ NoEarlyReturn A (.equalP a b) → (∀ q ≠ a, st' q = st q) ∧
        ∃ j < (st a).members, (st a).dense j ∉ A b ∧
          st' a = { st a with iter := j, iterInc := 1, iterating := true }) := by
  obtain ⟨hva, hsa, -⟩ := hH a
  obtain ⟨hvb, hsb, -⟩ := hH b
  rw [sparsesetEqualP]
  by_cases hab : a = b
  · subst hab
    refine ⟨st, by simp, fun _ => hH, fun h => absurd (.inl rfl) h⟩
  · rw [if_neg hab]
    by_cases hcard : (st a).members = (st b).members
    · rw [if_neg (not_not.mpr hcard)]
      have hcard' : (A a).card = (A b).card := by rw [hva.card_eq, hvb.card_eq, hcard]
      have hle : (st a).members ≤ n := hsa ▸ hva.le_size
      have hstart : Function.update st a (sparsesetIterInit (st a)) a =
          { st a with iter := 0, iterInc := 1, iterating := true } := Function.update_self ..
      rcases equalLoop_spec hab hva hvb (hsa.trans hsb.symm) (Nat.zero_le _) hstart
        (fun q hq => Function.update_of_ne hq ..) (fun j hj => absurd hj (Nat.not_lt_zero j))
        (by omega : (st a).members < fuel + 0) with
        ⟨st', hrun, hsub, hother, ha⟩ | ⟨st', j, hrun, hnot, hother, hj, hout, ha⟩
      · have heq : A a = A b := Finset.eq_of_subset_of_card_le hsub hcard'.ge
        refine ⟨st', by rw [hrun, decide_eq_true heq], fun _ q => ?_, fun h => ?_⟩
        · by_cases hq : q = a
          · subst hq
            rw [ha]
            exact ⟨hva.congr rfl rfl rfl, hsa, rfl⟩
          · rw [hother q hq]
            exact hH q
        · exact absurd (.inr (.inr heq)) h
      · have hne : A a ≠ A b := fun heq => hnot heq.subset
        refine ⟨st', by rw [hrun, decide_eq_false hne], fun h => ?_, fun _ => ⟨hother, j, hj, hout, ha⟩⟩
        rcases h with h | h | h
        · exact absurd h hab
        · exact absurd hcard' h
        · exact absurd h hne
    · rw [if_pos hcard]
      have hcard' : (A a).card ≠ (A b).card := by rwa [hva.card_eq, hvb.card_eq]
      have hne : A a ≠ A b := fun heq => hcard' (by rw [heq])
      refine ⟨st, by rw [decide_eq_false hne], fun _ => hH, fun h => absurd (.inr (.inl hcard')) h⟩

end Comparing

/-! ## Deleting while an iteration is left running -/

section Deleting

variable {s t : SparseSet} {S : Finset ℕ}

/-- Valid arrays keep the contract. -/
theorem Valid.contract (h : Valid s S) : Contract s S :=
  ⟨h.listing.1, h.listing.2, h.back, fun _ he => h.bitP_eq he⟩

/-- An index beyond the members: the first member is put there, and the last one after it.
Source: `sparseset.c` `sparseset_clear_bit`
Kind: L -/
theorem clearBit_beyond (h : Valid s S) (hit : s.iterating = true) (hpos : 0 < s.members)
    (hge : s.members ≤ s.iter) :
    ∃ t, sparsesetClearBit s (s.dense 0) = .ok t ∧ t = { sparsesetInsertBit
        { sparsesetSwap s 0 s.iter with iterInc := 0 }
        ((sparsesetSwap s 0 s.iter).dense (s.members - 1)) s.iter with members := s.members - 1 } := by
  have hmem := h.dense_mem hpos
  have hadj : adjustIter s 0 = ({ sparsesetSwap s 0 s.iter with iterInc := 0 }, s.iter) := by
    rw [adjustIter, if_pos ⟨hit, Nat.zero_le _⟩, if_pos (by omega)]
  simp only [sparsesetClearBit, h.bitP_eq (h.lt_size 0 hpos), bind, Except.bind, hmem, decide_true,
    if_true, h.back 0 hpos, hadj]
  exact ⟨_, rfl, rfl⟩

/-- **An index beyond two members or more** loses a member: the last one is put behind the place where
the set now ends.
Source: `sparseset.c` `sparseset_clear_bit`
Kind: L -/
theorem not_deletesExactly (h : Valid s S) (hiter : s.iter < s.size) (hit : s.iterating = true)
    (htwo : 2 ≤ s.members) (hge : s.members ≤ s.iter) : ¬ DeletesExactly s S := by
  intro hdel
  have hpos : 0 < s.members := by omega
  obtain ⟨t, hrun, hcontract⟩ := hdel (s.dense 0) (h.dense_mem hpos)
  obtain ⟨t', hrun', ht⟩ := clearBit_beyond h hit hpos hge
  obtain rfl : t = t' := Except.ok.inj (hrun.symm.trans hrun')
  obtain ⟨-, hlist, hback, -⟩ := hcontract
  have hsize : s.members ≤ s.size := h.le_size
  have hdense : ∀ i < s.members, t.dense i = if i = 0 then s.dense s.iter else s.dense i := by
    intro i hi
    have hswap : (sparsesetSwap s 0 s.iter).dense i =
        if i = 0 then s.dense s.iter else s.dense i := by
      rw [sparsesetSwap, dense_insertBit _ _ (show i < (sparsesetInsertBit s _ _).size by
        change i < s.size; omega), dense_insertBit s _ (by omega)]
      split_ifs <;> first | rfl | omega
    have hinsert := @dense_insertBit i { sparsesetSwap s 0 s.iter with iterInc := 0 }
      ((sparsesetSwap s 0 s.iter).dense (s.members - 1)) s.iter (show i < s.size by omega)
    rw [if_neg (by omega)] at hinsert
    rw [ht, ← hswap]
    exact hinsert
  have hlast : (sparsesetSwap s 0 s.iter).dense (s.members - 1) = s.dense (s.members - 1) := by
    rw [sparsesetSwap, dense_insertBit _ _ (show s.members - 1 < (sparsesetInsertBit s _ _).size by
      change s.members - 1 < s.size; omega), dense_insertBit s _ (by omega),
      if_neg (by omega), if_neg (by omega)]
  have hsparse : t.sparse (s.dense (s.members - 1)) = s.iter := by
    have hinsert := @sparse_insertBit { sparsesetSwap s 0 s.iter with iterInc := 0 }
      (s.dense (s.members - 1)) (s.dense (s.members - 1)) s.iter hiter
    rw [if_pos rfl] at hinsert
    rw [ht, hlast]
    exact hinsert
  -- the last member is to be in one of the places that are left
  have hne : s.dense (s.members - 1) ≠ s.dense 0 := by
    intro heq
    have := h.dense_inj (by omega) hpos heq
    omega
  have hmem : s.dense (s.members - 1) ∈ ((List.range t.members).map t.dense).toFinset := by
    rw [hlist]
    exact Finset.mem_erase.mpr ⟨hne, h.dense_mem (by omega)⟩
  have hmembers : t.members = s.members - 1 := by rw [ht]
  rw [List.mem_toFinset, List.mem_map] at hmem
  obtain ⟨i, hi, hplace⟩ := hmem
  rw [List.mem_range, hmembers] at hi
  have hplace' := hback i (by omega)
  rw [hplace, hsparse] at hplace'
  omega

end Deleting

/-! ## Runs with comparisons -/

section Runs

variable {n fuel : ℕ} {st st' : State} {A : ℕ → Finset ℕ}

/-- **One call** without an early return leaves idle sets that hold what they should.
Source: `sparseset.c`
Kind: L -/
theorem call_spec (hH : Holds n st A) {c : Call} (hlegal : c.Legal n A) (hc : NoEarlyReturn A c)
    (hfuel : n < fuel) :
    ∃ r answer st', call fuel st c = .ok (r, answer, st') ∧ Holds n st' (c.after st A) := by
  cases c with
  | op o =>
    obtain ⟨r, st', hrun, hH'⟩ := step_spec hH hlegal hfuel
    exact ⟨r, none, st', by simp only [call, hrun, bind, Except.bind], hH'⟩
  | equalP a b =>
    obtain ⟨st', hrun, hidle, -⟩ := equalP_spec hH hfuel a b
    exact ⟨none, _, st', by simp only [call, hrun, bind, Except.bind]; rfl, hidle hc⟩

/-- The sets of every state of a run without an early return. -/
theorem CallRun.holds (hrun : CallRun n NoEarlyReturn st A) : Holds n st A := by
  induction hrun with
  | start h => exact (Run.start h).holds
  | step _ hlegal hc hfuel hcall ih =>
    obtain ⟨r', answer', st'', heq, hH'⟩ := call_spec ih hlegal hc hfuel
    rw [hcall] at heq
    obtain ⟨-, -, rfl⟩ := Prod.mk.inj (Except.ok.inj heq)
    exact hH'

/-- **Idle sets.** In every run in which no comparison returns from within its loop, every state has
idle sets, from which every member can be deleted exactly.
Source: `sparseset.c` `sparseset_equal_p`, `sparseset_clear_bit`
Kind: P -/
theorem sparseset_idle (hrun : CallRun n NoEarlyReturn st A) (p : ℕ) :
    (st p).iterating = false ∧ DeletesExactly (st p) (A p) := by
  obtain ⟨hv, hsize, hidle⟩ := hrun.holds p
  refine ⟨hidle, fun e he => ?_⟩
  obtain ⟨t, heq, hv', -⟩ := clearBit_spec hv (hv.mem_lt_size he)
    (fun hit => by rw [hidle] at hit; cases hit)
  exact ⟨t, heq, hv'.contract⟩

end Runs

/-! ## An early return that loses a member -/

section Example

/-- A program with two sets that need not be empty. Source: none: example. -/
def two (s t : SparseSet) : State := Function.update (program s) 1 t

/-- What its sets hold. Source: none: example. -/
def holdingTwo (S T : Finset ℕ) : ℕ → Finset ℕ := Function.update (holding S) 1 T

/-- The sets after a third member has been set. Source: none: example. -/
def withThreeFiveAnd (e : ℕ) : SparseSet :=
  { sparsesetInsertBit withThreeFive e 2 with members := 3 }

variable {cond : (ℕ → Finset ℕ) → Call → Prop} {s s' t t' : SparseSet} {S T : Finset ℕ} {e : ℕ}

/-- Setting a bit of the first set. Source: none: example. Kind: L -/
theorem two_run_first (hcond : ∀ A o, cond A (.op o))
    (hrun : CallRun 8 cond (two s t) (holdingTwo S T)) (he : e < 8)
    (h : sparsesetSetBit s e = .ok s') : CallRun 8 cond (two s' t) (holdingTwo (insert e S) T) := by
  have hself : two s t 0 = s := rfl
  have hcall : call 9 (two s t) (.op (.setBit 0 e)) =
      .ok (none, none, Function.update (two s t) 0 s') := by
    simp only [call, exec, hself, h, bind, Except.bind]
  have hstep := hrun.step (c := .op (.setBit 0 e)) he (hcond _ _) (Nat.lt_succ_self 8) hcall
  have hstate : Function.update (two s t) 0 s' = two s' t := by
    simp only [two, program]
    rw [Function.update_comm (by omega), Function.update_idem]
  have hset : Call.after (two s t) (holdingTwo S T) (.op (.setBit 0 e)) =
      holdingTwo (insert e S) T := by
    have hold : holdingTwo S T 0 = S := rfl
    simp only [Call.after, Sparseset.after, hold]
    simp only [holdingTwo, holding]
    rw [Function.update_comm (by omega), Function.update_idem]
  rwa [hstate, hset] at hstep

/-- Setting a bit of the second set. Source: none: example. Kind: L -/
theorem two_run_second (hcond : ∀ A o, cond A (.op o))
    (hrun : CallRun 8 cond (two s t) (holdingTwo S T)) (he : e < 8)
    (h : sparsesetSetBit t e = .ok t') : CallRun 8 cond (two s t') (holdingTwo S (insert e T)) := by
  have hself : two s t 1 = t := rfl
  have hcall : call 9 (two s t) (.op (.setBit 1 e)) =
      .ok (none, none, Function.update (two s t) 1 t') := by
    simp only [call, exec, hself, h, bind, Except.bind]
  have hstep := hrun.step (c := .op (.setBit 1 e)) he (hcond _ _) (Nat.lt_succ_self 8) hcall
  have hstate : Function.update (two s t) 1 t' = two s t' := Function.update_idem ..
  have hset : Call.after (two s t) (holdingTwo S T) (.op (.setBit 1 e)) =
      holdingTwo S (insert e T) := Function.update_idem ..
  rwa [hstate, hset] at hstep

/-- The two sets whose third members differ. Source: none: example. Kind: L -/
theorem run_two (hcond : ∀ A o, cond A (.op o)) :
    CallRun 8 cond (two (withThreeFiveAnd 6) (withThreeFiveAnd 7))
      (holdingTwo {6, 5, 3} {7, 5, 3}) := by
  have hstart : CallRun 8 cond (two allocated allocated) (holdingTwo ∅ ∅) := by
    have hstate : two allocated allocated = fun _ => allocated := by
      simp only [two, program]
      rw [Function.update_eq_self_iff.mpr rfl, Function.update_eq_self_iff.mpr rfl]
    have hset : holdingTwo ∅ ∅ = fun _ => ∅ := by
      simp only [holdingTwo, holding]
      rw [Function.update_eq_self_iff.mpr rfl, Function.update_eq_self_iff.mpr rfl]
    rw [hstate, hset]
    exact .start fun _ => ⟨rfl, rfl, rfl⟩
  have hthree : sparsesetSetBit allocated 3 = .ok withThree := rfl
  have hfive : sparsesetSetBit withThree 5 = .ok withThreeFive := rfl
  have hsix : sparsesetSetBit withThreeFive 6 = .ok (withThreeFiveAnd 6) := rfl
  have hseven : sparsesetSetBit withThreeFive 7 = .ok (withThreeFiveAnd 7) := rfl
  have h1 := two_run_first hcond hstart (by omega) hthree
  have h2 := two_run_first hcond h1 (by omega) hfive
  have h3 := two_run_first hcond h2 (by omega) hsix
  have h4 := two_run_second hcond h3 (by omega) hthree
  have h5 := two_run_second hcond h4 (by omega) hfive
  exact two_run_second hcond h5 (by omega) hseven

/-- The idle sets of this run, before the comparison. Source: none: example. Kind: C -/
theorem sparseset_idle_two :
    CallRun 8 NoEarlyReturn (two (withThreeFiveAnd 6) (withThreeFiveAnd 7))
        (holdingTwo {6, 5, 3} {7, 5, 3}) ∧
      (two (withThreeFiveAnd 6) (withThreeFiveAnd 7) 0).iterating = false ∧
      DeletesExactly (two (withThreeFiveAnd 6) (withThreeFiveAnd 7) 0)
        (holdingTwo {6, 5, 3} {7, 5, 3} 0) :=
  ⟨run_two fun _ _ => trivial, sparseset_idle (run_two fun _ _ => trivial) 0⟩

/-- **An early return that loses a member.** Of two sets with three members each the third members
differ; the sets are compared, and one member of the first set is removed. Then the deletion of 3 from
`{3, 5}` is not exact.
Source: `sparseset.c` `sparseset_equal_p` (`return false`)
Kind: C -/
theorem equalP_early_return :
    ∃ st A, CallRun 8 (fun _ _ => True) st A ∧ A 0 = {3, 5} ∧ (st 0).iterating = true ∧
      ¬ DeletesExactly (st 0) (A 0) := by
  have hrun : CallRun 8 (fun _ _ => True) (two (withThreeFiveAnd 6) (withThreeFiveAnd 7))
      (holdingTwo {6, 5, 3} {7, 5, 3}) := run_two fun _ _ => trivial
  have hH : Holds 8 (two (withThreeFiveAnd 6) (withThreeFiveAnd 7))
      (holdingTwo {6, 5, 3} {7, 5, 3}) := CallRun.holds (run_two fun _ _ => trivial)
  obtain ⟨st, hequal, -, hearly⟩ := equalP_spec hH (Nat.lt_succ_self 8) 0 1
  have hdiffer : ¬ NoEarlyReturn (holdingTwo {6, 5, 3} {7, 5, 3}) (.equalP 0 1) := by
    unfold NoEarlyReturn
    decide
  obtain ⟨-, j, hj, hout, hst⟩ := hearly hdiffer
  -- the first two members are in both sets
  obtain rfl : j = 2 := by
    have hcases : j = 0 ∨ j = 1 ∨ j = 2 := by
      change j < 3 at hj
      omega
    rcases hcases with rfl | rfl | rfl
    · exact absurd (show 3 ∈ ({7, 5, 3} : Finset ℕ) by decide) hout
    · exact absurd (show 5 ∈ ({7, 5, 3} : Finset ℕ) by decide) hout
    · rfl
  have hcompare := hrun.step (c := .equalP 0 1) trivial trivial (Nat.lt_succ_self 8)
    (by simp only [call, hequal, bind, Except.bind]; rfl)
  have hpop : call 9 st (.op (.pop 0)) =
      .ok (some ((st 0).dense (st 0).members), none,
        Function.update st 0 { st 0 with members := 2 }) := by
    have hmembers : (st 0).members = 3 := by rw [hst]; rfl
    simp only [call, exec, sparsesetPop, hmembers, bind, Except.bind]
    rfl
  have hpopped := hcompare.step (c := .op (.pop 0)) (show ({6, 5, 3} : Finset ℕ) ≠ ∅ by decide) trivial
    (Nat.lt_succ_self 8) hpop
  obtain ⟨-, hv, -⟩ := pop_spec (hH 0).1 (show ({6, 5, 3} : Finset ℕ) ≠ ∅ by decide)
  have hset : Call.after st (Call.after (two (withThreeFiveAnd 6) (withThreeFiveAnd 7))
      (holdingTwo {6, 5, 3} {7, 5, 3}) (.equalP 0 1)) (.op (.pop 0)) 0 = {3, 5} := by
    change Function.update (holdingTwo {6, 5, 3} {7, 5, 3}) 0
      (({6, 5, 3} : Finset ℕ).erase ((st 0).dense ((st 0).members - 1))) 0 = {3, 5}
    rw [Function.update_self, hst]
    decide
  refine ⟨_, _, hpopped, hset, ?_, ?_⟩
  · rw [Function.update_self, hst]
  · rw [hset, Function.update_self, hst]
    have hv' : Valid { withThreeFiveAnd 6 with members := 2, iter := 2, iterInc := 1, iterating := true }
        {3, 5} := by
      have herase : ({6, 5, 3} : Finset ℕ).erase ((withThreeFiveAnd 6).dense 2) = {3, 5} := by decide
      rw [← herase]
      exact hv.congr rfl rfl rfl
    exact not_deletesExactly hv' (show 2 < 8 by omega) rfl le_rfl le_rfl

end Example

end GccCore.Gcc.Sparseset
