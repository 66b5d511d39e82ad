import GccCore.Gcc.Sparseset.Basic

/-!
# `gcc/sparseset.c`: operations on several sets, and runs

* **Loops** (`iterLoop_other`, `iterLoop_self`): iteration over another set, and over the set that loses
  members.
* **Set algebra** for all aliases (`copy_spec`, `and_spec`, `andCompl_spec`, `ior_spec`).
* **Runs** (`sparseset_contract`): the arrays keep to the set in every state of every run, and what
  `sparseset_pop` returns is what it takes out exactly if the word behind the last member repeats it.
-/

namespace GccCore.Gcc.Sparseset

/-! ## Loops over a set -/

section Loops

variable {n fuel p d a b q : ℕ} {st st₀ : State} {A : ℕ → Finset ℕ} {c : ℕ → Prop} [DecidablePred c]
  {cond : State → ℕ → Except Failure Bool} {body : State → ℕ → Except Failure State}

/-- Idle sets of one size, and what they hold. -/
def Holds (n : ℕ) (st : State) (A : ℕ → Finset ℕ) : Prop :=
  ∀ p, Valid (st p) (A p) ∧ (st p).size = n ∧ (st p).iterating = false

theorem Holds.update (h : Holds n st A) {t : SparseSet} {T : Finset ℕ} (hv : Valid t T)
    (hsize : t.size = n) (hidle : t.iterating = false) (p : ℕ) :
    Holds n (Function.update st p t) (Function.update A p T) := by
  intro q
  by_cases hqp : q = p
  · subst hqp
    simp only [Function.update_self]
    exact ⟨hv, hsize, hidle⟩
  · simp only [Function.update_of_ne hqp]
    exact h q

/-- A test of a bit of an idle set. -/
theorem Holds.bitIs_eq (h : Holds n st₀ A) (hq : st q = st₀ q) (value : Bool) {e : ℕ} (he : e < n) :
    bitIs q value st e = .ok (decide (e ∈ A q) == value) := by
  obtain ⟨hv, hsize, -⟩ := h q
  simp only [bitIs, hq, hv.bitP_eq (hsize.symm ▸ he), bind, Except.bind]

/-- **Iteration over another set**: the body sees the members one by one, and nothing but `d`
changes.
Source: `sparseset.h` `EXECUTE_IF_SET_IN_SPARSESET`
Kind: L -/
theorem iterLoop_other (hpd : p ≠ d) (Q : ℕ → SparseSet → Prop)
    (hbody : ∀ k < (st₀ p).members, ∀ st : State, (∀ q, q ≠ p → q ≠ d → st q = st₀ q) → Q k (st d) →
      ∃ t, body st ((st₀ p).dense k) = .ok (Function.update st d t) ∧ Q (k + 1) t)
    {k : ℕ} (hk : k ≤ (st₀ p).members)
    (hp : st p = { st₀ p with iter := k, iterInc := 1, iterating := true })
    (hq : ∀ q, q ≠ p → q ≠ d → st q = st₀ q) (hQ : Q k (st d)) (hfuel : (st₀ p).members < fuel + k) :
    ∃ st', iterLoop p body fuel st = .ok st' ∧ (∀ q, q ≠ p → q ≠ d → st' q = st₀ q) ∧
      st' p = { st₀ p with iter := (st₀ p).members, iterInc := 1, iterating := false } ∧
      Q (st₀ p).members (st' d) := by
  induction fuel generalizing st k with
  | zero => omega
  | succ fuel ih =>
    rw [iterLoop]
    by_cases hlt : k < (st₀ p).members
    · have hcond : (st p).iterating = true ∧ (st p).iter < (st p).members := by
        rw [hp]
        exact ⟨rfl, hlt⟩
      rw [if_pos hcond]
      have helm : (st p).dense (st p).iter = (st₀ p).dense k := by rw [hp]; rfl
      obtain ⟨t, heq, hQ'⟩ := hbody k hlt st hq hQ
      simp only [helm, heq, bind, Except.bind, Function.update_of_ne hpd]
      refine ih hlt ?_ (fun q hqp hqd => ?_) ?_ (by omega)
      · rw [Function.update_self, hp]
        rfl
      · rw [Function.update_of_ne hqp, Function.update_of_ne hqd]
        exact hq q hqp hqd
      · rw [Function.update_of_ne (Ne.symm hpd), Function.update_self]
        exact hQ'
    · have hcond : ¬ ((st p).iterating = true ∧ (st p).iter < (st p).members) := by
        rw [hp]
        exact fun h => hlt h.2
      obtain rfl : k = (st₀ p).members := by omega
      rw [if_neg hcond]
      refine ⟨_, rfl, fun q hqp hqd => ?_, ?_, ?_⟩
      · rw [Function.update_of_ne hqp]
        exact hq q hqp hqd
      · rw [Function.update_self, hp]
      · rw [Function.update_of_ne (Ne.symm hpd)]
        exact hQ

/-- The members that an iteration has seen. -/
def seen (s : SparseSet) (k : ℕ) : Finset ℕ := (Finset.range k).image s.dense

theorem seen_succ (s : SparseSet) (k : ℕ) : seen s (k + 1) = insert (s.dense k) (seen s k) := by
  rw [seen, Finset.range_add_one, Finset.image_insert]
  rfl

theorem Valid.seen_members {s : SparseSet} {S : Finset ℕ} (h : Valid s S) :
    seen s s.members = S := by
  ext e
  rw [h.mem_iff]
  simp [seen]

/-- What an iteration over another set leaves behind. -/
theorem execute_other (hH : Holds n st A) (hpd : p ≠ d) (hfuel : n < fuel) (F : ℕ → Finset ℕ)
    (hzero : F 0 = A d)
    (hbody : ∀ k < (st p).members, ∀ st' : State, (∀ q, q ≠ p → q ≠ d → st' q = st q) →
      Valid (st' d) (F k) → (st' d).size = n → (st' d).iterating = false →
      ∃ t, body st' ((st p).dense k) = .ok (Function.update st' d t) ∧ Valid t (F (k + 1)) ∧
        t.size = n ∧ t.iterating = false) :
    ∃ st', executeIfSet fuel st p body = .ok st' ∧
      Holds n st' (Function.update A d (F (st p).members)) := by
  obtain ⟨hvp, hsizep, -⟩ := hH p
  obtain ⟨hvd, hsized, hidled⟩ := hH d
  have hmem : (st p).members ≤ n := hsizep ▸ hvp.le_size
  have hfuel' : (st p).members < fuel + 0 := by omega
  have hstart : Function.update st p (sparsesetIterInit (st p)) p =
      { st p with iter := 0, iterInc := 1, iterating := true } := Function.update_self ..
  obtain ⟨st', heq, hother, hp', hv', hsize', hidle'⟩ := iterLoop_other hpd
    (fun k t => Valid t (F k) ∧ t.size = n ∧ t.iterating = false)
    (fun k hk st' hq hQ => hbody k hk st' hq hQ.1 hQ.2.1 hQ.2.2) (Nat.zero_le _) hstart
    (fun q hqp _ => Function.update_of_ne hqp ..)
    (by rw [Function.update_of_ne (Ne.symm hpd), hzero]; exact ⟨hvd, hsized, hidled⟩) hfuel'
  refine ⟨st', heq, fun q => ?_⟩
  by_cases hqd : q = d
  · subst hqd
    rw [Function.update_self]
    exact ⟨hv', hsize', hidle'⟩
  · rw [Function.update_of_ne hqd]
    by_cases hqp : q = p
    · subst hqp
      rw [hp']
      exact ⟨hvp.congr rfl rfl rfl, hsizep, rfl⟩
    · rw [hother q hqp hqd]
      exact hH q

/-- **Setting bits** of `d` while another set is iterated over. Source: `sparseset.c`. Kind: L -/
theorem execute_setIf (hH : Holds n st A) (hpd : p ≠ d) (hfuel : n < fuel)
    (hcond : ∀ st' : State, (∀ q, q ≠ p → q ≠ d → st' q = st q) → ∀ e < n,
      cond st' e = .ok (decide (c e))) :
    ∃ st', executeIfSet fuel st p (setIf d cond) = .ok st' ∧
      Holds n st' (Function.update A d (A d ∪ (A p).filter c)) := by
  obtain ⟨hvp, hsizep, -⟩ := hH p
  have hbody : ∀ k < (st p).members, ∀ st' : State, (∀ q, q ≠ p → q ≠ d → st' q = st q) →
      Valid (st' d) (A d ∪ (seen (st p) k).filter c) → (st' d).size = n →
      (st' d).iterating = false → ∃ t, setIf d cond st' ((st p).dense k) =
        .ok (Function.update st' d t) ∧ Valid t (A d ∪ (seen (st p) (k + 1)).filter c) ∧
        t.size = n ∧ t.iterating = false := by
    intro k hk st' hq hv hsize hidle
    have he : (st p).dense k < n := hsizep ▸ hvp.lt_size k hk
    simp only [setIf, hcond st' hq _ he, bind, Except.bind]
    rw [seen_succ, Finset.filter_insert]
    by_cases hc : c ((st p).dense k)
    · simp only [hc, decide_true, if_true]
      obtain ⟨t, heq, hv', hsize', hidle'⟩ := setBit_spec hv (hsize.symm ▸ he)
      rw [heq]
      refine ⟨t, rfl, ?_, hsize'.trans hsize, hidle'.trans hidle⟩
      rwa [Finset.union_insert]
    · simp only [hc, decide_false, Bool.false_eq_true, if_false]
      exact ⟨st' d, by rw [Function.update_eq_self], hv, hsize, hidle⟩
  have hspec := execute_other hH hpd hfuel (fun k => A d ∪ (seen (st p) k).filter c)
    (by simp [seen]) hbody
  rwa [hvp.seen_members] at hspec

/-- **Clearing bits** of `d` while another set is iterated over. Source: `sparseset.c`. Kind: L -/
theorem execute_clearAll (hH : Holds n st A) (hpd : p ≠ d) (hfuel : n < fuel) :
    ∃ st', executeIfSet fuel st p (clearIf d fun _ _ => .ok true) = .ok st' ∧
      Holds n st' (Function.update A d (A d \ A p)) := by
  obtain ⟨hvp, hsizep, -⟩ := hH p
  have hbody : ∀ k < (st p).members, ∀ st' : State, (∀ q, q ≠ p → q ≠ d → st' q = st q) →
      Valid (st' d) (A d \ seen (st p) k) → (st' d).size = n → (st' d).iterating = false →
      ∃ t, clearIf d (fun _ _ => .ok true) st' ((st p).dense k) = .ok (Function.update st' d t) ∧
        Valid t (A d \ seen (st p) (k + 1)) ∧ t.size = n ∧ t.iterating = false := by
    intro k hk st' hq hv hsize hidle
    have he : (st p).dense k < n := hsizep ▸ hvp.lt_size k hk
    obtain ⟨t, heq, hv', hsize', hidle', -⟩ :=
      clearBit_spec hv (hsize.symm ▸ he) (fun hit => by rw [hidle] at hit; cases hit)
    simp only [clearIf, bind, Except.bind, if_true, heq]
    refine ⟨t, rfl, ?_, hsize'.trans hsize, hidle'.trans hidle⟩
    rwa [seen_succ, Finset.sdiff_insert]
  have hspec := execute_other hH hpd hfuel (fun k => A d \ seen (st p) k) (by simp [seen]) hbody
  rwa [hvp.seen_members] at hspec

/-- **Iteration over the set itself**, which loses the members for which `c` holds. At every turn the
members before the index are to stay, and nothing that is to stay has gone.
Source: `sparseset.h` `EXECUTE_IF_SET_IN_SPARSESET`
Kind: L -/
theorem iterLoop_self (hcond : ∀ st' : State, (∀ q ≠ d, st' q = st₀ q) → ∀ e < n,
      cond st' e = .ok (decide (c e)))
    {S T : Finset ℕ} (hv : Valid (st d) T) (hsize : (st d).size = n)
    (hit : (st d).iterating = true) (hinc : (st d).iterInc = 1) (hle : (st d).iter ≤ (st d).members)
    (hseen : ∀ k < (st d).iter, ¬ c ((st d).dense k)) (hkeep : ∀ e, e ∈ S → ¬ c e → e ∈ T)
    (hsub : T ⊆ S) (hq : ∀ q ≠ d, st q = st₀ q) (hfuel : (st d).members < fuel + (st d).iter) :
    ∃ t, iterLoop d (clearIf d cond) fuel st = .ok (Function.update st d t) ∧
      Valid t (S.filter fun e => ¬ c e) ∧ t.size = n ∧ t.iterating = false := by
  induction fuel generalizing st T with
  | zero => omega
  | succ fuel ih =>
    rw [iterLoop]
    by_cases hlt : (st d).iter < (st d).members
    · rw [if_pos ⟨hit, hlt⟩]
      have he : (st d).dense (st d).iter < n := hsize ▸ hv.lt_size _ hlt
      simp only [clearIf, hcond st hq _ he, bind, Except.bind]
      by_cases hc : c ((st d).dense (st d).iter)
      · -- the member goes, and another one comes to its place
        obtain ⟨t, heq, hv', hsize', hit', hiter', hinc', hmem', hbelow⟩ :=
          clearBit_current hv hit hlt
        simp only [hc, decide_true, if_true, heq, Function.update_self, Function.update_idem]
        have hrest : ∃ t', iterLoop d (clearIf d cond) fuel (Function.update st d (sparsesetIterNext t)) =
            .ok (Function.update (Function.update st d (sparsesetIterNext t)) d t') ∧
            Valid t' (S.filter fun e => ¬ c e) ∧ t'.size = n ∧ t'.iterating = false := by
          refine @ih _ (T.erase ((st d).dense (st d).iter)) ?_ ?_ ?_ ?_ ?_ ?_ ?_ ?_ ?_ ?_
          · rw [Function.update_self]
            exact hv'.congr rfl rfl rfl
          · rw [Function.update_self]
            exact hsize'.trans hsize
          · rw [Function.update_self]
            exact hit'
          · rw [Function.update_self]
            rfl
          · simp only [Function.update_self, sparsesetIterNext, hinc', hiter', hmem']
            omega
          · intro k hk
            simp only [Function.update_self, sparsesetIterNext, hinc', hiter', Nat.add_zero] at hk ⊢
            change ¬ c (t.dense k)
            rw [hbelow k hk]
            exact hseen k hk
          · intro e heS hce
            refine Finset.mem_erase.mpr ⟨?_, hkeep e heS hce⟩
            rintro rfl
            exact hce hc
          · exact (Finset.erase_subset _ _).trans hsub
          · intro q hqd
            rw [Function.update_of_ne hqd]
            exact hq q hqd
          · simp only [Function.update_self, sparsesetIterNext, hinc', hiter', hmem']
            omega
        obtain ⟨t', heq', hspec⟩ := hrest
        refine ⟨t', ?_, hspec⟩
        rw [heq', Function.update_idem]
      · simp only [hc, decide_false, Bool.false_eq_true, if_false]
        have hrest : ∃ t', iterLoop d (clearIf d cond) fuel (Function.update st d (sparsesetIterNext (st d))) =
            .ok (Function.update (Function.update st d (sparsesetIterNext (st d))) d t') ∧
            Valid t' (S.filter fun e => ¬ c e) ∧ t'.size = n ∧ t'.iterating = false := by
          refine @ih _ T ?_ ?_ ?_ ?_ ?_ ?_ hkeep hsub ?_ ?_
          · rw [Function.update_self]
            exact hv.congr rfl rfl rfl
          · rw [Function.update_self]
            exact hsize
          · rw [Function.update_self]
            exact hit
          · rw [Function.update_self]
            rfl
          · simp only [Function.update_self, sparsesetIterNext, hinc]
            omega
          · intro k hk
            simp only [Function.update_self, sparsesetIterNext, hinc] at hk ⊢
            change ¬ c ((st d).dense k)
            rcases Nat.lt_succ_iff_lt_or_eq.mp hk with hk | rfl
            · exact hseen k hk
            · exact hc
          · intro q hqd
            rw [Function.update_of_ne hqd]
            exact hq q hqd
          · simp only [Function.update_self, sparsesetIterNext, hinc]
            omega
        obtain ⟨t', heq', hspec⟩ := hrest
        refine ⟨t', ?_, hspec⟩
        rw [heq', Function.update_idem]
    · rw [if_neg fun h => hlt h.2]
      refine ⟨_, rfl, ?_, hsize, rfl⟩
      have hfilter : S.filter (fun e => ¬ c e) = T := by
        ext e
        rw [Finset.mem_filter]
        constructor
        · rintro ⟨heS, hce⟩
          exact hkeep e heS hce
        · intro heT
          refine ⟨hsub heT, ?_⟩
          obtain ⟨k, hk, rfl⟩ := (hv.mem_iff e).mp heT
          exact hseen k (by omega)
      rw [hfilter]
      exact hv.congr rfl rfl rfl

/-- What an iteration over the set itself leaves behind. -/
theorem execute_self (hH : Holds n st A) (hfuel : n < fuel)
    (hcond : ∀ st' : State, (∀ q ≠ d, st' q = st q) → ∀ e < n, cond st' e = .ok (decide (c e))) :
    ∃ st', executeIfSet fuel st d (clearIf d cond) = .ok st' ∧
      Holds n st' (Function.update A d ((A d).filter fun e => ¬ c e)) := by
  obtain ⟨hv, hsize, -⟩ := hH d
  have hmem : (st d).members ≤ n := hsize ▸ hv.le_size
  have hstart : Function.update st d (sparsesetIterInit (st d)) d = sparsesetIterInit (st d) :=
    Function.update_self ..
  have hv₁ : Valid (Function.update st d (sparsesetIterInit (st d)) d) (A d) := by
    rw [hstart]
    exact hv.congr rfl rfl rfl
  have hfuel' : (Function.update st d (sparsesetIterInit (st d)) d).members <
      fuel + (Function.update st d (sparsesetIterInit (st d)) d).iter := by
    rw [hstart]
    exact lt_of_le_of_lt hmem hfuel
  obtain ⟨t, heq, hv', hsize', hidle'⟩ := iterLoop_self hcond hv₁ (by rw [hstart]; exact hsize)
    (by rw [hstart]; rfl) (by rw [hstart]; rfl) (by rw [hstart]; exact Nat.zero_le _)
    (by rw [hstart]; exact fun k hk => absurd hk (Nat.not_lt_zero k)) (fun _ he _ => he) subset_rfl
    (fun q hqd => Function.update_of_ne hqd ..) hfuel'
  rw [Function.update_idem] at heq
  exact ⟨_, heq, hH.update hv' hsize' hidle' d⟩

end Loops

/-! ## Operations on several sets -/

section Operations

variable {n fuel d a b : ℕ} {st : State} {A : ℕ → Finset ℕ}

/-- **`sparseset_copy`** Source: `sparseset.c` `sparseset_copy`. Kind: L -/
theorem copy_spec (hH : Holds n st A) (d a : ℕ) :
    Holds n (sparsesetCopy st d a) (Function.update A d (A a)) := by
  rw [sparsesetCopy]
  by_cases hda : d = a
  · subst hda
    rw [if_pos rfl, Function.update_eq_self]
    exact hH
  · rw [if_neg hda]
    obtain ⟨hva, hsizea, -⟩ := hH a
    obtain ⟨-, hsized, -⟩ := hH d
    have hsize : (sparsesetClear (st d)).size = (st a).size := hsized.trans hsizea.symm
    obtain ⟨hsz, hidle, -⟩ := copyLoop_spec hva hsize le_rfl
    exact hH.update (copyLoop_valid hva hsize) (hsz.trans hsizea) hidle d

/-- A set of the program is cleared. Source: `sparseset.h` `sparseset_clear`. Kind: L -/
theorem Holds.clear (hH : Holds n st A) (d : ℕ) :
    Holds n (Function.update st d (sparsesetClear (st d))) (Function.update A d ∅) :=
  hH.update (clear_spec (st d)) (hH d).2.1 rfl d

/-- **`sparseset_and`** for all aliases. Source: `sparseset.c` `sparseset_and`. Kind: L -/
theorem and_spec (hH : Holds n st A) (hfuel : n < fuel) (d a b : ℕ) :
    ∃ st', sparsesetAnd fuel st d a b = .ok st' ∧ Holds n st' (Function.update A d (A a ∩ A b)) := by
  rw [sparsesetAnd]
  by_cases hab : a = b
  · subst hab
    rw [if_pos rfl, Finset.inter_self]
    by_cases hda : d = a
    · subst hda
      rw [if_neg (not_not.mpr rfl), Function.update_eq_self]
      exact ⟨st, rfl, hH⟩
    · rw [if_pos hda]
      exact ⟨_, rfl, copy_spec hH d a⟩
  · rw [if_neg hab]
    by_cases hd : d = a ∨ d = b
    · rw [if_pos hd]
      -- the other operand
      have hs : ∃ s, (if d = a then b else a) = s ∧ s ≠ d ∧ A a ∩ A b = (A d).filter (· ∈ A s) := by
        by_cases hda : d = a
        · subst hda
          exact ⟨b, if_pos rfl, Ne.symm hab, by ext e; simp⟩
        · obtain rfl : d = b := hd.resolve_left hda
          exact ⟨a, if_neg hda, Ne.symm hda, by ext e; simp [and_comm]⟩
      obtain ⟨s, hs, hsd, hset⟩ := hs
      rw [hs, hset]
      have hcond : ∀ st' : State, (∀ q ≠ d, st' q = st q) → ∀ e < n,
          bitIs s false st' e = .ok (decide (¬ e ∈ A s)) := by
        intro st' hq e he
        rw [hH.bitIs_eq (hq s hsd) false he]
        by_cases h : e ∈ A s
        · simp [h]
        · simp [h]
      have hspec := execute_self hH hfuel hcond
      simpa only [not_not] using hspec
    · rw [if_neg hd]
      obtain ⟨hda, hdb⟩ := not_or.mp hd
      have hH' := hH.clear d
      -- the smaller operand is iterated over, the larger one asked
      have hstep : ∀ sml lrg, sml ≠ lrg → sml ≠ d → lrg ≠ d → A a ∩ A b = A sml ∩ A lrg →
          ∃ st', executeIfSet fuel (Function.update st d (sparsesetClear (st d))) sml
            (setIf d (bitIs lrg true)) = .ok st' ∧
            Holds n st' (Function.update A d (A a ∩ A b)) := by
        intro sml lrg hsl hsd hld hset
        have hcond : ∀ st' : State, (∀ q, q ≠ sml → q ≠ d →
            st' q = Function.update st d (sparsesetClear (st d)) q) → ∀ e < n,
            bitIs lrg true st' e = .ok (decide (e ∈ A lrg)) := by
          intro st' hq e he
          rw [hH'.bitIs_eq (hq lrg (Ne.symm hsl) hld) true he, Function.update_of_ne hld]
          by_cases h : e ∈ A lrg
          · simp [h]
          · simp [h]
        have hspec := execute_setIf hH' hsd hfuel hcond
        rwa [Function.update_idem, Function.update_self, Function.update_of_ne hsd,
          Finset.empty_union, Finset.filter_mem_eq_inter, ← hset] at hspec
      by_cases hlt : (st a).members < (st b).members
      · simp only [if_pos hlt]
        exact hstep a b hab (Ne.symm hda) (Ne.symm hdb) rfl
      · simp only [if_neg hlt]
        exact hstep b a (Ne.symm hab) (Ne.symm hdb) (Ne.symm hda) (Finset.inter_comm _ _)

/-- **`sparseset_and_compl`** under its restriction. Source: `sparseset.c` `sparseset_and_compl`.
Kind: L -/
theorem andCompl_spec (hH : Holds n st A) (hfuel : n < fuel) (hdb : a = b ∨ d ≠ b) :
    ∃ st', sparsesetAndCompl fuel st d a b = .ok st' ∧
      Holds n st' (Function.update A d (A a \ A b)) := by
  rw [sparsesetAndCompl]
  by_cases hab : a = b
  · subst hab
    rw [if_pos rfl, Finset.sdiff_self]
    exact ⟨_, rfl, hH.clear d⟩
  · have hdb' : d ≠ b := hdb.resolve_left hab
    rw [if_neg hab, if_neg hdb']
    by_cases hda : d = a
    · subst hda
      rw [if_pos rfl]
      by_cases hlt : (st d).members < (st b).members
      · rw [if_pos hlt]
        have hcond : ∀ st' : State, (∀ q ≠ d, st' q = st q) → ∀ e < n,
            bitIs b true st' e = .ok (decide (e ∈ A b)) := by
          intro st' hq e he
          rw [hH.bitIs_eq (hq b (Ne.symm hdb')) true he]
          by_cases h : e ∈ A b
          · simp [h]
          · simp [h]
        have hspec := execute_self hH hfuel hcond
        rwa [Finset.filter_notMem_eq_sdiff] at hspec
      · rw [if_neg hlt]
        exact execute_clearAll hH (Ne.symm hdb') hfuel
    · rw [if_neg hda]
      have hH' := hH.clear d
      have hcond : ∀ st' : State, (∀ q, q ≠ a → q ≠ d →
          st' q = Function.update st d (sparsesetClear (st d)) q) → ∀ e < n,
          bitIs b false st' e = .ok (decide (e ∉ A b)) := by
        intro st' hq e he
        rw [hH'.bitIs_eq (hq b (Ne.symm hab) (Ne.symm hdb')) false he,
          Function.update_of_ne (Ne.symm hdb')]
        by_cases h : e ∈ A b
        · simp [h]
        · simp [h]
      have hspec := execute_setIf hH' (Ne.symm hda) hfuel hcond
      rwa [Function.update_idem, Function.update_self, Function.update_of_ne (Ne.symm hda),
        Finset.empty_union, Finset.filter_notMem_eq_sdiff] at hspec

/-- **`sparseset_ior`** for all aliases. Source: `sparseset.c` `sparseset_ior`. Kind: L -/
theorem ior_spec (hH : Holds n st A) (hfuel : n < fuel) (d a b : ℕ) :
    ∃ st', sparsesetIor fuel st d a b = .ok st' ∧ Holds n st' (Function.update A d (A a ∪ A b)) := by
  rw [sparsesetIor]
  by_cases hab : a = b
  · subst hab
    rw [if_pos rfl, Finset.union_self]
    exact ⟨_, rfl, copy_spec hH d a⟩
  · rw [if_neg hab]
    have hall : ∀ (st' : State) (e : ℕ), (fun (_ : State) (_ : ℕ) =>
        (.ok true : Except Failure Bool)) st' e = .ok (decide True) := fun _ _ => rfl
    by_cases hdb : d = b
    · subst hdb
      rw [if_pos rfl]
      have hspec := execute_setIf hH hab hfuel (fun st' _ e _ => hall st' e)
      rwa [Finset.filter_true, Finset.union_comm] at hspec
    · rw [if_neg hdb]
      by_cases hda : d = a
      · subst hda
        simp only [ne_eq, not_true_eq_false, if_false]
        have hspec := execute_setIf hH (Ne.symm hdb) hfuel (fun st' _ e _ => hall st' e)
        rwa [Finset.filter_true] at hspec
      · simp only [ne_eq, hda, not_false_eq_true, if_true]
        have hspec := execute_setIf (copy_spec hH d a) (Ne.symm hdb) hfuel
          (fun st' _ e _ => hall st' e)
        rwa [Function.update_idem, Function.update_self, Function.update_of_ne (Ne.symm hdb),
          Finset.filter_true] at hspec

end Operations

/-! ## Runs -/

section Runs

variable {n fuel : ℕ} {st st' : State} {A : ℕ → Finset ℕ}

/-- The calls, with the addresses of the sets. Source: `sparseset.h`. -/
inductive Op
  | setBit (p e : ℕ)
  | clearBit (p e : ℕ)
  | pop (p : ℕ)
  | copy (d s : ℕ)
  | and (d a b : ℕ)
  | andCompl (d a b : ℕ)
  | ior (d a b : ℕ)
  | clear (p : ℕ)

/-- One call; the result is what `sparseset_pop` returns. Source: `sparseset.h`. -/
def exec (fuel : ℕ) (st : State) : Op → Except Failure (Option ℕ × State)
  | .setBit p e => do
    let s ← sparsesetSetBit (st p) e
    .ok (none, Function.update st p s)
  | .clearBit p e => do
    let s ← sparsesetClearBit (st p) e
    .ok (none, Function.update st p s)
  | .pop p => do
    let (e, s) ← sparsesetPop (st p)
    .ok (some e, Function.update st p s)
  | .copy d s => .ok (none, sparsesetCopy st d s)
  | .and d a b => do
    let st ← sparsesetAnd fuel st d a b
    .ok (none, st)
  | .andCompl d a b => do
    let st ← sparsesetAndCompl fuel st d a b
    .ok (none, st)
  | .ior d a b => do
    let st ← sparsesetIor fuel st d a b
    .ok (none, st)
  | .clear p => .ok (none, Function.update st p (sparsesetClear (st p)))

/-- What the assertions and the stated restrictions ask of a call on sets of size `n`.
Source: `sparseset.h` (`gcc_assert`), `sparseset.c` (`Restrictions`) -/
def Legal (n : ℕ) (A : ℕ → Finset ℕ) : Op → Prop
  | .setBit _ e => e < n
  | .clearBit _ e => e < n
  | .pop p => A p ≠ ∅
  | .andCompl d a b => a = b ∨ d ≠ b
  | _ => True

/-- The abstract sets after a call. `sparseset_pop` shortens the dense array by its last member. -/
def after (st : State) (A : ℕ → Finset ℕ) : Op → ℕ → Finset ℕ
  | .setBit p e => Function.update A p (insert e (A p))
  | .clearBit p e => Function.update A p ((A p).erase e)
  | .pop p => Function.update A p ((A p).erase ((st p).dense ((st p).members - 1)))
  | .copy d s => Function.update A d (A s)
  | .and d a b => Function.update A d (A a ∩ A b)
  | .andCompl d a b => Function.update A d (A a \ A b)
  | .ior d a b => Function.update A d (A a ∪ A b)
  | .clear p => Function.update A p ∅

/-- **Runs** on sets of size `n` whose memory holds anything, with the abstract sets. -/
inductive Run (n : ℕ) : State → (ℕ → Finset ℕ) → Prop
  | start {st : State} (h : ∀ p, (st p).size = n ∧ (st p).members = 0 ∧ (st p).iterating = false) :
      Run n st fun _ => ∅
  | step {st st' : State} {A : ℕ → Finset ℕ} {op : Op} {fuel : ℕ} {r : Option ℕ} :
      Run n st A → Legal n A op → n < fuel → exec fuel st op = .ok (r, st') → Run n st' (after st A op)

/-- **The contract of one set**: the dense array lists it without repetition, the sparse array leads
back, and `sparseset_bit_p` is membership.
Source: `sparseset.h` -/
def Contract (s : SparseSet) (S : Finset ℕ) : Prop :=
  ((List.range s.members).map s.dense).Nodup ∧ ((List.range s.members).map s.dense).toFinset = S ∧
    (∀ i < s.members, s.sparse (s.dense i) = i) ∧
    ∀ e < s.size, sparsesetBitP s e = .ok (decide (e ∈ S))

/-- What `sparseset_pop` promises: it returns a member, and only that one goes.
Source: `sparseset.h` `sparseset_pop` (comment) -/
def PopsMember (S S' : Finset ℕ) (r : Option ℕ) : Prop := ∃ e ∈ S, r = some e ∧ S' = S.erase e

/-- `sparseset_pop` takes out the last member. Source: `sparseset.h` `sparseset_pop`. Kind: L -/
theorem pop_spec {s : SparseSet} {S : Finset ℕ} (h : Valid s S) (hne : S ≠ ∅) :
    sparsesetPop s = .ok (s.dense s.members, { s with members := s.members - 1 }) ∧
      Valid { s with members := s.members - 1 } (S.erase (s.dense (s.members - 1))) ∧
      s.dense (s.members - 1) ∈ S := by
  have hpos : 0 < s.members := by
    rw [← h.card_eq]
    exact Finset.card_pos.mpr (Finset.nonempty_iff_ne_empty.mpr hne)
  have hlast : s.members - 1 < s.members := by omega
  refine ⟨?_, ⟨?_, fun i hi => ?_, fun i hi => ?_, fun e => ?_⟩, h.dense_mem hlast⟩
  · rw [sparsesetPop, if_neg (Nat.ne_of_gt hpos)]
  · exact (Nat.sub_le _ _).trans h.le_size
  · exact h.lt_size i (lt_of_lt_of_le hi (Nat.sub_le _ _))
  · exact h.back i (lt_of_lt_of_le hi (Nat.sub_le _ _))
  · rw [Finset.mem_erase, h.mem_iff]
    change _ ↔ ∃ i < s.members - 1, s.dense i = e
    constructor
    · rintro ⟨hne, i, hi, rfl⟩
      refine ⟨i, ?_, rfl⟩
      have : i ≠ s.members - 1 := fun heq => hne (heq ▸ rfl)
      omega
    · rintro ⟨i, hi, rfl⟩
      refine ⟨fun heq => ?_, i, by omega, rfl⟩
      have := h.dense_inj (by omega) hlast heq
      omega

/-- **One call** returns and leaves idle sets that hold what they should.
Source: `sparseset.c`
Kind: L -/
theorem step_spec (hH : Holds n st A) {op : Op} (hlegal : Legal n A op) (hfuel : n < fuel) :
    ∃ r st', exec fuel st op = .ok (r, st') ∧ Holds n st' (after st A op) := by
  cases op with
  | setBit p e =>
    obtain ⟨hv, hsize, hidle⟩ := hH p
    obtain ⟨t, heq, hv', hsize', hidle'⟩ := setBit_spec hv (hsize.symm ▸ hlegal)
    simp only [exec, heq, bind, Except.bind]
    exact ⟨none, _, rfl, hH.update hv' (hsize'.trans hsize) (hidle'.trans hidle) p⟩
  | clearBit p e =>
    obtain ⟨hv, hsize, hidle⟩ := hH p
    obtain ⟨t, heq, hv', hsize', hidle', -⟩ := clearBit_spec hv (hsize.symm ▸ hlegal)
      (fun hit => by rw [hidle] at hit; cases hit)
    simp only [exec, heq, bind, Except.bind]
    exact ⟨none, _, rfl, hH.update hv' (hsize'.trans hsize) (hidle'.trans hidle) p⟩
  | pop p =>
    obtain ⟨hv, hsize, hidle⟩ := hH p
    obtain ⟨heq, hv', -⟩ := pop_spec hv hlegal
    simp only [exec, heq, bind, Except.bind]
    exact ⟨_, _, rfl, hH.update hv' hsize hidle p⟩
  | copy d s => exact ⟨none, _, rfl, copy_spec hH d s⟩
  | and d a b =>
    obtain ⟨st', heq, hH'⟩ := and_spec hH hfuel d a b
    simp only [exec, heq, bind, Except.bind]
    exact ⟨none, st', rfl, hH'⟩
  | andCompl d a b =>
    obtain ⟨st', heq, hH'⟩ := andCompl_spec hH hfuel hlegal
    simp only [exec, heq, bind, Except.bind]
    exact ⟨none, st', rfl, hH'⟩
  | ior d a b =>
    obtain ⟨st', heq, hH'⟩ := ior_spec hH hfuel d a b
    simp only [exec, heq, bind, Except.bind]
    exact ⟨none, st', rfl, hH'⟩
  | clear p => exact ⟨none, _, rfl, hH.clear p⟩

/-- The sets of every state of a run. -/
theorem Run.holds (hrun : Run n st A) : Holds n st A := by
  induction hrun with
  | start h =>
    intro p
    obtain ⟨hsize, hmem, hidle⟩ := h p
    refine ⟨⟨?_, fun i hi => ?_, fun i hi => ?_, fun e => ?_⟩, hsize, hidle⟩
    · rw [hmem]
      exact Nat.zero_le _
    · rw [hmem] at hi
      exact absurd hi (Nat.not_lt_zero i)
    · rw [hmem] at hi
      exact absurd hi (Nat.not_lt_zero i)
    · simp [hmem]
  | step _ hlegal hfuel hexec ih =>
    obtain ⟨r', st'', heq, hH'⟩ := step_spec ih hlegal hfuel
    rw [hexec] at heq
    obtain ⟨-, rfl⟩ := Prod.mk.inj (Except.ok.inj heq)
    exact hH'

/-- **The contract of runs.** In every state of every run each set keeps its contract; every legal
call returns and goes on with the run; and `sparseset_pop` returns what it takes out exactly if the
word behind the last member of the dense array repeats that member.
Source: `sparseset.h`
Kind: P -/
theorem sparseset_contract (hrun : Run n st A) :
    (∀ p, Contract (st p) (A p)) ∧
      ∀ op fuel, Legal n A op → n < fuel → ∃ r st', exec fuel st op = .ok (r, st') ∧
        Run n st' (after st A op) ∧
        ∀ p, op = .pop p → (PopsMember (A p) (after st A op p) r ↔
          (st p).elms (st p).members = (st p).elms ((st p).members - 1)) := by
  have hH := hrun.holds
  refine ⟨fun p => ?_, fun op fuel hlegal hfuel => ?_⟩
  · obtain ⟨hv, -, -⟩ := hH p
    exact ⟨hv.listing.1, hv.listing.2, hv.back, fun e he => hv.bitP_eq he⟩
  · obtain ⟨r, st', heq, -⟩ := step_spec hH hlegal hfuel
    refine ⟨r, st', heq, hrun.step hlegal hfuel heq, ?_⟩
    rintro p rfl
    obtain ⟨hv, -, -⟩ := hH p
    obtain ⟨hpop, -, hmem⟩ := pop_spec hv hlegal
    simp only [exec, hpop, bind, Except.bind] at heq
    obtain ⟨rfl, -⟩ := Prod.mk.inj (Except.ok.inj heq)
    rw [after, Function.update_self]
    constructor
    · rintro ⟨e, heS, hr, hset⟩
      have hre : (st p).dense (st p).members = e := Option.some.inj hr
      by_contra hne
      -- the last member would have to stay
      have hin : (st p).dense ((st p).members - 1) ∈
          (A p).erase ((st p).dense ((st p).members - 1)) := by
        rw [hset]
        refine Finset.mem_erase.mpr ⟨fun heq => hne ?_, hmem⟩
        exact hre.trans heq.symm
      exact absurd rfl (Finset.ne_of_mem_erase hin)
    · intro hword
      have hword' : (st p).dense (st p).members = (st p).dense ((st p).members - 1) := hword
      exact ⟨_, hmem, by rw [hword'], rfl⟩

end Runs

/-! ## A stale word -/

section Stale

/-- A set of size 8 as `sparseset_alloc` returns it. Source: `sparseset.c` `sparseset_alloc`. -/
def allocated : SparseSet := ⟨fun _ => 0, 0, 8, 0, 0, false⟩

/-- The set after 3 has been set. Source: none: example. -/
def withThree : SparseSet := { sparsesetInsertBit allocated 3 0 with members := 1 }

/-- The set after 5 has been set, too. Source: none: example. -/
def withThreeFive : SparseSet := { sparsesetInsertBit withThree 5 1 with members := 2 }

/-- A program whose sets are all equal to one another but the first. Source: none: example. -/
def program (s : SparseSet) : State := Function.update (fun _ => allocated) 0 s

/-- What its first set holds. Source: none: example. -/
def holding (S : Finset ℕ) : ℕ → Finset ℕ := Function.update (fun _ => ∅) 0 S

/-- Two insertions are a run. Source: none: example. Kind: L -/
theorem run_threeFive : Run 8 (program withThreeFive) (holding {3, 5}) := by
  have hstart : Run 8 (fun _ => allocated) fun _ => ∅ := Run.start fun _ => ⟨rfl, rfl, rfl⟩
  have hthree : exec 9 (fun _ => allocated) (.setBit 0 3) = .ok (none, program withThree) := rfl
  have hlegal₁ : Legal 8 (fun _ => ∅) (.setBit 0 3) := show (3 : ℕ) < 8 by decide
  have hrun₁ := hstart.step hlegal₁ (Nat.lt_succ_self 8) hthree
  have hfive : exec 9 (program withThree) (.setBit 0 5) = .ok (none, program withThreeFive) := by
    have hset : sparsesetSetBit withThree 5 = .ok withThreeFive := rfl
    have hself : program withThree 0 = withThree := Function.update_self ..
    simp only [exec, hself, hset, bind, Except.bind]
    simp only [program, Function.update_idem]
  have hlegal₂ : Legal 8 (after (fun _ => allocated) (fun _ => ∅) (.setBit 0 3)) (.setBit 0 5) :=
    show (5 : ℕ) < 8 by decide
  have hrun₂ := hrun₁.step hlegal₂ (Nat.lt_succ_self 8) hfive
  have hset : after (program withThree) (after (fun _ => allocated) (fun _ => ∅) (.setBit 0 3))
      (.setBit 0 5) = holding {3, 5} := by
    simp only [after, holding, Function.update_self, Function.update_idem]
    rw [show insert 5 (insert 3 ∅) = ({3, 5} : Finset ℕ) by decide]
  rwa [hset] at hrun₂

/-- **The contract at work** on this set; 5 is taken out again by name.
Source: none: example
Kind: C -/
theorem sparseset_contract_threeFive :
    Contract withThreeFive {3, 5} ∧ ∃ r st', exec 9 (program withThreeFive) (.clearBit 0 5) =
      .ok (r, st') ∧ Run 8 st' (after (program withThreeFive) (holding {3, 5}) (.clearBit 0 5)) := by
  obtain ⟨hcontract, hcall⟩ := sparseset_contract run_threeFive
  obtain ⟨r, st', heq, hrun, -⟩ :=
    hcall (.clearBit 0 5) 9 (show (5 : ℕ) < 8 by decide) (Nat.lt_succ_self 8)
  exact ⟨hcontract 0, r, st', heq, hrun⟩

/-- **`sparseset_pop` reads behind the last member**: from `{3, 5}` it returns 0 and takes out 5.
Source: `sparseset.h` `sparseset_pop` (`return s->dense[mem]`)
Kind: C -/
theorem pop_returns_no_member :
    Run 8 (program withThreeFive) (holding {3, 5}) ∧ Legal 8 (holding {3, 5}) (.pop 0) ∧
      exec 9 (program withThreeFive) (.pop 0) =
        .ok (some 0, program { withThreeFive with members := 1 }) ∧
      ¬ PopsMember {3, 5} (after (program withThreeFive) (holding {3, 5}) (.pop 0) 0) (some 0) := by
  refine ⟨run_threeFive, ?_, ?_, ?_⟩
  · change ({3, 5} : Finset ℕ) ≠ ∅
    decide
  · have hpop : sparsesetPop withThreeFive = .ok (0, { withThreeFive with members := 1 }) := rfl
    have hself : program withThreeFive 0 = withThreeFive := Function.update_self ..
    simp only [exec, hself, hpop, bind, Except.bind]
    simp only [program, Function.update_idem]
  · rintro ⟨e, he, hr, -⟩
    obtain rfl : 0 = e := Option.some.inj hr
    revert he
    decide

end Stale

end GccCore.Gcc.Sparseset
