import GccCore.Gcc.FoldConst.DoubleWord

/-!
# `gcc/fold-const.c`: two-word division

`div_and_round_double` with its three short cuts, the short division by a half word, Knuth's
algorithm D over half-word digits, the sign fix-ups and the roundings.

* **The short division** (`shortDiv_spec`) and **the long division** (`longDiv_spec`) compute the
  quotient of the digit sequences. The long one keeps, at each step, the dividend as the digits
  found so far times the divisor plus what is left (`mainLoop_spec`); a step is right because the
  refined guess is at most one high (`Digits.quotient_estimate`) and the add-back takes that one
  back (`divStep_spec`).
* **The three short cuts agree with it** (`absQuo_toNat`).
-/

namespace GccCore.Gcc.FoldConst

open GccCore.Lib.Digits

variable {h : ℕ}

/-! ## The code -/

/-- The tree codes of the divisions.
Source: `fold-const.c` `div_and_round_double` (`switch (code)`) -/
inductive DivCode
  | TRUNC_DIV_EXPR
  | TRUNC_MOD_EXPR
  | EXACT_DIV_EXPR
  | FLOOR_DIV_EXPR
  | FLOOR_MOD_EXPR
  | CEIL_DIV_EXPR
  | CEIL_MOD_EXPR
  | ROUND_DIV_EXPR
  | ROUND_MOD_EXPR
  deriving DecidableEq, Repr

/-- The division by a divisor below `BASE`: digits `i - 1` down to `0` are still to do.
Source: `fold-const.c` `div_and_round_double` ("Special code for when the divisor < BASE") -/
def shortDiv (num : ℕ → Word h) (lden : Word h) : ℕ → Word h → (ℕ → Word h) → ℕ → Word h
  | 0, _, quo => quo
  | i + 1, carry, quo =>
    let work := num i + carry * base
    shortDiv num lden i (work % lden) (Function.update quo i (work / lden))

/-- The highest nonzero divisor digit, searched from `i` down.
Source: `fold-const.c` `div_and_round_double` ("Find the highest nonzero divisor digit") -/
def denHiSig (den : ℕ → Word h) : ℕ → ℕ
  | 0 => 0
  | i + 1 => if den (i + 1) ≠ 0 then i + 1 else denHiSig den i

/-- The scaling loop of the dividend after `i` passes: the carry and the words.
Source: `fold-const.c` `div_and_round_double` ("scale divisor and dividend") -/
def scaleLoop (scale : Word h) (a : ℕ → Word h) : ℕ → Word h × (ℕ → Word h)
  | 0 => (0, a)
  | i + 1 =>
    let (carry, a) := scaleLoop scale a i
    let work := a i * scale + carry
    (highpart work, Function.update a i (lowpart work))

/-- The scaling loop of the divisor, which also keeps the highest nonzero digit.
Source: `fold-const.c` `div_and_round_double` ("scale divisor and dividend") -/
def scaleDenLoop (scale : Word h) (den : ℕ → Word h) (hiSig : ℕ) :
    ℕ → Word h × (ℕ → Word h) × ℕ
  | 0 => (0, den, hiSig)
  | i + 1 =>
    let (carry, den, hiSig) := scaleDenLoop scale den hiSig i
    let work := den i * scale + carry
    (highpart work, Function.update den i (lowpart work), if lowpart work ≠ 0 then i else hiSig)

/-- The multiply-and-subtract loop after `j` passes: the carry and `num`.
Source: `fold-const.c` `div_and_round_double` ("Try QUO_EST as the quotient digit") -/
def mulSub (quoEst : Word h) (den : ℕ → Word h) (i : ℕ) (num : ℕ → Word h) :
    ℕ → Word h × (ℕ → Word h)
  | 0 => (0, num)
  | j + 1 =>
    let (carry, num) := mulSub quoEst den i num j
    let work := quoEst * den j + carry
    let carry := highpart work
    let work := num (i + j) - lowpart work
    (carry + (if highpart work ≠ 0 then 1 else 0), Function.update num (i + j) (lowpart work))

/-- The add-back loop after `j` passes.
Source: `fold-const.c` `div_and_round_double` ("add divisor back in") -/
def addBack (den : ℕ → Word h) (i : ℕ) (num : ℕ → Word h) : ℕ → Word h × (ℕ → Word h)
  | 0 => (0, num)
  | j + 1 =>
    let (carry, num) := addBack den i num j
    let work := num (i + j) + den j + carry
    (highpart work, Function.update num (i + j) (lowpart work))

/-- The guess of a quotient digit, refined once.
Source: `fold-const.c` `div_and_round_double` ("Guess the next quotient digit, quo_est") -/
def quoEst (den num : ℕ → Word h) (d numHiSig : ℕ) : Word h :=
  let work := num numHiSig * base + num (numHiSig - 1)
  let est := if num numHiSig ≠ den d then work / den d else base - 1
  let tmp := work - est * den d
  if tmp < base ∧ den (d - 1) * est > tmp * base + num (numHiSig - 2) then est - 1 else est

/-- One pass of the main loop: the quotient digit and `num` afterwards.
Source: `fold-const.c` `div_and_round_double` ("Main loop") -/
def divStep (den : ℕ → Word h) (d i : ℕ) (num : ℕ → Word h) : Word h × (ℕ → Word h) :=
  let numHiSig := i + d + 1
  let est := quoEst den num d numHiSig
  let (carry, num) := mulSub est den i num (d + 1)
  if (num numHiSig).slt carry then
    -- the digit was high by one
    let (carry, num) := addBack den i num (d + 1)
    (est - 1, Function.update num numHiSig (num numHiSig + carry))
  else (est, num)

/-- The main loop: digits `i - 1` down to `0` are still to do.
Source: `fold-const.c` `div_and_round_double` ("Main loop") -/
def mainLoop (den : ℕ → Word h) (d : ℕ) : ℕ → (ℕ → Word h) → (ℕ → Word h) → ℕ → Word h
  | 0, _, quo => quo
  | i + 1, num, quo =>
    let (est, num) := divStep den d i num
    mainLoop den d i num (Function.update quo i est)

/-- The full double precision division.
Source: `fold-const.c` `div_and_round_double` ("Full double precision division") -/
def longDiv (num den : ℕ → Word h) : ℕ → Word h :=
  let d := denHiSig den 3
  let scale := base / (den d + 1)
  if scale > 1 then
    let (carry, num) := scaleLoop scale num 4
    let (_, den, d) := scaleDenLoop scale den d 4
    mainLoop den d (4 - d) (Function.update num 4 carry) fun _ => 0
  else mainLoop den d (4 - d) num fun _ => 0

/-- The quotient of the absolute values.
Source: `fold-const.c` `div_and_round_double`, up to `finish_up` -/
def absQuo (num den : DoubleWord h) : DoubleWord h :=
  if num.high = 0 ∧ den.high = 0 then ⟨num.low / den.low, 0⟩
  else if num.high = 0 then ⟨0, 0⟩
  else if den.high = 0 ∧ den.low < base then
    decode (shortDiv (encode num) den.low 4 0 fun _ => 0)
  else decode (longDiv (encode num) (encode den))

/-- The remainder that goes with a quotient.
Source: `fold-const.c` `div_and_round_double` ("rem = num - (quo * den)") -/
def remOf (num quo den : DoubleWord h) : DoubleWord h :=
  (addDouble num (negDouble (mulDouble quo den).1).1).1

/-- The absolute value of an operand, if it is signed.
Source: `fold-const.c` `div_and_round_double` ("convert operands to unsigned") -/
def absOperand (uns : Bool) (x : DoubleWord h) : DoubleWord h :=
  if !uns && x.high.msb then (negDouble x).1 else x

/-- `quo_neg`: has exactly one operand been negated?
Source: `fold-const.c` `div_and_round_double` (`quo_neg = ~ quo_neg`) -/
def quoNeg (uns : Bool) (num den : DoubleWord h) : Bool :=
  (!uns && num.high.msb) != (!uns && den.high.msb)

/-- The quotient as it stands at `finish_up`, with its sign.
Source: `fold-const.c` `div_and_round_double` (`if (quo_neg) neg_double (…)`) -/
def truncQuo (uns : Bool) (num den : DoubleWord h) : DoubleWord h :=
  let quo := absQuo (absOperand uns num) (absOperand uns den)
  if quoNeg uns num den then (negDouble quo).1 else quo

/-- Quotient, remainder and overflow flag.
Source: `fold-const.c` `div_and_round_double` -/
def divAndRoundDouble (code : DivCode) (uns : Bool) (numOrig denOrig : DoubleWord h) :
    DoubleWord h × DoubleWord h × Bool :=
  let zero := denOrig.high = 0 ∧ denOrig.low = 0
  let den := if zero then ⟨1, denOrig.high⟩ else denOrig
  let overflow := decide zero || ((!uns && numOrig.high.msb) && (negDouble numOrig).2 &&
    decide (den.low &&& den.high = -1))
  let neg := quoNeg uns numOrig den
  let quo := truncQuo uns numOrig den
  let rem := remOf numOrig quo denOrig
  let adjust := fun one : DoubleWord h =>
    let quo := (addDouble quo one).1
    (quo, remOf numOrig quo denOrig, overflow)
  match code with
  | .TRUNC_DIV_EXPR | .TRUNC_MOD_EXPR | .EXACT_DIV_EXPR => (quo, rem, overflow)
  | .FLOOR_DIV_EXPR | .FLOOR_MOD_EXPR =>
    if neg = true ∧ (rem.low ≠ 0 ∨ rem.high ≠ 0) then adjust ⟨-1, -1⟩ else (quo, rem, overflow)
  | .CEIL_DIV_EXPR | .CEIL_MOD_EXPR =>
    if neg = false ∧ (rem.low ≠ 0 ∨ rem.high ≠ 0) then adjust ⟨1, 0⟩ else (quo, rem, overflow)
  | .ROUND_DIV_EXPR | .ROUND_MOD_EXPR =>
    let den := absOperand uns den
    let absRem := if rem.high.msb then (negDouble rem).1 else rem
    let absDen := if den.high.msb then (negDouble den).1 else den
    let twice := (mulDouble ⟨2, 0⟩ absRem).1
    -- 2 * abs (rem) >= abs (den)
    if absDen.high < twice.high ∨ (absDen.high = twice.high ∧ absDen.low ≤ twice.low) then
      if quo.high.msb then adjust ⟨-1, -1⟩ else adjust ⟨1, 0⟩
    else (quo, rem, overflow)

/-! ## The short division -/

section Loops

variable (hh : 0 < h)

include hh

/-- **The short division**: the digits above `i` being done with remainder `carry`, the loop stores
the digits of the quotient of what is left.
Source: `fold-const.c` `div_and_round_double`
Kind: L -/
theorem shortDiv_spec {num : ℕ → Word h} {lden : Word h} (hn : ∀ t, digit num t < 2 ^ h)
    (hlden : lden.toNat ≤ 2 ^ h) {i : ℕ} {carry : Word h} (quo : ℕ → Word h)
    (hc : carry.toNat < lden.toNat) :
    (∀ t, digit (shortDiv num lden i carry quo) t < 2 ^ h ∨ i ≤ t) ∧
      (∀ t, i ≤ t → shortDiv num lden i carry quo t = quo t) ∧
      val (2 ^ h) (digit (shortDiv num lden i carry quo)) i =
        (val (2 ^ h) (digit num) i + carry.toNat * (2 ^ h) ^ i) / lden.toNat := by
  induction i generalizing carry quo with
  | zero => simp [shortDiv, Nat.div_eq_of_lt hc]
  | succ i ih =>
    have hpos : 0 < lden.toNat := by omega
    have hwork : (num i + carry * base).toNat = digit num i + carry.toNat * 2 ^ h := by
      have h1 := hn i
      have h2 : (carry.toNat + 1) * 2 ^ h ≤ 2 ^ h * 2 ^ h := Nat.mul_le_mul_right _ (by omega)
      rw [BitVec.toNat_add, BitVec.toNat_mul, base_toNat hh, Nat.add_mod_mod]
      refine Nat.mod_eq_of_lt ?_
      rw [two_pow_two_mul]
      unfold digit at *
      linarith [add_one_mul carry.toNat (2 ^ h)]
    have hmod : ((num i + carry * base) % lden).toNat < lden.toNat := by
      rw [BitVec.toNat_umod]
      exact Nat.mod_lt _ hpos
    have hquo : ((num i + carry * base) / lden).toNat < 2 ^ h := by
      rw [BitVec.toNat_udiv, hwork, Nat.div_lt_iff_lt_mul hpos]
      have h1 := hn i
      have h2 : (carry.toNat + 1) * 2 ^ h ≤ lden.toNat * 2 ^ h := Nat.mul_le_mul_right _ hc
      linarith [add_one_mul carry.toNat (2 ^ h), mul_comm (2 ^ h) lden.toNat]
    obtain ⟨hd, hsame, hval⟩ := ih (Function.update quo i ((num i + carry * base) / lden)) hmod
    rw [shortDiv]
    refine ⟨fun t => ?_, fun t ht => ?_, ?_⟩
    · rcases lt_trichotomy t i with ht | rfl | ht
      · exact .inl ((hd t).resolve_right (by omega))
      · left
        unfold digit
        rw [hsame t le_rfl, Function.update_self]
        exact hquo
      · exact .inr (by omega)
    · rw [hsame t (by omega), Function.update_of_ne (by omega)]
    · have htop : digit (shortDiv num lden i ((num i + carry * base) % lden)
          (Function.update quo i ((num i + carry * base) / lden))) i =
          (digit num i + carry.toNat * 2 ^ h) / lden.toNat := by
        unfold digit
        rw [hsame i le_rfl, Function.update_self, BitVec.toNat_udiv, hwork]
        rfl
      rw [val_succ, val_succ, hval, htop, BitVec.toNat_umod, hwork]
      generalize hw : digit num i + carry.toNat * 2 ^ h = w
      have hsplit := Nat.div_add_mod w lden.toNat
      have hsum : val (2 ^ h) (digit num) i + digit num i * (2 ^ h) ^ i +
          carry.toNat * (2 ^ h) ^ (i + 1) =
          val (2 ^ h) (digit num) i + w % lden.toNat * (2 ^ h) ^ i +
            lden.toNat * (w / lden.toNat * (2 ^ h) ^ i) := by
        rw [← hw] at hsplit ⊢
        rw [pow_succ']
        linear_combination (2 ^ h) ^ i * hsplit.symm
      rw [hsum, Nat.add_mul_div_left _ _ hpos]

/-! ## Scaling -/

omit hh in
/-- The search finds the highest nonzero digit. Source: `fold-const.c`. Kind: L -/
theorem denHiSig_spec (den : ℕ → Word h) (i : ℕ) (hne : ∃ t ≤ i, den t ≠ 0) :
    denHiSig den i ≤ i ∧ den (denHiSig den i) ≠ 0 ∧
      ∀ t, denHiSig den i < t → t ≤ i → den t = 0 := by
  induction i with
  | zero =>
    obtain ⟨t, ht, hden⟩ := hne
    obtain rfl : t = 0 := by omega
    exact ⟨le_rfl, hden, fun t h1 h2 => absurd h1 (by simpa [denHiSig] using h2)⟩
  | succ i ih =>
    by_cases hi : den (i + 1) ≠ 0
    · rw [denHiSig, if_pos hi]
      exact ⟨le_rfl, hi, fun t h1 h2 => absurd h1 (by omega)⟩
    · obtain ⟨t, ht, hden⟩ := hne
      have hti : t ≤ i := by
        by_contra hlt
        obtain rfl : t = i + 1 := by omega
        exact hi hden
      obtain ⟨h1, h2, h3⟩ := ih ⟨t, hti, hden⟩
      rw [denHiSig, if_neg hi]
      refine ⟨by omega, h2, fun t h4 h5 => ?_⟩
      rcases Nat.lt_or_ge t (i + 1) with h6 | h6
      · exact h3 t h4 (by omega)
      · obtain rfl : t = i + 1 := by omega
        exact not_not.mp hi

/-- The loop multiplies the words by `scale`. Source: `fold-const.c`. Kind: L -/
theorem scaleLoop_spec {scale : Word h} {a : ℕ → Word h} (hs : scale.toNat < 2 ^ h)
    (ha : ∀ t, digit a t < 2 ^ h) (i : ℕ) :
    let (carry, a') := scaleLoop scale a i
    carry.toNat < 2 ^ h ∧ (∀ t, digit a' t < 2 ^ h) ∧ (∀ t, i ≤ t → a' t = a t) ∧
      val (2 ^ h) (digit a') i + carry.toNat * (2 ^ h) ^ i =
        scale.toNat * val (2 ^ h) (digit a) i := by
  induction i with
  | zero => simp [scaleLoop, ha]
  | succ i ih =>
    rcases hrow : scaleLoop scale a i with ⟨carry, a'⟩
    rw [hrow] at ih
    obtain ⟨hc, hd, hsame, hval⟩ := ih
    simp only [scaleLoop, hrow]
    have hwork : (a' i * scale + carry).toNat = digit a' i * scale.toNat + carry.toNat := by
      have hlt := mul_add_lt (hd i) hs hc (Nat.two_pow_pos h)
      rw [← two_pow_two_mul] at hlt
      rw [BitVec.toNat_add, BitVec.toNat_mul, Nat.mod_add_mod]
      exact Nat.mod_eq_of_lt (by simpa [digit] using hlt)
    have hsplit := lowpart_add_highpart hh (a' i * scale + carry)
    rw [hwork, show digit a' i = digit a i by unfold digit; rw [hsame i le_rfl]] at hsplit
    refine ⟨highpart_lt _, fun t => ?_, fun t ht => ?_, ?_⟩
    · rw [digit_update, Function.update_apply]
      split_ifs
      · exact lowpart_lt hh _
      · exact hd t
    · rw [Function.update_of_ne (by omega), hsame t (by omega)]
    · rw [digit_update, val_succ, val_succ, val_update_of_le _ le_rfl, Function.update_self,
        pow_succ']
      linear_combination hval + (2 ^ h) ^ i * hsplit

omit hh in
/-- The divisor's loop is the dividend's, and finds the highest nonzero digit it has stored.
Source: `fold-const.c`
Kind: L -/
theorem scaleDenLoop_eq (scale : Word h) (den : ℕ → Word h) (d i : ℕ) :
    (scaleDenLoop scale den d i).1 = (scaleLoop scale den i).1 ∧
      (scaleDenLoop scale den d i).2.1 = (scaleLoop scale den i).2 ∧
      ∀ k < i, (scaleLoop scale den i).2 k ≠ 0 →
        (∀ t, k < t → t < i → (scaleLoop scale den i).2 t = 0) →
        (scaleDenLoop scale den d i).2.2 = k := by
  induction i with
  | zero => exact ⟨rfl, rfl, fun k hk => absurd hk (by omega)⟩
  | succ i ih =>
    obtain ⟨h1, h2, h3⟩ := ih
    simp only [scaleDenLoop, scaleLoop]
    rw [h1, h2]
    refine ⟨rfl, rfl, fun k hk hne htop => ?_⟩
    rcases eq_or_ne k i with rfl | hki
    · rw [Function.update_self] at hne
      rw [if_pos hne]
    · have hzero := htop i (by omega) (by omega)
      rw [Function.update_self] at hzero
      rw [if_neg (not_not.mpr hzero)]
      refine h3 k (by omega) ?_ fun t ht hti => ?_
      · rwa [Function.update_of_ne hki] at hne
      · have := htop t ht (by omega)
        rwa [Function.update_of_ne (by omega)] at this

/-! ## One quotient digit -/

/-- **Multiply and subtract**: the digits from `i` on lose `quoEst * den`, the borrow being the
carry that is left.
Source: `fold-const.c` `div_and_round_double`
Kind: L -/
theorem mulSub_spec {q : Word h} {den num : ℕ → Word h} {m : ℕ} (hq : q.toNat < 2 ^ h)
    (hden : ∀ t, digit den t < 2 ^ h) (hnum : ∀ t < m, digit num t < 2 ^ h) (i j : ℕ)
    (hm : i + j ≤ m) :
    let (carry, num') := mulSub q den i num j
    carry.toNat < 2 ^ h ∧ (∀ t < m, digit num' t < 2 ^ h) ∧
      (∀ t, t < i ∨ i + j ≤ t → num' t = num t) ∧
      val (2 ^ h) (fun t => digit num' (i + t)) j + q.toNat * val (2 ^ h) (digit den) j =
        val (2 ^ h) (fun t => digit num (i + t)) j + carry.toNat * (2 ^ h) ^ j := by
  have hB : 2 ≤ 2 ^ h := by
    calc 2 = 2 ^ 1 := rfl
      _ ≤ 2 ^ h := Nat.pow_le_pow_right (by norm_num) hh
  induction j with
  | zero => exact ⟨by simp, hnum, fun _ _ => rfl, by simp⟩
  | succ j ih =>
    have ih := ih (by omega)
    rcases hrow : mulSub q den i num j with ⟨carry, num'⟩
    rw [hrow] at ih
    obtain ⟨hc, hd, hsame, hval⟩ := ih
    simp only [mulSub, hrow]
    set work := q * den j + carry with hworkdef
    have hwork : work.toNat = q.toNat * digit den j + carry.toNat := by
      have hlt := mul_add_lt hq (hden j) hc (Nat.two_pow_pos h)
      rw [← two_pow_two_mul] at hlt
      rw [hworkdef, BitVec.toNat_add, BitVec.toNat_mul, Nat.mod_add_mod]
      exact Nat.mod_eq_of_lt (by simpa [digit] using hlt)
    have hdiff : (num' (i + j) - lowpart work).toNat =
        (digit num' (i + j) + 2 ^ h * 2 ^ h - work.toNat % 2 ^ h) % (2 ^ h * 2 ^ h) := by
      have hlow := lowpart_toNat hh work
      have := (lowpart work).isLt
      rw [BitVec.toNat_sub, hlow, ← two_pow_two_mul]
      unfold digit
      congr 1
      omega
    have hstep := sub_step (w := work.toNat) hB (hd (i + j) (by omega))
    have hdig : digit num' (i + j) = digit num (i + j) := by
      unfold digit
      rw [hsame (i + j) (by omega)]
    -- the borrow out of the digit is what the test of the high part finds
    have hborrow : (highpart work + if highpart (num' (i + j) - lowpart work) ≠ 0 then 1 else 0 :
        Word h).toNat = work.toNat / 2 ^ h + if (digit num' (i + j) + 2 ^ h * 2 ^ h -
          work.toNat % 2 ^ h) % (2 ^ h * 2 ^ h) / 2 ^ h ≠ 0 then 1 else 0 := by
      have hiff : highpart (num' (i + j) - lowpart work) ≠ 0 ↔ (digit num' (i + j) +
          2 ^ h * 2 ^ h - work.toNat % 2 ^ h) % (2 ^ h * 2 ^ h) / 2 ^ h ≠ 0 := by
        rw [← hdiff, ← highpart_toNat, ne_eq, ne_eq, ← BitVec.toNat_inj]
        simp
      have hhigh := highpart_toNat work
      have hlt := highpart_lt work
      by_cases hb : highpart (num' (i + j) - lowpart work) ≠ 0
      · rw [if_pos hb, if_pos (hiff.mp hb), BitVec.toNat_add, one_toNat hh, hhigh]
        refine Nat.mod_eq_of_lt ?_
        have : 2 ^ h < 2 ^ (2 * h) := Nat.pow_lt_pow_right (by norm_num) (by omega)
        omega
      · rw [if_neg hb, if_neg (fun hc => hb (hiff.mpr hc)), Nat.add_zero, ← hhigh]
        exact congrArg BitVec.toNat (BitVec.add_zero _)
    rw [← hborrow] at hstep
    have hnewval : (lowpart (num' (i + j) - lowpart work)).toNat =
        (digit num' (i + j) + 2 ^ h * 2 ^ h - work.toNat % 2 ^ h) % (2 ^ h * 2 ^ h) % 2 ^ h := by
      rw [lowpart_toNat hh, hdiff]
    rw [← hnewval, hwork, hdig] at hstep
    set carry' := (highpart work + if highpart (num' (i + j) - lowpart work) ≠ 0 then 1 else 0 :
      Word h) with hcarry'
    have hvalnew : val (2 ^ h) (fun t => digit (Function.update num' (i + j)
        (lowpart (num' (i + j) - lowpart work))) (i + t)) (j + 1) +
        q.toNat * val (2 ^ h) (digit den) (j + 1) =
        val (2 ^ h) (fun t => digit num (i + t)) (j + 1) + carry'.toNat * (2 ^ h) ^ (j + 1) := by
      have hbelow : val (2 ^ h) (fun t => digit (Function.update num' (i + j)
          (lowpart (num' (i + j) - lowpart work))) (i + t)) j =
          val (2 ^ h) (fun t => digit num' (i + t)) j := by
        refine val_congr fun t ht => ?_
        rw [digit_update, Function.update_of_ne (by omega)]
      rw [val_succ, hbelow, val_succ, val_succ, digit_update, Function.update_self, pow_succ']
      linear_combination hval + (2 ^ h) ^ j * hstep
    have hdnew : ∀ t < m, digit (Function.update num' (i + j)
        (lowpart (num' (i + j) - lowpart work))) t < 2 ^ h := by
      intro t ht
      rw [digit_update, Function.update_apply]
      split_ifs
      · exact lowpart_lt hh _
      · exact hd t ht
    refine ⟨?_, hdnew, fun t ht => ?_, hvalnew⟩
    · -- the carry is a digit since the product of a digit with `den` is below the next power
      have h1 := val_lt (B := 2 ^ h) (n := j + 1) fun t ht => hdnew (i + t) (by omega)
      have h2 := val_lt (B := 2 ^ h) (n := j + 1) fun t _ => hden t
      by_contra hge
      have h3 : 2 ^ h * (2 ^ h) ^ (j + 1) ≤ carry'.toNat * (2 ^ h) ^ (j + 1) :=
        Nat.mul_le_mul_right _ (not_lt.mp hge)
      have h4 : (q.toNat + 1) * (2 ^ h) ^ (j + 1) ≤ 2 ^ h * (2 ^ h) ^ (j + 1) :=
        Nat.mul_le_mul_right _ hq
      have h5 : q.toNat * val (2 ^ h) (digit den) (j + 1) ≤ q.toNat * (2 ^ h) ^ (j + 1) :=
        Nat.mul_le_mul_left _ h2.le
      linarith [add_one_mul q.toNat ((2 ^ h) ^ (j + 1))]
    · rw [Function.update_of_ne (by omega), hsame t (by omega)]

/-- **Add back**: the digits from `i` on gain `den`, up to the carry out.
Source: `fold-const.c` `div_and_round_double`
Kind: L -/
theorem addBack_spec {den num : ℕ → Word h} {m : ℕ} (hden : ∀ t, digit den t < 2 ^ h)
    (hnum : ∀ t < m, digit num t < 2 ^ h) (i j : ℕ) (hm : i + j ≤ m) :
    let (carry, num') := addBack den i num j
    carry.toNat ≤ 1 ∧ (∀ t < m, digit num' t < 2 ^ h) ∧
      (∀ t, t < i ∨ i + j ≤ t → num' t = num t) ∧
      val (2 ^ h) (fun t => digit num' (i + t)) j + carry.toNat * (2 ^ h) ^ j =
        val (2 ^ h) (fun t => digit num (i + t)) j + val (2 ^ h) (digit den) j := by
  induction j with
  | zero => exact ⟨by simp, hnum, fun _ _ => rfl, by simp⟩
  | succ j ih =>
    have ih := ih (by omega)
    rcases hrow : addBack den i num j with ⟨carry, num'⟩
    rw [hrow] at ih
    obtain ⟨hc, hd, hsame, hval⟩ := ih
    simp only [addBack, hrow]
    have h1 := hd (i + j) (by omega)
    have h2 := hden j
    have hwork : (num' (i + j) + den j + carry).toNat =
        digit num' (i + j) + digit den j + carry.toNat := by
      have h3 : 2 ^ h * 2 ≤ 2 ^ h * 2 ^ h :=
        Nat.mul_le_mul_left _ (Nat.pow_le_pow_right (by norm_num) hh : 2 ^ 1 ≤ 2 ^ h)
      rw [← two_pow_two_mul] at h3
      rw [BitVec.toNat_add, BitVec.toNat_add, Nat.mod_add_mod]
      unfold digit at *
      exact Nat.mod_eq_of_lt (by omega)
    have hsplit := lowpart_add_highpart hh (num' (i + j) + den j + carry)
    have hdig : digit num' (i + j) = digit num (i + j) := by
      unfold digit
      rw [hsame (i + j) (by omega)]
    rw [hwork] at hsplit
    refine ⟨?_, fun t ht => ?_, fun t ht => ?_, ?_⟩
    · rw [highpart_toNat, hwork]
      exact Nat.lt_succ_iff.mp ((Nat.div_lt_iff_lt_mul (by positivity)).mpr (by omega))
    · rw [digit_update, Function.update_apply]
      split_ifs
      · exact lowpart_lt hh _
      · exact hd t ht
    · rw [Function.update_of_ne (by omega), hsame t (by omega)]
    · have hbelow : val (2 ^ h) (fun t => digit (Function.update num' (i + j)
          (lowpart (num' (i + j) + den j + carry))) (i + t)) j =
          val (2 ^ h) (fun t => digit num' (i + t)) j := by
        refine val_congr fun t ht => ?_
        rw [digit_update, Function.update_of_ne (by omega)]
      rw [val_succ, hbelow, val_succ, val_succ, digit_update, Function.update_self, pow_succ']
      rw [hdig] at hsplit
      linear_combination hval + (2 ^ h) ^ j * hsplit

/-- The guess of the source is the refined guess over the digits.
Source: `fold-const.c` `div_and_round_double`
Kind: L -/
theorem quoEst_toNat {den num : ℕ → Word h} {d k : ℕ} (hden : ∀ t, digit den t < 2 ^ h)
    (h0 : digit num k ≤ digit den d) (h1 : digit num (k - 1) < 2 ^ h)
    (h2 : digit num (k - 2) < 2 ^ h) (hpos : 0 < digit den d) :
    (quoEst den num d k).toNat = refined (2 ^ h) (digit den d) (digit den (d - 1)) (digit num k)
      (digit num (k - 1)) (digit num (k - 2)) := by
  have hB : 0 < 2 ^ h := by positivity
  have hW := two_pow_two_mul h
  have hBW : 2 ^ h < 2 ^ (2 * h) := Nat.pow_lt_pow_right (by norm_num) (by omega)
  have hd := hden d
  obtain ⟨hgB, hgmul⟩ := guess_spec hB hpos h0 hd h1
  -- the two leading digits fit a word, and the guess times the divisor's is below them
  have hworklt : digit num k * 2 ^ h + digit num (k - 1) < 2 ^ (2 * h) := by
    have : (digit num k + 1) * 2 ^ h ≤ 2 ^ h * 2 ^ h := Nat.mul_le_mul_right _ (by omega)
    linarith [add_one_mul (digit num k) (2 ^ h)]
  set work := num k * base + num (k - 1) with hworkdef
  have hwork : work.toNat = digit num k * 2 ^ h + digit num (k - 1) := by
    rw [hworkdef, BitVec.toNat_add, BitVec.toNat_mul, base_toNat hh, Nat.mod_add_mod]
    exact Nat.mod_eq_of_lt hworklt
  set est := if num k ≠ den d then work / den d else base - 1 with hestdef
  have hest : est.toNat = guess (2 ^ h) (digit den d) (digit num k) (digit num (k - 1)) := by
    have hiff : num k ≠ den d ↔ digit num k ≠ digit den d := by
      unfold digit
      rw [ne_eq, ne_eq, BitVec.toNat_inj]
    unfold guess
    rw [hestdef]
    by_cases hne : num k ≠ den d
    · rw [if_pos hne, if_pos (hiff.mp hne), BitVec.toNat_udiv, hwork]
      rfl
    · rw [if_neg hne, if_neg (fun hc => hne (hiff.mpr hc)), BitVec.toNat_sub, base_toNat hh,
        one_toNat hh, show 2 ^ (2 * h) - 1 + 2 ^ h = 2 ^ h - 1 + 2 ^ (2 * h) by omega,
        Nat.add_mod_right]
      exact Nat.mod_eq_of_lt (by omega)
  generalize hg : guess (2 ^ h) (digit den d) (digit num k) (digit num (k - 1)) = g at *
  have hmul : (est * den d).toNat = g * digit den d := by
    rw [BitVec.toNat_mul, hest]
    exact Nat.mod_eq_of_lt (by unfold digit at *; omega)
  set tmp := work - est * den d with htmpdef
  have htmp : tmp.toNat = digit num k * 2 ^ h + digit num (k - 1) - g * digit den d := by
    have hle : est * den d ≤ work := by rw [BitVec.le_def, hmul, hwork]; exact hgmul
    rw [htmpdef, BitVec.toNat_sub_of_le hle, hmul, hwork]
  have hprod : (den (d - 1) * est).toNat = digit den (d - 1) * g := by
    rw [BitVec.toNat_mul, hest]
    refine Nat.mod_eq_of_lt ?_
    rw [hW]
    exact Nat.mul_lt_mul'' (hden (d - 1)) hgB
  have hiff : (tmp < base ∧ den (d - 1) * est > tmp * base + num (k - 2)) ↔
      (digit num k * 2 ^ h + digit num (k - 1) - g * digit den d < 2 ^ h ∧
        digit den (d - 1) * g > (digit num k * 2 ^ h + digit num (k - 1) - g * digit den d) *
          2 ^ h + digit num (k - 2)) := by
    rw [BitVec.lt_def, base_toNat hh, htmp]
    refine and_congr_right fun hlt => ?_
    have hsum : (tmp * base + num (k - 2)).toNat = (digit num k * 2 ^ h + digit num (k - 1) -
        g * digit den d) * 2 ^ h + digit num (k - 2) := by
      rw [BitVec.toNat_add, BitVec.toNat_mul, base_toNat hh, htmp, Nat.mod_add_mod]
      refine Nat.mod_eq_of_lt ?_
      generalize digit num k * 2 ^ h + digit num (k - 1) - g * digit den d = r at hlt
      have : (r + 1) * 2 ^ h ≤ 2 ^ h * 2 ^ h := Nat.mul_le_mul_right _ hlt
      unfold digit at h2
      linarith [add_one_mul r (2 ^ h)]
    rw [gt_iff_lt, BitVec.lt_def, hsum, hprod]
  unfold quoEst refined
  simp only [← hworkdef, ← hestdef, ← htmpdef, hg]
  by_cases hfire : tmp < base ∧ den (d - 1) * est > tmp * base + num (k - 2)
  · have hpos' : 0 < g := by
      rcases Nat.eq_zero_or_pos g with h0 | hpos'
      · have := (hiff.mp hfire).2
        rw [h0] at this
        omega
      · exact hpos'
    rw [if_pos hfire, if_pos (hiff.mp hfire), BitVec.toNat_sub_of_le, hest, one_toNat hh]
    rw [BitVec.le_def, one_toNat hh, hest]
    exact hpos'
  · rw [if_neg hfire, if_neg (fun hc => hfire (hiff.mpr hc)), hest]

/-- The signed comparison of two digits. -/
theorem slt_of_digits {x y : Word h} (hx : x.toNat < 2 ^ h) (hy : y.toNat < 2 ^ h) :
    x.slt y = decide (x.toNat < y.toNat) := by
  have hmsb : ∀ z : Word h, z.toNat < 2 ^ h → z.msb = false := by
    intro z hz
    rw [BitVec.msb_eq_decide, decide_eq_false_iff_not, not_le]
    exact lt_of_lt_of_le hz (Nat.pow_le_pow_right (by norm_num) (by omega))
  rw [BitVec.slt_eq_ult_of_msb_eq (by rw [hmsb x hx, hmsb y hy])]
  rfl

/-- **One quotient digit**: the pass finds the quotient of the `d + 2` leading digits, and leaves
their remainder in the `d + 1` lower of them.
Source: `fold-const.c` `div_and_round_double` ("Main loop")
Kind: L -/
theorem divStep_spec {den num : ℕ → Word h} {d i X V : ℕ} (hd1 : 1 ≤ d)
    (hden : ∀ t, digit den t < 2 ^ h) (hnorm : 2 ^ h ≤ 2 * digit den d)
    (hnum : ∀ t < i + d + 2, digit num t < 2 ^ h)
    (hV : V = val (2 ^ h) (digit den) (d + 1))
    (hX : X = val (2 ^ h) (fun t => digit num (i + t)) (d + 2)) (hlt : X < V * 2 ^ h) :
    let (q, num') := divStep den d i num
    q.toNat = X / V ∧ q.toNat < 2 ^ h ∧ (∀ t < i + d + 1, digit num' t < 2 ^ h) ∧
      (∀ t < i, num' t = num t) ∧
      val (2 ^ h) (fun t => digit num' (i + t)) (d + 1) = X % V := by
  have hB : 0 < 2 ^ h := by positivity
  have hpos : 0 < digit den d := by omega
  have hVpos : 0 < V := Nat.pos_of_ne_zero fun h0 => by simp [h0] at hlt
  -- the divisor and the dividend by their leading digits
  have hVsplit : V = (digit den d * 2 ^ h + digit den (d - 1)) * (2 ^ h) ^ (d - 1) +
      val (2 ^ h) (digit den) (d - 1) := by
    obtain ⟨d, rfl⟩ := Nat.exists_eq_add_of_le' hd1
    rw [hV, val_succ, val_succ, Nat.add_sub_cancel, pow_succ]
    ring
  have hXsplit : X = (digit num (i + d + 1) * 2 ^ h * 2 ^ h + digit num (i + d) * 2 ^ h +
      digit num (i + d - 1)) * (2 ^ h) ^ (d - 1) +
      val (2 ^ h) (fun t => digit num (i + t)) (d - 1) := by
    obtain ⟨d, rfl⟩ := Nat.exists_eq_add_of_le' hd1
    rw [hX, val_succ, val_succ, val_succ, Nat.add_sub_cancel, pow_succ, pow_succ,
      show i + (d + 1) - 1 = i + d by omega, show i + (d + 1) + 1 = i + (d + 1 + 1) by omega]
    ring
  have hVlow := val_lt (B := 2 ^ h) (n := d - 1) fun t _ => hden t
  have hXlow := val_lt (B := 2 ^ h) (n := d - 1) (a := fun t => digit num (i + t))
    fun t ht => hnum (i + t) (by omega)
  have hVlt : V < (digit den d + 1) * (2 ^ h) ^ d := by
    have := val_lt (B := 2 ^ h) (n := d) fun t _ => hden t
    rw [hV, val_succ]
    linarith [add_one_mul (digit den d) ((2 ^ h) ^ d)]
  have hXtop : X = val (2 ^ h) (fun t => digit num (i + t)) (d + 1) +
      digit num (i + d + 1) * (2 ^ h) ^ (d + 1) := hX
  have h0 : digit num (i + d + 1) ≤ digit den d := by
    by_contra hgt
    have h1 : (digit den d + 1) * (2 ^ h) ^ (d + 1) ≤
        digit num (i + d + 1) * (2 ^ h) ^ (d + 1) := Nat.mul_le_mul_right _ (by omega)
    have h2 : V * 2 ^ h ≤ (digit den d + 1) * (2 ^ h) ^ d * 2 ^ h :=
      Nat.mul_le_mul_right _ hVlt.le
    rw [mul_assoc, ← pow_succ] at h2
    omega
  have hest := quoEst_toNat hh (k := i + d + 1) hden h0 (hnum _ (by omega)) (hnum _ (by omega))
    hpos
  rw [show i + d + 1 - 1 = i + d by omega, show i + d + 1 - 2 = i + d - 1 by omega] at hest
  obtain ⟨hle, hle1, hlB⟩ := quotient_estimate hVsplit hVlow hXsplit hXlow hnorm (hden d)
    (hden (d - 1)) (hnum _ (by omega)) (hnum _ (by omega)) h0 hlt
  rw [← hest] at hle hle1 hlB
  generalize hq : quoEst den num d (i + d + 1) = q at hle hle1 hlB
  have hsub := mulSub_spec hh hlB hden hnum i (d + 1) (by omega)
  rcases hms : mulSub q den i num (d + 1) with ⟨carry, num₁⟩
  rw [hms] at hsub
  obtain ⟨hc, hd₁, hsame₁, hval₁⟩ := hsub
  have htop : digit num₁ (i + d + 1) = digit num (i + d + 1) := by
    unfold digit
    rw [hsame₁ _ (by omega)]
  have hdivmod := Nat.div_add_mod X V
  have hmodlt := Nat.mod_lt X hVpos
  have hlow₁ := val_lt (B := 2 ^ h) (n := d + 1) (a := fun t => digit num₁ (i + t))
    fun t ht => hd₁ (i + t) (by omega)
  have hVB : V < (2 ^ h) ^ (d + 1) := hV ▸ val_lt fun t _ => hden t
  rw [← hV] at hval₁
  -- what the loop has subtracted, with the top digit
  have hmain : val (2 ^ h) (fun t => digit num₁ (i + t)) (d + 1) + q.toNat * V +
      digit num (i + d + 1) * (2 ^ h) ^ (d + 1) = X + carry.toNat * (2 ^ h) ^ (d + 1) := by
    rw [hXtop]
    linarith
  have hslt : (num₁ (i + d + 1)).slt carry = decide (digit num (i + d + 1) < carry.toNat) := by
    rw [slt_of_digits hh (hd₁ _ (by omega)) hc, ← htop]
    rfl
  simp only [divStep, hq, hms, hslt, decide_eq_true_eq]
  split_ifs with hneg
  · -- the borrow exceeds the top digit: the guess was one high
    have hq1 : q.toNat = X / V + 1 := by
      by_contra hne
      have heq : q.toNat = X / V := by omega
      have h1 : (digit num (i + d + 1) + 1) * (2 ^ h) ^ (d + 1) ≤
          carry.toNat * (2 ^ h) ^ (d + 1) := Nat.mul_le_mul_right _ hneg
      rw [heq, mul_comm (X / V)] at hmain
      linarith [add_one_mul (digit num (i + d + 1)) ((2 ^ h) ^ (d + 1)), Nat.zero_le (X % V)]
    have hback := addBack_spec hh hden hd₁ i (d + 1) (by omega)
    rcases hab : addBack den i num₁ (d + 1) with ⟨carry₂, num₂⟩
    rw [hab] at hback
    obtain ⟨hc₂, hd₂, hsame₂, hval₂⟩ := hback
    rw [← hV] at hval₂
    have hval₃ : val (2 ^ h) (fun t => digit (Function.update num₂ (i + d + 1)
        (num₂ (i + d + 1) + carry₂)) (i + t)) (d + 1) =
        val (2 ^ h) (fun t => digit num₂ (i + t)) (d + 1) := by
      refine val_congr fun t ht => ?_
      rw [digit_update, Function.update_of_ne (by omega)]
    have hlow₂ := val_lt (B := 2 ^ h) (n := d + 1) (a := fun t => digit num₂ (i + t))
      fun t ht => hd₂ (i + t) (by omega)
    have hqsub : (q - 1).toNat = X / V := by
      have hle : (1 : Word h) ≤ q := by
        rw [BitVec.le_def, one_toNat hh, hq1]
        exact Nat.le_add_left 1 _
      rw [BitVec.toNat_sub_of_le hle, one_toNat hh, hq1, Nat.add_sub_cancel]
    dsimp only
    refine ⟨hqsub, hqsub ▸ lt_of_le_of_lt hle hlB, fun t ht => ?_, fun t ht => ?_, ?_⟩
    · rw [digit_update, Function.update_of_ne (by omega)]
      exact hd₂ t (by omega)
    · rw [Function.update_of_ne (by omega), hsame₂ t (by omega), hsame₁ t (by omega)]
    · -- both sides are below the power, and differ by a multiple of it
      rw [hval₃]
      have hmod : val (2 ^ h) (fun t => digit num₂ (i + t)) (d + 1) +
          (carry₂.toNat + digit num (i + d + 1)) * (2 ^ h) ^ (d + 1) =
          X % V + carry.toNat * (2 ^ h) ^ (d + 1) := by
        rw [hq1] at hmain
        linear_combination hval₂ + hmain + hdivmod.symm
      have := congrArg (· % (2 ^ h) ^ (d + 1)) hmod
      simpa [Nat.mod_eq_of_lt hlow₂, Nat.mod_eq_of_lt (hmodlt.trans hVB)] using this
  · -- the difference is not negative: the guess was right
    have hq0 : q.toNat = X / V := by
      by_contra hne
      have heq : q.toNat = X / V + 1 := by omega
      have h1 : carry.toNat * (2 ^ h) ^ (d + 1) ≤
          digit num (i + d + 1) * (2 ^ h) ^ (d + 1) := Nat.mul_le_mul_right _ (not_lt.mp hneg)
      rw [heq, add_mul, one_mul, mul_comm (X / V)] at hmain
      omega
    refine ⟨hq0, hlB, fun t ht => hd₁ t (by omega), fun t ht => hsame₁ t (by omega), ?_⟩
    have hmod : val (2 ^ h) (fun t => digit num₁ (i + t)) (d + 1) +
        digit num (i + d + 1) * (2 ^ h) ^ (d + 1) = X % V + carry.toNat * (2 ^ h) ^ (d + 1) := by
      rw [hq0, mul_comm (X / V)] at hmain
      omega
    have := congrArg (· % (2 ^ h) ^ (d + 1)) hmod
    simpa [Nat.mod_eq_of_lt hlow₁, Nat.mod_eq_of_lt (hmodlt.trans hVB)] using this

/-! ## The long division -/

/-- **The main loop**: while what is left is below the divisor at the current digit, the loop stores
the digits of the quotient.
Source: `fold-const.c` `div_and_round_double` ("Main loop")
Kind: L -/
theorem mainLoop_spec {den : ℕ → Word h} {d V : ℕ} (hd1 : 1 ≤ d)
    (hden : ∀ t, digit den t < 2 ^ h) (hnorm : 2 ^ h ≤ 2 * digit den d)
    (hV : V = val (2 ^ h) (digit den) (d + 1)) {i : ℕ} {num : ℕ → Word h}
    (quo : ℕ → Word h) (hnum : ∀ t < i + d + 1, digit num t < 2 ^ h)
    (hlt : val (2 ^ h) (digit num) (i + d + 1) < V * (2 ^ h) ^ i) :
    (∀ t, i ≤ t → mainLoop den d i num quo t = quo t) ∧
      (∀ t < i, digit (mainLoop den d i num quo) t < 2 ^ h) ∧
      val (2 ^ h) (digit (mainLoop den d i num quo)) i =
        val (2 ^ h) (digit num) (i + d + 1) / V := by
  induction i generalizing num quo with
  | zero =>
    refine ⟨fun t _ => rfl, fun t ht => absurd ht (by omega), ?_⟩
    rw [pow_zero, mul_one] at hlt
    rw [val_zero, Nat.div_eq_of_lt hlt]
  | succ i ih =>
    have hVpos : 0 < V := Nat.pos_of_ne_zero fun h0 => by simp [h0] at hlt
    have hsplit : val (2 ^ h) (digit num) (i + 1 + d + 1) = val (2 ^ h) (digit num) i +
        val (2 ^ h) (fun t => digit num (i + t)) (d + 2) * (2 ^ h) ^ i := by
      rw [show i + 1 + d + 1 = i + (d + 2) by omega, val_add]
    have hX : val (2 ^ h) (fun t => digit num (i + t)) (d + 2) < V * 2 ^ h := by
      rw [hsplit, pow_succ'] at hlt
      refine lt_of_mul_lt_mul_right (a := (2 ^ h) ^ i) ?_ (Nat.zero_le _)
      linarith [mul_assoc V (2 ^ h) ((2 ^ h) ^ i)]
    have hstep := divStep_spec hh hd1 hden hnorm (fun t ht => hnum t (by omega)) hV rfl hX
    rcases hds : divStep den d i num with ⟨q, num'⟩
    rw [hds] at hstep
    obtain ⟨hq, hqB, hd', hsame, hrem⟩ := hstep
    generalize hXdef : val (2 ^ h) (fun t => digit num (i + t)) (d + 2) = X at *
    have hlow : val (2 ^ h) (digit num') i = val (2 ^ h) (digit num) i :=
      val_congr fun t ht => by
        unfold digit
        rw [hsame t ht]
    have hleft : val (2 ^ h) (digit num') (i + d + 1) =
        val (2 ^ h) (digit num) i + X % V * (2 ^ h) ^ i := by
      rw [add_assoc, val_add, hlow, hrem]
    have hlt' : val (2 ^ h) (digit num') (i + d + 1) < V * (2 ^ h) ^ i := by
      have h1 := val_lt (B := 2 ^ h) (n := i) fun t ht => hnum t (by omega)
      have h2 : (X % V + 1) * (2 ^ h) ^ i ≤ V * (2 ^ h) ^ i :=
        Nat.mul_le_mul_right _ (Nat.mod_lt X hVpos)
      rw [hleft]
      linarith [add_one_mul (X % V) ((2 ^ h) ^ i)]
    obtain ⟨hkeep, hdig, hval⟩ := ih (Function.update quo i q) hd' hlt'
    simp only [mainLoop, hds]
    refine ⟨fun t ht => ?_, fun t ht => ?_, ?_⟩
    · rw [hkeep t (by omega), Function.update_of_ne (by omega)]
    · rcases Nat.lt_succ_iff_lt_or_eq.mp ht with ht | rfl
      · exact hdig t ht
      · unfold digit
        rw [hkeep t le_rfl, Function.update_self]
        exact hqB
    · have htop : digit (mainLoop den d i num' (Function.update quo i q)) i = X / V := by
        unfold digit
        rw [hkeep i le_rfl, Function.update_self, hq]
      have hsum : val (2 ^ h) (digit num) i + X * (2 ^ h) ^ i =
          val (2 ^ h) (digit num) i + X % V * (2 ^ h) ^ i + V * (X / V * (2 ^ h) ^ i) := by
        linear_combination (2 ^ h) ^ i * (Nat.div_add_mod X V).symm
      rw [val_succ, hval, htop, hleft, hsplit, hsum, Nat.add_mul_div_left _ _ hVpos]

/-- The main loop on a dividend and a divisor scaled by `c` stores the quotient.
Source: `fold-const.c` `div_and_round_double` ("Main loop")
Kind: L -/
theorem mainLoop_quotient {num den : ℕ → Word h} {d c N V : ℕ} (hd1 : 1 ≤ d) (hd3 : d ≤ 3)
    (hN : N < (2 ^ h) ^ 4) (hV : (2 ^ h) ^ d ≤ V) (hc : 0 < c)
    (hnum : ∀ t < 5, digit num t < 2 ^ h) (hden : ∀ t, digit den t < 2 ^ h)
    (hnorm : 2 ^ h ≤ 2 * digit den d) (hvn : val (2 ^ h) (digit num) 5 = c * N)
    (hvd : val (2 ^ h) (digit den) (d + 1) = c * V) :
    (∀ t < 4, digit (mainLoop den d (4 - d) num fun _ => 0) t < 2 ^ h) ∧
      val (2 ^ h) (digit (mainLoop den d (4 - d) num fun _ => 0)) 4 = N / V := by
  have hlt : val (2 ^ h) (digit num) (4 - d + d + 1) <
      val (2 ^ h) (digit den) (d + 1) * (2 ^ h) ^ (4 - d) := by
    rw [show 4 - d + d + 1 = 5 by omega, hvn, hvd, mul_assoc]
    refine Nat.mul_lt_mul_of_pos_left ?_ hc
    calc N < (2 ^ h) ^ 4 := hN
      _ = (2 ^ h) ^ d * (2 ^ h) ^ (4 - d) := by rw [← pow_add, show d + (4 - d) = 4 by omega]
      _ ≤ V * (2 ^ h) ^ (4 - d) := Nat.mul_le_mul_right _ hV
  obtain ⟨hkeep, hdig, hval⟩ := mainLoop_spec hh hd1 hden hnorm rfl (fun _ => 0)
    (fun t ht => hnum t (by omega)) hlt
  have hhigh : ∀ t, 4 - d ≤ t → digit (mainLoop den d (4 - d) num fun _ => 0) t = 0 := by
    intro t ht
    unfold digit
    rw [hkeep t ht]
    exact BitVec.toNat_zero
  refine ⟨fun t _ => ?_, ?_⟩
  · rcases Nat.lt_or_ge t (4 - d) with h1 | h1
    · exact hdig t h1
    · rw [hhigh t h1]
      positivity
  · rw [val_of_top_zero (by omega : 4 - d ≤ 4) fun t h1 _ => hhigh t h1, hval,
      show 4 - d + d + 1 = 5 by omega, hvn, hvd, Nat.mul_div_mul_left _ _ hc]

/-- The scaled divisor has as many digits as the divisor, the leading one at least half the base.
Source: `fold-const.c` `div_and_round_double` ("Insure that the first digit of the divisor is at
least BASE/2")
Kind: L -/
theorem scaleDen_spec {den : ℕ → Word h} {scale : Word h} {d : ℕ} (hd3 : d ≤ 3)
    (hden : ∀ t, digit den t < 2 ^ h)
    (hcut : val (2 ^ h) (digit den) 4 = val (2 ^ h) (digit den) (d + 1))
    (hs1 : 1 ≤ scale.toNat) (hsB : scale.toNat < 2 ^ h)
    (hsmul : scale.toNat * (digit den d + 1) ≤ 2 ^ h)
    (hlead : 2 ^ h ≤ 2 * (digit den d * scale.toNat) + 1) :
    let (_, den', d') := scaleDenLoop scale den d 4
    d' = d ∧ (∀ t, digit den' t < 2 ^ h) ∧ 2 ^ h ≤ 2 * digit den' d ∧
      val (2 ^ h) (digit den') (d + 1) = scale.toNat * val (2 ^ h) (digit den) (d + 1) := by
  have hB : 0 < 2 ^ h := by positivity
  have heven : 2 ^ h % 2 = 0 := by
    obtain ⟨k, rfl⟩ := Nat.exists_eq_add_of_le' hh
    rw [pow_succ, Nat.mul_mod_left]
  have hspec := scaleLoop_spec hh hsB hden 4
  obtain ⟨-, hdeneq, hdeq⟩ := scaleDenLoop_eq scale den d 4
  rcases hsd : scaleLoop scale den 4 with ⟨carry, den'⟩
  rcases hsdd : scaleDenLoop scale den d 4 with ⟨carry', den'', d''⟩
  rw [hsd] at hspec hdeneq hdeq
  rw [hsdd] at hdeneq hdeq
  obtain ⟨-, hd', -, hvd⟩ := hspec
  dsimp only at hdeneq hdeq hd' hvd ⊢
  subst hdeneq
  rw [hcut] at hvd
  have hscaled : scale.toNat * val (2 ^ h) (digit den) (d + 1) < (2 ^ h) ^ (d + 1) := by
    have hlow := val_lt (B := 2 ^ h) (n := d) fun t _ => hden t
    have hVlt : val (2 ^ h) (digit den) (d + 1) < (digit den d + 1) * (2 ^ h) ^ d := by
      rw [val_succ]
      linarith [add_one_mul (digit den d) ((2 ^ h) ^ d)]
    calc scale.toNat * val (2 ^ h) (digit den) (d + 1)
        < scale.toNat * ((digit den d + 1) * (2 ^ h) ^ d) :=
          Nat.mul_lt_mul_of_pos_left hVlt (by omega)
      _ ≤ 2 ^ h * (2 ^ h) ^ d := by
          rw [← mul_assoc]
          exact Nat.mul_le_mul_right _ hsmul
      _ = (2 ^ h) ^ (d + 1) := (pow_succ' _ _).symm
  have hcarry : carry.toNat * (2 ^ h) ^ 4 = 0 := by
    by_contra hne
    have h1 : (2 ^ h) ^ 4 ≤ carry.toNat * (2 ^ h) ^ 4 :=
      Nat.le_mul_of_pos_left _ (Nat.pos_of_ne_zero fun h0 => hne (by rw [h0, zero_mul]))
    have h2 : (2 ^ h) ^ (d + 1) ≤ (2 ^ h) ^ 4 := Nat.pow_le_pow_right hB (by omega)
    omega
  rw [hcarry, add_zero] at hvd
  have hzero : ∀ t, d < t → t < 4 → digit den'' t = 0 := fun t h1 h2 =>
    digit_eq_zero_of_val_lt hB (hvd ▸ hscaled) h1 h2
  have hvd' : val (2 ^ h) (digit den'') (d + 1) =
      scale.toNat * val (2 ^ h) (digit den) (d + 1) := by
    rw [← hvd]
    exact (val_of_top_zero (by omega) fun t h1 h2 => hzero t (by omega) h2).symm
  have hlow := val_lt (B := 2 ^ h) (n := d) fun t _ => hd' t
  have htopge : digit den d * scale.toNat ≤ digit den'' d := by
    refine Nat.lt_succ_iff.mp (lt_of_mul_lt_mul_right (a := (2 ^ h) ^ d) ?_ (Nat.zero_le _))
    have h1 : scale.toNat * (digit den d * (2 ^ h) ^ d) ≤
        scale.toNat * val (2 ^ h) (digit den) (d + 1) :=
      Nat.mul_le_mul_left _ (Nat.le_add_left _ _)
    rw [val_succ (a := digit den'')] at hvd'
    linarith [Nat.succ_mul (digit den'' d) ((2 ^ h) ^ d),
      (by ring : scale.toNat * (digit den d * (2 ^ h) ^ d) =
        digit den d * scale.toNat * (2 ^ h) ^ d)]
  have hnorm : 2 ^ h ≤ 2 * digit den'' d := by omega
  refine ⟨?_, hd', hnorm, hvd'⟩
  refine hdeq d (by omega) (fun h0 => ?_) fun t h1 h2 => BitVec.eq_of_toNat_eq ?_
  · have : digit den'' d = 0 := by
      unfold digit
      rw [h0]
      exact BitVec.toNat_zero
    omega
  · rw [show (den'' t).toNat = 0 from hzero t h1 h2]
    exact BitVec.toNat_zero.symm

omit hh in
/-- The leading digit that the search finds in a divisor of at least two digits.
Source: `fold-const.c` `div_and_round_double` ("Find the highest nonzero divisor digit")
Kind: L -/
theorem denHiSig_lead {den : ℕ → Word h} (hden : ∀ t, digit den t < 2 ^ h)
    (hlarge : 2 ^ h ≤ val (2 ^ h) (digit den) 4) :
    1 ≤ denHiSig den 3 ∧ denHiSig den 3 ≤ 3 ∧ 0 < digit den (denHiSig den 3) ∧
      val (2 ^ h) (digit den) 4 = val (2 ^ h) (digit den) (denHiSig den 3 + 1) := by
  have hB : 0 < 2 ^ h := by positivity
  have hz : ∀ t, den t = 0 → digit den t = 0 := fun t ht => by
    unfold digit
    rw [ht]
    exact BitVec.toNat_zero
  have hne : ∃ t ≤ 3, den t ≠ 0 := by
    by_contra hall
    have hzero : val (2 ^ h) (digit den) 4 = 0 := val_eq_zero fun t ht =>
      hz t (not_not.mp fun hc => hall ⟨t, by omega, hc⟩)
    omega
  obtain ⟨hd3, hdne, hdtop⟩ := denHiSig_spec den 3 hne
  generalize denHiSig den 3 = d at *
  have hcut : val (2 ^ h) (digit den) 4 = val (2 ^ h) (digit den) (d + 1) :=
    val_of_top_zero (by omega) fun t h1 h2 => hz t (hdtop t (by omega) (by omega))
  refine ⟨?_, hd3, ?_, hcut⟩
  · by_contra h0
    obtain rfl : d = 0 := by omega
    rw [hcut] at hlarge
    have := hden 0
    simp only [zero_add, val_succ, val_zero, pow_zero, mul_one] at hlarge
    omega
  · refine Nat.pos_of_ne_zero fun h0 => hdne (BitVec.eq_of_toNat_eq ?_)
    rw [show (den d).toNat = 0 from h0]
    exact BitVec.toNat_zero.symm

/-- **The long division**, for a divisor of at least two digits.
Source: `fold-const.c` `div_and_round_double` ("Full double precision division")
Kind: L -/
theorem longDiv_spec {num den : ℕ → Word h} (hnum : ∀ t, digit num t < 2 ^ h)
    (hnum4 : digit num 4 = 0) (hden : ∀ t, digit den t < 2 ^ h)
    (hlarge : 2 ^ h ≤ val (2 ^ h) (digit den) 4) :
    (∀ t < 4, digit (longDiv num den) t < 2 ^ h) ∧
      val (2 ^ h) (digit (longDiv num den)) 4 =
        val (2 ^ h) (digit num) 4 / val (2 ^ h) (digit den) 4 := by
  have hB : 0 < 2 ^ h := by positivity
  have hBW : 2 ^ h < 2 ^ (2 * h) := Nat.pow_lt_pow_right (by norm_num) (by omega)
  obtain ⟨hd1, hd3, hvpos, hcut⟩ := denHiSig_lead hden hlarge
  unfold longDiv
  dsimp only
  generalize denHiSig den 3 = d at *
  have hNlt := val_lt (B := 2 ^ h) (n := 4) fun t _ => hnum t
  have hVge : (2 ^ h) ^ d ≤ val (2 ^ h) (digit den) (d + 1) := le_val hvpos
  have hscale : (base / (den d + 1)).toNat = 2 ^ h / (digit den d + 1) := by
    have := hden d
    rw [BitVec.toNat_udiv, base_toNat hh, BitVec.toNat_add, one_toNat hh]
    unfold digit at *
    rw [Nat.mod_eq_of_lt (by omega)]
  have hlead := scale_lead (B := 2 ^ h) hvpos
  rw [← hscale] at hlead
  generalize base / (den d + 1) = scale at *
  have hs1 : 1 ≤ scale.toNat := by
    rw [hscale]
    exact (Nat.one_le_div_iff (by omega)).mpr (hden d)
  have hsmul : scale.toNat * (digit den d + 1) ≤ 2 ^ h := by
    rw [hscale]
    exact Nat.div_mul_le_self _ _
  have hsB : scale.toNat < 2 ^ h := by
    rw [hscale]
    exact Nat.div_lt_self hB (by omega)
  have hlead' := hlead.resolve_right (by omega)
  rw [hcut]
  split_ifs with hgt
  · have hnumspec := scaleLoop_spec hh hsB hnum 4
    have hdenspec := scaleDen_spec hh hd3 hden hcut hs1 hsB hsmul hlead'
    rcases hsn : scaleLoop scale num 4 with ⟨carry, num'⟩
    rcases hsd : scaleDenLoop scale den d 4 with ⟨carry', den', d'⟩
    rw [hsn] at hnumspec
    rw [hsd] at hdenspec
    obtain ⟨hc, hn', -, hvn⟩ := hnumspec
    obtain ⟨rfl, hd', hnorm, hvd⟩ := hdenspec
    dsimp only at hc hn' hvn ⊢
    refine mainLoop_quotient hh hd1 hd3 hNlt hVge hs1 (fun t _ => ?_) hd' hnorm ?_ hvd
    · rw [digit_update, Function.update_apply]
      split_ifs
      · exact hc
      · exact hn' t
    · rw [digit_update, val_succ, Function.update_self, val_update_of_le _ le_rfl]
      exact hvn
  · have hs2 : scale.toNat = 1 := by
      rw [gt_iff_lt, BitVec.lt_def, one_toNat hh] at hgt
      omega
    have heven : 2 ^ h % 2 = 0 := by
      obtain ⟨k, rfl⟩ := Nat.exists_eq_add_of_le' hh
      rw [pow_succ, Nat.mul_mod_left]
    refine mainLoop_quotient hh hd1 hd3 hNlt hVge one_pos (fun t _ => hnum t) hden ?_ ?_
      (one_mul _).symm
    · rw [hs2] at hlead'
      omega
    · rw [val_succ, hnum4, zero_mul, add_zero, one_mul]

/-- **The quotient of the absolute values.**
Source: `fold-const.c` `div_and_round_double`
Kind: L -/
theorem absQuo_toNat (num den : DoubleWord h) (hden : den.toNat ≠ 0) :
    (absQuo num den).toNat = num.toNat / den.toNat := by
  have hW : 0 < 2 ^ (2 * h) := by positivity
  have hz : (0 : Word h).toNat = 0 := BitVec.toNat_zero
  have hhigh : ∀ x : DoubleWord h, x.high = 0 → x.toNat = x.low.toNat := by
    intro x hx
    rw [DoubleWord.toNat, hx, hz, zero_mul, add_zero]
  have hge : ∀ x : DoubleWord h, x.high ≠ 0 → 2 ^ (2 * h) ≤ x.toNat := by
    intro x hx
    have hpos : 0 < x.high.toNat := Nat.pos_of_ne_zero fun h0 => hx (BitVec.eq_of_toNat_eq (by
      rw [h0, hz]))
    exact le_add_of_le_right (Nat.le_mul_of_pos_left _ hpos)
  unfold absQuo
  split_ifs with h1 h2 h3
  · rw [hhigh num h1.1, hhigh den h1.2]
    simp [DoubleWord.toNat]
  · have hlt : num.toNat < den.toNat := by
      have hden' := hge den fun hd => h1 ⟨h2, hd⟩
      rw [hhigh num h2]
      exact lt_of_lt_of_le num.low.isLt hden'
    rw [Nat.div_eq_of_lt hlt]
    simp [DoubleWord.toNat]
  · have hlow : den.low.toNat < 2 ^ h := by
      have := h3.2
      rwa [BitVec.lt_def, base_toNat hh] at this
    rw [hhigh den h3.1] at hden ⊢
    obtain ⟨hd, -, hval⟩ := shortDiv_spec hh (i := 4) (digit_encode_lt hh num) hlow.le
      (fun _ => 0) (hz ▸ Nat.pos_of_ne_zero hden)
    rw [decode_toNat hh _ fun t ht => (hd t).resolve_right (by omega), hval, val_encode hh, hz,
      zero_mul, add_zero]
  · have hlarge : 2 ^ h ≤ val (2 ^ h) (digit (encode den)) 4 := by
      rw [val_encode hh]
      by_cases hd : den.high = 0
      · rw [hhigh den hd]
        by_contra hlt
        exact h3 ⟨hd, by rw [BitVec.lt_def, base_toNat hh]; exact not_le.mp hlt⟩
      · have : 2 ^ h ≤ 2 ^ (2 * h) := Nat.pow_le_pow_right (by norm_num) (by omega)
        exact this.trans (hge den hd)
    obtain ⟨hd, hval⟩ := longDiv_spec hh (digit_encode_lt hh num) hz (digit_encode_lt hh den) hlarge
    rw [decode_toNat hh _ hd, hval, val_encode hh, val_encode hh]

end Loops

end GccCore.Gcc.FoldConst
