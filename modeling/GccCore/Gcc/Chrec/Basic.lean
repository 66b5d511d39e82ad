import GccCore.Lib.Recurrence
import Mathlib.Data.BitVec

/-!
# `gcc/tree-chrec.c`: chains of recurrences

The coefficients are the constants of an integer type, modulo its precision. The loops of a nest are numbered by their depth, and an
unknown chain of recurrences is the result of every operation on one.

* **Values** (`Chrec.eval`) at an iteration of each loop, by the recurrences of the library.
* **Sums and differences** (`eval_chrecFoldPlus`, `eval_chrecFoldMinus`) are taken value by value, and are known for ordered chains
  (`chrecFold_of_inNest`).
* **Constant factors** (`eval_mulCst`) multiply initial values and steps.
-/

namespace GccCore.Gcc.TreeChrec

open GccCore.Lib.Recurrence

/-! ## The code -/

section Code

variable {p : ℕ}

/-- A constant, or `{left, +, right}` in the loop of depth `var`. Source: `tree-chrec.h` (`POLYNOMIAL_CHREC`), `tree.def`. -/
inductive Chrec (p : ℕ)
  | cst (c : BitVec p)
  | poly (var : ℕ) (left right : Chrec p)
  deriving DecidableEq

def Chrec.size : Chrec p → ℕ
  | .cst _ => 1
  | .poly _ left right => left.size + right.size + 1

/-- Source: `tree-chrec.h` `chrec_zerop`. -/
def chrecZerop (chrec : Chrec p) : Bool := decide (chrec = .cst 0)

/-- A loop of the nest is nested in another one if it is deeper. Source: `cfgloop.c` `flow_loop_nested_p`. -/
def flowLoopNestedP (outer loop : ℕ) : Bool := decide (outer < loop)

/-- Whether something is left when the evolution in other loops is hidden. A step of zero is none.
Source: `tree-chrec.h` `no_evolution_in_loop_p`, `tree-chrec.c` `hide_evolution_in_other_loops_than_loop` -/
def evolvesInLoop (loopNum : ℕ) : Chrec p → Bool
  | .cst _ => false
  | .poly var left right =>
    if var = loopNum then !chrecZerop right || evolvesInLoop loopNum left
    else if flowLoopNestedP var loopNum then false
    else evolvesInLoop loopNum left

/-- Source: `tree-chrec.h` `build_polynomial_chrec`. -/
def buildPolynomialChrec (loopNum : ℕ) (left right : Option (Chrec p)) : Option (Chrec p) :=
  left.bind fun left => right.bind fun right =>
    if evolvesInLoop loopNum left then none
    else if chrecZerop right then some left
    else some (.poly loopNum left right)

/-- The product of a chain of recurrences and a constant. Source: `tree-chrec.c` `chrec_fold_multiply`. -/
def mulCst (cst : BitVec p) : Chrec p → Option (Chrec p)
  | .cst c =>
    some (if c = 1 then .cst cst else if c = 0 then .cst 0 else if cst = 1 then .cst c else if cst = 0 then .cst 0 else .cst (c * cst))
  | .poly var left right =>
    if cst = 1 then some (.poly var left right)
    else if cst = 0 then some (.cst 0)
    else buildPolynomialChrec var (mulCst cst left) (mulCst cst right)

/-- Source: `tree-chrec.c` `chrec_fold_plus_1` (`PLUS_EXPR`, `MINUS_EXPR`). -/
inductive AddCode
  | PLUS_EXPR
  | MINUS_EXPR
  deriving DecidableEq

/-- Source: `tree.def`. -/
def AddCode.op : AddCode → BitVec p → BitVec p → BitVec p
  | .PLUS_EXPR, a, b => a + b
  | .MINUS_EXPR, a, b => a - b

/-- The step of the second operand, with its sign. Source: `tree-chrec.c` (`build_int_cst_type (type, -1)`). -/
def signedStep (code : AddCode) (right : Chrec p) : Option (Chrec p) :=
  match code with
  | .PLUS_EXPR => some right
  | .MINUS_EXPR => mulCst (-1) right

variable (maxExprSize : ℕ)

mutual

/-- Sums and differences; an operand of zero is left out, but for that of a difference.
Source: `tree-chrec.c` `chrec_fold_plus`, `chrec_fold_minus` -/
def chrecFold (code : AddCode) (op0 op1 : Chrec p) : Option (Chrec p) :=
  if code = .PLUS_EXPR ∧ chrecZerop op0 = true then some op1
  else if chrecZerop op1 then some op0
  else chrecFoldPlus1 code op0 op1
termination_by (op0.size + op1.size, 1)

/-- Two constants have the size 2, which is compared with the parameter for the size of expressions.
Source: `tree-chrec.c` `chrec_fold_plus_1`, `chrec_fold_plus_poly_poly` -/
def chrecFoldPlus1 (code : AddCode) (op0 op1 : Chrec p) : Option (Chrec p) :=
  match op0, op1 with
  | .poly var0 left0 right0, .poly var1 left1 right1 =>
    if flowLoopNestedP var0 var1 then
      buildPolynomialChrec var1 (chrecFold code (.poly var0 left0 right0) left1) (signedStep code right1)
    else if flowLoopNestedP var1 var0 then
      buildPolynomialChrec var0 (chrecFold code left0 (.poly var1 left1 right1)) (some right0)
    else
      let left := chrecFold code left0 left1
      let right := chrecFold code right0 right1
      if right = some (.cst 0) then left else buildPolynomialChrec var0 left right
  | .poly var0 left0 right0, .cst c => buildPolynomialChrec var0 (chrecFold code left0 (.cst c)) (some right0)
  | .cst c, .poly var1 left1 right1 => buildPolynomialChrec var1 (chrecFold code (.cst c) left1) (signedStep code right1)
  | .cst c, .cst d => if 2 < maxExprSize then some (.cst (code.op c d)) else none
termination_by (op0.size + op1.size, 0)
decreasing_by
  all_goals
    apply Prod.Lex.left
    simp only [Chrec.size]
    omega

end

/-- Source: `tree-chrec.c` `chrec_fold_plus`. -/
def chrecFoldPlus (op0 op1 : Option (Chrec p)) : Option (Chrec p) :=
  op0.bind fun op0 => op1.bind fun op1 => chrecFold maxExprSize .PLUS_EXPR op0 op1

/-- Source: `tree-chrec.c` `chrec_fold_minus`. -/
def chrecFoldMinus (op0 op1 : Option (Chrec p)) : Option (Chrec p) :=
  op0.bind fun op0 => op1.bind fun op1 => chrecFold maxExprSize .MINUS_EXPR op0 op1

end Code

/-! ## Values -/

section Values

variable {p : ℕ}

/-- The value at an iteration of each loop: the initial value, and one step for every iteration before.
Source: `tree-chrec.h` (`POLYNOMIAL_CHREC`), `tree-chrec.c` (`chrec_evaluate`, comment) -/
def Chrec.eval : Chrec p → (ℕ → ℕ) → BitVec p
  | .cst c => fun _ => c
  | .poly var left right => chain var left.eval right.eval

@[simp] theorem eval_cst (c : BitVec p) (n : ℕ → ℕ) : (Chrec.cst c).eval n = c := rfl

theorem eval_poly (var : ℕ) (left right : Chrec p) : (Chrec.poly var left right).eval = chain var left.eval right.eval := rfl

theorem eval_of_zerop {c : Chrec p} (h : chrecZerop c = true) (n : ℕ → ℕ) : c.eval n = 0 := by
  rw [of_decide_eq_true h, eval_cst]

variable {var loopNum : ℕ} {l r c : Chrec p} {left right : Option (Chrec p)} {n : ℕ → ℕ}

/-- The chains of recurrences of a nest of depth `m`: the initial value evolves in outer loops only, and the step in no deeper loop.
Source: `tree-chrec.c` `hide_evolution_in_other_loops_than_loop` (comment), `tree-chrec.h` `build_polynomial_chrec` -/
def Chrec.InNest : ℕ → Chrec p → Prop
  | _, .cst _ => True
  | m, .poly var left right => var < m ∧ left.InNest var ∧ right.InNest (var + 1)

theorem Chrec.InNest.mono {m m' : ℕ} (h : c.InNest m) (hle : m ≤ m') : c.InNest m' := by
  rcases c with d | ⟨var, left, right⟩
  · exact trivial
  · exact ⟨h.1.trans_le hle, h.2⟩

/-- The iteration of a deeper loop does not matter. Source: `tree-chrec.c` (`/* poly0 is a constant wrt. poly1. */`). Kind: L -/
theorem fixed_of_inNest {m v : ℕ} (h : c.InNest m) (hle : m ≤ v) : Fixed v c.eval := by
  induction c generalizing m with
  | cst d => exact fun _ _ => rfl
  | poly var left right ihLeft ihRight =>
    obtain ⟨hvar, hleft, hright⟩ := h
    exact fixed_chain (hvar.trans_le hle).ne (ihLeft hleft (hvar.trans_le hle).le) (ihRight hright (hvar.trans_le hle))

/-- **Building** a chain of recurrences, when it is known, gives the recurrence of the two parts.
Source: `tree-chrec.h` `build_polynomial_chrec`
Kind: L -/
theorem eval_build (h : buildPolynomialChrec loopNum left right = some c) :
    ∃ l r, left = some l ∧ right = some r ∧ evolvesInLoop loopNum l = false ∧ c.eval = chain loopNum l.eval r.eval := by
  rw [buildPolynomialChrec, Option.bind_eq_some_iff] at h
  obtain ⟨l, hl, h⟩ := h
  rw [Option.bind_eq_some_iff] at h
  obtain ⟨r, hr, h⟩ := h
  refine ⟨l, r, hl, hr, ?_⟩
  by_cases hevolves : evolvesInLoop loopNum l = true
  · rw [if_pos hevolves] at h
    exact (nomatch h)
  refine ⟨eq_false_of_ne_true hevolves, ?_⟩
  rw [if_neg hevolves] at h
  by_cases hzero : chrecZerop r = true
  · rw [if_pos hzero] at h
    obtain rfl := Option.some.inj h
    funext n
    rw [chain_eq_initial (eval_of_zerop hzero)]
  · rw [if_neg hzero] at h
    rw [← Option.some.inj h, eval_poly]

/-- **Constant factors.** Source: `tree-chrec.c` `chrec_fold_multiply`. Kind: L -/
theorem eval_mulCst {cst : BitVec p} (h : mulCst cst c = some r) : r.eval = fun n => c.eval n * cst := by
  induction c generalizing r with
  | cst d =>
    rw [← Option.some.inj h]
    funext n
    split_ifs with hone hzero hone' hzero'
    · rw [eval_cst, eval_cst, hone, one_mul]
    · rw [eval_cst, eval_cst, hzero, zero_mul]
    · rw [hone', mul_one]
    · rw [eval_cst, hzero', mul_zero]
    · rfl
  | poly var left right ihLeft ihRight =>
    rw [mulCst] at h
    split_ifs at h with hone hzero
    · rw [← Option.some.inj h, hone]
      funext n
      rw [mul_one]
    · rw [← Option.some.inj h, hzero]
      funext n
      rw [mul_zero, eval_cst]
    · obtain ⟨l, r', hl, hr, -, hc⟩ := eval_build h
      rw [hc, ihLeft hl, ihRight hr, eval_poly]
      funext n
      exact (chain_mul (x := fun _ => cst) fun _ _ => rfl).symm

end Values

/-! ## Sums and differences -/

section Sums

variable {p maxExprSize : ℕ} {code : AddCode} {a b c : Chrec p}

/-- The operation keeps recurrences apart. Source: `tree-chrec.c` `chrec_fold_plus_poly_poly` (comment). Kind: L -/
theorem op_chain (code : AddCode) (var : ℕ) (f g f' g' : (ℕ → ℕ) → BitVec p) (n : ℕ → ℕ) :
    code.op (chain var f g n) (chain var f' g' n) = chain var (fun n => code.op (f n) (f' n)) (fun n => code.op (g n) (g' n)) n := by
  cases code
  · exact chain_add
  · exact chain_sub

/-- An operand that does not evolve only moves the initial value. Source: `tree-chrec.c` `chrec_fold_plus_poly_poly` (comment). Kind: L -/
theorem op_chain_left (code : AddCode) (var : ℕ) (f g x : (ℕ → ℕ) → BitVec p) (n : ℕ → ℕ) :
    code.op (chain var f g n) (x n) = chain var (fun n => code.op (f n) (x n)) g n := by
  rw [chain, chain]
  cases code
  · exact add_right_comm (f n) _ (x n)
  · exact add_sub_right_comm (f n) _ (x n)

theorem eval_signedStep {right : Chrec p} (h : signedStep code right = some c) : c.eval = fun n => code.op 0 (right.eval n) := by
  cases code
  · rw [← Option.some.inj h]
    funext n
    exact (zero_add _).symm
  · rw [eval_mulCst h]
    funext n
    rw [mul_neg_one]
    exact (zero_sub _).symm

/-- In the second operand the step takes the sign of the operation. Source: `tree-chrec.c` `chrec_fold_plus_poly_poly`. Kind: L -/
theorem op_chain_right (code : AddCode) (var : ℕ) (f g x : (ℕ → ℕ) → BitVec p) (n : ℕ → ℕ) :
    code.op (x n) (chain var f g n) = chain var (fun n => code.op (x n) (f n)) (fun n => code.op 0 (g n)) n := by
  have hx : chain var x (fun _ => 0) n = x n := chain_eq_initial fun _ => rfl
  rw [← hx, op_chain]

theorem op_zero_left (code : AddCode) (a : BitVec p) : code.op a 0 = a := by
  cases code
  · exact add_zero a
  · exact sub_zero a

/-- **Sums and differences**, when they are known, have the sum and the difference of the values.
Source: `tree-chrec.c` `chrec_fold_plus`, `chrec_fold_minus`
Kind: L -/
theorem eval_chrecFold (h : chrecFold maxExprSize code a b = some c) : c.eval = fun n => code.op (a.eval n) (b.eval n) := by
  induction hsize : a.size + b.size using Nat.strong_induction_on generalizing a b c with
  | _ size ih =>
    -- the operands of every call have less loops
    have ihAt {a' b' c' : Chrec p} (hlt : a'.size + b'.size < size) (h' : chrecFold maxExprSize code a' b' = some c') :
        c'.eval = fun n => code.op (a'.eval n) (b'.eval n) := ih _ hlt h' rfl
    rw [chrecFold] at h
    split_ifs at h with hzero hzero'
    · rw [hzero.1, ← Option.some.inj h]
      funext n
      rw [eval_of_zerop hzero.2]
      exact (zero_add _).symm
    · rw [← Option.some.inj h]
      funext n
      rw [eval_of_zerop hzero', op_zero_left]
    · rcases a with d | ⟨var0, left0, right0⟩ <;> rcases b with e | ⟨var1, left1, right1⟩ <;>
        simp only [Chrec.size] at hsize <;> rw [chrecFoldPlus1] at h
      · split_ifs at h
        rw [← Option.some.inj h]
        rfl
      · obtain ⟨l, r, hl, hr, -, hc⟩ := eval_build h
        rw [hc, ihAt (by simp only [Chrec.size]; omega) hl, eval_signedStep hr, eval_poly]
        funext n
        rw [op_chain_right]
      · obtain ⟨l, r, hl, hr, -, hc⟩ := eval_build h
        rw [hc, ihAt (by simp only [Chrec.size]; omega) hl, ← Option.some.inj hr, eval_poly]
        funext n
        rw [op_chain_left]
      · dsimp only at h
        split_ifs at h with hnested hnested' hright
        · obtain ⟨l, r, hl, hr, -, hc⟩ := eval_build h
          rw [hc, ihAt (by simp only [Chrec.size]; omega) hl, eval_signedStep hr, eval_poly var1]
          funext n
          rw [op_chain_right]
        · obtain ⟨l, r, hl, hr, -, hc⟩ := eval_build h
          rw [hc, ihAt (by simp only [Chrec.size]; omega) hl, ← Option.some.inj hr, eval_poly var0]
          funext n
          rw [op_chain_left]
        · obtain rfl : var0 = var1 := by
            simp only [flowLoopNestedP, decide_eq_true_eq] at hnested hnested'
            omega
          have hstep := ihAt (by omega) hright
          rw [ihAt (by omega) h, eval_poly, eval_poly]
          funext n
          rw [op_chain, ← hstep, chain_eq_initial (eval_cst 0)]
        · obtain rfl : var0 = var1 := by
            simp only [flowLoopNestedP, decide_eq_true_eq] at hnested hnested'
            omega
          obtain ⟨l, r, hl, hr, -, hc⟩ := eval_build h
          rw [hc, ihAt (by omega) hl, ihAt (by omega) hr, eval_poly, eval_poly]
          funext n
          rw [op_chain]

theorem eval_chrecFoldPlus {a b : Option (Chrec p)} (h : chrecFoldPlus maxExprSize a b = some c) :
    ∃ a' b', a = some a' ∧ b = some b' ∧ c.eval = fun n => a'.eval n + b'.eval n := by
  obtain ⟨a', ha, h⟩ := Option.bind_eq_some_iff.mp h
  obtain ⟨b', hb, h⟩ := Option.bind_eq_some_iff.mp h
  exact ⟨a', b', ha, hb, eval_chrecFold h⟩

theorem eval_chrecFoldMinus {a b : Option (Chrec p)} (h : chrecFoldMinus maxExprSize a b = some c) :
    ∃ a' b', a = some a' ∧ b = some b' ∧ c.eval = fun n => a'.eval n - b'.eval n := by
  obtain ⟨a', ha, h⟩ := Option.bind_eq_some_iff.mp h
  obtain ⟨b', hb, h⟩ := Option.bind_eq_some_iff.mp h
  exact ⟨a', b', ha, hb, eval_chrecFold h⟩

/-- In an ordered chain the initial value does not evolve in the loop itself. Source: `tree-chrec.h` `build_polynomial_chrec`. Kind: L -/
theorem evolvesInLoop_of_inNest {v : ℕ} (h : c.InNest v) : evolvesInLoop v c = false := by
  rcases c with d | ⟨var, left, right⟩
  · rfl
  · rw [evolvesInLoop, if_neg h.1.ne, flowLoopNestedP, decide_eq_true h.1, if_pos rfl]

/-- Ordered parts make up an ordered chain. Source: `tree-chrec.h` `build_polynomial_chrec`. Kind: L -/
theorem build_of_inNest {m v : ℕ} {l r : Chrec p} (hv : v < m) (hl : l.InNest v) (hr : r.InNest (v + 1)) :
    ∃ c, buildPolynomialChrec v (some l) (some r) = some c ∧ c.InNest m := by
  rw [buildPolynomialChrec, Option.bind_some, Option.bind_some, if_neg (by rw [evolvesInLoop_of_inNest hl]; decide)]
  split_ifs
  · exact ⟨l, rfl, hl.mono hv.le⟩
  · exact ⟨_, rfl, hv, hl, hr⟩

theorem mulCst_of_inNest (cst : BitVec p) {m : ℕ} (h : c.InNest m) : ∃ r, mulCst cst c = some r ∧ r.InNest m := by
  induction c generalizing m with
  | cst d =>
    refine ⟨_, rfl, ?_⟩
    split_ifs <;> exact trivial
  | poly var left right ihLeft ihRight =>
    rw [mulCst]
    split_ifs
    · exact ⟨_, rfl, h⟩
    · exact ⟨_, rfl, trivial⟩
    · obtain ⟨l, hl, hlNest⟩ := ihLeft h.2.1
      obtain ⟨r, hr, hrNest⟩ := ihRight h.2.2
      rw [hl, hr]
      exact build_of_inNest h.1 hlNest hrNest

theorem signedStep_of_inNest (code : AddCode) {m : ℕ} (h : c.InNest m) : ∃ r, signedStep code c = some r ∧ r.InNest m := by
  cases code
  · exact ⟨c, rfl, h⟩
  · exact mulCst_of_inNest (-1) h

/-- **Sums and differences of ordered chains are known**, and ordered.
Source: `tree-chrec.c` `chrec_fold_plus_poly_poly`, `chrec_fold_plus_1`
Kind: L -/
theorem chrecFold_of_inNest (hsize : 2 < maxExprSize) (code : AddCode) {m : ℕ} (ha : a.InNest m) (hb : b.InNest m) :
    ∃ c, chrecFold maxExprSize code a b = some c ∧ c.InNest m := by
  induction hlen : a.size + b.size using Nat.strong_induction_on generalizing a b m with
  | _ len ih =>
    have ihAt {a' b' : Chrec p} {m' : ℕ} (hlt : a'.size + b'.size < len) (ha' : a'.InNest m') (hb' : b'.InNest m') :
        ∃ c, chrecFold maxExprSize code a' b' = some c ∧ c.InNest m' := ih _ hlt ha' hb' rfl
    rw [chrecFold]
    split_ifs
    · exact ⟨b, rfl, hb⟩
    · exact ⟨a, rfl, ha⟩
    · rcases a with d | ⟨var0, left0, right0⟩ <;> rcases b with e | ⟨var1, left1, right1⟩ <;>
        simp only [Chrec.size] at hlen <;> rw [chrecFoldPlus1]
      · exact ⟨_, if_pos hsize, trivial⟩
      · obtain ⟨l, hl, hlNest⟩ := ihAt (by simp only [Chrec.size]; omega) (show (Chrec.cst d).InNest var1 from trivial) hb.2.1
        obtain ⟨r, hr, hrNest⟩ := signedStep_of_inNest code hb.2.2
        rw [hl, hr]
        exact build_of_inNest hb.1 hlNest hrNest
      · obtain ⟨l, hl, hlNest⟩ := ihAt (by simp only [Chrec.size]; omega) ha.2.1 (show (Chrec.cst e).InNest var0 from trivial)
        rw [hl]
        exact build_of_inNest ha.1 hlNest ha.2.2
      · dsimp only
        split_ifs with hnested hnested' hright
        · have hlt : var0 < var1 := of_decide_eq_true hnested
          obtain ⟨l, hl, hlNest⟩ := ihAt (by simp only [Chrec.size]; omega)
            (show (Chrec.poly var0 left0 right0).InNest var1 from ⟨hlt, ha.2⟩) hb.2.1
          obtain ⟨r, hr, hrNest⟩ := signedStep_of_inNest code hb.2.2
          rw [hl, hr]
          exact build_of_inNest hb.1 hlNest hrNest
        · have hlt : var1 < var0 := of_decide_eq_true hnested'
          obtain ⟨l, hl, hlNest⟩ := ihAt (by simp only [Chrec.size]; omega) ha.2.1
            (show (Chrec.poly var1 left1 right1).InNest var0 from ⟨hlt, hb.2⟩)
          rw [hl]
          exact build_of_inNest ha.1 hlNest ha.2.2
        all_goals
          obtain rfl : var0 = var1 :=
            le_antisymm (not_lt.mp fun h => hnested' (decide_eq_true h)) (not_lt.mp fun h => hnested (decide_eq_true h))
          obtain ⟨l, hl, hlNest⟩ := ihAt (by omega) ha.2.1 hb.2.1
        · exact ⟨l, hl, hlNest.mono ha.1.le⟩
        · obtain ⟨r, hr, hrNest⟩ := ihAt (by omega) ha.2.2 hb.2.2
          rw [hl, hr]
          exact build_of_inNest ha.1 hlNest hrNest

end Sums

end GccCore.Gcc.TreeChrec
