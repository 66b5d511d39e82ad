import GccCore.Gcc.FoldConst.DoubleWord
import GccCore.Lib.LinearCongruence

/-!
# `gcc/tree-ssa-loop-niter.c`: inverses modulo a power of two

Constants of an unsigned type of `p` bits are two-word integers below `2 ^ p`. A `HOST_WIDE_INT` has `2 * 2 ^ e` bits.

* **Constants** (`fitDoubleType`, `buildLowBitsMask`, `numEndingZeros`, `treeFloorLog2`, `intCstValue`) and what they are as
  numbers.
* **The inverse** (`inverse`): one branch on words, one on two-word integers; both give the inverse
  (`inverse_spec`).

Types that are sign extended although they are unsigned (`sizetype`) are left out.
-/

namespace GccCore.Gcc.LoopNiter

open GccCore.Gcc.FoldConst GccCore.Lib.LinearCongruence

variable {e : ℕ}

/-! ## Constants -/

/-- A `HOST_WIDE_INT`. Source: `hwint.h` (`HOST_WIDE_INT`). -/
abbrev Hwi (e : ℕ) := Word (2 ^ e)

/-- The pieces of a constant. Source: `tree.h` (`TREE_INT_CST`). -/
abbrev IntCst (e : ℕ) := DoubleWord (2 ^ e)

/-- Source: `hwint.h` `HOST_BITS_PER_WIDE_INT`. -/
def hostBitsPerWideInt (e : ℕ) : ℕ := 2 * 2 ^ e

/-- The constant with a given value. Source: `tree.c` `build_int_cst_wide`. -/
def buildIntCst (v : ℕ) : IntCst e := ⟨BitVec.ofNat _ v, BitVec.ofNat _ (v / 2 ^ (2 * 2 ^ e))⟩

/-- The bits of an unsigned type of `p` bits are kept. Source: `fold-const.c` `fit_double_type`. -/
def fitDoubleType (p : ℕ) (x : IntCst e) : IntCst e :=
  if 2 * hostBitsPerWideInt e ≤ p then x
  else if hostBitsPerWideInt e < p then
    { x with high := x.high &&& ~~~(BitVec.allOnes _ <<< (p - hostBitsPerWideInt e)) }
  else
    { low := if p < hostBitsPerWideInt e then x.low &&& ~~~(BitVec.allOnes _ <<< p) else x.low
      high := 0 }

/-- Source: `tree.c` `build_low_bits_mask`. -/
def buildLowBitsMask (bits : ℕ) : IntCst e :=
  if bits ≤ hostBitsPerWideInt e then ⟨BitVec.allOnes _ >>> (hostBitsPerWideInt e - bits), 0⟩
  else
    ⟨BitVec.allOnes _, BitVec.allOnes _ >>> (hostBitsPerWideInt e - (bits - hostBitsPerWideInt e))⟩

/-- The loop that halves `abits`. Source: `tree.c` `num_ending_zeros`. -/
def endingZerosLoop (abits : ℕ) (fr : Hwi e) (num : ℕ) : ℕ :=
  if abits = 0 then num
  else
    let nfr := fr >>> abits
    if nfr <<< abits = fr then endingZerosLoop (abits / 2) nfr (num + abits)
    else endingZerosLoop (abits / 2) fr num
termination_by abits

/-- Source: `tree.c` `num_ending_zeros`. -/
def numEndingZeros (p : ℕ) (x : IntCst e) : ℕ :=
  let num :=
    if x.low = 0 then endingZerosLoop (hostBitsPerWideInt e / 2) x.high (hostBitsPerWideInt e)
    else endingZerosLoop (hostBitsPerWideInt e / 2) x.low 0
  if p < num then p else num

/-- Source: `tree.c` `tree_floor_log2`. -/
def treeFloorLog2 (p : ℕ) (x : IntCst e) : ℕ :=
  let x := fitDoubleType p x
  if x.high ≠ 0 then hostBitsPerWideInt e + x.high.toNat.log2 else x.low.toNat.log2

/-- The value of a constant of at most one word, sign extended. Source: `tree.c` `int_cst_value`. -/
def intCstValue (p : ℕ) (x : IntCst e) : Hwi e :=
  if p < hostBitsPerWideInt e then
    if (x.low >>> (p - 1)) &&& 1 ≠ 0 then x.low ||| (BitVec.allOnes _ <<< (p - 1)) <<< 1
    else x.low &&& ~~~((BitVec.allOnes _ <<< (p - 1)) <<< 1)
  else x.low

/-- Source: `tree.c` `build_int_cst_type`. -/
def buildIntCstType (p : ℕ) (low : Hwi e) : IntCst e :=
  fitDoubleType p ⟨low, if low.msb then BitVec.allOnes _ else 0⟩

/-- Source: `fold-const.c` `int_const_binop` (`MULT_EXPR`). -/
def multCst (p : ℕ) (x y : IntCst e) : IntCst e := fitDoubleType p (mulDouble x y).1

/-- Source: `fold-const.c` `int_const_binop` (`BIT_AND_EXPR`). -/
def andCst (p : ℕ) (x y : IntCst e) : IntCst e := fitDoubleType p ⟨x.low &&& y.low, x.high &&& y.high⟩

/-- The inverse of `x` in a type of `p` bits. Source: `tree-ssa-loop-niter.c` `inverse`. -/
def inverse (p : ℕ) (x mask : IntCst e) : IntCst e :=
  let ctr := treeFloorLog2 p mask
  if p ≤ hostBitsPerWideInt e then
    let ix := intCstValue p x
    let imask := intCstValue p mask
    buildIntCstType p (squareLoop (· * ·) ctr 1 ix &&& imask)
  else andCst p (squareLoop (multCst p) ctr (buildIntCst 1) x) mask

/-! ## What they are as numbers -/

/-- The width in bits. -/
theorem two_pow_hwi (e : ℕ) : 2 ^ (4 * 2 ^ e) = 2 ^ (2 * 2 ^ e) * 2 ^ (2 * 2 ^ e) := by
  rw [← pow_add]
  congr 1
  omega

theorem buildIntCst_toNat {v : ℕ} (hv : v < 2 ^ (4 * 2 ^ e)) : (buildIntCst v : IntCst e).toNat = v := by
  unfold buildIntCst DoubleWord.toNat
  have hhigh : v / 2 ^ (2 * 2 ^ e) < 2 ^ (2 * 2 ^ e) := by
    rw [Nat.div_lt_iff_lt_mul (by positivity), ← two_pow_hwi]
    exact hv
  rw [BitVec.toNat_ofNat, BitVec.toNat_ofNat, Nat.mod_eq_of_lt hhigh]
  exact Nat.mod_add_div' v _

/-- Bits above `n` are cleared. -/
theorem toNat_and_not_shiftLeft {w : ℕ} (x : BitVec w) (n : ℕ) :
    (x &&& ~~~(BitVec.allOnes w <<< n)).toNat = x.toNat % 2 ^ n := by
  apply Nat.eq_of_testBit_eq
  intro i
  rw [Nat.testBit_mod_two_pow]
  simp only [BitVec.testBit_toNat, BitVec.getLsbD_and, BitVec.getLsbD_not, BitVec.getLsbD_shiftLeft,
    BitVec.getLsbD_allOnes]
  by_cases hi : i < w
  · by_cases hn : i < n
    · simp [hi, hn]
    · have hsub : i - n < w := by omega
      simp [hi, hn, hsub]
  · rw [BitVec.getLsbD_of_ge x i (not_lt.mp hi)]
    simp

/-- **Fitting** keeps the value modulo the width of the type. Source: `fold-const.c` `fit_double_type`. Kind: L -/
theorem fitDoubleType_toNat (p : ℕ) (x : IntCst e) : (fitDoubleType p x).toNat = x.toNat % 2 ^ p := by
  have hx := x.toNat_lt
  unfold fitDoubleType hostBitsPerWideInt
  by_cases hwide : 2 * (2 * 2 ^ e) ≤ p
  · rw [if_pos hwide, Nat.mod_eq_of_lt]
    apply lt_of_lt_of_le hx
    exact Nat.pow_le_pow_right (by omega) (by omega)
  · rw [if_neg hwide]
    by_cases hhigh : 2 * 2 ^ e < p
    · rw [if_pos hhigh]
      obtain ⟨q, rfl⟩ : ∃ q, p = 2 * 2 ^ e + q := ⟨p - 2 * 2 ^ e, by omega⟩
      unfold DoubleWord.toNat
      dsimp only
      rw [toNat_and_not_shiftLeft, Nat.add_sub_cancel_left, pow_add, Nat.mod_mul, Nat.add_mul_mod_self_right,
        Nat.add_mul_div_right _ _ (by positivity), Nat.mod_eq_of_lt x.low.isLt, Nat.div_eq_of_lt x.low.isLt,
        Nat.zero_add, Nat.mul_comm (x.high.toNat % 2 ^ q)]
    · rw [if_neg hhigh]
      have hdvd : 2 ^ p ∣ x.high.toNat * 2 ^ (2 * 2 ^ e) :=
        Dvd.dvd.mul_left (Nat.pow_dvd_pow 2 (not_lt.mp hhigh)) _
      unfold DoubleWord.toNat
      dsimp only
      rw [Nat.add_mod, Nat.mod_eq_zero_of_dvd hdvd, Nat.add_zero, Nat.mod_mod]
      by_cases hlow : p < 2 * 2 ^ e
      · rw [if_pos hlow, toNat_and_not_shiftLeft]
        simp
      · rw [if_neg hlow]
        obtain rfl : p = 2 * 2 ^ e := by omega
        rw [Nat.mod_eq_of_lt x.low.isLt]
        simp

theorem buildLowBitsMask_toNat {bits : ℕ} (hbits : bits ≤ 4 * 2 ^ e) :
    (buildLowBitsMask bits : IntCst e).toNat = 2 ^ bits - 1 := by
  have hshift : ∀ {w n : ℕ}, n ≤ w → (BitVec.allOnes w >>> (w - n)).toNat = 2 ^ n - 1 := by
    intro w n hn
    rw [BitVec.toNat_ushiftRight, BitVec.toNat_allOnes, Nat.shiftRight_eq_div_pow]
    obtain ⟨m, rfl⟩ : ∃ m, w = n + m := ⟨w - n, by omega⟩
    have hpos : 0 < 2 ^ n := by positivity
    have hposm : 0 < 2 ^ m := by positivity
    rw [Nat.add_sub_cancel_left, pow_add]
    obtain ⟨a, ha⟩ : ∃ a, 2 ^ n = a + 1 := ⟨2 ^ n - 1, by omega⟩
    rw [ha, Nat.add_sub_cancel]
    have hsplit : (a + 1) * 2 ^ m - 1 = a * 2 ^ m + (2 ^ m - 1) := by
      rw [Nat.add_mul, Nat.one_mul]
      omega
    rw [hsplit, Nat.add_comm, Nat.add_mul_div_right _ _ hposm, Nat.div_eq_of_lt (by omega), Nat.zero_add]
  unfold buildLowBitsMask hostBitsPerWideInt DoubleWord.toNat
  by_cases hle : bits ≤ 2 * 2 ^ e
  · rw [if_pos hle]
    dsimp only
    rw [hshift hle]
    simp
  · rw [if_neg hle]
    dsimp only
    obtain ⟨q, rfl⟩ : ∃ q, bits = 2 * 2 ^ e + q := ⟨bits - 2 * 2 ^ e, by omega⟩
    have hpos : 0 < 2 ^ (2 * 2 ^ e) := by positivity
    have hposq : 0 < 2 ^ q := by positivity
    rw [Nat.add_sub_cancel_left, hshift (by omega), BitVec.toNat_allOnes, pow_add, Nat.sub_mul, Nat.one_mul]
    have : 2 ^ (2 * 2 ^ e) ≤ 2 ^ q * 2 ^ (2 * 2 ^ e) := Nat.le_mul_of_pos_left _ hposq
    rw [Nat.mul_comm (2 ^ (2 * 2 ^ e)) (2 ^ q)]
    omega

/-- A shift to the right and back gives the number back if no bit was lost. -/
theorem shiftRight_shiftLeft_eq_iff {w : ℕ} (x : BitVec w) (n : ℕ) : (x >>> n) <<< n = x ↔ 2 ^ n ∣ x.toNat := by
  have hback : x.toNat / 2 ^ n * 2 ^ n < 2 ^ w := lt_of_le_of_lt (Nat.div_mul_le_self _ _) x.isLt
  rw [← BitVec.toNat_inj, BitVec.toNat_shiftLeft, BitVec.toNat_ushiftRight, Nat.shiftRight_eq_div_pow,
    Nat.shiftLeft_eq, Nat.mod_eq_of_lt hback]
  constructor
  · intro h
    exact ⟨x.toNat / 2 ^ n, by rw [Nat.mul_comm]; exact h.symm⟩
  · intro h
    exact Nat.div_mul_cancel h

/-- **The loop over the bits** counts the zeros at the end, which are fewer than twice `abits`.
Source: `tree.c` `num_ending_zeros`
Kind: L -/
theorem endingZerosLoop_spec (k : ℕ) : ∀ (fr : Hwi e) (num : ℕ), ¬ 2 ^ 2 ^ (k + 1) ∣ fr.toNat →
    ∃ z u, endingZerosLoop (2 ^ k) fr num = num + z ∧ fr.toNat = 2 ^ z * u ∧ u % 2 = 1 := by
  induction k with
  | zero =>
    intro fr num hfr
    rw [endingZerosLoop, if_neg (by norm_num)]
    dsimp only
    have hdone : ∀ (x : Hwi e) (n : ℕ), endingZerosLoop (2 ^ 0 / 2) x n = n := by
      intro x n
      rw [endingZerosLoop]
      rfl
    by_cases hdvd : 2 ^ 2 ^ 0 ∣ fr.toNat
    · rw [if_pos ((shiftRight_shiftLeft_eq_iff fr (2 ^ 0)).mpr hdvd), hdone]
      obtain ⟨u, hu⟩ := hdvd
      refine ⟨1, u, rfl, by simpa using hu, ?_⟩
      by_contra hodd
      apply hfr
      rw [hu]
      exact mul_dvd_mul_left (2 ^ 2 ^ 0) (show 2 ∣ u by omega)
    · rw [if_neg (fun h => hdvd ((shiftRight_shiftLeft_eq_iff fr (2 ^ 0)).mp h)), hdone]
      refine ⟨0, fr.toNat, rfl, by simp, ?_⟩
      simp only [pow_zero, pow_one] at hdvd
      omega
  | succ k ih =>
    intro fr num hfr
    have hhalf : 2 ^ (k + 1) / 2 = 2 ^ k := by
      rw [pow_succ]
      omega
    rw [endingZerosLoop, if_neg (by positivity)]
    dsimp only
    rw [hhalf]
    by_cases hdvd : 2 ^ 2 ^ (k + 1) ∣ fr.toNat
    · rw [if_pos ((shiftRight_shiftLeft_eq_iff fr (2 ^ (k + 1))).mpr hdvd)]
      have hnat : (fr >>> 2 ^ (k + 1)).toNat = fr.toNat / 2 ^ 2 ^ (k + 1) := by
        rw [BitVec.toNat_ushiftRight, Nat.shiftRight_eq_div_pow]
      have hnot : ¬ 2 ^ 2 ^ (k + 1) ∣ (fr >>> 2 ^ (k + 1)).toNat := by
        rw [hnat]
        intro h
        apply hfr
        have hsquare : 2 ^ 2 ^ (k + 1 + 1) = 2 ^ 2 ^ (k + 1) * 2 ^ 2 ^ (k + 1) := by
          rw [← pow_add]
          congr 1
          rw [pow_succ 2 (k + 1)]
          omega
        rw [hsquare, ← Nat.mul_div_cancel' hdvd]
        exact mul_dvd_mul_left _ h
      obtain ⟨z, u, hloop, hu, hodd⟩ := ih _ (num + 2 ^ (k + 1)) hnot
      refine ⟨2 ^ (k + 1) + z, u, by rw [hloop, Nat.add_assoc], ?_, hodd⟩
      rw [pow_add, Nat.mul_assoc, ← hu, hnat, Nat.mul_div_cancel' hdvd]
    · rw [if_neg (fun h => hdvd ((shiftRight_shiftLeft_eq_iff fr (2 ^ (k + 1))).mp h))]
      exact ih fr num hdvd

/-- A word that is not zero has a bit. -/
theorem exists_endingZerosLoop {fr : Hwi e} (hfr : fr ≠ 0) (num : ℕ) :
    ∃ z u, endingZerosLoop (hostBitsPerWideInt e / 2) fr num = num + z ∧ fr.toNat = 2 ^ z * u ∧ u % 2 = 1 := by
  have hhalf : hostBitsPerWideInt e / 2 = 2 ^ e := by
    unfold hostBitsPerWideInt
    omega
  rw [hhalf]
  apply endingZerosLoop_spec
  have hpow : 2 ^ (e + 1) = 2 * 2 ^ e := by rw [pow_succ, Nat.mul_comm]
  rw [hpow]
  apply Nat.not_dvd_of_pos_of_lt
  · apply Nat.pos_of_ne_zero
    intro hzero
    exact hfr (BitVec.eq_of_toNat_eq hzero)
  · exact fr.isLt

/-- **The zeros at the end** of a constant that is not zero. Source: `tree.c` `num_ending_zeros`. Kind: L -/
theorem numEndingZeros_spec {p : ℕ} {x : IntCst e} (hpos : 0 < x.toNat) (hlt : x.toNat < 2 ^ p) :
    numEndingZeros p x < p ∧ ∃ u, x.toNat = 2 ^ numEndingZeros p x * u ∧ u % 2 = 1 := by
  obtain ⟨z, u, hz, hu, hodd⟩ : ∃ z u, (if x.low = 0 then
      endingZerosLoop (hostBitsPerWideInt e / 2) x.high (hostBitsPerWideInt e)
      else endingZerosLoop (hostBitsPerWideInt e / 2) x.low 0) = z ∧ x.toNat = 2 ^ z * u ∧ u % 2 = 1 := by
    by_cases hlow : x.low = 0
    · have hhigh : x.high ≠ 0 := by
        intro hhigh
        rw [DoubleWord.toNat, hlow, hhigh] at hpos
        simp at hpos
      obtain ⟨z, u, hz, hu, hodd⟩ := exists_endingZerosLoop hhigh (hostBitsPerWideInt e)
      refine ⟨_, u, if_pos hlow, ?_, hodd⟩
      rw [hz, DoubleWord.toNat, hlow, hu, pow_add]
      unfold hostBitsPerWideInt
      simp
      ring
    · obtain ⟨z, u, hz, hu, hodd⟩ := exists_endingZerosLoop hlow 0
      have hword : z < 2 * 2 ^ e := by
        have hle : 2 ^ z ≤ x.low.toNat := by
          rw [hu]
          exact Nat.le_mul_of_pos_right _ (by omega)
        exact (Nat.pow_lt_pow_iff_right (by omega)).mp (lt_of_le_of_lt hle x.low.isLt)
      refine ⟨z, u + x.high.toNat * 2 ^ (2 * 2 ^ e - z), by rw [if_neg hlow, hz, Nat.zero_add], ?_, ?_⟩
      · have hsplit : 2 ^ (2 * 2 ^ e) = 2 ^ z * 2 ^ (2 * 2 ^ e - z) := by
          rw [← pow_add]
          congr 1
          omega
        rw [DoubleWord.toNat, hu, hsplit]
        ring
      · obtain ⟨m, hm⟩ : ∃ m, 2 * 2 ^ e - z = m + 1 := ⟨2 * 2 ^ e - z - 1, by omega⟩
        rw [hm, pow_succ, ← Nat.mul_assoc]
        omega
  have hzp : z < p := by
    have hle : 2 ^ z ≤ x.toNat := by
      rw [hu]
      exact Nat.le_mul_of_pos_right _ (by omega)
    exact (Nat.pow_lt_pow_iff_right (by omega)).mp (lt_of_le_of_lt hle hlt)
  have hnum : numEndingZeros p x = z := by
    unfold numEndingZeros
    dsimp only
    rw [hz, if_neg (by omega)]
  rw [hnum]
  exact ⟨hzp, u, hu, hodd⟩

/-! ## The inverse -/

/-- The pieces side by side. -/
theorem toNat_append_pieces (x : IntCst e) : (x.high ++ x.low).toNat = x.toNat := by
  rw [BitVec.toNat_append, ← Nat.shiftLeft_add_eq_or_of_lt x.low.isLt, Nat.shiftLeft_eq, Nat.add_comm]
  rfl

theorem andCst_toNat {p t : ℕ} (x : IntCst e) {mask : IntCst e} (hmask : mask.toNat = 2 ^ t - 1) (ht : t ≤ p) :
    (andCst p x mask).toNat = x.toNat % 2 ^ t := by
  have hand : (⟨x.low &&& mask.low, x.high &&& mask.high⟩ : IntCst e).toNat = x.toNat % 2 ^ t := by
    rw [← toNat_append_pieces]
    dsimp only
    rw [← BitVec.and_append, BitVec.toNat_and, toNat_append_pieces, toNat_append_pieces, hmask,
      Nat.and_two_pow_sub_one_eq_mod]
  unfold andCst
  rw [fitDoubleType_toNat, hand]
  exact Nat.mod_eq_of_lt (lt_of_lt_of_le (Nat.mod_lt _ (by positivity)) (Nat.pow_le_pow_right (by omega) ht))

theorem multCst_modEq {p : ℕ} (hp : p ≤ 4 * 2 ^ e) (x y : IntCst e) :
    (multCst p x y).toNat ≡ x.toNat * y.toNat [MOD 2 ^ p] := by
  unfold multCst mulDouble
  rw [fitDoubleType_toNat, mulDoubleWithSign_toNat (by positivity)]
  calc _ ≡ x.toNat * y.toNat % 2 ^ (4 * 2 ^ e) [MOD 2 ^ p] := Nat.mod_modEq _ _
    _ ≡ x.toNat * y.toNat [MOD 2 ^ p] := (Nat.mod_modEq _ _).of_dvd (Nat.pow_dvd_pow 2 hp)

/-- The value of a constant, modulo the width of its type. Source: `tree.c` `int_cst_value`. Kind: L -/
theorem intCstValue_modEq {p : ℕ} (hp : 0 < p) (x : IntCst e) :
    (intCstValue p x).toNat ≡ x.low.toNat [MOD 2 ^ p] := by
  have hshift : ∀ w : ℕ, (BitVec.allOnes w <<< (p - 1)) <<< 1 = BitVec.allOnes w <<< p := by
    intro w
    rw [← BitVec.shiftLeft_add]
    congr 1
    omega
  unfold intCstValue
  rw [hshift]
  split_ifs with hlt hneg
  · -- the bits that are set are above the type
    unfold Nat.ModEq
    apply Nat.eq_of_testBit_eq
    intro i
    simp only [Nat.testBit_mod_two_pow, BitVec.testBit_toNat, BitVec.getLsbD_or, BitVec.getLsbD_shiftLeft]
    by_cases hi : i < p
    · simp [hi]
    · simp [hi]
  · rw [toNat_and_not_shiftLeft]
    exact Nat.mod_modEq _ _
  · rfl

/-- A constant of at most one word is its low piece. -/
theorem toNat_eq_low {p : ℕ} (hp : p ≤ 2 * 2 ^ e) {x : IntCst e} (hx : x.toNat < 2 ^ p) : x.low.toNat = x.toNat := by
  have hle : 2 ^ p ≤ 2 ^ (2 * 2 ^ e) := Nat.pow_le_pow_right (by omega) hp
  have hhigh : x.high.toNat = 0 := by
    by_contra hne
    have hbig : 2 ^ (2 * 2 ^ e) ≤ x.high.toNat * 2 ^ (2 * 2 ^ e) :=
      Nat.le_mul_of_pos_left _ (Nat.pos_of_ne_zero hne)
    unfold DoubleWord.toNat at hx
    omega
  rw [DoubleWord.toNat, hhigh]
  simp

/-- The logarithm of a constant, from its pieces. Source: `tree.c` `tree_floor_log2`. Kind: L -/
theorem log2_pieces (x : IntCst e) :
    (if x.high ≠ 0 then hostBitsPerWideInt e + x.high.toNat.log2 else x.low.toNat.log2) = x.toNat.log2 := by
  by_cases hhigh : x.high = 0
  · rw [if_neg (not_not.mpr hhigh), DoubleWord.toNat, hhigh]
    simp
  · rw [if_pos hhigh]
    have hne : x.high.toNat ≠ 0 := by
      intro hzero
      exact hhigh (BitVec.eq_of_toNat_eq hzero)
    obtain ⟨hlo, hhi⟩ := (Nat.log2_eq_iff hne).mp rfl
    have hlow := x.low.isLt
    have hvalue : x.toNat = x.low.toNat + x.high.toNat * 2 ^ (2 * 2 ^ e) := rfl
    have hbelow : 2 ^ x.high.toNat.log2 * 2 ^ (2 * 2 ^ e) ≤ x.high.toNat * 2 ^ (2 * 2 ^ e) :=
      Nat.mul_le_mul_right _ hlo
    have habove : (x.high.toNat + 1) * 2 ^ (2 * 2 ^ e) ≤ 2 ^ (x.high.toNat.log2 + 1) * 2 ^ (2 * 2 ^ e) :=
      Nat.mul_le_mul_right _ hhi
    rw [← pow_add] at hbelow habove
    rw [Nat.add_mul, Nat.one_mul] at habove
    have hpos : 0 < 2 ^ (x.high.toNat.log2 + 2 * 2 ^ e) := by positivity
    have hbits : hostBitsPerWideInt e + x.high.toNat.log2 = x.high.toNat.log2 + 2 * 2 ^ e := Nat.add_comm _ _
    symm
    rw [Nat.log2_eq_iff (by omega), hbits]
    refine ⟨by omega, ?_⟩
    have hexp : x.high.toNat.log2 + 2 * 2 ^ e + 1 = x.high.toNat.log2 + 1 + 2 * 2 ^ e := by omega
    rw [hexp]
    omega

theorem treeFloorLog2_mask {p t : ℕ} (ht : 0 < t) (htp : t ≤ p) {mask : IntCst e}
    (hmask : mask.toNat = 2 ^ t - 1) : treeFloorLog2 p mask = t - 1 := by
  obtain ⟨n, rfl⟩ : ∃ n, t = n + 1 := ⟨t - 1, by omega⟩
  have hpos : 0 < 2 ^ n := by positivity
  have hsucc : 2 ^ (n + 1) = 2 * 2 ^ n := by rw [pow_succ, Nat.mul_comm]
  have hle : 2 ^ (n + 1) ≤ 2 ^ p := Nat.pow_le_pow_right (by omega) htp
  unfold treeFloorLog2
  dsimp only
  rw [log2_pieces, fitDoubleType_toNat, hmask, Nat.mod_eq_of_lt (by omega), Nat.log2_eq_iff (by omega),
    Nat.add_sub_cancel]
  omega

theorem buildIntCstType_toNat {p : ℕ} (hp : p ≤ 2 * 2 ^ e) (low : Hwi e) :
    (buildIntCstType p low).toNat = low.toNat % 2 ^ p := by
  unfold buildIntCstType
  rw [fitDoubleType_toNat, DoubleWord.toNat, Nat.add_mod, Nat.mod_eq_zero_of_dvd
    (Dvd.dvd.mul_left (Nat.pow_dvd_pow 2 hp) _), Nat.add_zero, Nat.mod_mod]

/-- Masking with a number that ends in `t` ones. -/
theorem toNat_and_mod {w p t : ℕ} (htp : t ≤ p) (x : BitVec w) {m : BitVec w} (hm : m.toNat ≡ 2 ^ t - 1 [MOD 2 ^ p]) :
    (x &&& m).toNat % 2 ^ p = x.toNat % 2 ^ t := by
  have hpos : 0 < 2 ^ t := by positivity
  have hle : 2 ^ t ≤ 2 ^ p := Nat.pow_le_pow_right (by omega) htp
  have hm' : m.toNat % 2 ^ p = 2 ^ t - 1 := by
    rw [hm]
    exact Nat.mod_eq_of_lt (by omega)
  rw [BitVec.toNat_and, Nat.and_mod_two_pow, hm', Nat.and_two_pow_sub_one_eq_mod]
  exact Nat.mod_mod_of_dvd _ (Nat.pow_dvd_pow 2 htp)

/-- **The inverse** of an odd number, in both branches. Source: `tree-ssa-loop-niter.c` `inverse`. Kind: P -/
theorem inverse_spec {p t : ℕ} (hp : p ≤ 4 * 2 ^ e) (ht : 0 < t) (htp : t ≤ p) {x mask : IntCst e}
    (hx : x.toNat < 2 ^ p) (hodd : x.toNat % 2 = 1) (hmask : mask.toNat = 2 ^ t - 1) :
    x.toNat * (inverse p x mask).toNat ≡ 1 [MOD 2 ^ t] ∧ (inverse p x mask).toNat < 2 ^ t := by
  have hdvd : 2 ^ t ∣ 2 ^ p := Nat.pow_dvd_pow 2 htp
  have htwo : 0 < 2 ^ t := by positivity
  unfold inverse
  dsimp only
  rw [treeFloorLog2_mask ht htp hmask]
  by_cases hword : p ≤ hostBitsPerWideInt e
  · rw [if_pos hword]
    have hword' : p ≤ 2 * 2 ^ e := hword
    have hmaskp : mask.toNat < 2 ^ p := by
      have : 2 ^ t ≤ 2 ^ p := Nat.pow_le_pow_right (by omega) htp
      omega
    have hix : (intCstValue p x).toNat ≡ x.toNat [MOD 2 ^ t] := by
      rw [← toNat_eq_low hword' hx]
      exact (intCstValue_modEq (by omega) x).of_dvd hdvd
    have himask : (intCstValue p mask).toNat ≡ 2 ^ t - 1 [MOD 2 ^ p] := by
      rw [← hmask, ← toNat_eq_low hword' hmaskp]
      exact intCstValue_modEq (by omega) mask
    rw [buildIntCstType_toNat hword', toNat_and_mod htp _ himask]
    have hmul : ∀ a b : Hwi e, (a * b).toNat ≡ a.toNat * b.toNat [MOD 2 ^ t] := by
      intro a b
      rw [BitVec.toNat_mul]
      exact (Nat.mod_modEq _ _).of_dvd (Nat.pow_dvd_pow 2 (le_trans htp hword'))
    have hoddix : (intCstValue p x).toNat % 2 = 1 := by
      rw [← hodd]
      exact hix.of_dvd (dvd_pow_self 2 (by omega))
    have hinv := mul_squareLoop_modEq_one (f := BitVec.toNat) ht hmul (one_toNat (by positivity)) hoddix
    refine ⟨?_, Nat.mod_lt _ htwo⟩
    calc x.toNat * _ ≡ x.toNat * (squareLoop (· * ·) (t - 1) 1 (intCstValue p x)).toNat [MOD 2 ^ t] :=
          (Nat.mod_modEq _ _).mul_left _
      _ ≡ (intCstValue p x).toNat * (squareLoop (· * ·) (t - 1) 1 (intCstValue p x)).toNat [MOD 2 ^ t] :=
          hix.symm.mul_right _
      _ ≡ 1 [MOD 2 ^ t] := hinv
  · rw [if_neg hword, andCst_toNat _ hmask htp]
    have hone : (buildIntCst 1 : IntCst e).toNat = 1 := buildIntCst_toNat (Nat.one_lt_two_pow (by positivity))
    have hinv := mul_squareLoop_modEq_one (f := DoubleWord.toNat) ht
      (fun a b => (multCst_modEq hp a b).of_dvd hdvd) hone hodd
    refine ⟨?_, Nat.mod_lt _ htwo⟩
    exact ((Nat.mod_modEq _ _).mul_left _).trans hinv

end GccCore.Gcc.LoopNiter
