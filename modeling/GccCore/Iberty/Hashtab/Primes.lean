import Mathlib.Data.Nat.Prime.Basic
import Mathlib.NumberTheory.LucasPrimality
import Mathlib.Tactic.LinearCombination
import Mathlib.Tactic.NormNum.Prime
import Mathlib.Order.Fin.Basic

/-!
# `libiberty/hashtab.c`: the table of primes

`prime_tab`, the search for a size in it, and the remainder by a table entry without a division.

* **The reciprocals are right** (`htabMod1_toNat`, `htabMod_toNat`, `htabModM2_toNat`): a high-part
  multiplication and two shifts give the remainder, for every 32-bit hash.
* **The sizes are prime** (`prime_primeTab`).
* **The search finds the first prime that is large enough** (`higherPrimeIndex_spec`).
-/

namespace GccCore.Iberty.Hashtab

/-- `hashval_t`. Source: `hashtab.h`. -/
abbrev Hashval := BitVec 32

/-- A row of the table. Source: `hashtab.c` `struct prime_ent`. -/
structure PrimeEnt where
  prime : Hashval
  inv : Hashval
  invM2 : Hashval
  shift : ℕ

/-- The table of primes and multiplicative inverses.
Source: `hashtab.c` `prime_tab` -/
def primeTab : Vector PrimeEnt 30 := #v[
  ⟨7, 0x24924925, 0x9999999b, 2⟩,
  ⟨13, 0x3b13b13c, 0x745d1747, 3⟩,
  ⟨31, 0x08421085, 0x1a7b9612, 4⟩,
  ⟨61, 0x0c9714fc, 0x15b1e5f8, 5⟩,
  ⟨127, 0x02040811, 0x0624dd30, 6⟩,
  ⟨251, 0x05197f7e, 0x073260a5, 7⟩,
  ⟨509, 0x01824366, 0x02864fc8, 8⟩,
  ⟨1021, 0x00c0906d, 0x014191f7, 9⟩,
  ⟨2039, 0x0121456f, 0x0161e69e, 10⟩,
  ⟨4093, 0x00300902, 0x00501908, 11⟩,
  ⟨8191, 0x00080041, 0x00180241, 12⟩,
  ⟨16381, 0x000c0091, 0x00140191, 13⟩,
  ⟨32749, 0x002605a5, 0x002a06e6, 14⟩,
  ⟨65521, 0x000f00e2, 0x00110122, 15⟩,
  ⟨131071, 0x00008001, 0x00018003, 16⟩,
  ⟨262139, 0x00014002, 0x0001c004, 17⟩,
  ⟨524287, 0x00002001, 0x00006001, 18⟩,
  ⟨1048573, 0x00003001, 0x00005001, 19⟩,
  ⟨2097143, 0x00004801, 0x00005801, 20⟩,
  ⟨4194301, 0x00000c01, 0x00001401, 21⟩,
  ⟨8388593, 0x00001e01, 0x00002201, 22⟩,
  ⟨16777213, 0x00000301, 0x00000501, 23⟩,
  ⟨33554393, 0x00001381, 0x00001481, 24⟩,
  ⟨67108859, 0x00000141, 0x000001c1, 25⟩,
  ⟨134217689, 0x000004e1, 0x00000521, 26⟩,
  ⟨268435399, 0x00000391, 0x000003b1, 27⟩,
  ⟨536870909, 0x00000019, 0x00000029, 28⟩,
  ⟨1073741789, 0x0000008d, 0x00000095, 29⟩,
  ⟨2147483647, 0x00000003, 0x00000007, 30⟩,
  ⟨0xfffffffb, 0x00000006, 0x00000008, 31⟩]

/-- The size of a row's tables. Source: `hashtab.c` (`prime_tab[i].prime`). -/
abbrev primeSize (i : Fin 30) : ℕ := primeTab[i].prime.toNat

/-! ## The remainder -/

/-- `x % y` by the reciprocal of `y`.
Source: `hashtab.c` `htab_mod_1` -/
def htabMod1 (x y inv : Hashval) (shift : ℕ) : Hashval :=
  let t1 : Hashval := ((x.setWidth 64 * inv.setWidth 64) >>> 32).setWidth 32
  let t2 := x - t1
  let t3 := t2 >>> 1
  let t4 := t1 + t3
  let q := t4 >>> shift
  x - q * y

/-- The primary hash. Source: `hashtab.c` `htab_mod`. -/
def htabMod (hash : Hashval) (sizePrimeIndex : Fin 30) : Hashval :=
  let p := primeTab[sizePrimeIndex]
  htabMod1 hash p.prime p.inv p.shift

/-- The secondary hash. Source: `hashtab.c` `htab_mod_m2`. -/
def htabModM2 (hash : Hashval) (sizePrimeIndex : Fin 30) : Hashval :=
  let p := primeTab[sizePrimeIndex]
  1 + htabMod1 hash (p.prime - 2) p.invM2 p.shift

/-- `2 ^ 32 + inv` is the reciprocal of `y` scaled by `2 ^ (33 + shift)` and rounded up, close
enough for 32-bit numerators.
Source: `hashtab.c` ("All of these inverses (are implied to) have bit 32 set") -/
def IsReciprocal (y inv : Hashval) (shift : ℕ) : Prop :=
  0 < y.toNat ∧ 2 ^ (33 + shift) ≤ (2 ^ 32 + inv.toNat) * y.toNat ∧
    (2 ^ 32 + inv.toNat) * y.toNat ≤ 2 ^ (33 + shift) + 2 ^ (shift + 1)

instance (y inv : Hashval) (shift : ℕ) : Decidable (IsReciprocal y inv shift) :=
  inferInstanceAs (Decidable (_ ∧ _ ∧ _))

/-- Multiplying by a close reciprocal divides. -/
theorem mul_reciprocal_div {x y m M e : ℕ} (hy : 0 < y) (hm : m * y = M + e) (he : x * e < M) :
    x * m / M = x / y := by
  have hdm := Nat.div_add_mod x y
  have hr := Nat.mod_lt x hy
  generalize x / y = q at hdm ⊢
  generalize x % y = r at hdm hr
  have hsplit : x * m = q * M + (q * e + r * m) := by
    rw [← hdm]
    linear_combination q * hm
  have hlt : q * e + r * m < M := by
    refine lt_of_mul_lt_mul_right (a := y) ?_ (Nat.zero_le y)
    calc (q * e + r * m) * y = x * e + r * M := by
          rw [← hdm]
          linear_combination r * hm
      _ < M + r * M := by omega
      _ = (r + 1) * M := by ring
      _ ≤ y * M := Nat.mul_le_mul_right M hr
      _ = M * y := mul_comm y M
  rw [hsplit, add_comm, Nat.add_mul_div_right _ _ (by omega), Nat.div_eq_of_lt hlt, zero_add]

/-- **The remainder without a division.** Source: `hashtab.c` `htab_mod_1` ("Return X % Y").
Kind: P -/
theorem htabMod1_toNat (x : Hashval) {y inv : Hashval} {shift : ℕ}
    (h : IsReciprocal y inv shift) : (htabMod1 x y inv shift).toNat = x.toNat % y.toNat := by
  obtain ⟨hy, hlo, hhi⟩ := h
  have hx := x.isLt
  have hI := inv.isLt
  have hXI : x.toNat * inv.toNat / 2 ^ 32 ≤ x.toNat := by
    refine Nat.div_le_of_le_mul ?_
    rw [mul_comm]
    exact Nat.mul_le_mul_right _ hI.le
  -- the high part of the product
  have ht1 : (((x.setWidth 64 * inv.setWidth 64) >>> 32).setWidth 32 : Hashval).toNat =
      x.toNat * inv.toNat / 2 ^ 32 := by
    have hprod : x.toNat * inv.toNat < 2 ^ 64 := by
      calc x.toNat * inv.toNat < 2 ^ 32 * 2 ^ 32 := Nat.mul_lt_mul'' hx hI
        _ = 2 ^ 64 := by norm_num
    have hx64 : x.toNat % 2 ^ 64 = x.toNat := Nat.mod_eq_of_lt (by omega)
    have hI64 : inv.toNat % 2 ^ 64 = inv.toNat := Nat.mod_eq_of_lt (by omega)
    rw [BitVec.toNat_setWidth, BitVec.toNat_ushiftRight, BitVec.toNat_mul, BitVec.toNat_setWidth,
      BitVec.toNat_setWidth, hx64, hI64, Nat.mod_eq_of_lt hprod, Nat.shiftRight_eq_div_pow]
    exact Nat.mod_eq_of_lt (by omega)
  generalize ht1def : (((x.setWidth 64 * inv.setWidth 64) >>> 32).setWidth 32 : Hashval) = t1 at ht1
  have ht4 : (t1 + (x - t1) >>> 1).toNat = (x.toNat + t1.toNat) / 2 := by
    rw [BitVec.toNat_add, BitVec.toNat_ushiftRight, BitVec.toNat_sub_of_le
      (BitVec.le_def.mpr (ht1 ▸ hXI)), Nat.shiftRight_eq_div_pow]
    omega
  have hq : ((t1 + (x - t1) >>> 1) >>> shift).toNat = x.toNat / y.toNat := by
    obtain ⟨e, he⟩ := Nat.exists_eq_add_of_le hlo
    have hsplit : 2 ^ (33 + shift) = 2 ^ 32 * 2 ^ (shift + 1) := by
      rw [← pow_add]
      congr 1
      omega
    have hbound : x.toNat * e < 2 ^ (33 + shift) := by
      have he2 : e ≤ 2 ^ (shift + 1) := by omega
      calc x.toNat * e ≤ x.toNat * 2 ^ (shift + 1) := Nat.mul_le_mul_left _ he2
        _ < 2 ^ 32 * 2 ^ (shift + 1) := Nat.mul_lt_mul_of_pos_right hx (by positivity)
        _ = 2 ^ (33 + shift) := hsplit.symm
    calc ((t1 + (x - t1) >>> 1) >>> shift).toNat
        = (x.toNat + x.toNat * inv.toNat / 2 ^ 32) / 2 / 2 ^ shift := by
          rw [BitVec.toNat_ushiftRight, ht4, ht1, Nat.shiftRight_eq_div_pow]
      _ = x.toNat * (2 ^ 32 + inv.toNat) / 2 ^ 32 / 2 ^ (shift + 1) := by
          rw [mul_add, mul_comm x.toNat (2 ^ 32), Nat.mul_add_div (by norm_num),
            Nat.div_div_eq_div_mul, pow_succ' 2 shift]
      _ = x.toNat * (2 ^ 32 + inv.toNat) / 2 ^ (33 + shift) := by
          rw [Nat.div_div_eq_div_mul, hsplit]
      _ = x.toNat / y.toNat := mul_reciprocal_div hy he hbound
  have hqy : x.toNat / y.toNat * y.toNat ≤ x.toNat := Nat.div_mul_le_self _ _
  simp only [htabMod1, ht1def]
  have hmul : ((t1 + (x - t1) >>> 1) >>> shift * y).toNat = x.toNat / y.toNat * y.toNat := by
    rw [BitVec.toNat_mul, hq]
    exact Nat.mod_eq_of_lt (lt_of_le_of_lt hqy hx)
  rw [BitVec.toNat_sub_of_le (BitVec.le_def.mpr (hmul ▸ hqy)), hmul, mul_comm]
  exact (Nat.mod_eq_sub_mul_div).symm

/-- Every row's inverses are reciprocals. Source: `hashtab.c` `prime_tab`. Kind: L -/
theorem isReciprocal_primeTab (i : Fin 30) :
    IsReciprocal primeTab[i].prime primeTab[i].inv primeTab[i].shift ∧
      IsReciprocal (primeTab[i].prime - 2) primeTab[i].invM2 primeTab[i].shift := by
  revert i
  decide +kernel

/-- Every row's size has room for a stride. Source: `hashtab.c` `prime_tab`. Kind: L -/
theorem prime_bounds (i : Fin 30) :
    7 ≤ primeTab[i].prime.toNat ∧ (primeTab[i].prime - 2).toNat = primeTab[i].prime.toNat - 2 := by
  revert i
  decide +kernel

/-- **The primary index** is the hash modulo the size.
Source: `hashtab.c` `htab_mod`
Kind: P -/
theorem htabMod_toNat (hash : Hashval) (i : Fin 30) :
    (htabMod hash i).toNat = hash.toNat % primeTab[i].prime.toNat :=
  htabMod1_toNat hash (isReciprocal_primeTab i).1

/-- **The stride** is one more than the hash modulo the size less two.
Source: `hashtab.c` `htab_mod_m2`
Kind: P -/
theorem htabModM2_toNat (hash : Hashval) (i : Fin 30) :
    (htabModM2 hash i).toNat = 1 + hash.toNat % (primeTab[i].prime.toNat - 2) := by
  have hprime := primeTab[i].prime.isLt
  obtain ⟨hge, hm2⟩ := prime_bounds i
  have hmod := Nat.mod_lt hash.toNat (y := primeTab[i].prime.toNat - 2) (by omega)
  rw [htabModM2, BitVec.toNat_add, htabMod1_toNat hash (isReciprocal_primeTab i).2, hm2]
  exact Nat.mod_eq_of_lt (by rw [show (1 : Hashval).toNat = 1 from rfl]; omega)

/-- **Every row divides every hash**: the two remainders are exact, the primary index is below the size, and the stride is between one
and the size less two.
Source: `hashtab.c` `htab_mod_1`, `htab_mod`, `htab_mod_m2`
Kind: P -/
theorem htabMod1_primeTab (i : Fin 30) (x : Hashval) :
    (htabMod1 x primeTab[i].prime primeTab[i].inv primeTab[i].shift).toNat = x.toNat % primeSize i ∧
      (htabMod1 x (primeTab[i].prime - 2) primeTab[i].invM2 primeTab[i].shift).toNat = x.toNat % (primeSize i - 2) ∧
      (htabMod x i).toNat < primeSize i ∧ 1 ≤ (htabModM2 x i).toNat ∧ (htabModM2 x i).toNat ≤ primeSize i - 2 := by
  have hge : 7 ≤ primeSize i := (prime_bounds i).1
  have hm2 : (primeTab[i].prime - 2).toNat = primeSize i - 2 := (prime_bounds i).2
  have hmod := Nat.mod_lt x.toNat (by omega : primeSize i - 2 > 0)
  have hstride : (htabModM2 x i).toNat = 1 + x.toNat % (primeSize i - 2) := htabModM2_toNat x i
  refine ⟨htabMod1_toNat x (isReciprocal_primeTab i).1, ?_, ?_, ?_, ?_⟩
  · rw [htabMod1_toNat x (isReciprocal_primeTab i).2, hm2]
  · rw [htabMod_toNat]
    exact Nat.mod_lt _ (lt_of_lt_of_le (Nat.succ_pos 6) hge)
  · rw [hstride]
    exact Nat.le_add_right 1 _
  · rw [hstride, add_comm]
    exact Nat.succ_le_of_lt hmod

/-! ## The sizes are prime -/

/-- `a ^ n` modulo `p`, by squaring, for `n` of `fuel` bits. -/
def powMod (p a : ℕ) : ℕ → ℕ → ℕ
  | 0, _ => 1 % p
  | fuel + 1, n => powMod p a fuel (n / 2) ^ 2 * a ^ (n % 2) % p

/-- Squaring computes the power. -/
theorem powMod_eq (p a : ℕ) {fuel n : ℕ} (hn : n < 2 ^ fuel) : powMod p a fuel n = a ^ n % p := by
  induction fuel generalizing n with
  | zero =>
    obtain rfl : n = 0 := by simpa using hn
    rfl
  | succ fuel ih =>
    have hhalf : n / 2 < 2 ^ fuel := by
      rw [Nat.div_lt_iff_lt_mul two_pos, ← pow_succ]
      exact hn
    calc powMod p a (fuel + 1) n = (a ^ (n / 2) % p) ^ 2 * a ^ (n % 2) % p := by rw [powMod, ih hhalf]
      _ = (a ^ (n / 2)) ^ 2 * a ^ (n % 2) % p := by rw [Nat.mul_mod, ← Nat.pow_mod, ← Nat.mul_mod]
      _ = a ^ n % p := by rw [← pow_mul, ← pow_add, Nat.div_add_mod']

/-- `a` has the order `p - 1` modulo `p`, whose predecessor has the prime factors `fs`. -/
def IsGenerator (p a : ℕ) (fs : List ℕ) : Prop :=
  1 < p ∧ p < 2 ^ 32 ∧ fs.prod = p - 1 ∧ powMod p a 32 (p - 1) = 1 ∧
    ∀ q ∈ fs, powMod p a 32 ((p - 1) / q) ≠ 1

instance (p a : ℕ) (fs : List ℕ) : Decidable (IsGenerator p a fs) :=
  inferInstanceAs (Decidable (_ ∧ _ ∧ _ ∧ _ ∧ _))

/-- A unit whose order is `p - 1` makes `p` prime. -/
theorem IsGenerator.prime {p a : ℕ} {fs : List ℕ} (h : IsGenerator p a fs)
    (hfs : ∀ q ∈ fs, q.Prime) : p.Prime := by
  obtain ⟨hp, hsize, hprod, hone, hne⟩ := h
  have hpow : ∀ n ≤ p - 1, ((a : ZMod p) ^ n = 1 ↔ powMod p a 32 n = 1) := by
    intro n hn
    rw [powMod_eq p a (by omega), ← Nat.cast_pow, ← Nat.cast_one, ZMod.natCast_eq_natCast_iff',
      Nat.mod_eq_of_lt hp]
  refine lucas_primality p a ((hpow _ le_rfl).mpr hone) fun q hq hdvd => ?_
  rw [← hprod] at hdvd
  obtain ⟨r, hr, hqr⟩ := (Prime.dvd_prod_iff hq.prime).mp hdvd
  obtain rfl := (Nat.prime_dvd_prime_iff_eq hq (hfs r hr)).mp hqr
  rw [Ne, hpow _ (Nat.div_le_self _ _)]
  exact hne q hr

/-- The primes past the reach of trial division, each with a generator and the factors of its
predecessor.
Source: `hashtab.c` `prime_tab`
Kind: L -/
theorem prime_large : ∀ p ∈ [131071, 262139, 524287, 1048573, 2097143, 4194301, 8388593, 16777213,
    33554393, 67108859, 134217689, 268435399, 536870909, 1073741789, 2147483647, 4294967291],
    Nat.Prime p := by
  have prime_of {p : ℕ} (a : ℕ) (fs : List ℕ) (h : IsGenerator p a fs) (hfs : ∀ q ∈ fs, q.Prime) :
    p.Prime := h.prime hfs
  have h524287 : Nat.Prime 524287 :=
    prime_of 3 [2, 3, 3, 3, 7, 19, 73] (by decide +kernel) (by norm_num)
  have h1048571 : Nat.Prime 1048571 :=
    prime_of 2 [2, 5, 23, 47, 97] (by decide +kernel) (by norm_num)
  have h581029 : Nat.Prime 581029 :=
    prime_of 6 [2, 2, 3, 7, 6917] (by decide +kernel) (by norm_num)
  have h22605091 : Nat.Prime 22605091 :=
    prime_of 11 [2, 3, 5, 23, 181, 181] (by decide +kernel) (by norm_num)
  simp only [List.forall_mem_cons, List.not_mem_nil, false_implies, implies_true, and_true]
  exact ⟨prime_of 3 [2, 3, 5, 17, 257] (by decide +kernel) (by norm_num),
    prime_of 2 [2, 53, 2473] (by decide +kernel) (by norm_num),
    h524287,
    prime_of 2 [2, 2, 3, 3, 3, 7, 19, 73] (by decide +kernel) (by norm_num),
    prime_of 5 [2, 1048571] (by decide +kernel) (by simp [h1048571, Nat.prime_two]),
    prime_of 7 [2, 2, 3, 5, 5, 11, 31, 41] (by decide +kernel) (by norm_num),
    prime_of 3 [2, 2, 2, 2, 524287] (by decide +kernel) (by simp [h524287, Nat.prime_two]),
    prime_of 5 [2, 2, 3, 23, 89, 683] (by decide +kernel) (by norm_num),
    prime_of 3 [2, 2, 2, 29, 61, 2371] (by decide +kernel) (by norm_num),
    prime_of 2 [2, 479, 70051] (by decide +kernel) (by norm_num),
    prime_of 3 [2, 2, 2, 11, 101, 15101] (by decide +kernel) (by norm_num),
    prime_of 3 [2, 3, 7, 11, 581029] (by decide +kernel) (by norm_num [h581029]),
    prime_of 2 [2, 2, 7, 73, 262657] (by decide +kernel) (by norm_num),
    prime_of 2 [2, 2, 7, 2341, 16381] (by decide +kernel) (by norm_num),
    prime_of 7 [2, 3, 3, 7, 11, 31, 151, 331] (by decide +kernel) (by norm_num),
    prime_of 2 [2, 5, 19, 22605091] (by decide +kernel) (by norm_num [h22605091])⟩

/-- **Every size in the table is prime.** Source: `hashtab.c` `prime_tab`. Kind: P -/
theorem prime_primeTab (i : Fin 30) : primeTab[i].prime.toNat.Prime := by
  have hmem : ∀ i : Fin 30, primeTab[i].prime.toNat ∈ [7, 13, 31, 61, 127, 251, 509, 1021, 2039,
      4093, 8191, 16381, 32749, 65521, 131071, 262139, 524287, 1048573, 2097143, 4194301, 8388593,
      16777213, 33554393, 67108859, 134217689, 268435399, 536870909, 1073741789, 2147483647,
      4294967291] := by decide +kernel
  have hall : ∀ p ∈ [7, 13, 31, 61, 127, 251, 509, 1021, 2039,
      4093, 8191, 16381, 32749, 65521], Nat.Prime p := by norm_num
  exact (List.mem_append.mp (hmem i)).elim (hall _) (prime_large _)

/-! ## The search for a size -/

/-- How a run of the table's functions can fail to return: by `abort`, by a read past `prime_tab`,
with storage that was not obtained, or in a loop that has not ended within the fuel.
Source: `hashtab.c` -/
inductive Failure
  | abort
  | outOfBounds
  | noMemory
  | diverges
  deriving DecidableEq

/-- The binary search over the rows from `low` up to `high`.
Source: `hashtab.c` `higher_prime_index` (`while (low != high)`) -/
def searchLoop (n : ℕ) : ℕ → ℕ → ℕ → Except Failure ℕ
  | 0, _, _ => .error .diverges
  | fuel + 1, low, high =>
    if low ≠ high then
      let mid := low + (high - low) / 2
      if hmid : mid < 30 then
        if n > primeTab[mid].prime.toNat then searchLoop n fuel (mid + 1) high
        else searchLoop n fuel low mid
      else .error .outOfBounds
    else .ok low

/-- The row of the nearest prime that is not smaller than `n`.
Source: `hashtab.c` `higher_prime_index` -/
def higherPrimeIndex (n : ℕ) : Except Failure (Fin 30) := do
  let low ← searchLoop n 31 0 30
  if hlow : low < 30 then
    if n > primeTab[low].prime.toNat then .error .abort else .ok ⟨low, hlow⟩
  else .error .outOfBounds

/-- Each row is below the next. Source: `hashtab.c` `prime_tab`. Kind: L -/
theorem primeTab_le_succ : ∀ i : Fin 29,
    primeTab[i.castSucc].prime.toNat ≤ primeTab[i.succ].prime.toNat := by
  decide +kernel

/-- The rows ascend. Source: `hashtab.c` `prime_tab`. Kind: L -/
theorem primeTab_mono {i j : Fin 30} (hij : i ≤ j) :
    primeTab[i].prime.toNat ≤ primeTab[j].prime.toNat := by
  have hmono : Monotone fun i : Fin 30 => primeTab[i].prime.toNat :=
    Fin.monotone_iff_le_succ.mpr primeTab_le_succ
  exact hmono hij

/-- **The binary search** ends at the boundary between the rows below `n` and the others.
Source: `hashtab.c` `higher_prime_index`
Kind: L -/
theorem searchLoop_spec {n fuel low high : ℕ} (hle : low ≤ high) (h30 : high ≤ 30)
    (hfuel : high - low < fuel) (hlow : ∀ j : Fin 30, j.val < low → primeTab[j].prime.toNat < n)
    (hhigh : ∀ j : Fin 30, high ≤ j.val → n ≤ primeTab[j].prime.toNat) :
    ∃ r ≤ 30, searchLoop n fuel low high = .ok r ∧
      (∀ j : Fin 30, j.val < r → primeTab[j].prime.toNat < n) ∧
      ∀ j : Fin 30, r ≤ j.val → n ≤ primeTab[j].prime.toNat := by
  induction fuel generalizing low high with
  | zero => omega
  | succ fuel ih =>
    rw [searchLoop]
    by_cases heq : low = high
    · subst heq
      rw [if_neg (by simp)]
      exact ⟨low, h30, rfl, hlow, hhigh⟩
    · have hmid : low + (high - low) / 2 < 30 := by omega
      rw [if_pos heq]
      simp only [hmid, dif_pos]
      by_cases hn : n > primeTab[low + (high - low) / 2].prime.toNat
      · rw [if_pos hn]
        apply ih (by omega) h30 (by omega) _ hhigh
        intro j hj
        refine lt_of_le_of_lt (primeTab_mono (j := ⟨_, hmid⟩) ?_) hn
        exact Fin.le_def.mpr (Nat.lt_succ_iff.mp hj)
      · rw [if_neg hn]
        apply ih (by omega) (by omega) (by omega) hlow
        intro j hj
        exact (not_lt.mp hn).trans (primeTab_mono (i := ⟨_, hmid⟩) (Fin.le_def.mpr hj))

/-- **The row found** is the first whose prime is not smaller than `n`.
Source: `hashtab.c` `higher_prime_index`
Kind: P -/
theorem higherPrimeIndex_spec {n : ℕ} (hn : n ≤ 4294967291) :
    ∃ i : Fin 30, higherPrimeIndex n = .ok i ∧ n ≤ primeTab[i].prime.toNat ∧
      ∀ j < i, primeTab[j].prime.toNat < n := by
  obtain ⟨r, hr, heq, hbelow, habove⟩ := @searchLoop_spec n 31 0 30 (by omega)
    le_rfl (by omega) (fun j hj => absurd hj (by omega)) (fun j hj => absurd j.isLt (by omega))
  have hr30 : r < 30 := by
    by_contra hge
    exact absurd (hbelow 29 (by simp; omega)) (not_lt.mpr hn)
  have hle := habove ⟨r, hr30⟩ le_rfl
  refine ⟨⟨r, hr30⟩, ?_, hle, fun j hj => hbelow j hj⟩
  simp only [higherPrimeIndex, heq, bind, Except.bind, hr30, dif_pos]
  exact if_neg (not_lt.mpr hle)

/-- Up to the last row but one, the row found is not the last. Source: `hashtab.c`
`higher_prime_index`. Kind: L -/
theorem prime_le_of_higherPrimeIndex {n : ℕ} (hn : n ≤ 2147483647) {i : Fin 30}
    (hi : ∀ j < i, primeTab[j].prime.toNat < n) : primeTab[i].prime.toNat ≤ 2147483647 := by
  have hle : i ≤ 28 := by
    by_contra hlt
    exact absurd (hi 28 (not_le.mp hlt)) (not_lt.mpr hn)
  exact primeTab_mono hle

end GccCore.Iberty.Hashtab
