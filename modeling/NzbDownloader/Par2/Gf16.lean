import NzbDownloader.Lib.CyclicField
import Mathlib.Data.Nat.Bitwise
import Mathlib.Order.Interval.Finset.Nat
import Mathlib.Tactic.NormNum.Prime

/-!
# GF(2^16) by logarithm tables

The arithmetic of `par2/rs.c`: the tables built by `gf16_init` and the products, quotients
and powers read off them.
-/

namespace NzbDownloader.Par2

open Lib Function Nat Finset

abbrev Gf16 := BitVec 16

def gfCount : ℕ := 65536

def gfLimit : ℕ := 65535

def gfGenerator : ℕ := 0x1100B

structure GfTables where
  log : ℕ → Gf16
  antilog : ℕ → Gf16

def gfShift (b : ℕ) : ℕ :=
  let b := b <<< 1
  if b &&& gfCount ≠ 0 then b ^^^ gfGenerator else b

def gf16InitLoop : ℕ → GfTables × ℕ
  | 0 => (⟨fun _ => 0, fun _ => 0⟩, 1)
  | l + 1 =>
      let (tables, b) := gf16InitLoop l
      (⟨update tables.log b (BitVec.ofNat 16 l),
        update tables.antilog l (BitVec.ofNat 16 b)⟩, gfShift b)

def gf16Init : GfTables :=
  let tables := (gf16InitLoop gfLimit).1
  ⟨update tables.log 0 (BitVec.ofNat 16 gfLimit),
    update tables.antilog gfLimit 0⟩

def gLog (a : Gf16) : Gf16 :=
  gf16Init.log a.toNat

def gAntilog (l : ℕ) : Gf16 :=
  gf16Init.antilog l

def gf16Mul (a b : Gf16) : Gf16 :=
  if a = 0 ∨ b = 0 then 0
  else
    let sum := (gLog a).toNat + (gLog b).toNat
    gAntilog (if sum ≥ gfLimit then sum - gfLimit else sum)

def gf16Div (a b : Gf16) : Gf16 :=
  if a = 0 then 0
  else
    let sum : ℤ := (gLog a).toNat - (gLog b).toNat
    gAntilog (if sum < 0 then sum + gfLimit else sum).toNat

def gf16Pow (base : Gf16) (exponent : BitVec 16) : Gf16 :=
  if exponent = 0 then 1
  else if base = 0 then 0
  else
    let sum := (gLog base).toNat * exponent.toNat
    let sum := (sum >>> 16) + (sum &&& gfLimit)
    gAntilog (if sum ≥ gfLimit then sum - gfLimit else sum)

theorem and_gfCount_ne_zero (b : ℕ) : b &&& gfCount ≠ 0 ↔ b.testBit 16 = true := by
  have power : gfCount = 2 ^ 16 := rfl
  rw [power, and_two_pow]
  cases b.testBit 16 <;> simp

theorem gfShift_eq (b : ℕ) :
    gfShift b = (b <<< 1) ^^^ (if (b <<< 1).testBit 16 then gfGenerator else 0) := by
  simp only [gfShift, and_gfCount_ne_zero]
  split <;> simp_all

theorem gfShift_xor (a b : ℕ) : gfShift (a ^^^ b) = gfShift a ^^^ gfShift b := by
  simp only [gfShift_eq, Nat.shiftLeft_xor_distrib, Nat.testBit_xor]
  cases (a <<< 1).testBit 16 <;> cases (b <<< 1).testBit 16 <;>
    simp [Nat.xor_comm, Nat.xor_left_comm]

theorem gfShift_lt {b : ℕ} (bound : b < gfCount) : gfShift b < gfCount := by
  have power : gfCount = 2 ^ 16 := rfl
  have top : ∀ i, 16 < i → (b <<< 1).testBit i = false := by
    intro i high
    apply Nat.testBit_lt_two_pow
    have : 2 ^ 17 ≤ 2 ^ i := Nat.pow_le_pow_right (by decide) high
    rw [power] at bound
    rw [Nat.shiftLeft_eq]
    omega
  have generatorTop : ∀ i, 16 < i → gfGenerator.testBit i = false := by
    intro i high
    apply Nat.testBit_lt_two_pow
    have : 2 ^ 17 ≤ 2 ^ i := Nat.pow_le_pow_right (by decide) high
    have : gfGenerator < 2 ^ 17 := by decide
    omega
  rw [power]
  apply Nat.lt_pow_two_of_testBit
  intro i high
  rw [gfShift_eq, Nat.testBit_xor]
  rcases Nat.lt_or_eq_of_le high with above | rfl
  · rw [top i above]
    split
    · rw [generatorTop i above]; rfl
    · simp
  · have generatorBit : gfGenerator.testBit 16 = true := by decide
    cases bit : (b <<< 1).testBit 16 <;> simp [generatorBit]

theorem gfShift_pos {b : ℕ} (pos : 0 < b) : 0 < gfShift b := by
  rw [pos_iff_ne_zero]
  intro zero
  rw [gfShift_eq, xor_eq_zero_iff] at zero
  split at zero
  · have odd : gfGenerator % 2 = 1 := by decide
    omega
  · rw [shiftLeft_eq] at zero
    omega

def gfOrbit (l : ℕ) : ℕ :=
  gfShift^[l] 1

theorem gfOrbit_succ (l : ℕ) : gfOrbit (l + 1) = gfShift (gfOrbit l) := by
  rw [gfOrbit, gfOrbit, iterate_succ_apply']

theorem gfOrbit_lt (l : ℕ) : gfOrbit l < gfCount := by
  induction l with
  | zero => decide
  | succ l ih => rw [gfOrbit_succ]; exact gfShift_lt ih

theorem gfOrbit_pos (l : ℕ) : 0 < gfOrbit l := by
  induction l with
  | zero => decide
  | succ l ih => rw [gfOrbit_succ]; exact gfShift_pos ih

/-! ## The orbit is full

Squaring in the exponent is multiplication of polynomials, so the orbit can be
evaluated at large exponents in a few steps.
-/

def polyMul (a b : ℕ) : ℕ :=
  (List.range 16).foldl (fun acc i => if a.testBit i then acc ^^^ gfShift^[i] b else acc) 0

theorem iterate_gfShift_xor (n a b : ℕ) :
    gfShift^[n] (a ^^^ b) = gfShift^[n] a ^^^ gfShift^[n] b := by
  induction n with
  | zero => rfl
  | succ n ih => simp only [iterate_succ_apply', ih, gfShift_xor]

theorem iterate_gfShift_zero (n : ℕ) : gfShift^[n] 0 = 0 := by
  induction n with
  | zero => rfl
  | succ n ih => rw [iterate_succ_apply', ih]; decide

private theorem foldl_bits_iterate (a n : ℕ) (indices : List ℕ) (start : ℕ) :
    indices.foldl (fun acc i => if a.testBit i then acc ^^^ gfShift^[i] (gfOrbit n) else acc)
        (gfShift^[n] start) =
      gfShift^[n] (indices.foldl
        (fun acc i => if a.testBit i then acc ^^^ gfOrbit i else acc) start) := by
  induction indices generalizing start with
  | nil => rfl
  | cons i rest ih =>
    simp only [List.foldl_cons]
    rw [← ih]
    split
    · rw [iterate_gfShift_xor, gfOrbit, gfOrbit, ← iterate_add_apply,
        ← iterate_add_apply, add_comm]
    · rfl

private theorem foldl_bits_eq_mod (a k : ℕ) :
    (List.range k).foldl (fun acc i => if a.testBit i then acc ^^^ 2 ^ i else acc) 0 =
      a % 2 ^ k := by
  induction k with
  | zero => simp [Nat.mod_one]
  | succ k ih =>
    rw [List.range_succ, List.foldl_append, ih]
    apply Nat.eq_of_testBit_eq
    intro j
    simp only [List.foldl_cons, List.foldl_nil, Nat.testBit_mod_two_pow]
    by_cases bit : a.testBit k
    · rw [if_pos bit, Nat.testBit_xor, Nat.testBit_mod_two_pow, Nat.testBit_two_pow]
      rcases Nat.lt_trichotomy j k with below | rfl | above
      · simp [below, Nat.lt_succ_of_lt below, Nat.ne_of_gt below]
      · simp [bit]
      · simp [Nat.not_lt_of_gt above, Nat.ne_of_lt above, show ¬ j < k + 1 by omega]
    · rw [if_neg bit, Nat.testBit_mod_two_pow]
      rcases Nat.lt_trichotomy j k with below | rfl | above
      · simp [below, Nat.lt_succ_of_lt below]
      · simp [bit]
      · simp [Nat.not_lt_of_gt above, show ¬ j < k + 1 by omega]

theorem polyMul_gfOrbit {a : ℕ} (bound : a < gfCount) (n : ℕ) :
    polyMul a (gfOrbit n) = gfShift^[n] a := by
  have lowPowers : ∀ i ∈ List.range 16, gfOrbit i = 2 ^ i := by decide
  have expand : (List.range 16).foldl
      (fun acc i => if a.testBit i then acc ^^^ gfOrbit i else acc) 0 = a := by
    calc
      _ = (List.range 16).foldl (fun acc i => if a.testBit i then acc ^^^ 2 ^ i else acc) 0 :=
        List.foldl_ext _ _ 0 (fun acc i member => by rw [lowPowers i member])
      _ = a % 2 ^ 16 := foldl_bits_eq_mod a 16
      _ = a := mod_eq_of_lt bound
  have moved := foldl_bits_iterate a n (List.range 16) 0
  rw [iterate_gfShift_zero, expand] at moved
  exact moved

def orbitAtBits (bits : List Bool) : ℕ :=
  bits.foldl (fun acc bit =>
    let square := polyMul acc acc
    if bit then gfShift square else square) 1

private theorem orbitAtBits_eq (bits : List Bool) (n : ℕ) :
    bits.foldl (fun acc bit =>
      let square := polyMul acc acc
      if bit then gfShift square else square) (gfOrbit n) =
    gfOrbit (bits.foldl (fun value bit => 2 * value + bit.toNat) n) := by
  induction bits generalizing n with
  | nil => rfl
  | cons bit rest ih =>
    simp only [List.foldl_cons]
    rw [← ih]
    have square : polyMul (gfOrbit n) (gfOrbit n) = gfOrbit (2 * n) := by
      rw [polyMul_gfOrbit (gfOrbit_lt n), gfOrbit, gfOrbit, ← iterate_add_apply,
        two_mul]
    rw [square]
    cases bit with
    | false => simp
    | true => simp [gfOrbit_succ]

theorem gfOrbit_of_bits (bits : List Bool) :
    gfOrbit (bits.foldl (fun value bit => 2 * value + bit.toNat) 0) = orbitAtBits bits := by
  rw [← orbitAtBits_eq]
  rfl

theorem gfOrbit_period : gfOrbit gfLimit = 1 := by
  have evaluated := gfOrbit_of_bits (List.replicate 16 true)
  rw [show (List.replicate 16 true).foldl (fun value bit => 2 * value + bit.toNat) 0 =
    gfLimit by decide] at evaluated
  rw [evaluated]
  decide +kernel

private theorem gfOrbit_quotient (p : ℕ) (cases : p = 3 ∨ p = 5 ∨ p = 17 ∨ p = 257) :
    gfOrbit (gfLimit / p) ≠ 1 := by
  rcases cases with rfl | rfl | rfl | rfl
  · have evaluated := gfOrbit_of_bits
      [true, false, true, false, true, false, true, false, true, false, true, false, true,
        false, true]
    exact fun one => absurd (evaluated.symm.trans one) (by decide +kernel)
  · have evaluated := gfOrbit_of_bits
      [true, true, false, false, true, true, false, false, true, true, false, false, true, true]
    exact fun one => absurd (evaluated.symm.trans one) (by decide +kernel)
  · have evaluated := gfOrbit_of_bits
      [true, true, true, true, false, false, false, false, true, true, true, true]
    exact fun one => absurd (evaluated.symm.trans one) (by decide +kernel)
  · have evaluated := gfOrbit_of_bits (List.replicate 8 true)
    exact fun one => absurd (evaluated.symm.trans one) (by decide +kernel)

theorem minimalPeriod_gfShift : minimalPeriod gfShift 1 = gfLimit := by
  apply minimalPeriod_eq_of_prime_quotients gfShift 1 gfLimit gfOrbit_period
  intro p prime divides
  apply gfOrbit_quotient p
  have factors : p ∣ 3 * 5 * 17 * 257 := divides
  rw [prime.dvd_mul, prime.dvd_mul, prime.dvd_mul,
    prime_dvd_prime_iff_eq prime (by norm_num),
    prime_dvd_prime_iff_eq prime (by norm_num),
    prime_dvd_prime_iff_eq prime (by norm_num),
    prime_dvd_prime_iff_eq prime (by norm_num)] at factors
  omega

theorem gfOrbit_injective {m n : ℕ} (mBound : m < gfLimit) (nBound : n < gfLimit)
    (equal : gfOrbit m = gfOrbit n) : m = n := by
  apply iterate_injOn_Iio_minimalPeriod (f := gfShift) (x := 1)
  · rw [minimalPeriod_gfShift]; exact mBound
  · rw [minimalPeriod_gfShift]; exact nBound
  · exact equal

theorem exists_gfOrbit_eq {v : ℕ} (pos : 0 < v) (bound : v < gfCount) :
    ∃ l < gfLimit, gfOrbit l = v := by
  have subset : (range gfLimit).image gfOrbit ⊆ Finset.Ioo 0 gfCount := by
    intro x member
    obtain ⟨l, -, rfl⟩ := mem_image.mp member
    exact mem_Ioo.mpr ⟨gfOrbit_pos l, gfOrbit_lt l⟩
  have card : (Finset.Ioo 0 gfCount).card ≤ ((range gfLimit).image gfOrbit).card := by
    rw [Finset.card_image_of_injOn, Finset.card_range, Nat.card_Ioo]
    · exact le_refl _
    · intro m mMember n nMember equal
      exact gfOrbit_injective (mem_range.mp mMember) (mem_range.mp nMember) equal
  have all := eq_of_subset_of_card_le subset card
  have member : v ∈ (range gfLimit).image gfOrbit := by
    rw [all]
    exact mem_Ioo.mpr ⟨pos, bound⟩
  obtain ⟨l, range, equal⟩ := mem_image.mp member
  exact ⟨l, mem_range.mp range, equal⟩

end NzbDownloader.Par2
