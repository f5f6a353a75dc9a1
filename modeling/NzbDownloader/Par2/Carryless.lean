import NzbDownloader.Par2.Gf16Field
import Mathlib.Algebra.CharP.Two
import Mathlib.Algebra.Field.ZMod
import Mathlib.RingTheory.AdjoinRoot
import Mathlib.Tactic.ComputeDegree

/-!
# The table product is the polynomial product

What the tables of `par2/rs.c` are for: a word is a polynomial over GF(2), one bit for
each coefficient, and the product of two words is the carry-less product of the
polynomials reduced modulo the generator `0x1100B`.
-/

namespace NzbDownloader.Par2

open Polynomial Galois16 AdjoinRoot

noncomputable def bitPolynomial (word : ℕ) : (ZMod 2)[X] :=
  ∑ i ∈ Finset.range 17, if word.testBit i then X ^ i else 0

noncomputable def generatorPolynomial : (ZMod 2)[X] :=
  bitPolynomial gfGenerator

theorem bitPolynomial_xor (a b : ℕ) :
    bitPolynomial (a ^^^ b) = bitPolynomial a + bitPolynomial b := by
  rw [bitPolynomial, bitPolynomial, bitPolynomial, ← Finset.sum_add_distrib]
  apply Finset.sum_congr rfl
  intro i _
  rw [Nat.testBit_xor]
  have twice : (X ^ i : (ZMod 2)[X]) + X ^ i = 0 := CharTwo.add_self_eq_zero _
  cases a.testBit i <;> cases b.testBit i <;> simp [twice]

theorem bitPolynomial_zero : bitPolynomial 0 = 0 := by
  simp [bitPolynomial]

theorem bitPolynomial_one : bitPolynomial 1 = 1 := by
  rw [bitPolynomial, Finset.sum_eq_single 0]
  · rfl
  · intro i _ nonzero
    rw [if_neg]
    simp [Nat.testBit_one_eq_true_iff_self_eq_zero, nonzero]
  · simp

theorem bitPolynomial_shiftLeft {b : ℕ} (bound : b < gfCount) :
    bitPolynomial (b <<< 1) = X * bitPolynomial b := by
  have top : b.testBit 16 = false := Nat.testBit_lt_two_pow bound
  have lowest : (b <<< 1).testBit 0 = false := by simp
  have split : bitPolynomial b = ∑ i ∈ Finset.range 16, if b.testBit i then X ^ i else 0 := by
    rw [bitPolynomial, Finset.sum_range_succ, top]
    exact add_zero _
  rw [split, bitPolynomial, Finset.sum_range_succ', lowest, Finset.mul_sum]
  refine (add_zero _).trans (Finset.sum_congr rfl fun i _ => ?_)
  rw [Nat.testBit_shiftLeft, mul_ite, mul_zero, ← pow_succ']
  simp

theorem generatorPolynomial_eq : generatorPolynomial = X ^ 16 + (X ^ 12 + X ^ 3 + X + 1) := by
  simp [generatorPolynomial, bitPolynomial, Finset.sum_range_succ, gfGenerator, Nat.testBit]
  ring

theorem monic_generatorPolynomial : generatorPolynomial.Monic := by
  rw [generatorPolynomial_eq]
  apply monic_X_pow_add
  compute_degree!

theorem degree_generatorPolynomial : generatorPolynomial.degree = 16 := by
  rw [generatorPolynomial_eq]
  compute_degree!

theorem degree_bitPolynomial {b : ℕ} (bound : b < gfCount) :
    (bitPolynomial b).degree < generatorPolynomial.degree := by
  rw [degree_generatorPolynomial]
  apply (degree_sum_le _ _).trans_lt
  rw [Finset.sup_lt_iff (by exact WithBot.bot_lt_coe 16)]
  intro i range
  split
  · rename_i bit
    rw [degree_X_pow]
    have low : i < 16 := by
      by_contra high
      have beyond : b < 2 ^ i :=
        lt_of_lt_of_le bound (Nat.pow_le_pow_right Nat.two_pos (Nat.not_lt.mp high))
      rw [Nat.testBit_lt_two_pow beyond] at bit
      contradiction
    exact_mod_cast low
  · rw [degree_zero]
    exact WithBot.bot_lt_coe 16

theorem mk_bitPolynomial_gfOrbit (l : ℕ) :
    mk generatorPolynomial (bitPolynomial (gfOrbit l)) =
      root generatorPolynomial ^ l := by
  induction l with
  | zero => rw [pow_zero, gfOrbit, Function.iterate_zero_apply, bitPolynomial_one, map_one]
  | succ l ih =>
    rw [gfOrbit_succ, gfShift_eq, bitPolynomial_xor, bitPolynomial_shiftLeft (gfOrbit_lt l),
      map_add, map_mul, mk_X, ih, ← pow_succ']
    split
    · exact (congrArg _ mk_self).trans (add_zero _)
    · rw [bitPolynomial_zero, map_zero, add_zero]

theorem toNat_of_mk_eq {a : Gf16} {l : ℕ} (equal : mk a = cyclicLog.exp l) :
    a.toNat = gfOrbit l := by
  rw [exp_eq, mk.injEq] at equal
  rw [equal, toNat_ofNat_gfOrbit]

theorem bitPolynomial_gf16Mul (a b : Gf16) :
    bitPolynomial (gf16Mul a b).toNat =
      bitPolynomial a.toNat * bitPolynomial b.toNat %ₘ generatorPolynomial := by
  rw [← (modByMonic_eq_self_iff monic_generatorPolynomial).mpr
    (degree_bitPolynomial (gf16Mul a b).isLt)]
  apply modByMonic_eq_of_dvd_sub monic_generatorPolynomial
  rw [← mk_eq_mk, map_mul]
  by_cases zero : a = 0 ∨ b = 0
  · rw [gf16Mul, if_pos zero]
    rcases zero with rfl | rfl <;> simp [bitPolynomial_zero]
  · push Not at zero
    have product : mk (gf16Mul a b) = cyclicLog.exp ((gLog a).toNat + (gLog b).toNat) := by
      rw [mk_gf16Mul, ← exp_gLog zero.1, ← exp_gLog zero.2]
      exact cyclicLog.exp_mul_exp _ _
    rw [toNat_of_mk_eq product, toNat_of_mk_eq (exp_gLog zero.1).symm,
      toNat_of_mk_eq (exp_gLog zero.2).symm, mk_bitPolynomial_gfOrbit, mk_bitPolynomial_gfOrbit,
      mk_bitPolynomial_gfOrbit, pow_add]

/-- The arithmetic read off the tables is that of GF(2^16). -/
theorem gf16_arithmetic (a b : Gf16) :
    bitPolynomial (gf16Mul a b).toNat =
        bitPolynomial a.toNat * bitPolynomial b.toNat %ₘ generatorPolynomial ∧
      (b ≠ 0 → gf16Mul (gf16Div a b) b = a) ∧
      (∀ e : BitVec 16, gf16Pow a e = (gf16Mul a)^[e.toNat] 1 ∧
        (gLog a).toNat * e.toNat < 2 ^ 32) ∧
      gf16Mul a b = gf16Mul b a ∧
      ∀ c, gf16Mul (gf16Mul a b) c = gf16Mul a (gf16Mul b c) ∧
        gf16Mul a (b ^^^ c) = gf16Mul a b ^^^ gf16Mul a c := by
  have power (n : ℕ) : mk ((gf16Mul a)^[n] 1) = mk a ^ n := by
    induction n with
    | zero => rfl
    | succ n ih => rw [Function.iterate_succ_apply', mk_gf16Mul, ih, pow_succ']
  refine ⟨bitPolynomial_gf16Mul a b, fun nonzero => ?_, fun e => ⟨?_, ?_⟩, ?_, fun c => ⟨?_, ?_⟩⟩
  · apply mk.inj
    rw [mk_gf16Mul, mk_gf16Div a nonzero, div_mul_cancel₀ _ (mk_ne_zero.mpr nonzero)]
  · apply mk.inj
    rw [mk_gf16Pow, power]
  · calc (gLog a).toNat * e.toNat
      _ ≤ 65535 * 65535 :=
        Nat.mul_le_mul (Nat.le_of_lt_succ (gLog a).isLt) (Nat.le_of_lt_succ e.isLt)
      _ < 2 ^ 32 := by decide
  · apply mk.inj
    rw [mk_gf16Mul, mk_gf16Mul, mul_comm]
  · apply mk.inj
    rw [mk_gf16Mul, mk_gf16Mul, mk_gf16Mul, mk_gf16Mul, mul_assoc]
  · apply mk.inj
    rw [mk_gf16Mul, mk_xor, mk_xor, mk_gf16Mul, mk_gf16Mul, mul_add]

theorem gf16_arithmetic_quotient : gf16Mul (gf16Div 0xBEEF 0x8001) 0x8001 = 0xBEEF :=
  (gf16_arithmetic 0xBEEF 0x8001).2.1 (by decide)

end NzbDownloader.Par2
