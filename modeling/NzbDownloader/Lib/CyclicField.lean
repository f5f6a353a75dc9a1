import Mathlib.Algebra.Field.Basic
import Mathlib.Algebra.Group.Hom.Basic
import Mathlib.Dynamics.PeriodicPts.Lemmas
import Mathlib.Tactic.Ring

/-!
# Fields generated by one additive shift

Let `shift` be an additive endomorphism of a commutative group and suppose that every
nonzero element is an iterate of `shift` on one chosen element `unit`.
-/

namespace NzbDownloader.Lib

universe u

/-- A logarithm for the orbit of `unit` under an additive `shift`.  The orbit is
periodic and covers every nonzero element. -/
structure CyclicLog (V : Type u) [AddCommGroup V] where
  shift : V →+ V
  unit : V
  period : ℕ
  log : V → ℕ
  unit_ne_zero : unit ≠ 0
  period_pos : 0 < period
  shift_period : shift^[period] unit = unit
  log_le : ∀ v, v ≠ 0 → log v ≤ period
  shift_log : ∀ v, v ≠ 0 → shift^[log v] unit = v

namespace CyclicLog

variable {V : Type u} [AddCommGroup V] (L : CyclicLog V)

theorem iterate_shift_zero (n : ℕ) : L.shift^[n] 0 = 0 := by
  induction n with
  | zero => rfl
  | succ n ih => rw [Function.iterate_succ_apply', ih, map_zero]

theorem iterate_shift_add (n : ℕ) (a b : V) :
    L.shift^[n] (a + b) = L.shift^[n] a + L.shift^[n] b := by
  induction n with
  | zero => rfl
  | succ n ih => simp only [Function.iterate_succ_apply', ih, map_add]

def exp (n : ℕ) : V :=
  L.shift^[n] L.unit

theorem exp_zero : L.exp 0 = L.unit :=
  rfl

theorem exp_add (m n : ℕ) : L.exp (m + n) = L.shift^[n] (L.exp m) := by
  rw [exp, exp, Nat.add_comm, Function.iterate_add_apply]

theorem exp_log {v : V} (nonzero : v ≠ 0) : L.exp (L.log v) = v :=
  L.shift_log v nonzero

theorem exp_add_period (n : ℕ) : L.exp (n + L.period) = L.exp n := by
  rw [Nat.add_comm, exp_add]
  exact congrArg _ L.shift_period

theorem exp_mul_period (k : ℕ) : L.exp (k * L.period) = L.unit := by
  induction k with
  | zero => simp [exp]
  | succ k ih => rw [Nat.succ_mul, exp_add_period, ih]

theorem exp_mod_period (n : ℕ) : L.exp (n % L.period) = L.exp n := by
  conv_rhs => rw [← Nat.div_add_mod n L.period, Nat.mul_comm, exp_add, exp_mul_period]
  rfl

theorem exp_ne_zero (n : ℕ) : L.exp n ≠ 0 := by
  intro vanished
  have reach : n ≤ n * L.period := Nat.le_mul_of_pos_right n L.period_pos
  have returned := L.exp_mul_period n
  rw [← Nat.add_sub_cancel' reach, exp_add, vanished, iterate_shift_zero] at returned
  exact L.unit_ne_zero returned.symm

theorem iterate_shift_congr {m n : ℕ} (equal : L.exp m = L.exp n) (a : V) :
    L.shift^[m] a = L.shift^[n] a := by
  by_cases zero : a = 0
  · rw [zero, iterate_shift_zero, iterate_shift_zero]
  · rw [← L.exp_log zero, ← exp_add, ← exp_add, Nat.add_comm, exp_add, equal,
      ← exp_add, Nat.add_comm]

section Multiplication

variable [DecidableEq V]

def mul (a b : V) : V :=
  if a = 0 ∨ b = 0 then 0 else L.exp (L.log a + L.log b)

theorem mul_eq_iterate (a : V) {b : V} (nonzero : b ≠ 0) :
    L.mul a b = L.shift^[L.log b] a := by
  by_cases zero : a = 0
  · rw [zero, iterate_shift_zero, mul, if_pos (Or.inl rfl)]
  · rw [mul, if_neg (by simp [zero, nonzero]), exp_add, L.exp_log zero]

theorem mul_exp (a : V) (n : ℕ) : L.mul a (L.exp n) = L.shift^[n] a := by
  rw [L.mul_eq_iterate a (L.exp_ne_zero n)]
  exact L.iterate_shift_congr (L.exp_log (L.exp_ne_zero n)) a

theorem exp_mul_exp (m n : ℕ) : L.mul (L.exp m) (L.exp n) = L.exp (m + n) := by
  rw [mul_exp, exp_add]

theorem zero_mul (a : V) : L.mul 0 a = 0 := by
  simp [mul]

theorem mul_zero (a : V) : L.mul a 0 = 0 := by
  simp [mul]

theorem mul_comm (a b : V) : L.mul a b = L.mul b a := by
  simp only [mul, Or.comm, Nat.add_comm]

theorem mul_unit (a : V) : L.mul a L.unit = a := by
  rw [← L.exp_zero, mul_exp]
  rfl

theorem add_mul (a b c : V) : L.mul (a + b) c = L.mul a c + L.mul b c := by
  by_cases zero : c = 0
  · simp [zero, mul_zero]
  · rw [L.mul_eq_iterate _ zero, L.mul_eq_iterate _ zero, L.mul_eq_iterate _ zero,
      iterate_shift_add]

theorem mul_assoc (a b c : V) : L.mul (L.mul a b) c = L.mul a (L.mul b c) := by
  by_cases zero : a = 0 ∨ b = 0 ∨ c = 0
  · rcases zero with rfl | rfl | rfl <;> simp [zero_mul, mul_zero]
  · push Not at zero
    obtain ⟨aNonzero, bNonzero, cNonzero⟩ := zero
    rw [← L.exp_log aNonzero, ← L.exp_log bNonzero, ← L.exp_log cNonzero]
    simp only [exp_mul_exp, Nat.add_assoc]

def inv (a : V) : V :=
  if a = 0 then 0 else L.exp (L.period - L.log a)

theorem mul_inv {a : V} (nonzero : a ≠ 0) : L.mul a (L.inv a) = L.unit := by
  rw [inv, if_neg nonzero, mul_exp]
  calc
    L.shift^[L.period - L.log a] a =
        L.shift^[L.period - L.log a] (L.exp (L.log a)) := by rw [L.exp_log nonzero]
    _ = L.exp L.period := by rw [← exp_add, Nat.add_sub_cancel' (L.log_le a nonzero)]
    _ = L.unit := L.shift_period

@[reducible]
def toField : Field V where
  __ := (inferInstance : AddCommGroup V)
  mul := L.mul
  one := L.unit
  inv := L.inv
  left_distrib a b c := by
    change L.mul a (b + c) = L.mul a b + L.mul a c
    rw [L.mul_comm, add_mul, L.mul_comm b, L.mul_comm c]
  right_distrib := L.add_mul
  zero_mul := L.zero_mul
  mul_zero := L.mul_zero
  mul_assoc := L.mul_assoc
  one_mul a := by
    change L.mul L.unit a = a
    rw [L.mul_comm, mul_unit]
  mul_one := L.mul_unit
  mul_comm := L.mul_comm
  exists_pair_ne := ⟨L.unit, 0, L.unit_ne_zero⟩
  mul_inv_cancel a nonzero := L.mul_inv nonzero
  inv_zero := by
    change L.inv 0 = 0
    simp [inv]
  nnqsmul := _
  nnqsmul_def := fun _ _ => rfl
  qsmul := _
  qsmul_def := fun _ _ => rfl

end Multiplication

end CyclicLog

theorem minimalPeriod_eq_of_prime_quotients {α : Type u} (f : α → α) (x : α) (n : ℕ)
    (returns : f^[n] x = x)
    (quotients : ∀ p, p.Prime → p ∣ n → f^[n / p] x ≠ x) :
    Function.minimalPeriod f x = n := by
  have divides : Function.minimalPeriod f x ∣ n :=
    Function.IsPeriodicPt.minimalPeriod_dvd returns
  obtain ⟨k, factor⟩ := divides
  by_contra different
  have kNe : k ≠ 1 := by
    rintro rfl
    exact different (by rw [factor, Nat.mul_one])
  obtain ⟨p, prime, pk⟩ := Nat.exists_prime_and_dvd kNe
  obtain ⟨q, rfl⟩ := pk
  apply quotients p prime ⟨Function.minimalPeriod f x * q, by rw [factor]; ring⟩
  have quotient : n / p = Function.minimalPeriod f x * q := by
    rw [factor, show Function.minimalPeriod f x * (p * q) =
      p * (Function.minimalPeriod f x * q) by ring]
    exact Nat.mul_div_cancel_left _ prime.pos
  rw [quotient]
  exact (Function.isPeriodicPt_minimalPeriod f x).mul_const q

end NzbDownloader.Lib
