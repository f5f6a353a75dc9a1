import NzbDownloader.Par2.Gf16
import Mathlib.Data.BitVec

/-!
# The table arithmetic is a field

`gf16_init` leaves `g_antilog` holding the orbit of doubling and `g_log` its inverse.
-/

namespace NzbDownloader.Par2

open Lib Function Nat
open BitVec (ofNat toNat_ofNat eq_of_toNat_eq)

theorem gf16InitLoop_snd (l : ℕ) : (gf16InitLoop l).2 = gfOrbit l := by
  induction l with
  | zero => rfl
  | succ l ih => rw [gfOrbit_succ, ← ih]; rfl

variable {l : ℕ}

theorem gf16InitLoop_antilog {n : ℕ} (before : l < n) :
    (gf16InitLoop n).1.antilog l = ofNat 16 (gfOrbit l) := by
  induction n with
  | zero => omega
  | succ n ih =>
    change Function.update (gf16InitLoop n).1.antilog n
      (ofNat 16 (gf16InitLoop n).2) l = _
    rcases Nat.lt_or_eq_of_le (Nat.le_of_lt_succ before) with earlier | rfl
    · rw [update_of_ne (Nat.ne_of_lt earlier), ih earlier]
    · rw [update_self, gf16InitLoop_snd]

theorem gf16InitLoop_log {n : ℕ} (before : l < n) (bound : n ≤ gfLimit) :
    (gf16InitLoop n).1.log (gfOrbit l) = ofNat 16 l := by
  induction n with
  | zero => omega
  | succ n ih =>
    change Function.update (gf16InitLoop n).1.log (gf16InitLoop n).2
      (ofNat 16 n) (gfOrbit l) = _
    rw [gf16InitLoop_snd]
    rcases Nat.lt_or_eq_of_le (Nat.le_of_lt_succ before) with earlier | rfl
    · have distinct : gfOrbit l ≠ gfOrbit n := fun equal =>
        Nat.ne_of_lt earlier (gfOrbit_injective (by omega) (by omega) equal)
      rw [update_of_ne distinct, ih earlier (by omega)]
    · rw [update_self]

theorem gAntilog_eq (bound : l < gfLimit) : gAntilog l = ofNat 16 (gfOrbit l) := by
  rw [gAntilog, gf16Init]
  simp only [update_of_ne (Nat.ne_of_lt bound)]
  exact gf16InitLoop_antilog bound

theorem toNat_ofNat_gfOrbit (l : ℕ) : (ofNat 16 (gfOrbit l)).toNat = gfOrbit l := by
  rw [toNat_ofNat]
  exact mod_eq_of_lt (gfOrbit_lt l)

theorem gLog_gfOrbit (bound : l < gfLimit) :
    gLog (ofNat 16 (gfOrbit l)) = ofNat 16 l := by
  rw [gLog, toNat_ofNat_gfOrbit, gf16Init]
  simp only [update_of_ne (ne_of_gt (gfOrbit_pos l))]
  exact gf16InitLoop_log bound (le_refl _)

theorem gLog_spec {a : Gf16} (nonzero : a ≠ 0) :
    (gLog a).toNat < gfLimit ∧ ofNat 16 (gfOrbit (gLog a).toNat) = a := by
  have pos : 0 < a.toNat := by
    rw [pos_iff_ne_zero]
    intro zero
    exact nonzero (eq_of_toNat_eq zero)
  obtain ⟨l, bound, equal⟩ := exists_gfOrbit_eq pos a.isLt
  have word : ofNat 16 (gfOrbit l) = a := by
    rw [equal]
    apply eq_of_toNat_eq
    rw [toNat_ofNat, mod_eq_of_lt a.isLt]
  have logarithm : (gLog a).toNat = l := by
    rw [← word, gLog_gfOrbit bound, toNat_ofNat]
    apply mod_eq_of_lt
    have : gfLimit < 2 ^ 16 := by decide
    omega
  rw [logarithm]
  exact ⟨bound, word⟩

structure Galois16 where
  word : Gf16
  deriving DecidableEq

namespace Galois16

@[ext]
theorem ext {a b : Galois16} (equal : a.word = b.word) : a = b := by
  cases a
  cases b
  exact congrArg mk equal

instance : Zero Galois16 :=
  ⟨⟨0⟩⟩

instance : Add Galois16 :=
  ⟨fun a b => ⟨a.word ^^^ b.word⟩⟩

instance : Neg Galois16 :=
  ⟨id⟩

instance : AddCommGroup Galois16 where
  add_assoc a b c := ext (BitVec.xor_assoc _ _ _)
  zero_add a := ext (BitVec.zero_xor)
  add_zero a := ext (BitVec.xor_zero)
  add_comm a b := ext (BitVec.xor_comm _ _)
  neg_add_cancel a := ext (BitVec.xor_self)
  nsmul := nsmulRec
  zsmul := zsmulRec

theorem zero_def : (0 : Galois16) = ⟨0⟩ :=
  rfl

theorem mk_ne_zero {a : Gf16} : mk a ≠ 0 ↔ a ≠ 0 := by
  rw [zero_def, Ne, mk.injEq]

theorem word_ne_zero {a : Galois16} : a.word ≠ 0 ↔ a ≠ 0 := by
  rw [← mk_ne_zero]

def shift : Galois16 →+ Galois16 where
  toFun a := ⟨ofNat 16 (gfShift a.word.toNat)⟩
  map_zero' := rfl
  map_add' a b := by
    apply ext
    change ofNat 16 (gfShift (a.word ^^^ b.word).toNat) =
      ofNat 16 (gfShift a.word.toNat) ^^^ ofNat 16 (gfShift b.word.toNat)
    rw [BitVec.toNat_xor, gfShift_xor]
    apply eq_of_toNat_eq
    simp only [BitVec.toNat_xor, toNat_ofNat, xor_mod_two_pow]

theorem iterate_shift_one (l : ℕ) : shift^[l] ⟨1⟩ = ⟨ofNat 16 (gfOrbit l)⟩ := by
  induction l with
  | zero => rfl
  | succ l ih =>
    rw [iterate_succ_apply', ih, gfOrbit_succ]
    change mk (ofNat 16 (gfShift (ofNat 16 (gfOrbit l)).toNat)) = _
    rw [toNat_ofNat_gfOrbit]

def cyclicLog : CyclicLog Galois16 where
  shift := shift
  unit := ⟨1⟩
  period := gfLimit
  log a := (gLog a.word).toNat
  unit_ne_zero := mk_ne_zero.mpr (by decide)
  period_pos := by decide
  shift_period := by
    rw [iterate_shift_one, gfOrbit_period]
    rfl
  log_le a nonzero := le_of_lt (gLog_spec (word_ne_zero.mpr nonzero)).1
  shift_log a nonzero := by
    rw [iterate_shift_one]
    exact ext (gLog_spec (word_ne_zero.mpr nonzero)).2

instance : Field Galois16 :=
  cyclicLog.toField

theorem exp_eq (l : ℕ) : cyclicLog.exp l = ⟨ofNat 16 (gfOrbit l)⟩ :=
  iterate_shift_one l

theorem mk_gAntilog (bound : l < gfLimit) : mk (gAntilog l) = cyclicLog.exp l := by
  rw [gAntilog_eq bound, exp_eq]

theorem exp_gLog {a : Gf16} (nonzero : a ≠ 0) : cyclicLog.exp (gLog a).toNat = mk a :=
  cyclicLog.exp_log (mk_ne_zero.mpr nonzero)

private theorem mk_gAntilog_reduce {sum : ℕ} (bound : sum < 2 * gfLimit) :
    mk (gAntilog (if sum ≥ gfLimit then sum - gfLimit else sum)) = cyclicLog.exp sum := by
  split
  · rw [mk_gAntilog (by omega), ← cyclicLog.exp_add_period (sum - gfLimit)]
    congr 1
    change sum - gfLimit + gfLimit = sum
    omega
  · exact mk_gAntilog (by omega)

theorem mk_xor (a b : Gf16) : mk (a ^^^ b) = mk a + mk b :=
  rfl

theorem mk_gf16Mul (a b : Gf16) : mk (gf16Mul a b) = mk a * mk b := by
  by_cases zero : a = 0 ∨ b = 0
  · rw [gf16Mul, if_pos zero]
    rcases zero with rfl | rfl
    · exact (zero_mul (mk b)).symm
    · exact (mul_zero (mk a)).symm
  · rw [gf16Mul, if_neg zero]
    push Not at zero
    have aLog := (gLog_spec zero.1).1
    have bLog := (gLog_spec zero.2).1
    rw [mk_gAntilog_reduce (by omega), ← exp_gLog zero.1, ← exp_gLog zero.2]
    exact (cyclicLog.exp_mul_exp _ _).symm

theorem mk_gf16Div (a : Gf16) {b : Gf16} (nonzero : b ≠ 0) :
    mk (gf16Div a b) = mk a / mk b := by
  rw [eq_div_iff (mk_ne_zero.mpr nonzero)]
  by_cases zero : a = 0
  · rw [gf16Div, if_pos zero, zero]
    exact zero_mul (mk b)
  rw [gf16Div, if_neg zero]
  have aLog := (gLog_spec zero).1
  have bLog := (gLog_spec nonzero).1
  rw [← exp_gLog nonzero]
  dsimp only
  -- Both branches leave an exponent that adding `g_log[b]` completes to `g_log[a]`.
  split
  · rw [mk_gAntilog (by omega)]
    refine (cyclicLog.exp_mul_exp _ _).trans ?_
    rw [← exp_gLog zero, ← cyclicLog.exp_add_period (gLog a).toNat]
    congr 1
    change _ = (gLog a).toNat + gfLimit
    omega
  · rw [mk_gAntilog (by omega)]
    refine (cyclicLog.exp_mul_exp _ _).trans ?_
    rw [← exp_gLog zero]
    congr 1
    omega

theorem exp_ne_exp {l' : ℕ} (bound : l < gfLimit) (bound' : l' < gfLimit) (different : l ≠ l') :
    cyclicLog.exp l ≠ cyclicLog.exp l' := by
  rw [exp_eq, exp_eq]
  intro same
  apply different
  apply gfOrbit_injective bound bound'
  have words := congrArg (fun a : Galois16 => a.word.toNat) same
  rwa [toNat_ofNat_gfOrbit, toNat_ofNat_gfOrbit] at words

theorem exp_eq_exp_iff {l' : ℕ} :
    cyclicLog.exp l = cyclicLog.exp l' ↔ l % gfLimit = l' % gfLimit := by
  rw [← cyclicLog.exp_mod_period l, ← cyclicLog.exp_mod_period l']
  constructor
  · intro same
    by_contra different
    exact exp_ne_exp (mod_lt _ (by decide)) (mod_lt _ (by decide)) different same
  · exact congrArg _

theorem exp_pow (l e : ℕ) : cyclicLog.exp l ^ e = cyclicLog.exp (l * e) := by
  induction e with
  | zero => rw [pow_zero, mul_zero]; rfl
  | succ e ih =>
    rw [pow_succ, ih, mul_succ]
    exact cyclicLog.exp_mul_exp _ _

theorem mk_gf16Pow (base : Gf16) (exponent : BitVec 16) :
    mk (gf16Pow base exponent) = mk base ^ exponent.toNat := by
  by_cases none : exponent = 0
  · rw [gf16Pow, if_pos none, none]
    rfl
  rw [gf16Pow, if_neg none]
  have positive : exponent.toNat ≠ 0 := fun zero => none (eq_of_toNat_eq zero)
  by_cases zero : base = 0
  · rw [if_pos zero, zero]
    exact (zero_pow positive).symm
  rw [if_neg zero]
  have logBound : (gLog base).toNat < 65535 := (gLog_spec zero).1
  have exponentBound : exponent.toNat ≤ 65535 := Nat.le_of_lt_succ exponent.isLt
  generalize product : (gLog base).toNat * exponent.toNat = sum
  have sumBound : sum ≤ 65534 * 65535 := by
    rw [← product]
    exact Nat.mul_le_mul (by omega) exponentBound
  have low : sum &&& gfLimit = sum % 65536 := Nat.and_two_pow_sub_one_eq_mod sum 16
  have high : sum >>> 16 = sum / 65536 := Nat.shiftRight_eq_div_pow sum 16
  dsimp only
  rw [low, high, mk_gAntilog_reduce (by
    change _ < 2 * 65535
    omega)]
  rw [← exp_gLog zero, exp_pow, product,
    ← cyclicLog.exp_mod_period (sum / 65536 + sum % 65536), ← cyclicLog.exp_mod_period sum]
  congr 1
  change (sum / 65536 + sum % 65536) % 65535 = sum % 65535
  omega

end Galois16

end NzbDownloader.Par2
