import NzbDownloader.Lib.LeadingMinors
import NzbDownloader.Par2.Bases
import NzbDownloader.Par2.Repair
import NzbDownloader.Par2.Solve

/-!
# When the solver fails

`gauss_elim` takes its pivots from the diagonal and never exchanges rows.
-/

namespace NzbDownloader.Par2

open Lib.GaussJordan Option Galois16

theorem exists_gaussElimRows {rows leftcols k : ℕ} {m : Augmented} (bound : k ≤ rows)
    (pivots : ∀ j < k, (m.toSystem.eliminate j).right j j ≠ 0) :
    ∃ m', (List.range k).foldlM (gaussElimRow rows leftcols) m = some m' := by
  induction k with
  | zero => exact ⟨m, rfl⟩
  | succ k ih =>
    obtain ⟨middle, run⟩ := ih (Nat.le_of_succ_le bound)
      fun j below => pivots j (Nat.lt_succ_of_lt below)
    have represents := (gaussElimRows_represents (Nat.le_of_succ_le bound) run).1
    have nonzero : middle.right k k ≠ 0 := by
      rw [← mk_ne_zero, (represents k bound).2 k bound]
      exact pivots k (Nat.lt_succ_self k)
    rw [List.range_succ, List.foldlM_append, run]
    simp only [bind_eq_bind, bind_some, List.foldlM_cons, List.foldlM_nil,
      gaussElimRow, if_neg nonzero]
    exact ⟨_, rfl⟩

def powers (missingBases : List Gf16) (exponents : List (BitVec 16)) (r c : ℕ) : Galois16 :=
  mk (missingBases.getD c 0) ^ (exponents.getD r 0).toNat

theorem solveMatrices_right (presentBases missingBases : List Gf16)
    (exponents : List (BitVec 16)) :
    (solveMatrices presentBases missingBases exponents).toSystem.right =
      powers missingBases exponents := by
  funext r c
  exact mk_gf16Pow _ _

theorem gf16Solve_eq_none_iff (presentBases missingBases : List Gf16)
    (exponents : List (BitVec 16)) :
    gf16Solve true presentBases missingBases exponents = none ↔
      ∃ k ≤ missingBases.length, ¬IsUnit (leading (powers missingBases exponents) k) := by
  have minors := System.pivots_ne_zero_iff
    (solveMatrices presentBases missingBases exponents).toSystem missingBases.length
  rw [solveMatrices_right] at minors
  have units : (∃ k ≤ missingBases.length, ¬IsUnit (leading (powers missingBases exponents) k)) ↔
      ¬∀ k ≤ missingBases.length, (leading (powers missingBases exponents) k).det ≠ 0 := by
    simp only [Matrix.isUnit_iff_isUnit_det, isUnit_iff_ne_zero]
    push Not
    rfl
  rw [units, ← minors, gf16Solve]
  by_cases empty : missingBases.length = 0
  · simp [empty]
  rw [if_neg empty, if_pos rfl, map_eq_none_iff]
  constructor
  · intro failed pivots
    obtain ⟨final, run⟩ := exists_gaussElimRows le_rfl pivots
    rw [gaussElim, run] at failed
    contradiction
  · intro zero
    by_contra run
    obtain ⟨final, run⟩ := ne_none_iff_exists'.mp run
    exact zero (gaussElim_represents run).2

/-- The solver fails only on singular systems exactly if an invertible system has only
invertible leading principal submatrices. -/
theorem gf16Solve_fails_only_singular_iff (presentBases missingBases : List Gf16)
    (exponents : List (BitVec 16)) :
    (gf16Solve true presentBases missingBases exponents = none →
      ¬IsUnit (leading (powers missingBases exponents) missingBases.length)) ↔
    (IsUnit (leading (powers missingBases exponents) missingBases.length) →
      ∀ k ≤ missingBases.length, IsUnit (leading (powers missingBases exponents) k)) := by
  rw [gf16Solve_eq_none_iff]
  constructor
  · intro onlySingular whole k bound
    by_contra singular
    exact onlySingular ⟨k, bound, singular⟩ whole
  · rintro allUnits ⟨k, bound, singular⟩ whole
    exact singular (allUnits whole k bound)

theorem assignBases_five : assignBases 5 0 =
    some [gAntilog 1, gAntilog 2, gAntilog 4, gAntilog 7, gAntilog 8] := by
  have first : gf16NextBase 0 = some (gAntilog 1, 2) :=
    gf16NextBase_eq (by decide) (by decide) (by decide) (by decide)
  have second : gf16NextBase 2 = some (gAntilog 2, 3) :=
    gf16NextBase_eq (by decide) (by decide) (by decide) (by decide)
  have third : gf16NextBase 3 = some (gAntilog 4, 5) :=
    gf16NextBase_eq (by decide) (by decide) (by decide) (by decide)
  have fourth : gf16NextBase 5 = some (gAntilog 7, 8) :=
    gf16NextBase_eq (by decide) (by decide) (by decide) (by decide)
  have fifth : gf16NextBase 8 = some (gAntilog 8, 9) :=
    gf16NextBase_eq (by decide) (by decide) (by decide) (by decide)
  simp only [assignBases, first, second, third, fourth, fifth, bind_eq_bind,
    bind_some, pure_def]

theorem powers_eq {missingBases : List Gf16} {exponents : List (BitVec 16)} {r c l k : ℕ}
    {e : BitVec 16} (base : missingBases[c]? = some (gAntilog l))
    (exponent : exponents[r]? = some e) (small : l < gfLimit)
    (wrapped : l * e.toNat % gfLimit = k) :
    powers missingBases exponents r c = cyclicLog.exp k := by
  rw [powers, List.getD_eq_getElem?_getD, base, List.getD_eq_getElem?_getD, exponent,
    getD_some, getD_some, mk_gAntilog small, exp_pow, ← wrapped]
  exact (cyclicLog.exp_mod_period _).symm

/-- The powers of the bases of the blocks 0, 2 and 4 for the exponents 0, 21845 and 21846.
The first two bases have the same 21845th power, a cube root of 1. -/
def cubePowers : ℕ → ℕ → Galois16 :=
  powers [gAntilog 1, gAntilog 4, gAntilog 8] [0, 21845, 21846]

theorem cubePowers_zero (c : ℕ) : cubePowers 0 c = 1 :=
  pow_zero _

theorem cubePowers_cube : cubePowers 1 0 = cyclicLog.exp 21845 ∧
    cubePowers 1 1 = cyclicLog.exp 21845 ∧
    cubePowers 1 2 = cyclicLog.exp 43690 :=
  ⟨powers_eq rfl rfl (by decide) (by decide), powers_eq rfl rfl (by decide) (by decide),
    powers_eq rfl rfl (by decide) (by decide)⟩

theorem cubePowers_last : cubePowers 2 0 = cyclicLog.exp 21846 ∧
    cubePowers 2 1 = cyclicLog.exp 21849 :=
  ⟨powers_eq rfl rfl (by decide) (by decide), powers_eq rfl rfl (by decide) (by decide)⟩

theorem leading_two_singular : ¬IsUnit (leading cubePowers 2) := by
  rw [Matrix.isUnit_iff_isUnit_det, isUnit_iff_ne_zero, not_not, det_leading_two,
    cubePowers_zero, cubePowers_zero, cubePowers_cube.1, cubePowers_cube.2.1, sub_self]

theorem leading_three_isUnit : IsUnit (leading cubePowers 3) := by
  have factored : (leading cubePowers 3).det =
      (cubePowers 1 0 - cubePowers 1 2) * (cubePowers 2 1 - cubePowers 2 0) := by
    rw [det_leading_three, cubePowers_zero, cubePowers_zero, cubePowers_zero, cubePowers_cube.1,
      cubePowers_cube.2.1]
    ring
  rw [Matrix.isUnit_iff_isUnit_det, isUnit_iff_ne_zero, factored, cubePowers_cube.1,
    cubePowers_cube.2.2, cubePowers_last.1, cubePowers_last.2]
  apply mul_ne_zero
  · exact sub_ne_zero.mpr (exp_ne_exp (by decide) (by decide) (by decide))
  · exact sub_ne_zero.mpr (exp_ne_exp (by decide) (by decide) (by decide))

/-- Of five blocks the blocks 0, 2 and 4 are missing, and there are the slices 0, 21845 and
21846: the system has one solution, and the solver fails. -/
theorem invertible_system_fails :
    assignBases 5 0 = some [gAntilog 1, gAntilog 2, gAntilog 4, gAntilog 7, gAntilog 8] ∧
    gf16Solve true [gAntilog 2, gAntilog 7] [gAntilog 1, gAntilog 4, gAntilog 8]
      [0, 21845, 21846] = none ∧
    IsUnit (leading (powers [gAntilog 1, gAntilog 4, gAntilog 8] [0, 21845, 21846]) 3) := by
  refine ⟨assignBases_five, ?_, leading_three_isUnit⟩
  rw [gf16Solve_eq_none_iff]
  exact ⟨2, by decide, leading_two_singular⟩

end NzbDownloader.Par2
