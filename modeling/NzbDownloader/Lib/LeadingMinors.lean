import NzbDownloader.Lib.GaussJordan
import Mathlib.LinearAlgebra.Matrix.ToLinearEquiv

/-!
# When elimination without row exchange succeeds

The pivots of a Gauss-Jordan elimination that never exchanges rows are nonzero exactly if
every leading principal submatrix is invertible.  Invertibility of the whole matrix is not
enough.
-/

namespace NzbDownloader.Lib.GaussJordan

universe u

variable {F : Type u} [Field F]

def leading (entries : ℕ → ℕ → F) (k : ℕ) : Matrix (Fin k) (Fin k) F :=
  Matrix.of fun r c => entries r c

theorem det_leading_two (a : ℕ → ℕ → F) :
    (leading a 2).det = a 0 0 * a 1 1 - a 0 1 * a 1 0 :=
  Matrix.det_fin_two _

theorem det_leading_three (a : ℕ → ℕ → F) :
    (leading a 3).det =
      a 0 0 * a 1 1 * a 2 2 - a 0 0 * a 1 2 * a 2 1 - a 0 1 * a 1 0 * a 2 2 +
        a 0 1 * a 1 2 * a 2 0 + a 0 2 * a 1 0 * a 2 1 - a 0 2 * a 1 1 * a 2 0 :=
  Matrix.det_fin_three _

namespace System

variable {n cols k : ℕ} {S : System F} {x y : ℕ → F}

theorem Solves.of_pivot (solves : Solves n cols (S.pivot k) x y) (row : k < n)
    (nonzero : S.right k k ≠ 0) : Solves n cols S x y := by
  have scaled : ∑ c ∈ Finset.range cols, S.left k c * x c =
      ∑ c ∈ Finset.range n, S.right k c * y c := by
    have divided := solves k row
    simp only [System.pivot, if_true, div_mul_eq_mul_div, ← Finset.sum_div] at divided
    exact (div_left_inj' nonzero).mp divided
  intro r bound
  by_cases same : r = k
  · exact same ▸ scaled
  have cleared := solves r bound
  have quotient : ∑ c ∈ Finset.range cols, S.left k c / S.right k k * x c =
      ∑ c ∈ Finset.range n, S.right k c / S.right k k * y c := by
    simp only [div_mul_eq_mul_div, ← Finset.sum_div]
    rw [scaled]
  simp only [System.pivot, if_neg same, sub_mul, Finset.sum_sub_distrib, mul_assoc,
    ← Finset.mul_sum] at cleared
  rw [quotient] at cleared
  exact sub_left_injective cleared

theorem Solves.of_eliminate (solves : Solves n cols (S.eliminate k) x y) (bound : k ≤ n)
    (pivots : ∀ j < k, (S.eliminate j).right j j ≠ 0) : Solves n cols S x y := by
  induction k with
  | zero => exact solves
  | succ k ih =>
    exact ih (solves.of_pivot bound (pivots k k.lt_succ_self)) (Nat.le_of_succ_le bound)
      fun j below => pivots j (Nat.lt_succ_of_lt below)

theorem solves_zero_iff (x y : ℕ → F) :
    Solves n 0 S x y ↔ (leading S.right n).mulVec (fun c => y c) = 0 := by
  constructor
  · intro solves
    funext r
    have row := solves r r.isLt
    rw [Finset.range_zero, Finset.sum_empty, Finset.sum_range] at row
    exact row.symm
  · intro kernel r bound
    have row := congrFun kernel ⟨r, bound⟩
    rw [Finset.range_zero, Finset.sum_empty, Finset.sum_range]
    exact row.symm

theorem det_leading_ne_zero (pivots : ∀ j < n, (S.eliminate j).right j j ≠ 0) :
    (leading S.right n).det ≠ 0 := by
  intro zero
  obtain ⟨v, nonzero, kernel⟩ := Matrix.exists_mulVec_eq_zero_iff.mpr zero
  apply nonzero
  let y (c : ℕ) : F := if inside : c < n then v ⟨c, inside⟩ else 0
  have same : (fun c : Fin n => y c) = v := by
    funext c
    exact dif_pos c.isLt
  have solves : Solves n 0 S y y := (solves_zero_iff y y).mpr (same.symm ▸ kernel)
  have unit := UnitColumns.eliminate (S := S) le_rfl pivots
  rw [← same]
  funext r
  have formula := (solves.eliminate le_rfl).eq_of_unitColumns unit r.isLt
  rw [Finset.range_zero, Finset.sum_empty] at formula
  exact formula

theorem det_leading_eq_zero (pivots : ∀ j < k, (S.eliminate j).right j j ≠ 0)
    (zero : (S.eliminate k).right k k = 0) : (leading S.right (k + 1)).det = 0 := by
  have unit := UnitColumns.eliminate (S := S) (n := k + 1) (Nat.le_succ k) pivots
  let y (c : ℕ) : F := if c = k then 1 else -(S.eliminate k).right c k
  have solved : Solves (k + 1) 0 (S.eliminate k) y y := by
    intro r bound
    rw [Finset.range_zero, Finset.sum_empty, Finset.sum_range_succ]
    have last : y k = 1 := if_pos rfl
    rcases Nat.lt_or_eq_of_le (Nat.le_of_lt_succ bound) with early | rfl
    · rw [Finset.sum_eq_single_of_mem r (Finset.mem_range.mpr early), last, mul_one]
      · have entry : y r = -(S.eliminate k).right r k := if_neg (Nat.ne_of_lt early)
        rw [unit r bound r early, if_pos rfl, one_mul, entry, neg_add_cancel]
      · intro c member different
        rw [unit r bound c (Finset.mem_range.mp member), if_neg different.symm, zero_mul]
    · rw [zero, zero_mul, add_zero, eq_comm]
      apply Finset.sum_eq_zero
      intro c member
      have below := Finset.mem_range.mp member
      rw [unit r bound c below, if_neg (Nat.ne_of_gt below), zero_mul]
  have solves := solved.of_eliminate (Nat.le_succ k) pivots
  refine Matrix.exists_mulVec_eq_zero_iff.mp ⟨fun c => y c, ?_, (solves_zero_iff y y).mp solves⟩
  intro trivial
  have last := congrFun trivial (Fin.last k)
  have one : y k = 1 := if_pos rfl
  rw [Fin.val_last, one] at last
  exact one_ne_zero last

theorem pivots_ne_zero_iff (S : System F) (n : ℕ) :
    (∀ j < n, (S.eliminate j).right j j ≠ 0) ↔ ∀ k ≤ n, (leading S.right k).det ≠ 0 := by
  constructor
  · intro pivots k bound
    exact det_leading_ne_zero fun j below => pivots j (below.trans_le bound)
  intro minors j
  induction j using Nat.strong_induction_on with
  | h j ih =>
    intro below zero
    have before : ∀ i < j, (S.eliminate i).right i i ≠ 0 :=
      fun i early => ih i early (early.trans below)
    exact minors (j + 1) below (det_leading_eq_zero before zero)

end System

end NzbDownloader.Lib.GaussJordan
