import Mathlib.Algebra.BigOperators.Field
import Mathlib.Algebra.Field.Basic
import Mathlib.Tactic.FieldSimp
import Mathlib.Tactic.Ring

/-!
# Gauss-Jordan elimination without row exchange

A linear system `left · x = right · y` is kept as a pair of matrices. Clearing one column
with a nonzero pivot preserves its solutions and turns that column of `right` into a unit
column.
-/

namespace NzbDownloader.Lib.GaussJordan

universe u

variable {F : Type u} [Field F]

structure System (F : Type u) where
  left : ℕ → ℕ → F
  right : ℕ → ℕ → F

variable {n cols k : ℕ} {S : System F} {x y : ℕ → F}

namespace System

def Solves (n cols : ℕ) (S : System F) (x y : ℕ → F) : Prop :=
  ∀ r < n, ∑ c ∈ Finset.range cols, S.left r c * x c = ∑ c ∈ Finset.range n, S.right r c * y c

def UnitColumns (n k : ℕ) (S : System F) : Prop :=
  ∀ r < n, ∀ c < k, S.right r c = if r = c then 1 else 0

def pivot (S : System F) (k : ℕ) : System F where
  left r c :=
    if r = k then S.left k c / S.right k k
    else S.left r c - S.right r k * (S.left k c / S.right k k)
  right r c :=
    if r = k then S.right k c / S.right k k
    else S.right r c - S.right r k * (S.right k c / S.right k k)

theorem Solves.pivot (solves : Solves n cols S x y) (row : k < n) :
    Solves n cols (S.pivot k) x y := by
  have scaled : ∑ c ∈ Finset.range cols, S.left k c / S.right k k * x c =
      ∑ c ∈ Finset.range n, S.right k c / S.right k k * y c := by
    simp only [div_mul_eq_mul_div, ← Finset.sum_div]
    rw [solves k row]
  intro r bound
  by_cases same : r = k
  · simpa [System.pivot, same] using scaled
  · simp only [System.pivot, if_neg same, sub_mul, Finset.sum_sub_distrib, mul_assoc,
      ← Finset.mul_sum]
    rw [solves r bound, scaled]

theorem UnitColumns.pivot (unit : UnitColumns n k S) (row : k < n) (nonzero : S.right k k ≠ 0) :
    UnitColumns n (k + 1) (S.pivot k) := by
  intro r bound c below
  rcases Nat.lt_or_eq_of_le (Nat.le_of_lt_succ below) with earlier | rfl
  · have pivotZero : S.right k c = 0 := by
      rw [unit k row c earlier, if_neg (Nat.ne_of_gt earlier)]
    by_cases same : r = k
    · simp [System.pivot, same, pivotZero, Nat.ne_of_gt earlier]
    · simp [System.pivot, same, pivotZero, unit r bound c earlier]
  · by_cases same : r = c
    · simp [System.pivot, same, nonzero]
    · simp [System.pivot, same, nonzero]

theorem Solves.eq_of_unitColumns (solves : Solves n cols S x y) (unit : UnitColumns n n S) {r : ℕ}
    (bound : r < n) : y r = ∑ c ∈ Finset.range cols, S.left r c * x c := by
  rw [solves r bound]
  rw [Finset.sum_eq_single_of_mem r (Finset.mem_range.mpr bound)]
  · rw [unit r bound r bound, if_pos rfl, one_mul]
  · intro c member different
    rw [unit r bound c (Finset.mem_range.mp member), if_neg different.symm, zero_mul]

def eliminate (S : System F) : ℕ → System F
  | 0 => S
  | k + 1 => (S.eliminate k).pivot k

theorem Solves.eliminate (solves : Solves n cols S x y) (bound : k ≤ n) :
    Solves n cols (S.eliminate k) x y := by
  induction k with
  | zero => exact solves
  | succ k ih => exact (ih (by omega)).pivot (by omega)

theorem UnitColumns.eliminate (bound : k ≤ n) (pivots : ∀ j < k, (S.eliminate j).right j j ≠ 0) :
    UnitColumns n k (S.eliminate k) := by
  induction k with
  | zero => exact fun _ _ c below => absurd below (Nat.not_lt_zero c)
  | succ k ih =>
    exact (ih (by omega) fun j below => pivots j (by omega)).pivot (by omega)
      (pivots k (by omega))

end System

end NzbDownloader.Lib.GaussJordan
