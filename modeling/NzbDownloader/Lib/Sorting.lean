import Mathlib.Data.List.Sort

/-!
# Sorting with a comparison function

The contract of `qsort`: if the comparison function orders the elements of the
list, the result is a sorted permutation of it.  Nothing is promised for elements
that the function does not order.
-/

namespace NzbDownloader.Lib

open List

universe u

variable {α : Type u} {cmp : α → α → ℤ} {l sorted : List α}

structure Orders (cmp : α → α → ℤ) (l : List α) : Prop where
  total : ∀ a ∈ l, ∀ b ∈ l, cmp a b ≤ 0 ∨ cmp b a ≤ 0
  trans : ∀ a ∈ l, ∀ b ∈ l, ∀ c ∈ l, cmp a b ≤ 0 → cmp b c ≤ 0 → cmp a c ≤ 0

def SortsWith (qsort : (α → α → ℤ) → List α → List α) : Prop :=
  ∀ cmp l, Orders cmp l →
    (qsort cmp l).Perm l ∧ (qsort cmp l).Pairwise fun a b => cmp a b ≤ 0

structure Increasing (cmp : α → α → ℤ) (l : List α) : Prop where
  pairwise : l.Pairwise fun a b => cmp a b < 0 ∧ 0 < cmp b a
  self : ∀ a ∈ l, cmp a a = 0

theorem Increasing.le_iff (increasing : Increasing cmp l) {i j : ℕ} (hi : i < l.length)
    (hj : j < l.length) : cmp l[i] l[j] ≤ 0 ↔ i ≤ j := by
  have before := pairwise_iff_getElem.mp increasing.pairwise
  rcases lt_trichotomy i j with less | rfl | greater
  · exact iff_of_true (before i j hi hj less).1.le less.le
  · exact iff_of_true (increasing.self _ (getElem_mem hi)).le le_rfl
  · exact iff_of_false (not_le.mpr (before j i hj hi greater).2) (not_le.mpr greater)

theorem Increasing.orders (increasing : Increasing cmp l) : Orders cmp l where
  total a inA b inB := by
    obtain ⟨i, hi, rfl⟩ := getElem_of_mem inA
    obtain ⟨j, hj, rfl⟩ := getElem_of_mem inB
    rw [increasing.le_iff hi hj, increasing.le_iff hj hi]
    exact le_total i j
  trans a inA b inB c inC := by
    obtain ⟨i, hi, rfl⟩ := getElem_of_mem inA
    obtain ⟨j, hj, rfl⟩ := getElem_of_mem inB
    obtain ⟨k, hk, rfl⟩ := getElem_of_mem inC
    rw [increasing.le_iff hi hj, increasing.le_iff hj hk, increasing.le_iff hi hk]
    exact le_trans

theorem Orders.perm (orders : Orders cmp l) (perm : sorted.Perm l) : Orders cmp sorted where
  total a inA b inB := orders.total a (perm.mem_iff.mp inA) b (perm.mem_iff.mp inB)
  trans a inA b inB c inC :=
    orders.trans a (perm.mem_iff.mp inA) b (perm.mem_iff.mp inB) c (perm.mem_iff.mp inC)

theorem SortsWith.eq_of_perm {qsort : (α → α → ℤ) → List α → List α} (sorts : SortsWith qsort)
    (increasing : Increasing cmp sorted) (perm : l.Perm sorted) : qsort cmp l = sorted := by
  obtain ⟨permuted, nondecreasing⟩ := sorts cmp l (increasing.orders.perm perm)
  have permuted := permuted.trans perm
  refine List.Perm.eq_of_pairwise ?_ nondecreasing
    (increasing.pairwise.imp fun before => before.1.le) permuted
  intro a b inResult inSorted le ge
  obtain ⟨i, hi, rfl⟩ := getElem_of_mem (permuted.mem_iff.mp inResult)
  obtain ⟨j, hj, rfl⟩ := getElem_of_mem inSorted
  rw [increasing.le_iff hi hj] at le
  rw [increasing.le_iff hj hi] at ge
  simp only [le_antisymm le ge]

def mergeSortWith (cmp : α → α → ℤ) (l : List α) : List α :=
  (l.attach.mergeSort fun a b => cmp a.val b.val ≤ 0).map Subtype.val

theorem sortsWith_mergeSortWith : SortsWith (@mergeSortWith α) := by
  intro cmp l orders
  constructor
  · have perm := (mergeSort_perm l.attach fun a b => cmp a.val b.val ≤ 0).map Subtype.val
    rwa [attach_map_subtype_val] at perm
  rw [mergeSortWith, pairwise_map]
  refine (pairwise_mergeSort ?_ ?_ l.attach).imp of_decide_eq_true
  · rintro ⟨a, inA⟩ ⟨b, inB⟩ ⟨c, inC⟩ ab bc
    exact decide_eq_true (orders.trans a inA b inB c inC (of_decide_eq_true ab)
      (of_decide_eq_true bc))
  · rintro ⟨a, inA⟩ ⟨b, inB⟩
    simpa using orders.total a inA b inB

end NzbDownloader.Lib
