import Mathlib.Algebra.Order.BigOperators.Group.List
import Mathlib.Algebra.Order.Ring.Nat
import Mathlib.Data.List.Nodup
import Mathlib.Data.Set.Basic

/-!
# Running offsets

A loop that gives every item of a list the total weight of the items before it lays the
items out one after another.
-/

namespace NzbDownloader.Lib

open List

variable {g : ℕ}

section Offsets

variable {α : Type*} (weight : α → ℕ)

def span (xs : List α) : ℕ :=
  (xs.map weight).sum

@[simp]
theorem span_nil : span weight [] = 0 :=
  rfl

@[simp]
theorem span_cons (x : α) (xs : List α) : span weight (x :: xs) = weight x + span weight xs :=
  sum_cons

@[simp]
theorem span_append (xs ys : List α) :
    span weight (xs ++ ys) = span weight xs + span weight ys := by
  rw [span, map_append, sum_append, span, span]

variable {weight}

theorem span_map {β : Type*} (f : β → α) (xs : List β) :
    span weight (xs.map f) = span (fun x => weight (f x)) xs := by
  rw [span, map_map, span]
  rfl

variable {xs : List α} {x : α}

theorem span_le_span {weight' : α → ℕ} (le : ∀ x ∈ xs, weight x ≤ weight' x) :
    span weight xs ≤ span weight' xs :=
  sum_le_sum le

theorem span_eq_span_iff {weight' : α → ℕ} (le : ∀ x ∈ xs, weight x ≤ weight' x) :
    span weight xs = span weight' xs ↔ ∀ x ∈ xs, weight x = weight' x := by
  induction xs with
  | nil => simp
  | cons y rest ih =>
    rw [forall_mem_cons] at le
    have tail := span_le_span le.2
    rw [span_cons, span_cons, forall_mem_cons, ← ih le.2]
    omega

theorem exists_cell (inside : g < span weight xs) :
    ∃ before x after, xs = before ++ x :: after ∧ span weight before ≤ g ∧
      g < span weight before + weight x := by
  induction xs generalizing g with
  | nil => exact absurd inside (Nat.not_lt_zero g)
  | cons y rest ih =>
    rw [span_cons] at inside
    rcases Nat.lt_or_ge g (weight y) with here | later
    · exact ⟨[], y, rest, rfl, Nat.zero_le g, by simpa using here⟩
    obtain ⟨before, x, after, split, low, high⟩ := ih (g := g - weight y) (by omega)
    refine ⟨y :: before, x, after, by rw [split, cons_append], ?_, ?_⟩
    · rw [span_cons]
      omega
    · rw [span_cons]
      omega

theorem cell_unique {before before' after after' : List α} {x' : α}
    (same : before ++ x :: after = before' ++ x' :: after') (low : span weight before ≤ g)
    (high : g < span weight before + weight x) (low' : span weight before' ≤ g)
    (high' : g < span weight before' + weight x') : x = x' ∧ after = after' := by
  induction before generalizing before' g with
  | nil =>
    cases before' with
    | nil => exact List.cons.inj same
    | cons y rest =>
      obtain ⟨rfl, -⟩ := List.cons.inj same
      rw [span_cons] at low'
      rw [span_nil] at high
      omega
  | cons y rest ih =>
    cases before' with
    | nil =>
      obtain ⟨rfl, -⟩ := List.cons.inj same
      rw [span_cons] at low
      rw [span_nil] at high'
      omega
    | cons y' rest' =>
      obtain ⟨rfl, tails⟩ := List.cons.inj same
      rw [span_cons] at low high low' high'
      exact ih (g := g - weight y) tails (by omega) (by omega) (by omega) (by omega)

theorem nodup_filter_iff {p : α → Bool} :
    (xs.filter p).Nodup ↔ ∀ before x after, xs = before ++ x :: after → p x → x ∉ after := by
  induction xs with
  | nil => simp
  | cons y rest ih =>
    have head : (∀ before x after, y :: rest = before ++ x :: after → p x → x ∉ after) ↔
        (p y = true → y ∉ rest) ∧
          ∀ before x after, rest = before ++ x :: after → p x = true → x ∉ after := by
      constructor
      · intro all
        exact ⟨all [] y rest rfl, fun before x after split =>
          all (y :: before) x after (by rw [split, cons_append])⟩
      · rintro ⟨first, later⟩ before x after split chosen
        cases before with
        | nil =>
          obtain ⟨rfl, rfl⟩ := List.cons.inj split
          exact first chosen
        | cons z before =>
          exact later before x after (List.cons.inj split).2 chosen
    rw [head, ← ih]
    by_cases chosen : p y = true
    · rw [filter_cons_of_pos chosen, nodup_cons, mem_filter]
      simp [chosen]
    · rw [filter_cons_of_neg chosen]
      simp [chosen]

theorem exists_last (member : x ∈ xs) : ∃ before after, xs = before ++ x :: after ∧ x ∉ after := by
  obtain ⟨after, before, split, last⟩ := eq_append_cons_of_mem (mem_reverse.mpr member)
  refine ⟨before.reverse, after.reverse, ?_, by simpa using last⟩
  rw [← reverse_reverse xs, split]
  simp

variable [DecidableEq α] (weight)

def lastOffset : List α → ℕ → α → Option ℕ
  | [], _, _ => none
  | y :: rest, start, x =>
      (lastOffset rest (start + weight y) x).or (if y = x then some start else none)

variable {weight}

theorem lastOffset_eq_none_iff {start : ℕ} : lastOffset weight xs start x = none ↔ x ∉ xs := by
  induction xs generalizing start with
  | nil => simp [lastOffset]
  | cons y rest ih =>
    rw [lastOffset, Option.or_eq_none_iff, ih, mem_cons, not_or, and_comm]
    have met : (if y = x then some start else none) = none ↔ ¬ x = y := by
      rw [ite_eq_right_iff]
      simp [eq_comm]
    rw [met]

theorem lastOffset_append_cons {before after : List α} (last : x ∉ after) (start : ℕ) :
    lastOffset weight (before ++ x :: after) start x = some (start + span weight before) := by
  induction before generalizing start with
  | nil => simp [lastOffset, lastOffset_eq_none_iff.mpr last]
  | cons y rest ih =>
    rw [cons_append, lastOffset, ih, Option.some_or, span_cons, Nat.add_assoc]

theorem lastOffset_eq_some_iff {start t : ℕ} :
    lastOffset weight xs start x = some t ↔
      ∃ before after, xs = before ++ x :: after ∧ x ∉ after ∧ t = start + span weight before := by
  constructor
  · intro found
    have member : x ∈ xs := by
      by_contra absent
      rw [lastOffset_eq_none_iff.mpr absent] at found
      cases found
    obtain ⟨before, after, rfl, last⟩ := exists_last member
    rw [lastOffset_append_cons last] at found
    exact ⟨before, after, rfl, last, (Option.some.inj found).symm⟩
  · rintro ⟨before, after, rfl, last, rfl⟩
    exact lastOffset_append_cons last start

variable (weight) in
def occupied (xs : List α) (x : α) : Set ℕ :=
  {g | ∃ t, lastOffset weight xs 0 x = some t ∧ t ≤ g ∧ g < t + weight x}

theorem mem_occupied_iff :
    g ∈ occupied weight xs x ↔ ∃ before after, xs = before ++ x :: after ∧ x ∉ after ∧
      span weight before ≤ g ∧ g < span weight before + weight x := by
  constructor
  · rintro ⟨t, found, low, high⟩
    obtain ⟨before, after, split, last, rfl⟩ := lastOffset_eq_some_iff.mp found
    rw [Nat.zero_add] at low high
    exact ⟨before, after, split, last, low, high⟩
  · rintro ⟨before, after, split, last, low, high⟩
    exact ⟨_, lastOffset_eq_some_iff.mpr ⟨before, after, split, last, (Nat.zero_add _).symm⟩,
      low, high⟩

theorem lt_span_of_mem_occupied (member : g ∈ occupied weight xs x) : g < span weight xs := by
  obtain ⟨before, after, rfl, -, -, high⟩ := mem_occupied_iff.mp member
  rw [span_append, span_cons]
  omega

theorem not_mem_occupied {y : α} (differ : x ≠ y) (inX : g ∈ occupied weight xs x) :
    g ∉ occupied weight xs y := by
  intro inY
  obtain ⟨before, after, split, -, low, high⟩ := mem_occupied_iff.mp inX
  obtain ⟨before', after', split', -, low', high'⟩ := mem_occupied_iff.mp inY
  exact differ (cell_unique (split.symm.trans split') low high low' high').1

theorem forall_occupied_iff :
    (∀ g < span weight xs, ∃ x, g ∈ occupied weight xs x) ↔
      (xs.filter fun x => 0 < weight x).Nodup := by
  rw [nodup_filter_iff]
  constructor
  · intro covered before x after split positive again
    -- The cell of an occurrence that is not the last one is left empty.
    have space : 0 < weight x := by simpa using positive
    obtain ⟨y, member⟩ := covered (span weight before) (by
      rw [split, span_append, span_cons]
      omega)
    obtain ⟨before', after', split', last, low, high⟩ := mem_occupied_iff.mp member
    obtain ⟨rfl, rfl⟩ := cell_unique (split.symm.trans split') le_rfl (by omega) low high
    exact last again
  · intro once g inside
    obtain ⟨before, x, after, split, low, high⟩ := exists_cell inside
    have positive : decide (0 < weight x) = true := by
      rw [decide_eq_true_iff]
      omega
    exact ⟨x, mem_occupied_iff.mpr ⟨before, after, split, once before x after split positive,
      low, high⟩⟩

end Offsets

end NzbDownloader.Lib
