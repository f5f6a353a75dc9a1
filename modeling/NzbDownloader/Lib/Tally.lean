import Mathlib.Algebra.BigOperators.Group.List.Basic
import Mathlib.Algebra.GroupWithZero.Nat

/-!
# Sums over the parts of a system

A quantity spread over a list of parts, and how it changes when one part does.
-/

namespace NzbDownloader.Lib

universe u

variable {α : Type u} (amount : α → ℕ)

def tally (parts : List α) : ℕ :=
  (parts.map amount).sum

@[simp]
theorem tally_nil : tally amount [] = 0 :=
  rfl

@[simp]
theorem tally_cons (part : α) (parts : List α) :
    tally amount (part :: parts) = amount part + tally amount parts := by
  simp [tally]

@[simp]
theorem tally_append (parts others : List α) :
    tally amount (parts ++ others) = tally amount parts + tally amount others := by
  simp [tally]

variable {parts : List α} {part : α} {k : ℕ}

section

variable (found : parts[k]? = some part)

include found

theorem tally_at : tally amount parts =
    tally amount (parts.take k) + (amount part + tally amount (parts.drop (k + 1))) := by
  obtain ⟨inside, rfl⟩ := List.getElem?_eq_some_iff.mp found
  rw [← tally_cons, ← tally_append, ← List.drop_eq_getElem_cons inside, List.take_append_drop]

theorem tally_set (new : α) :
    tally amount (parts.set k new) + amount part = tally amount parts + amount new := by
  obtain ⟨inside, -⟩ := List.getElem?_eq_some_iff.mp found
  rw [tally_at amount found, List.set_eq_take_append_cons_drop, if_pos inside, tally_append,
    tally_cons]
  omega

theorem tally_eraseIdx : tally amount (parts.eraseIdx k) + amount part = tally amount parts := by
  rw [tally_at amount found, List.eraseIdx_eq_take_drop_succ, tally_append]
  omega

theorem tally_set_of_eq {new : α} (same : amount new = amount part) :
    tally amount (parts.set k new) = tally amount parts := by
  have changed := tally_set amount found new
  omega

theorem tally_eraseIdx_of_zero (zero : amount part = 0) :
    tally amount (parts.eraseIdx k) = tally amount parts := by
  have changed := tally_eraseIdx amount found
  omega

end

variable {amount} in
theorem tally_eq_zero : tally amount parts = 0 ↔ ∀ part ∈ parts, amount part = 0 := by
  induction parts with
  | nil => simp
  | cons first rest ih => simp [ih]

end NzbDownloader.Lib
