import Mathlib.Data.List.Nodup
import Mathlib.Data.List.Range
import Mathlib.Logic.Function.Basic

/-!
# Loops that write a row of a matrix

A matrix is stored row by row in one array. A loop goes over columns and writes one
entry for each; what it writes may depend on the array as it is then.
-/

namespace NzbDownloader.Lib

open List

universe u v w

variable {ι : Type u} {κ : Type v} {β : Type w} [DecidableEq κ]

def fill (index : ι → κ) (value : (κ → β) → ι → β) (m : κ → β) (l : List ι) : κ → β :=
  l.foldl (fun m c => Function.update m (index c) (value m c)) m

variable {index : ι → κ} {value : (κ → β) → ι → β} {m : κ → β}

theorem fill_append (l l' : List ι) :
    fill index value m (l ++ l') = fill index value (fill index value m l) l' :=
  foldl_append

theorem fill_of_notMem {l : List ι} {k : κ} (outside : ∀ c ∈ l, index c ≠ k) :
    fill index value m l k = m k := by
  induction l generalizing m with
  | nil => rfl
  | cons c rest ih =>
    have other : k ≠ index c := (outside c (.head _)).symm
    have later := ih (m := Function.update m (index c) (value m c))
      fun c' member => outside c' (.tail c member)
    exact later.trans (Function.update_of_ne other ..)

theorem fill_of_mem {l : List ι} {c : ι} (member : c ∈ l) (distinct : (l.map index).Nodup)
    (settled : ∀ m', (∀ k, (∀ c' ∈ l, index c' = k → c' = c) → m' k = m k) →
      value m' c = value m c) :
    fill index value m l (index c) = value m c := by
  obtain ⟨before, after, rfl⟩ := append_of_mem member
  rw [map_append, map_cons, nodup_append, nodup_cons] at distinct
  obtain ⟨-, ⟨fresh, -⟩, apart⟩ := distinct
  rw [fill_append, fill, foldl_cons, ← fill, fill_of_notMem, Function.update_self]
  · apply settled
    intro k only
    apply fill_of_notMem
    intro c' early same
    have here := only c' (mem_append_left _ early) same
    subst here
    exact apart _ (mem_map_of_mem early) _ (.head _) rfl
  · intro c' late same
    exact fresh (same ▸ mem_map_of_mem late)

theorem rowMajor_inj {cols r r' c c' : ℕ} (col : c < cols) (col' : c' < cols)
    (same : r * cols + c = r' * cols + c') : r = r' ∧ c = c' := by
  have positive : 0 < cols := Nat.zero_lt_of_lt col
  have quotient := congrArg (· / cols) same
  have remainder := congrArg (· % cols) same
  simpa [Nat.add_comm _ c, Nat.add_comm _ c', Nat.add_mul_div_right, positive,
    Nat.div_eq_of_lt, col, col', Nat.mod_eq_of_lt] using And.intro quotient remainder

theorem rowMajor_lt {rows cols r c : ℕ} (row : r < rows) (col : c < cols) :
    r * cols + c < rows * cols :=
  calc
    r * cols + c < r * cols + cols := Nat.add_lt_add_left col _
    _ = (r + 1) * cols := (Nat.succ_mul r cols).symm
    _ ≤ rows * cols := Nat.mul_le_mul_right cols row

section Row

variable {cols row : ℕ} {index : ℕ → ℕ} {value : (ℕ → β) → ℕ → β} {m : ℕ → β} {l : List ℕ}

theorem fill_row (inside : ∀ c ∈ l, c < cols) (distinct : l.Nodup)
    (indices : ∀ c ∈ l, index c = row * cols + c)
    (settled : ∀ c ∈ l, ∀ m', (∀ r, m' (r * cols + c) = m (r * cols + c)) →
      value m' c = value m c)
    {r c : ℕ} (col : c < cols) :
    fill index value m l (r * cols + c) =
      if r = row ∧ c ∈ l then value m c else m (r * cols + c) := by
  have only : ∀ c' ∈ l, index c' = r * cols + c → r = row ∧ c' = c := by
    intro c' member same
    rw [indices c' member] at same
    obtain ⟨rowSame, colSame⟩ := rowMajor_inj (inside c' member) col same
    exact ⟨rowSame.symm, colSame⟩
  split_ifs with written
  · obtain ⟨rfl, member⟩ := written
    rw [← indices c member]
    apply fill_of_mem member
    · apply distinct.map_on
      intro c₁ first c₂ second same
      rw [indices c₁ first, indices c₂ second] at same
      exact Nat.add_left_cancel same
    · intro m' agree
      apply settled c member
      intro r'
      apply agree
      intro c' member' same
      rw [indices c' member'] at same
      exact (rowMajor_inj (inside c' member') col same).2
  · apply fill_of_notMem
    intro c' member same
    obtain ⟨rowSame, colSame⟩ := only c' member same
    exact written ⟨rowSame, colSame ▸ member⟩

end Row

end NzbDownloader.Lib
