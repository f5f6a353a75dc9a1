import Mathlib.Data.Set.Finite.Basic
import Mathlib.Data.Fintype.Pigeonhole

/-!
# Walks over finitely many places

A walk goes from a place to the next one for as long as there is one. Over finitely many
places it ends exactly when it never comes back to a place.
-/

namespace NzbDownloader.Lib.Walk

open Option

universe u

variable {α : Type u} (next : α → Option α)

def position : ℕ → α → Option α
  | 0, x => some x
  | n + 1, x => (next x).bind (position n)

def Comes (x y : α) : Prop :=
  ∃ n, position next n x = some y

def Ends (x : α) : Prop :=
  ∃ n, position next n x = none

variable {next} {x y z : α}

theorem position_add (m n : ℕ) (x : α) :
    position next (m + n) x = (position next m x).bind (position next n) := by
  induction m generalizing x with
  | zero => simp [position]
  | succ m ih =>
    rw [Nat.add_right_comm, position, position, bind_assoc]
    exact congrArg _ (funext ih)

theorem Comes.refl (x : α) : Comes next x x :=
  ⟨0, rfl⟩

theorem Comes.trans (first : Comes next x y) (second : Comes next y z) : Comes next x z := by
  obtain ⟨m, here⟩ := first
  obtain ⟨n, later⟩ := second
  exact ⟨m + n, by rw [position_add, here, bind_some, later]⟩

theorem Comes.single (step : next x = some y) : Comes next x y :=
  ⟨1, by rw [position, step, bind_some, position]⟩

theorem Comes.cases_head (comes : Comes next x y) :
    x = y ∨ ∃ z, next x = some z ∧ Comes next z y := by
  obtain ⟨n, arrives⟩ := comes
  cases n with
  | zero => exact .inl (Option.some.inj arrives)
  | succ n =>
    obtain ⟨z, step, later⟩ := bind_eq_some_iff.mp arrives
    exact .inr ⟨z, step, n, later⟩

theorem position_none_of_le {m n : ℕ} (ended : position next m x = none) (le : m ≤ n) :
    position next n x = none := by
  obtain ⟨k, rfl⟩ := Nat.exists_eq_add_of_le le
  rw [position_add, ended, bind_none]

theorem exists_next_of_position {n : ℕ} (later : position next (n + 1) x = some y) :
    ∃ z, position next n x = some z ∧ next z = some y := by
  rw [position_add] at later
  obtain ⟨z, here, step⟩ := bind_eq_some_iff.mp later
  obtain ⟨y', taken, same⟩ := bind_eq_some_iff.mp step
  cases same
  exact ⟨z, here, taken⟩

theorem not_ends_of_return (step : next x = some y) (back : Comes next y x) :
    ¬Ends next x := by
  obtain ⟨m, returns⟩ := back
  have period : position next (m + 1) x = some x := by
    rw [position, step, bind_some, returns]
  have again : ∀ k, position next (k * (m + 1)) x = some x := by
    intro k
    induction k with
    | zero => rw [Nat.zero_mul, position]
    | succ k ih => rw [Nat.succ_mul, position_add, ih, bind_some, period]
  rintro ⟨n, ended⟩
  have late := position_none_of_le ended (Nat.le_mul_of_pos_right n (Nat.succ_pos m))
  rw [again n] at late
  contradiction

theorem Ends.of_comes (ends : Ends next x) (comes : Comes next x y) : Ends next y := by
  obtain ⟨n, ended⟩ := ends
  obtain ⟨m, arrives⟩ := comes
  refine ⟨n, ?_⟩
  have late := position_none_of_le ended (Nat.le_add_left n m)
  rwa [position_add, arrives, bind_some] at late

theorem ends_of_no_return {s : Set α} (finite : s.Finite)
    (stays : ∀ x y, next x = some y → x ∈ s)
    (fresh : ∀ y z, Comes next x y → next y = some z → ¬Comes next z y) : Ends next x := by
  by_contra endless
  have goesOn : ∀ n, ∃ y, position next n x = some y :=
    fun n => ne_none_iff_exists'.mp fun ended => endless ⟨n, ended⟩
  choose place at' using goesOn
  have steps : ∀ n, next (place n) = some (place (n + 1)) := by
    intro n
    obtain ⟨z, here, step⟩ := exists_next_of_position (at' (n + 1))
    rw [at' n] at here
    cases here
    exact step
  have inside : ∀ n, place n ∈ s := fun n => stays _ _ (steps n)
  have : Finite s := finite
  obtain ⟨m, n, different, same⟩ :=
    Finite.exists_ne_map_eq_of_infinite fun n => (⟨place n, inside n⟩ : s)
  have equal : place m = place n := congrArg Subtype.val same
  have later : ∀ a k, Comes next (place a) (place (a + k)) := by
    intro a k
    induction k with
    | zero => exact Comes.refl _
    | succ k ih => exact ih.trans (Comes.single (steps (a + k)))
  have earlier : ∀ a b, a < b → place a = place b → False := by
    intro a b before coincide
    obtain ⟨k, rfl⟩ := Nat.exists_eq_add_of_lt before
    refine fresh _ _ ⟨a, at' a⟩ (steps a) ?_
    have around := later (a + 1) k
    rwa [Nat.add_right_comm, ← coincide] at around
  rcases Nat.lt_or_gt_of_ne different with before | after
  · exact earlier m n before equal
  · exact earlier n m after equal.symm

theorem rank_le_of_comes {rank : α → ℕ} {marked : α → Prop}
    (raises : ∀ x y, next x = some y → ¬marked x → rank x < rank y) (comes : Comes next x y)
    (unmarked : ∀ w, Comes next x w → Comes next w y → ¬marked w) : rank x ≤ rank y := by
  obtain ⟨n, arrives⟩ := comes
  induction n generalizing x with
  | zero => rw [Option.some.inj arrives]
  | succ n ih =>
    obtain ⟨w, onward, rest⟩ := bind_eq_some_iff.mp arrives
    have lower := raises x w onward (unmarked x (Comes.refl x) ⟨n + 1, arrives⟩)
    have upper := ih (fun v left right =>
      unmarked v ((Comes.single onward).trans left) right) rest
    omega

theorem ends_iff_of_rank {s : Set α} (finite : s.Finite) {rank : α → ℕ} {marked : α → Prop}
    (stays : ∀ x y, next x = some y → x ∈ s)
    (raises : ∀ x y, next x = some y → ¬marked x → rank x < rank y) (x : α) :
    Ends next x ↔
      ∀ y z, Comes next x y → marked y → next y = some z → ¬Comes next z y := by
  constructor
  · intro ends y z visited _ step back
    exact not_ends_of_return step back (ends.of_comes visited)
  intro fresh
  refine ends_of_no_return finite stays fun y z visited step back => ?_
  -- No place of the cycle is marked, so that the rank rises all the way round.
  have unmarked : ∀ w, Comes next z w → Comes next w y → ¬marked w := by
    intro w left right mark
    rcases right.cases_head with rfl | ⟨w', onward, rest⟩
    · exact fresh w z visited mark step back
    · exact fresh w w' (visited.trans ((Comes.single step).trans left)) mark onward
        (rest.trans ((Comes.single step).trans left))
  have rises := rank_le_of_comes raises back unmarked
  have lower := raises y z step (unmarked y back (Comes.refl y))
  omega

end NzbDownloader.Lib.Walk
