import Mathlib.Data.List.Basic

/-!
# Labelled transition systems

A system takes a step for a label if the step is enabled.  A run is restricted
by a condition on the state before each step and its label; the unrestricted
runs are those of the condition that always holds.  Invariants are proved by the
one induction rule below.
-/

namespace NzbDownloader.Lib.Transition

universe u v

variable {σ : Type u} {α : Type v}

inductive Reachable (step : σ → α → Option σ) (allowed : σ → α → Prop) (start : σ) : σ → Prop
  | refl : Reachable step allowed start start
  | tail {s s' : σ} (a : α) : Reachable step allowed start s → allowed s a →
      step s a = some s' → Reachable step allowed start s'

def Anything : σ → α → Prop :=
  fun _ _ => True

variable {step : σ → α → Option σ} {allowed : σ → α → Prop} {start s s' : σ}

theorem Reachable.invariant {I : σ → Prop} (reachable : Reachable step allowed start s)
    (initially : I start)
    (preserved : ∀ t a t', I t → allowed t a → step t a = some t' → I t') : I s := by
  induction reachable with
  | refl => exact initially
  | tail a _ met taken ih => exact preserved _ a _ ih met taken

theorem Reachable.trans (first : Reachable step allowed start s)
    (second : Reachable step allowed s s') : Reachable step allowed start s' := by
  induction second with
  | refl => exact first
  | tail a _ met taken ih => exact Reachable.tail a ih met taken

def replay (step : σ → α → Option σ) (allowed : σ → α → Bool) : σ → List α → Option σ
  | s, [] => some s
  | s, a :: rest =>
      if allowed s a then (step s a).bind fun s' => replay step allowed s' rest else none

variable {test : σ → α → Bool}

theorem replay_reachable {labels : List α} (implies : ∀ t a, test t a → allowed t a)
    (executed : replay step test s labels = some s') : Reachable step allowed s s' := by
  induction labels generalizing s with
  | nil =>
    cases executed
    exact Reachable.refl
  | cons a rest ih =>
    rw [replay] at executed
    split at executed
    · rename_i passed
      obtain ⟨middle, taken, later⟩ := Option.bind_eq_some_iff.mp executed
      exact (Reachable.tail a Reachable.refl (implies s a passed) taken).trans (ih later)
    · contradiction

theorem exists_reachable {test : σ → α → Bool} {labels : List α} {property : σ → Bool}
    (implies : ∀ t a, test t a → allowed t a)
    (runs : (replay step test s labels).any property) :
    ∃ s', Reachable step allowed s s' ∧ property s' = true := by
  obtain ⟨s', executed, holds⟩ := Option.any_eq_true _ _ |>.mp runs
  exact ⟨s', replay_reachable implies executed, holds⟩

theorem exists_two_runs {β : Type} {first second : List α} {f : σ → σ → β} {result : β}
    (implies : ∀ t a, test t a → allowed t a)
    (executed : ((replay step test start first).bind fun s =>
      (replay step test s second).map fun s' => f s s') = some result) :
    ∃ s s', Reachable step allowed start s ∧ Reachable step allowed s s' ∧ f s s' = result := by
  obtain ⟨s, before, rest⟩ := Option.bind_eq_some_iff.mp executed
  obtain ⟨s', after, same⟩ := Option.map_eq_some_iff.mp rest
  exact ⟨s, s', replay_reachable implies before, replay_reachable implies after, same⟩

inductive LoopEnds (condition : σ → Prop) (body : σ → σ) : σ → σ → Prop
  | exit {s : σ} : ¬condition s → LoopEnds condition body s s
  | round {s t : σ} : condition s → LoopEnds condition body (body s) t →
      LoopEnds condition body s t

end NzbDownloader.Lib.Transition
