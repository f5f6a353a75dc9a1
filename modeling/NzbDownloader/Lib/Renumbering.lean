import Mathlib.Data.List.GetD
import Mathlib.Order.Lattice

/-!
# Flags by position and by number

Entries have a flag each, found by the position of the entry. Some entries are not kept;
the flags of the others are then numbered anew, without gaps.
-/

namespace NzbDownloader.Lib

variable {α : Type} {keep : α → Bool} {bits other : ℕ → Bool} {k p : ℕ} {entries more : List α}

variable (keep bits) in
def picked : ℕ → List α → List Bool
  | _, [] => []
  | k, entry :: rest =>
      if keep entry then bits k :: picked (k + 1) rest else picked (k + 1) rest

def KeptAt (keep : α → Bool) (entries : List α) (p : ℕ) : Prop :=
  ∃ entry, entries[p]? = some entry ∧ keep entry = true

def SkippedAt (keep : α → Bool) (entries : List α) (p : ℕ) : Prop :=
  ∃ entry, entries[p]? = some entry ∧ keep entry = false

def NoneAfterSkipped (keep : α → Bool) (bits : ℕ → Bool) (entries : List α) : Prop :=
  ∀ s p, s < p → SkippedAt keep entries s → KeptAt keep entries p → bits p = false

theorem picked_append : picked keep bits k (entries ++ more) =
    picked keep bits k entries ++ picked keep bits (k + entries.length) more := by
  induction entries generalizing k with
  | nil => rfl
  | cons entry rest ih =>
    rw [List.cons_append, picked, picked, ih, List.length_cons, Nat.add_right_comm,
      Nat.add_assoc k]
    split <;> rfl

theorem length_picked : (picked keep bits k entries).length = entries.countP keep := by
  induction entries generalizing k with
  | nil => rfl
  | cons entry rest ih =>
    rw [picked, List.countP_cons]
    split
    · rw [List.length_cons, ih]
    · rw [ih, Nat.add_zero]

variable {entry : α}

theorem keptAt_zero : KeptAt keep (entry :: entries) 0 ↔ keep entry = true := by
  simp [KeptAt]

theorem keptAt_succ : KeptAt keep (entry :: entries) (p + 1) ↔ KeptAt keep entries p := by
  simp [KeptAt]

theorem skippedAt_zero : SkippedAt keep (entry :: entries) 0 ↔ keep entry = false := by
  simp [SkippedAt]

theorem skippedAt_succ : SkippedAt keep (entry :: entries) (p + 1) ↔ SkippedAt keep entries p := by
  simp [SkippedAt]

theorem KeptAt.not_skipped (kept : KeptAt keep entries p) : ¬SkippedAt keep entries p := by
  rintro ⟨entry, at', skipped⟩
  obtain ⟨same, at'', keeps⟩ := kept
  cases at'.symm.trans at''
  simp [skipped] at keeps

theorem KeptAt.before {s : ℕ} (kept : KeptAt keep entries p) (le : s ≤ p) :
    KeptAt keep entries s ∨ SkippedAt keep entries s := by
  obtain ⟨_, at', _⟩ := kept
  have inside : s < entries.length :=
    lt_of_le_of_lt le (List.getElem?_eq_some_iff.mp at').1
  have there := List.getElem?_eq_getElem inside
  cases keeps : keep entries[s] with
  | true => exact .inl ⟨_, there, keeps⟩
  | false => exact .inr ⟨_, there, keeps⟩

theorem picked_eq_iff : picked keep bits k entries = picked keep other k entries ↔
    ∀ p, KeptAt keep entries p → bits (k + p) = other (k + p) := by
  induction entries generalizing k with
  | nil => simp [picked, KeptAt]
  | cons entry rest ih =>
    have later : picked keep bits (k + 1) rest = picked keep other (k + 1) rest ↔
        ∀ p, KeptAt keep rest p → bits (k + (p + 1)) = other (k + (p + 1)) := by
      rw [ih]
      refine forall_congr' fun p => ?_
      rw [show k + 1 + p = k + (p + 1) by omega]
    rw [picked, picked]
    constructor
    · intro same p kept
      cases p with
      | zero =>
        rw [keptAt_zero] at kept
        rw [if_pos kept, if_pos kept] at same
        exact (List.cons.inj same).1
      | succ p =>
        refine later.mp ?_ p (keptAt_succ.mp kept)
        split at same
        · exact (List.cons.inj same).2
        · exact same
    · intro agree
      have rest' := later.mpr fun p kept => agree (p + 1) (keptAt_succ.mpr kept)
      split
      · rename_i kept
        have first := agree 0 (keptAt_zero.mpr kept)
        rw [Nat.add_zero] at first
        rw [rest', first]
      · exact rest'

theorem picked_getD_of_kept (all : ∀ s ≤ p, KeptAt keep entries s) :
    (picked keep bits k entries).getD p false = bits (k + p) := by
  induction entries generalizing k p with
  | nil =>
    obtain ⟨_, at', _⟩ := all 0 (Nat.zero_le p)
    simp at at'
  | cons entry rest ih =>
    rw [picked, if_pos (keptAt_zero.mp (all 0 (Nat.zero_le p)))]
    cases p with
    | zero => rfl
    | succ p =>
      rw [List.getD_cons_succ, ih fun s le => keptAt_succ.mp (all (s + 1) (by omega))]
      congr 1
      omega

theorem exists_position (inside : p < (picked keep bits k entries).length) :
    ∃ q, KeptAt keep entries q ∧ (picked keep bits k entries).getD p false = bits (k + q) ∧
      p ≤ q ∧ ∀ s ≤ p, SkippedAt keep entries s → p < q := by
  induction entries generalizing k p with
  | nil => simp [picked] at inside
  | cons entry rest ih =>
    rw [picked] at inside ⊢
    split at inside
    · rename_i kept
      rw [if_pos kept]
      cases p with
      | zero =>
        refine ⟨0, keptAt_zero.mpr kept, rfl, le_rfl, fun s le skipped => ?_⟩
        rw [Nat.le_zero.mp le, skippedAt_zero, kept] at skipped
        contradiction
      | succ p =>
        obtain ⟨q, at', from', low, after⟩ := ih (Nat.lt_of_succ_lt_succ inside)
        refine ⟨q + 1, keptAt_succ.mpr at', ?_, by omega, fun s le skipped => ?_⟩
        · rw [List.getD_cons_succ, from']
          congr 1
          omega
        · cases s with
          | zero =>
            rw [skippedAt_zero, kept] at skipped
            contradiction
          | succ s =>
            have := after s (by omega) (skippedAt_succ.mp skipped)
            omega
    · rename_i skipped
      rw [if_neg skipped]
      obtain ⟨q, at', from', low, _⟩ := ih inside
      refine ⟨q + 1, keptAt_succ.mpr at', ?_, by omega, fun _ _ _ => by omega⟩
      rw [from']
      congr 1
      omega

theorem picked_picked_iff : picked keep (fun p => (picked keep bits 0 entries).getD p false) 0
    entries = picked keep bits 0 entries ↔ NoneAfterSkipped keep bits entries := by
  rw [picked_eq_iff]
  simp only [Nat.zero_add]
  constructor
  · intro same s
    -- The flag of an entry is that of a later one, and the last ones find none.
    suffices later : ∀ d p, (picked keep bits 0 entries).length ≤ p + d → s < p →
        SkippedAt keep entries s → KeptAt keep entries p → bits p = false from
      fun p => later (picked keep bits 0 entries).length p (Nat.le_add_left _ _)
    intro d
    induction d with
    | zero =>
      intro p beyond _ _ kept
      rw [← same p kept]
      exact List.getD_eq_default _ _ beyond
    | succ d ih =>
      intro p long after skipped kept
      rw [← same p kept]
      rcases lt_or_ge p (picked keep bits 0 entries).length with inside | beyond
      · obtain ⟨q, kept', from', _, moved⟩ := exists_position inside
        have farther := moved s after.le skipped
        rw [from', Nat.zero_add]
        exact ih q (by omega) (by omega) skipped kept'
      · exact List.getD_eq_default _ _ beyond
  · intro none p kept
    by_cases skips : ∃ s ≤ p, SkippedAt keep entries s
    · obtain ⟨s, le, skipped⟩ := skips
      have before : s < p := by
        refine lt_of_le_of_ne le ?_
        rintro rfl
        exact kept.not_skipped skipped
      rw [none s p before skipped kept]
      rcases lt_or_ge p (picked keep bits 0 entries).length with inside | beyond
      · obtain ⟨q, kept', from', low, _⟩ := exists_position inside
        rw [from', Nat.zero_add]
        exact none s q (by omega) skipped kept'
      · exact List.getD_eq_default _ _ beyond
    · have all : ∀ s ≤ p, KeptAt keep entries s := by
        intro s le
        rcases kept.before le with here | skipped
        · exact here
        · exact absurd ⟨s, le, skipped⟩ skips
      rw [picked_getD_of_kept all, Nat.zero_add]

end NzbDownloader.Lib
