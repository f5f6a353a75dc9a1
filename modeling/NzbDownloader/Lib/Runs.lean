import Mathlib.Data.Finset.Card
import Mathlib.Data.Finset.Dedup
import Mathlib.Data.List.Destutter
import Mathlib.Order.Basic

/-!
# The first of each run of equal keys

In a list sorted by a key, equal keys stand next to each other.
-/

namespace NzbDownloader.Lib

open List

universe u v

variable {α : Type u} {κ : Type v} [LinearOrder κ] {key : α → κ} {l : List α} {a b : α}

def runHeads (key : α → κ) (l : List α) : List α :=
  l.destutter fun a b => key a ≠ key b

def runHeadsFrom (key : α → κ) (a : α) (l : List α) : List α :=
  l.destutter' (fun a b => key a ≠ key b) a

theorem runHeadsFrom_of_ne (differ : key a ≠ key b) (l : List α) :
    runHeadsFrom key a (b :: l) = a :: runHeadsFrom key b l :=
  destutter'_cons_pos l differ

theorem runHeadsFrom_of_eq (same : key a = key b) (l : List α) :
    runHeadsFrom key a (b :: l) = runHeadsFrom key a l :=
  destutter'_cons_neg l (not_not.mpr same)

theorem runHeadsFrom_eq_cons (key : α → κ) (a : α) (l : List α) :
    runHeadsFrom key a l = a :: (runHeadsFrom key a l).tail := by
  induction l with
  | nil => rfl
  | cons b rest ih =>
    by_cases same : key a = key b
    · rwa [runHeadsFrom_of_eq same]
    · rw [runHeadsFrom_of_ne same, tail_cons]

theorem runHeads_sublist (key : α → κ) (l : List α) : (runHeads key l).Sublist l :=
  destutter_sublist _ l

theorem pairwise_lt_of_isChain_ne (ordered : l.Pairwise fun a b => key a ≤ key b)
    (differ : l.IsChain fun a b => key a ≠ key b) : l.Pairwise fun a b => key a < key b := by
  induction l with
  | nil => exact List.Pairwise.nil
  | cons a rest ih =>
    obtain ⟨below, ordered⟩ := pairwise_cons.mp ordered
    refine pairwise_cons.mpr ⟨?_, ih ordered differ.tail⟩
    cases rest with
    | nil => exact fun b member => absurd member not_mem_nil
    | cons second rest =>
      have next : key a < key second :=
        lt_of_le_of_ne (below second (.head _)) (isChain_cons_cons.mp differ).1
      intro b member
      rcases mem_cons.mp member with rfl | later
      · exact next
      · exact next.trans_le ((pairwise_cons.mp ordered).1 b later)

theorem runHeads_ascend (sorted : l.Pairwise fun a b => key a ≤ key b) :
    (runHeads key l).Pairwise fun a b => key a < key b :=
  pairwise_lt_of_isChain_ne (sorted.sublist (runHeads_sublist key l)) (isChain_destutter _ l)

theorem find?_of_mem_runHeadsFrom {first : α} {rest : List α}
    (sorted : (first :: rest).Pairwise fun a b => key a ≤ key b)
    (kept : a ∈ runHeadsFrom key first rest) :
    (first :: rest).find? (fun b => key b = key a) = some a := by
  induction rest generalizing first with
  | nil =>
    obtain rfl := mem_singleton.mp kept
    simp
  | cons second rest ih =>
    obtain ⟨below, ordered⟩ := pairwise_cons.mp sorted
    by_cases same : key first = key second
    · rw [runHeadsFrom_of_eq same] at kept
      have found := ih (sorted.sublist (List.Sublist.cons_cons first (sublist_cons_self ..))) kept
      by_cases here : key first = key a
      · rw [find?_cons_of_pos (by simpa using here)] at found ⊢
        exact found
      · rw [find?_cons_of_neg (by simpa using here)] at found ⊢
        rwa [find?_cons_of_neg (by simpa [← same] using here)]
    · rw [runHeadsFrom_of_ne same] at kept
      rcases mem_cons.mp kept with rfl | later
      · simp
      -- The keys have gone beyond that of the first element.
      have found := ih ordered later
      have inside := mem_of_find?_eq_some found
      have least : key second ≤ key a := by
        rcases mem_cons.mp inside with rfl | member
        · exact le_rfl
        · exact (pairwise_cons.mp ordered).1 a member
      have beyond : key first ≠ key a :=
        ((lt_of_le_of_ne (below second (.head _)) same).trans_le least).ne
      rwa [find?_cons_of_neg (by simpa using beyond)]

theorem exists_mem_runHeadsFrom {first : α} {rest : List α} (member : a ∈ first :: rest) :
    ∃ b ∈ runHeadsFrom key first rest, key b = key a := by
  induction rest generalizing first with
  | nil => exact ⟨first, mem_cons_self, congrArg key (mem_singleton.mp member).symm⟩
  | cons second rest ih =>
    by_cases same : key first = key second
    · rw [runHeadsFrom_of_eq same]
      rcases mem_cons.mp member with rfl | later
      · exact ih (.head _)
      rcases mem_cons.mp later with rfl | last
      · refine ⟨first, ?_, same⟩
        rw [runHeadsFrom_eq_cons]
        exact .head _
      · exact ih (.tail _ last)
    · rw [runHeadsFrom_of_ne same]
      rcases mem_cons.mp member with rfl | later
      · exact ⟨a, mem_cons_self, rfl⟩
      · obtain ⟨b, kept, found⟩ := ih later
        exact ⟨b, .tail _ kept, found⟩

theorem mem_runHeads (sorted : l.Pairwise fun a b => key a ≤ key b) :
    a ∈ runHeads key l ↔ l.find? (fun b => key b = key a) = some a := by
  cases l with
  | nil => simp [runHeads]
  | cons first rest =>
    constructor
    · exact find?_of_mem_runHeadsFrom sorted
    intro found
    obtain ⟨b, kept, same⟩ : ∃ b ∈ runHeadsFrom key first rest, key b = key a :=
      exists_mem_runHeadsFrom (mem_of_find?_eq_some found)
    have foundToo := find?_of_mem_runHeadsFrom sorted kept
    rw [same, found] at foundToo
    exact Option.some.inj foundToo ▸ kept

theorem pairwise_iff_of_ascend {R : α → α → Prop}
    (ascend : l.Pairwise fun a b => key a < key b) :
    l.Pairwise R ↔ ∀ a ∈ l, ∀ b ∈ l, key a < key b → R a b := by
  constructor
  · intro related
    induction l with
    | nil => exact fun a member => absurd member not_mem_nil
    | cons first rest ih =>
      obtain ⟨below, ascend⟩ := pairwise_cons.mp ascend
      obtain ⟨fromFirst, related⟩ := pairwise_cons.mp related
      intro a isA b isB less
      rcases mem_cons.mp isA with rfl | laterA
      · rcases mem_cons.mp isB with rfl | laterB
        · exact absurd less (lt_irrefl _)
        · exact fromFirst b laterB
      · rcases mem_cons.mp isB with rfl | laterB
        · exact absurd less (below a laterA).not_gt
        · exact ih ascend related a laterA b laterB less
  · intro related
    exact ascend.imp_of_mem fun isA isB less => related _ isA _ isB less

end NzbDownloader.Lib
