import Mathlib.Data.List.Forall2
import NzbDownloader.Queue.Job

/-!
# Marking a segment by its message id

`job_mark_segment_downloaded` marks the first segment of the job with the given
message id.  A later segment with the same id is never marked.
-/

namespace NzbDownloader.Queue

open Job List Option

def idAt (files : List JobFile) (f i : ℕ) : Option String :=
  (segmentAt files f i).map (·.messageId)

def arrivedAt (files : List JobFile) (f i : ℕ) : Bool :=
  (segmentAt files f i).any (·.downloaded)

structure FirstWith (files : List JobFile) (messageId : String) (f i : ℕ) : Prop where
  here : idAt files f i = some messageId
  earliest : ∀ f' i', idAt files f' i' = some messageId → f < f' ∨ f = f' ∧ i ≤ i'

section First

variable {α β : Type} {hit : α → Bool} {mark : α → α}

theorem map_markFirst {g : α → β} (kept : ∀ item, g (mark item) = g item) (items : List α) :
    (markFirst hit mark items).map g = items.map g := by
  refine lookmap_map_eq _ g (fun item marked isMarked => ?_) items
  rw [mem_def, ite_none_right_eq_some, some.injEq] at isMarked
  rw [← isMarked.2, kept]

theorem forall₂_markFirst {R : α → α → Prop} (refl : ∀ item, R item item)
    (marks : ∀ item, R item (mark item)) (items : List α) :
    List.Forall₂ R items (markFirst hit mark items) := by
  induction items with
  | nil => exact .nil
  | cons first rest ih =>
    by_cases here : hit first = true
    · rw [markFirst, lookmap_cons_some _ rest (if_pos here)]
      exact .cons (marks first) (forall₂_same.mpr fun item _ => refl item)
    · rw [markFirst, lookmap_cons_none _ rest (if_neg here)]
      exact .cons (refl first) ih

theorem markFirst_cases (hit : α → Bool) (mark : α → α) (items : List α) :
    (markFirst hit mark items = items ∧ ∀ item ∈ items, ¬hit item = true) ∨
    ∃ i item, items[i]? = some item ∧ hit item = true ∧
      (∀ i' item', items[i']? = some item' → hit item' = true → i ≤ i') ∧
      markFirst hit mark items = items.set i (mark item) := by
  induction items with
  | nil => exact .inl ⟨rfl, by simp⟩
  | cons first rest ih =>
    by_cases here : hit first = true
    · refine .inr ⟨0, first, rfl, here, fun _ _ _ _ => Nat.zero_le _, ?_⟩
      exact lookmap_cons_some _ rest (if_pos here)
    have after : markFirst hit mark (first :: rest) = first :: markFirst hit mark rest :=
      lookmap_cons_none _ rest (if_neg here)
    rw [after]
    rcases ih with ⟨unchanged, nowhere⟩ | ⟨i, item, found, hits, earliest, marked⟩
    · exact .inl ⟨congrArg _ unchanged, forall_mem_cons.mpr ⟨here, nowhere⟩⟩
    · refine .inr ⟨i + 1, item, found, hits, ?_, congrArg _ marked⟩
      intro i' item' found' hits'
      cases i' with
      | zero =>
        cases found'
        exact absurd hits' here
      | succ i' => exact Nat.succ_le_succ (earliest i' item' found' hits')

end First

section Files

variable {messageId : String} {files : List JobFile} {f i : ℕ}

theorem idAt_eq_some : idAt files f i = some messageId ↔
    ∃ segment, segmentAt files f i = some segment ∧ segment.messageId = messageId :=
  map_eq_some_iff

theorem not_arrivedAt (unmarked : ∀ file ∈ files, ∀ segment ∈ file.segments,
    segment.downloaded = false) : ¬arrivedAt files f i = true := by
  intro arrived
  obtain ⟨segment, found, marked⟩ := (any_eq_true _ _).mp arrived
  obtain ⟨file, isFile, isSegment⟩ := bind_eq_some_iff.mp found
  rw [unmarked file (mem_of_getElem? isFile) segment (mem_of_getElem? isSegment)] at marked
  contradiction

theorem markFiles_spec (messageId : String) (files : List JobFile) :
    (markFiles messageId files = files ∧ ∀ f i, idAt files f i ≠ some messageId) ∨
    ∃ f i segment, FirstWith files messageId f i ∧ segmentAt files f i = some segment ∧
      ∀ f' i', segmentAt (markFiles messageId files) f' i' =
        if f' = f ∧ i' = i then some { segment with downloaded := true }
        else segmentAt files f' i' := by
  have hits {f' i' : ℕ} (found' : idAt files f' i' = some messageId) :
      ∃ file segment, files[f']? = some file ∧ file.segments[i']? = some segment ∧
        segment.messageId = messageId ∧ file.segments.any (·.messageId = messageId) = true := by
    obtain ⟨segment, found', same⟩ := idAt_eq_some.mp found'
    obtain ⟨file, isFile, isSegment⟩ := bind_eq_some_iff.mp found'
    exact ⟨file, segment, isFile, isSegment, same,
      List.any_eq_true.mpr ⟨segment, List.mem_of_getElem? isSegment, decide_eq_true same⟩⟩
  rcases markFirst_cases (fun file : JobFile => file.segments.any (·.messageId = messageId))
      (fun file => { file with segments := markSegments messageId file.segments }) files with
    ⟨unchanged, nowhere⟩ | ⟨f, file, isFile, has, firstFile, marked⟩
  · refine .inl ⟨unchanged, fun f i found => ?_⟩
    obtain ⟨file, _, isFile, _, _, has⟩ := hits found
    exact nowhere file (List.mem_of_getElem? isFile) has
  rcases markFirst_cases (fun segment : Segment => decide (segment.messageId = messageId))
      (fun segment => { segment with downloaded := true }) file.segments with
    ⟨_, nowhere⟩ | ⟨i, segment, isSegment, same, firstSegment, marked'⟩
  · obtain ⟨segment, member, same⟩ := List.any_eq_true.mp has
    exact absurd same (nowhere segment member)
  have found : segmentAt files f i = some segment := by
    rw [segmentAt, isFile, bind_some, isSegment]
  refine .inr ⟨f, i, segment, ⟨idAt_eq_some.mpr ⟨segment, found, of_decide_eq_true same⟩, ?_⟩,
    found, fun f' i' => ?_⟩
  · intro f' i' found'
    obtain ⟨file', segment', isFile', isSegment', same', has'⟩ := hits found'
    rcases (firstFile f' file' isFile' has').lt_or_eq with before | rfl
    · exact .inl before
    · cases isFile.symm.trans isFile'
      exact .inr ⟨rfl, firstSegment i' segment' isSegment' (decide_eq_true same')⟩
  · rw [markFiles, marked, markSegments, marked', segmentAt, segmentAt]
    have inside := (List.getElem?_eq_some_iff.mp isFile).1
    have inside' := (List.getElem?_eq_some_iff.mp isSegment).1
    by_cases here : f' = f
    · subst here
      rw [List.getElem?_set_self inside, isFile, bind_some, bind_some]
      by_cases here' : i' = i
      · subst here'
        rw [List.getElem?_set_self inside', if_pos ⟨rfl, rfl⟩]
      · rw [List.getElem?_set_ne (Ne.symm here'), if_neg fun both => here' both.2]
    · rw [List.getElem?_set_ne (Ne.symm here), if_neg fun both => here both.1]

theorem FirstWith.of_ids {files' : List JobFile} (first : FirstWith files messageId f i)
    (ids : idAt files' = idAt files) :
    FirstWith files' messageId f i := by
  constructor
  · rw [ids]
    exact first.here
  · rw [ids]
    exact first.earliest

theorem FirstWith.unique {f' i' : ℕ} (first : FirstWith files messageId f i)
    (first' : FirstWith files messageId f' i') : f = f' ∧ i = i' := by
  have before := first.earliest f' i' first'.here
  have after := first'.earliest f i first.here
  omega

@[simp]
theorem idAt_markFiles (messageId : String) (files : List JobFile) :
    idAt (markFiles messageId files) = idAt files := by
  funext f i
  rcases markFiles_spec messageId files with ⟨unchanged, _⟩ | ⟨f', i', segment, _, found, after⟩
  · rw [unchanged]
  rw [idAt, after f i]
  split
  · rename_i here
    rw [idAt, here.1, here.2, found]
    rfl
  · rfl

theorem arrivedAt_markFiles : arrivedAt (markFiles messageId files) f i = true ↔
    arrivedAt files f i = true ∨ FirstWith files messageId f i := by
  rcases markFiles_spec messageId files with
    ⟨unchanged, nowhere⟩ | ⟨f', i', segment, first, found, after⟩
  · rw [unchanged]
    constructor
    · exact .inl
    · rintro (arrived | first)
      · exact arrived
      · exact absurd first.here (nowhere f i)
  · rw [arrivedAt, after f i]
    split
    · rename_i here
      obtain ⟨rfl, rfl⟩ := here
      exact ⟨fun _ => .inr first, fun _ => rfl⟩
    · rename_i elsewhere
      constructor
      · exact .inl
      · rintro (arrived | first')
        · exact arrived
        · exact absurd (first'.unique first) elsewhere

@[simp]
theorem markFiles_filename (messageId : String) (files : List JobFile) :
    (markFiles messageId files).map (·.filename) = files.map (·.filename) :=
  map_markFirst (by intro _; rfl) files

@[simp]
theorem markFiles_segmentCount (messageId : String) (files : List JobFile) :
    (markFiles messageId files).map (·.segments.length) = files.map (·.segments.length) :=
  map_markFirst (by intro _; exact length_lookmap _ _) files

end Files

end NzbDownloader.Queue
