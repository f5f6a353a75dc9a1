import NzbDownloader.Lib.Renumbering
import NzbDownloader.Queue.RoundTrip

/-!
# Progress after a restart

The list of segments is never written again, and entries of it that have no
message id are not loaded.  The loader counts them for the number of the bit; a
new bitmap does not.
-/

namespace NzbDownloader.Queue.Persist

open Lib Util List

def messageId? (item : Tree) : Option Name :=
  (item.get? "message_id").bind Json.string?

def isLoaded (item : Tree) : Bool :=
  (messageId? item).isSome

def segmentItems (tree : Tree) : List Tree :=
  (loadItems tree "files").flatMap fun file => loadItems file "segments"

def segmentsFrom (bitmap : Bytes) : ℕ → List Tree → List SegmentData
  | _, [] => []
  | k, item :: rest =>
      match messageId? item with
      | some messageId =>
          ⟨snprintf 512 messageId, loadNumber item "bytes", toInt (loadNumber item "number"),
            flagAt bitmap k⟩ :: segmentsFrom bitmap (k + 1) rest
      | none => segmentsFrom bitmap (k + 1) rest

def fileFrom (bitmap : Bytes) (k : ℕ) (item : Tree) : FileData :=
  (newFile (((item.get? "filename").bind Json.string?).getD [])
    (((item.get? "subject").bind Json.string?).getD [])).extend
      (segmentsFrom bitmap k (loadItems item "segments"))

def loadedFiles (bitmap : Bytes) : ℕ → List Tree → List FileData
  | _, [] => []
  | k, item :: rest =>
      fileFrom bitmap k item :: loadedFiles bitmap (k + (loadItems item "segments").length) rest

variable {items : List Tree}

section Loops

variable {bitmap other : Bytes} {k : ℕ}

theorem loadSegment_eq (file : FileData) (item : Tree) : loadSegment bitmap (file, k) item =
    (file.extend (segmentsFrom bitmap k [item]), k + 1) := by
  unfold loadSegment segmentsFrom messageId?
  split
  · rename_i none
    rw [none]
    exact Prod.ext (FileData.extend_nil file).symm rfl
  · rename_i messageId some
    rw [some]
    obtain ⟨filename, subject, segments, bytes, rfl⟩ := file
    simp only [jobFileAddSegment, FileData.extend, segmentsFrom, totalBytes_append_singleton]

theorem segmentsFrom_cons (item : Tree) (rest : List Tree) :
    segmentsFrom bitmap k (item :: rest) =
      segmentsFrom bitmap k [item] ++ segmentsFrom bitmap (k + 1) rest := by
  simp only [segmentsFrom]
  split <;> rfl

theorem loadSegments_from (file : FileData) (items : List Tree) :
    items.foldl (loadSegment bitmap) (file, k) =
      (file.extend (segmentsFrom bitmap k items), k + items.length) := by
  induction items generalizing file k with
  | nil => exact Prod.ext (FileData.extend_nil file).symm rfl
  | cons item rest ih =>
    rw [foldl_cons, loadSegment_eq, ih, FileData.extend_extend, ← segmentsFrom_cons,
      length_cons, Nat.add_assoc, Nat.add_comm 1]

theorem loadFiles_from (loaded : List FileData) (items : List Tree) :
    (items.foldl (loadFile bitmap) (loaded, k)).1 = loaded ++ loadedFiles bitmap k items := by
  induction items generalizing loaded k with
  | nil => exact (append_nil loaded).symm
  | cons item rest ih =>
    have step : loadFile bitmap (loaded, k) item =
        (loaded ++ [fileFrom bitmap k item], k + (loadItems item "segments").length) := by
      rw [loadFile, loadSegments_from]
      rfl
    rw [foldl_cons, step, ih, append_assoc, singleton_append, loadedFiles]

theorem downloaded_segmentsFrom (items : List Tree) :
    (segmentsFrom bitmap k items).map (·.downloaded) =
      picked isLoaded (flagAt bitmap) k items := by
  induction items generalizing k with
  | nil => rfl
  | cons item rest ih =>
    rw [segmentsFrom, picked, isLoaded]
    split
    · rename_i messageId some
      rw [some, Option.isSome_some, if_pos rfl, map_cons, ih]
    · rename_i none
      rw [none, Option.isSome_none, if_neg Bool.false_ne_true, ih]

theorem flags_loadedFiles (items : List Tree) :
    (loadedFiles bitmap k items).flatMap (fun file => file.segments.map (·.downloaded)) =
      picked isLoaded (flagAt bitmap) k (items.flatMap fun file => loadItems file "segments") := by
  induction items generalizing k with
  | nil => rfl
  | cons item rest ih =>
    rw [loadedFiles, flatMap_cons, ih, flatMap_cons, picked_append]
    congr 1
    exact downloaded_segmentsFrom _

theorem segmentsFrom_congr
    (same : picked isLoaded (flagAt bitmap) k items = picked isLoaded (flagAt other) k items) :
    segmentsFrom bitmap k items = segmentsFrom other k items := by
  induction items generalizing k with
  | nil => rfl
  | cons item rest ih =>
    rw [picked, picked, isLoaded] at same
    rw [segmentsFrom, segmentsFrom]
    split
    · rename_i messageId some
      rw [some, Option.isSome_some, if_pos rfl, if_pos rfl] at same
      obtain ⟨first, later⟩ := List.cons.inj same
      rw [first, ih later]
    · rename_i none
      rw [none, Option.isSome_none, if_neg Bool.false_ne_true, if_neg Bool.false_ne_true] at same
      exact ih same

theorem loadedFiles_eq_iff :
    loadedFiles bitmap k items = loadedFiles other k items ↔
      picked isLoaded (flagAt bitmap) k (items.flatMap fun file => loadItems file "segments") =
        picked isLoaded (flagAt other) k
          (items.flatMap fun file => loadItems file "segments") := by
  constructor
  · intro same
    rw [← flags_loadedFiles, ← flags_loadedFiles, same]
  intro same
  induction items generalizing k with
  | nil => rfl
  | cons item rest ih =>
    rw [flatMap_cons, picked_append, picked_append] at same
    obtain ⟨first, later⟩ := append_inj same (length_picked.trans length_picked.symm)
    rw [loadedFiles, loadedFiles, ih later, fileFrom, fileFrom, segmentsFrom_congr first]

end Loops

section Disk

variable {env reading : Faults Document} {stem : Name} {dir dir' : Folder Name Document}
  {header tree : Tree} {job : JobData}

theorem flagAt_snapshot {bitmap : Bytes} (files : job.files = loadedFiles bitmap 0 items) :
    flagAt (jobProgressSnapshot job) = fun p =>
      (picked isLoaded (flagAt bitmap) 0
        (items.flatMap fun file => loadItems file "segments")).getD p false := by
  funext p
  rw [jobProgressSnapshot, flagAt_bitmapOf, JobData.flags, files, flags_loadedFiles]

/-- A job is loaded, a new bitmap is written for it, and it is loaded again: it has
the same files exactly when no entry that comes after a skipped one was marked. -/
theorem jobLoad_again_iff (reads : reading.Calm)
    (headed : dir.files (jobPath stem) = some (.json header))
    (listed : dir.files (stem ++ segmentsSuffix) = some (.json tree))
    (loaded : jobLoad reading (jobPath stem) dir = (some job, dir'))
    (written : (jobWriteProgress env job (jobPath stem) (jobProgressSnapshot job) dir').1 = true) :
    ∃ again, (jobLoad reading (jobPath stem)
        (jobWriteProgress env job (jobPath stem) (jobProgressSnapshot job) dir').2).1 = some again ∧
      (again.files = job.files ↔
        NoneAfterSkipped isLoaded (flagAt (bitmapIn dir.files stem)) (segmentItems tree)) := by
  have first := jobLoad_from reads headed listed
  have same : (jobLoad reading (jobPath stem) dir).2.files = dir.files := jobLoad_files ..
  rw [loaded] at same
  rw [loaded, loadFiles_from, nil_append] at first
  have files : job.files = loadedFiles (bitmapIn dir.files stem) 0 (loadItems tree "files") :=
    congrArg JobData.files (Option.some.inj first)
  have there : jobEnsureSegmentsSaved env job (jobPath stem) dir' = dir' := by
    rw [jobEnsureSegmentsSaved, JobFormat.jobEnsureSegmentsSaved, jobSidecarPath_jobPath, if_pos]
    rw [same, listed]
    rfl
  rw [jobWriteProgress, there, jobSidecarPath_jobPath] at written ⊢
  have progress := jobWriteFile_succeeds written
  have kept (name : Name) (belongs : BelongsTo name stem) :
      (jobWriteFile env (stem ++ progressSuffix) (.raw (jobProgressSnapshot job)) dir').2.files
        name = dir.files name := by
    rw [jobWriteFile_of_ne belongs.ne_progress belongs.not_tmp, same]
  generalize (jobWriteFile env (stem ++ progressSuffix) (.raw (jobProgressSnapshot job)) dir').2 =
    after at *
  refine ⟨_, jobLoad_from reads ((kept _ (.inl rfl)).trans headed)
    ((kept _ (.inr rfl)).trans listed), ?_⟩
  have bitmap : bitmapIn after.files stem = jobProgressSnapshot job := by
    rw [bitmapIn, progress]
    rfl
  rw [bitmap, loadFiles_from, nil_append, files, loadedFiles_eq_iff, flagAt_snapshot files]
  exact picked_picked_iff

end Disk

def skippingList : Tree :=
  .object [("files", .array [.object [("segments", .array
    [.object [("message_id", .string "a".toList)], .object [],
      .object [("message_id", .string "c".toList)]])]])]

def skippingFolder (bitmap : Bytes) : Folder Name Document where
  files name :=
    if name = jobPath "j".toList then some (.json (.object []))
    else if name = "j".toList ++ segmentsSuffix then some (.json skippingList)
    else if name = "j".toList ++ progressSuffix then some (.raw bitmap)
    else none
  clock := 0

def skippingJob (bitmap : Bytes) : JobData :=
  { loadHeader (.object []) with files := loadedFiles bitmap 0 (loadItems skippingList "files") }

theorem calm_failingAt : (failingAt []).Calm :=
  fun _ => rfl

theorem listed_skippingFolder (bitmap : Bytes) :
    (skippingFolder bitmap).files ("j".toList ++ segmentsSuffix) = some (.json skippingList) :=
  rfl

theorem bitmapIn_skippingFolder (bitmap : Bytes) :
    bitmapIn (skippingFolder bitmap).files "j".toList = bitmap := by
  have progress : (skippingFolder bitmap).files ("j".toList ++ progressSuffix) =
      some (.raw bitmap) :=
    rfl
  rw [bitmapIn, progress]
  rfl

theorem jobLoad_skippingFolder (bitmap : Bytes) :
    (jobLoad (failingAt []) (jobPath "j".toList) (skippingFolder bitmap)).1 =
      some (skippingJob bitmap) := by
  have loaded := jobLoad_from calm_failingAt
    (rfl : (skippingFolder bitmap).files (jobPath "j".toList) = some (.json (.object [])))
    (listed_skippingFolder bitmap)
  rw [bitmapIn_skippingFolder] at loaded
  exact loaded

theorem jobLoad_again_of_first_marked :
    ∃ again, (jobLoad (failingAt []) (jobPath "j".toList)
        (jobWriteProgress (failingAt []) (skippingJob [1]) (jobPath "j".toList)
          (jobProgressSnapshot (skippingJob [1]))
          (jobLoad (failingAt []) (jobPath "j".toList) (skippingFolder [1])).2).2).1 =
        some again ∧ again.files = (skippingJob [1]).files := by
  obtain ⟨again, loaded, same⟩ := @jobLoad_again_iff (failingAt []) (failingAt []) "j".toList
    (skippingFolder [1]) _ (.object []) skippingList (skippingJob [1]) calm_failingAt rfl
    (listed_skippingFolder [1]) (Prod.ext (jobLoad_skippingFolder [1]) rfl) (by decide +kernel)
  refine ⟨again, loaded, same.mpr ?_⟩
  rw [bitmapIn_skippingFolder]
  rintro s p after _ ⟨item, at', _⟩
  have inside : p < 3 := (List.getElem?_eq_some_iff.mp at').1
  interval_cases p
  · omega
  · decide
  · decide

theorem progress_lost_after_skipped :
    (jobLoad (failingAt []) (jobPath "j".toList) (skippingFolder [4])).1 =
        some (skippingJob [4]) ∧
      (jobWriteProgress (failingAt []) (skippingJob [4]) (jobPath "j".toList)
        (jobProgressSnapshot (skippingJob [4]))
        (jobLoad (failingAt []) (jobPath "j".toList) (skippingFolder [4])).2).1 = true ∧
      (jobLoad (failingAt []) (jobPath "j".toList)
        (jobWriteProgress (failingAt []) (skippingJob [4]) (jobPath "j".toList)
          (jobProgressSnapshot (skippingJob [4]))
          (jobLoad (failingAt []) (jobPath "j".toList) (skippingFolder [4])).2).2).1 =
        some (skippingJob [0]) ∧
      (skippingJob [4]).files ≠ (skippingJob [0]).files := by
  refine ⟨jobLoad_skippingFolder [4], ?_, ?_, ?_⟩
  · decide +kernel
  · decide +kernel
  · decide +kernel

end NzbDownloader.Queue.Persist
