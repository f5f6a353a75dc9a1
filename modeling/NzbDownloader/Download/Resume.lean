import NzbDownloader.Lib.ByteFile
import NzbDownloader.Lib.Transition
import NzbDownloader.Queue.Marking
import NzbDownloader.Download.Finalize

/-!
# What survives a restart

A job's `downloaded` flags live in memory and in its `.progress` bitmap, the
bytes they stand for in files below `temp_dir`.  The events below are all that
touches either side: fetches, PAR2 repair, requests, state changes by the worker
threads, finalization, new settings and a restart of the process.
-/

namespace NzbDownloader.Download

open Util Queue Storage Lib List Disk

structure Stored where
  record : JobRecord
  savedState : JobState
  progress : ℕ → ℕ → Bool
  checkpoints : List (ℕ → ℕ → Bool)
  opened : ℕ → Option Path

structure Store where
  config : StorageConfig
  savedConfig : StorageConfig
  jobs : List Stored
  disk : Disk Name Bytes

def openJobFile (permits : Path → Bool) (dir path : Path) (disk : Disk Name Bytes) :
    Bool × Disk Name Bytes :=
  match disk.mkdirP permits dir with
  | (false, disk) => (false, disk)
  | (true, disk) =>
      if (disk.file path).isSome then (true, disk)
      else
        match disk.write path [] with
        | none => (false, disk)
        | some disk => (true, disk)

/-- `pwrite` to a file opened at this path.  If the file was removed since, the
bytes are at no path. -/
def pwrite (path : Path) (part : Extent) (disk : Disk Name Bytes) : Disk Name Bytes :=
  match disk.file path with
  | none => disk
  | some content => disk.put path (writeAt content part.offset part.data)

def repairWrite (path : Path) (part : Extent) (disk : Disk Name Bytes) : Disk Name Bytes :=
  disk.put path (writeAt ((disk.file path).getD []) part.offset part.data)

def truncate (path : Path) (length : ℕ) (disk : Disk Name Bytes) : Disk Name Bytes :=
  match disk.file path with
  | none => disk
  | some content => disk.put path (setLength content length)

def sweepOrphanedTempDirs (tempDir : Path) (ids : List Name) :
    List Name → Disk Name Bytes → Disk Name Bytes
  | [], disk => disk
  | name :: rest, disk =>
      if name.head? = some '.' ∨ name ∈ ids then sweepOrphanedTempDirs tempDir ids rest disk
      else sweepOrphanedTempDirs tempDir ids rest (disk.removeTree (tempDir ++ [name]))

def Stored.setState (st : Stored) (state : JobState) (saved : Bool) : Stored :=
  { st with
    record := { st.record with state }
    savedState := if saved then state else st.savedState }

def restoreFlags (flags : ℕ → ℕ → Bool) (files : List JobFile) : List JobFile :=
  files.mapIdx fun f file => { file with
    segments := file.segments.mapIdx fun i segment => { segment with downloaded := flags f i } }

def Stored.queueOpen (st : Stored) : Stored :=
  { st with
    record := { st.record with
      state := if st.savedState.active then .queued else st.savedState
      busy := false
      files := restoreFlags st.progress st.record.files }
    checkpoints := []
    opened := fun _ => none }

inductive JobEvent
  | openFile (f : ℕ) (permits : Path → Bool)
  | segmentDone (f i : ℕ)
  | spill (f : ℕ) (part : Extent)
  | closeFile (f : ℕ)
  | checkpoint
  /-- `queue_write_job_progress` of a snapshot; an older one may be written last. -/
  | saveProgress (n : ℕ)
  | repair (f : ℕ) (part : Extent)
  | truncate (f length : ℕ)
  | request (request : Request) (saved : Bool)
  | worker (state : JobState) (saved : Bool)

section Step

variable (decoded : String → Extent)

/-- One event of a job; `decoded` is what the article of a message id decodes to,
within the range it declares. -/
def jobStep (config : StorageConfig) (disk : Disk Name Bytes) (st : Stored) :
    JobEvent → Option (Stored × Disk Name Bytes)
  | .openFile f permits => do
      let file ← st.record.files[f]?
      if st.opened f = none then
        let path := jobFilePath config st.record file
        match openJobFile permits (jobTempDir config st.record) path disk with
        | (false, disk) => some (st, disk)
        | (true, disk) => some ({ st with opened := Function.update st.opened f (some path) }, disk)
      else none
  | .segmentDone f i => do
      let messageId ← idAt st.record.files f i
      let path ← st.opened f
      some ({ st with record := { st.record with
          toJob := st.record.toJob.markSegmentDownloaded messageId } },
        pwrite path (decoded messageId) disk)
  | .spill f part => do
      let path ← st.opened f
      some (st, pwrite path part disk)
  | .closeFile f => some ({ st with opened := Function.update st.opened f none }, disk)
  | .checkpoint =>
      some ({ st with checkpoints := arrivedAt st.record.files :: st.checkpoints }, disk)
  | .saveProgress n => do
      let progress ← st.checkpoints[n]?
      some ({ st with progress, checkpoints := st.checkpoints.eraseIdx n }, disk)
  | .repair f part => do
      let file ← st.record.files[f]?
      some (st, repairWrite (jobFilePath config st.record file) part disk)
  | .truncate f length => do
      let file ← st.record.files[f]?
      some (st, truncate (jobFilePath config st.record file) length disk)
  | .request request saved => do
      let job ← request.apply st.record.toJob
      some ({ st with
        record := { st.record with toJob := job }
        savedState := if saved then job.state else st.savedState }, disk)
  | .worker state saved => if state = .completed then none else some (st.setState state saved, disk)

inductive StoreEvent
  | job (k : ℕ) (event : JobEvent)
  | finalize (k : ℕ) (env : FinalizeEnv) (cancelled saved : Bool)
  | configure (config : StorageConfig) (saved : Bool)
  | restart (entries : List Name)

def storeStep (s : Store) : StoreEvent → Option Store
  | .job k event => do
      let st ← s.jobs[k]?
      let (st, disk) ← jobStep decoded s.config s.disk st event
      some { s with jobs := s.jobs.set k st, disk }
  | .finalize k env cancelled saved => do
      let st ← s.jobs[k]?
      let (ok, disk) := finalizeJob env s.config st.record s.disk
      let state := if ok then .completed else if cancelled then .cancelled else .failed
      some { s with jobs := s.jobs.set k (st.setState state saved), disk }
  | .configure config saved =>
      some { s with config, savedConfig := if saved then config else s.savedConfig }
  | .restart entries =>
      some { s with
        config := s.savedConfig
        jobs := s.jobs.map Stored.queueOpen
        disk := sweepOrphanedTempDirs s.savedConfig.tempDir (s.jobs.map (·.record.id)) entries
          s.disk }

end Step

variable {content : Bytes}

section Frame

variable {disk disk' : Disk Name Bytes} {path other : Path} {part : Extent}

theorem pwrite_file_of_ne (different : other ≠ path) :
    (pwrite path part disk).file other = disk.file other := by
  unfold pwrite
  split
  · rfl
  · exact put_file_of_ne different _

theorem repairWrite_file_of_ne (different : other ≠ path) :
    (repairWrite path part disk).file other = disk.file other :=
  put_file_of_ne different _

theorem truncate_file_of_ne {length : ℕ} (different : other ≠ path) :
    (truncate path length disk).file other = disk.file other := by
  unfold truncate
  split
  · rfl
  · exact put_file_of_ne different _

section

variable (found : disk.file path = some content)

include found

theorem pwrite_file_self :
    (pwrite path part disk).file path = some (writeAt content part.offset part.data) := by
  simp only [pwrite, found]
  exact put_file_self (disk.parent found) (disk.apart found) _

theorem repairWrite_file_self :
    (repairWrite path part disk).file path = some (writeAt content part.offset part.data) := by
  simp only [repairWrite, found]
  exact put_file_self (disk.parent found) (disk.apart found) _

theorem truncate_file_self {length : ℕ} :
    (truncate path length disk).file path = some (setLength content length) := by
  simp only [truncate, found]
  exact put_file_self (disk.parent found) (disk.apart found) _

end

theorem openJobFile_file {permits : Path → Bool} {dir : Path}
    (found : disk.file other = some content) :
    (openJobFile permits dir path disk).2.file other = some content := by
  have made := mkdirP_file permits disk dir
  unfold openJobFile
  split
  · rename_i failed
    rw [failed] at made
    rw [made, found]
  · rename_i made' created
    rw [created] at made
    split
    · rw [made, found]
    rename_i absent
    split
    · rw [made, found]
    rename_i written
    have different : other ≠ path := by
      rintro rfl
      rw [made, found] at absent
      exact absent rfl
    rw [(write_spec written).1, Function.update_of_ne different, made, found]

theorem sweepOrphanedTempDirs_file {tempDir : Path} {ids : List Name} {id name : Name}
    (known : id ∈ ids) (entries : List Name) (disk : Disk Name Bytes) :
    (sweepOrphanedTempDirs tempDir ids entries disk).file (tempDir ++ [id] ++ [name]) =
      disk.file (tempDir ++ [id] ++ [name]) := by
  induction entries generalizing disk with
  | nil => rfl
  | cons entry rest ih =>
    unfold sweepOrphanedTempDirs
    split
    · exact ih disk
    rename_i orphan
    rw [ih]
    refine removeTree_file_of_not_below (fun below => orphan (.inr ?_)) disk
    rw [append_assoc, prefix_append_right_inj, singleton_append,
      cons_prefix_cons] at below
    rw [below.1]
    exact known

end Frame

section Restore

variable {flags : ℕ → ℕ → Bool} {files : List JobFile} {f i : ℕ}

theorem segmentAt_restoreFlags : segmentAt (restoreFlags flags files) f i =
    (segmentAt files f i).map fun segment => { segment with downloaded := flags f i } := by
  unfold segmentAt restoreFlags
  rw [getElem?_mapIdx]
  cases files[f]? with
  | none => rfl
  | some file => simp [getElem?_mapIdx]

@[simp]
theorem restoreFlags_filename :
    (restoreFlags flags files).map (·.filename) = files.map (·.filename) := by
  apply ext_getElem?
  intro f
  simp only [restoreFlags, getElem?_map, getElem?_mapIdx]
  cases files[f]? <;> rfl

@[simp]
theorem idAt_restoreFlags : idAt (restoreFlags flags files) = idAt files := by
  funext f i
  rw [idAt, segmentAt_restoreFlags, idAt]
  cases segmentAt files f i <;> rfl

theorem flag_of_arrivedAt_restoreFlags (arrived : arrivedAt (restoreFlags flags files) f i) :
    flags f i = true := by
  rw [arrivedAt, segmentAt_restoreFlags] at arrived
  cases found : segmentAt files f i with
  | none => simp [found] at arrived
  | some segment => simpa [found] using arrived

end Restore

end NzbDownloader.Download
