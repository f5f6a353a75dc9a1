import NzbDownloader.Lib.Writers
import NzbDownloader.Queue.Marking
import NzbDownloader.Queue.RoundTrip

/-!
# One job, its worker threads and crashes

A job in memory, the threads of `download/download.c` that mark its segments and
save it, and the files of `queue/job.c` up to each single call on them.  The
process may stop at any point and is then started again with `queue_open`.

Locks other than the one of `job_write_file` are left out where that only allows
more interleavings: marking a segment, taking a snapshot and reading the header
are single steps.
-/

namespace NzbDownloader.Queue.Persist

open Lib Util

def markSegments (messageId : Name) : List SegmentData → List SegmentData :=
  markFirst (·.messageId = messageId) fun segment => { segment with downloaded := true }

theorem totalBytes_eq (segments : List SegmentData) :
    totalBytes segments =
      (segments.map (·.bytes)).foldl (fun total bytes => wrapLong (total + bytes)) 0 := by
  rw [totalBytes, List.foldl_map]

theorem markSegments_bytes (messageId : Name) (segments : List SegmentData) :
    (markSegments messageId segments).map (·.bytes) = segments.map (·.bytes) :=
  map_markFirst (by intro _; rfl) segments

def FileData.mark (file : FileData) (messageId : Name) : FileData where
  filename := file.filename
  subject := file.subject
  segments := markSegments messageId file.segments
  bytes := file.bytes
  bytes_eq := by rw [file.bytes_eq, totalBytes_eq, totalBytes_eq, markSegments_bytes]

def markFiles (messageId : Name) : List FileData → List FileData :=
  markFirst (·.segments.any (·.messageId = messageId)) fun file => file.mark messageId

def jobMarkSegmentDownloaded (job : JobData) (messageId : Name) : JobData :=
  { job with files := markFiles messageId job.files }

def contentComplete (files : List FileData) : Bool :=
  files.all fun file => jobFileIsPar2Volume file.filename || file.segments.all (·.downloaded)

def jobSegmentProgress (files : List FileData) : ℕ × ℕ :=
  let counted := files.filter fun file =>
    !jobFileIsPar2Volume file.filename || file.segments.any (·.downloaded)
  ((counted.map (·.segments.length)).sum,
    (counted.map fun file => file.segments.countP (·.downloaded)).sum)

def JobData.requeued (job : JobData) : JobData :=
  { job with state := if job.state.active then .queued else job.state }

section Open

variable (env : Faults Document)

def openEntry : List JobData × Folder Name Document → Name → List JobData × Folder Name Document :=
  treeFormat.openEntry env (fun jobs dir => (some jobs, dir)) fun jobs job => jobs ++ [job.requeued]

def queueOpen (entries : List Name) (files : Name → Option Document) :
    List JobData × Folder Name Document :=
  entries.foldl (openEntry env) ([], ⟨files, 0⟩)

end Open

def calmly : Faults Document :=
  ⟨fun _ => false, .raw []⟩

def reopened (files : Name → Option Document) (path : Name) : Option JobData :=
  (jobLoad calmly path ⟨files, 0⟩).1.map JobData.requeued

abbrev JobWrite := Replacement Name Document

inductive Save
  | header (job : JobData)
  | progress (bitmap : Bytes)
  deriving DecidableEq

inductive Phase
  | idle
  | marked
  | due
  | ensuring (save : Save)
  | saving
  deriving DecidableEq

inductive Course
  | resting
  | fetching
  | recovering
  | handed
  deriving DecidableEq

structure CrashState (τ : Type) where
  memory : JobData
  disk : Writers Name Document τ
  phase : τ → Phase
  pending : List τ
  course : Course
  sinceCheckpoint : ℕ
  lastCheckpointMs : ℤ

def dlCheckpointInterval : ℕ := 25

def dlCheckpointMinIntervalMs : ℤ := 2000

structure Crash where
  keep : Name → ℕ
  torn : Name → Option Document

def Crash.files {τ : Type} (crash : Crash) (disk : Writers Name Document τ) (name : Name) :
    Option Document :=
  if hasSuffix name tmpSuffix then crash.torn name else disk.crash crash.keep name

inductive CrashEvent (τ : Type)
  | start (now : ℤ)
  | mark (t : τ) (messageId : Name)
  | count (t : τ) (now : ℤ)
  | snapshot (t : τ)
  | change (header : JobData)
  | save (t : τ)
  /-- `download_segments` has returned and `download_job` finds the content complete. -/
  | check
  | handOver
  | complete (t : τ) (header : JobData)
  | leave
  | access (t : τ)
  | write (step : WriterStep τ)
  | done (t : τ)
  | other (name : Name) (content : Option Document)
  | restart (crash : Crash) (entries : List Name)

def ownNames (stem : Name) : List Name :=
  [jobPath stem, stem ++ segmentsSuffix, stem ++ progressSuffix]

def tmpName (name : Name) : Name :=
  name ++ tmpSuffix

def Save.write (stem : Name) : Save → JobWrite
  | .header job => ⟨jobPath stem, .json (jobHeaderTree job)⟩
  | .progress bitmap => ⟨stem ++ progressSuffix, .raw bitmap⟩

def segmentsWrite (stem : Name) (job : JobData) : JobWrite :=
  ⟨stem ++ segmentsSuffix, .json (jobSegmentsTree job)⟩

section Step

variable {τ : Type} [DecidableEq τ]

def CrashState.setPhase (s : CrashState τ) (t : τ) (phase : Phase) : CrashState τ :=
  { s with phase := Function.update s.phase t phase }

def CrashState.finish (s : CrashState τ) (t : τ) : CrashState τ :=
  { s.setPhase t .idle with pending := s.pending.filter (· ≠ t) }

def CrashState.writesOf (s : CrashState τ) (stem : Name) (save : Save) : List JobWrite :=
  if (s.disk.files (stem ++ segmentsSuffix)).isSome then [save.write stem]
  else [segmentsWrite stem s.memory, save.write stem]

def JobData.withHeader (job header : JobData) : JobData :=
  { header with files := job.files }

def crashStep (stem : Name) (s : CrashState τ) : CrashEvent τ → Option (CrashState τ)
  | .start now =>
      if s.course = .resting ∧ s.memory.state = .queued then
        some { s with
          memory := { s.memory with state := .downloading }
          course := .fetching
          sinceCheckpoint := 0
          lastCheckpointMs := now }
      else none
  | .mark t messageId =>
      if s.phase t = .idle ∧ (s.course = .fetching ∨ s.course = .recovering) then
        some { s.setPhase t .marked with
          memory := jobMarkSegmentDownloaded s.memory messageId
          pending := t :: s.pending }
      else none
  | .count t now =>
      if s.phase t = .marked then
        if s.sinceCheckpoint + 1 ≥ dlCheckpointInterval ∧
            now - s.lastCheckpointMs ≥ dlCheckpointMinIntervalMs then
          some { s.setPhase t .due with sinceCheckpoint := 0, lastCheckpointMs := now }
        else some { s.finish t with sinceCheckpoint := s.sinceCheckpoint + 1 }
      else none
  | .snapshot t =>
      if s.phase t = .due then some (s.setPhase t (.ensuring (.progress (jobProgressSnapshot s.memory))))
      else none
  | .change header =>
      if header.state ≠ .completed then some { s with memory := s.memory.withHeader header }
      else none
  | .save t =>
      if s.phase t = .idle then some (s.setPhase t (.ensuring (.header s.memory)))
      else none
  | .check =>
      if s.course = .fetching ∧ s.pending = [] ∧ contentComplete s.memory.files then
        some { s with course := .recovering }
      else none
  | .handOver =>
      if s.course = .recovering ∧ s.pending = [] then some { s with course := .handed } else none
  | .complete t header =>
      if s.course = .handed ∧ s.phase t = .idle then
        let memory := s.memory.withHeader { header with state := .completed }
        some { s.setPhase t (.ensuring (.header memory)) with
          memory := memory
          course := .resting }
      else none
  | .leave => if s.pending = [] then some { s with course := .resting } else none
  | .access t =>
      match s.phase t with
      | .ensuring save =>
          some { s.setPhase t .saving with disk := s.disk.assign t (s.writesOf stem save) }
      | _ => none
  | .write step => (s.disk.step tmpName (.raw []) step).map fun disk => { s with disk := disk }
  | .done t => if s.phase t = .saving ∧ s.disk.todo t = [] then some (s.finish t) else none
  | .other name content =>
      if name ∈ ownNames stem ∨ name ∈ (ownNames stem).map tmpName then none
      else some { s with disk := s.disk.put name content }
  | .restart crash entries =>
      if jobPath stem ∈ entries then
        (reopened (crash.files s.disk) (jobPath stem)).map fun job =>
          { memory := job
            disk := .starting (queueOpen calmly entries (crash.files s.disk)).2.files
            phase := fun _ => .idle
            pending := []
            course := .resting
            sinceCheckpoint := 0
            lastCheckpointMs := 0 }
      else none

structure CrashState.New (stem : Name) (job : JobData) (s : CrashState τ) : Prop where
  memory : s.memory = job
  disk : ∃ files, s.disk = .starting files ∧ ∀ name ∈ ownNames stem, files name = none
  phase : ∀ t, s.phase t = .idle
  pending : s.pending = []
  course : s.course = .resting

end Step

end NzbDownloader.Queue.Persist
