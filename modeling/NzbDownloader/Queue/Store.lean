import Mathlib.Algebra.Group.Int.Defs
import Mathlib.Algebra.Group.Nat.Defs
import NzbDownloader.Storage.Layout
import NzbDownloader.Lib.Folder
import NzbDownloader.Lib.Transition

/-!
# The queue and its directory

The queue of `queue/queue.c`: the jobs in memory in their order, and the files in
which `queue/job.c` keeps them, `<id>.json` with the header, `<id>.segments` with
the files and segments, and `<id>.progress` with the bitmap.  A file is modelled
as the data that cJSON prints into it and parses from it.
-/

namespace NzbDownloader.Queue

open Lib Util Storage List

structure QueueJob extends JobRecord where
  priority : ℤ
  lastError : Name
  deriving DecidableEq, Repr

abbrev Outline := List (Name × List String)

def JobFile.outline (file : JobFile) : Name × List String :=
  (file.filename, file.segments.map (·.messageId))

def filesFrom (bitmap : List Bool) : ℕ → Outline → List JobFile
  | _, [] => []
  | k, (filename, ids) :: rest =>
      ⟨filename, ids.mapIdx fun i id => ⟨id, bitmap.getD (k + i) false⟩⟩ ::
        filesFrom bitmap (k + ids.length) rest

structure NewJob where
  id : Name
  name : Name
  outputDir : Option Path
  files : Outline
  deriving DecidableEq, Repr

def NewJob.create (new : NewJob) : QueueJob where
  id := new.id
  name := pathSanitizeComponent new.name
  outputDir := new.outputDir
  state := .queued
  busy := false
  retriesUsed := 0
  files := filesFrom [] 0 new.files
  priority := 0
  lastError := []

def jobStateName : JobState → String
  | .queued => "queued"
  | .downloading => "downloading"
  | .paused => "paused"
  | .verifying => "verifying"
  | .repairing => "repairing"
  | .extracting => "extracting"
  | .completed => "completed"
  | .failed => "failed"
  | .cancelled => "cancelled"

def jobStateFromName (name : String) : JobState :=
  if name = "queued" then .queued
  else if name = "downloading" then .downloading
  else if name = "paused" then .paused
  else if name = "verifying" then .verifying
  else if name = "repairing" then .repairing
  else if name = "extracting" then .extracting
  else if name = "completed" then .completed
  else if name = "failed" then .failed
  else if name = "cancelled" then .cancelled
  else .queued

structure Header where
  id : Name
  name : Name
  state : String
  priority : ℤ
  retriesUsed : ℕ
  lastError : Name
  outputDir : Option Path
  deriving DecidableEq, Repr

inductive DirFile where
  | header (fields : Header)
  | segments (files : Outline)
  | progress (bitmap : List Bool)
  | garbage
  deriving DecidableEq, Repr

def DirFile.header? : DirFile → Option Header
  | .header fields => some fields
  | .segments _ => some ⟨[], [], "queued", 0, 0, [], none⟩
  | .progress _ | .garbage => none

def DirFile.bitmap : DirFile → List Bool
  | .progress bitmap => bitmap
  | _ => []

abbrev QueueDir := Folder Name DirFile

abbrev QueueEnv := Faults DirFile

def hasSuffix (name suffix : Name) : Bool :=
  suffix.isSuffixOf name

def tmpSuffix : Name := ".tmp".toList

def jsonSuffix : Name := ".json".toList

def segmentsSuffix : Name := ".segments".toList

def progressSuffix : Name := ".progress".toList

def jobPath (id : Name) : Name :=
  id ++ jsonSuffix

def jobSidecarPath (path suffix : Name) : Name :=
  if hasSuffix path jsonSuffix then path.rdrop jsonSuffix.length ++ suffix else path ++ suffix

section Names

variable {id other name stem : Name}

theorem hasSuffix_append (stem suffix : Name) : hasSuffix (stem ++ suffix) suffix = true :=
  isSuffixOf_iff_suffix.mpr (suffix_append stem suffix)

theorem not_hasSuffix_append {ending suffix : Name} (nonempty : ending ≠ []) (nonempty' : suffix ≠ [])
    (different : ending.getLast? ≠ suffix.getLast?) : hasSuffix (stem ++ ending) suffix = false := by
  apply Bool.eq_false_iff.mpr
  intro suffixed
  obtain ⟨front, same⟩ := isSuffixOf_iff_suffix.mp suffixed
  have lasts := congrArg getLast? same
  rw [getLast?_append_of_ne_nil _ nonempty', getLast?_append_of_ne_nil _ nonempty] at lasts
  exact different lasts.symm

theorem append_ne_append {ending suffix : Name} (nonempty : ending ≠ []) (nonempty' : suffix ≠ [])
    (different : ending.getLast? ≠ suffix.getLast?) : stem ++ ending ≠ other ++ suffix := by
  intro same
  have suffixed := hasSuffix_append other suffix
  rw [← same, not_hasSuffix_append nonempty nonempty' different] at suffixed
  contradiction

theorem jobSidecarPath_jobPath (id suffix : Name) : jobSidecarPath (jobPath id) suffix = id ++ suffix := by
  rw [jobSidecarPath, jobPath, if_pos (hasSuffix_append id jsonSuffix), rdrop_append_length]

def BelongsTo (name id : Name) : Prop :=
  name = jobPath id ∨ name = id ++ segmentsSuffix

theorem jobPath_ne_segments : jobPath id ≠ other ++ segmentsSuffix :=
  append_ne_append (by decide) (by decide) (by decide)

theorem BelongsTo.unique (first : BelongsTo name id) (second : BelongsTo name other) :
    id = other := by
  rcases first with rfl | rfl <;> rcases second with same | same
  · exact append_cancel_right same
  · exact absurd same jobPath_ne_segments
  · exact absurd same.symm jobPath_ne_segments
  · exact append_cancel_right same

theorem BelongsTo.not_tmp (belongs : BelongsTo name id) : hasSuffix name tmpSuffix = false := by
  rcases belongs with rfl | rfl
  · exact not_hasSuffix_append (by decide) (by decide) (by decide)
  · exact not_hasSuffix_append (by decide) (by decide) (by decide)

theorem BelongsTo.ne_progress (belongs : BelongsTo name id) : name ≠ other ++ progressSuffix := by
  rintro rfl
  rcases belongs with same | same
  · exact append_ne_append (by decide) (by decide) (by decide) same
  · have suffix := append_inj_right' same (by decide)
    contradiction

theorem BelongsTo.eq_jobPath (belongs : BelongsTo name id) (json : hasSuffix name jsonSuffix = true) :
    name = jobPath id := by
  rcases belongs with header | rfl
  · exact header
  · rw [not_hasSuffix_append (by decide) (by decide) (by decide)] at json
    contradiction

end Names

/-- What `job.c` puts into the files of a job of type `ι` and makes of them: a parsed
header is a job without files, and a parsed list of segments adds them, with the
bitmap if there is one. -/
structure JobFormat (γ ι : Type) where
  header : ι → γ
  segments : ι → γ
  loadHeader : γ → Option ι
  loadFiles : γ → Option (Option γ → ι → ι)

open JobFormat

section Files

variable {γ ι κ : Type} (env : Faults γ)

def jobWriteFile (path : Name) (data : γ) (dir : Folder Name γ) : Bool × Folder Name γ :=
  replaceFile env (path ++ tmpSuffix) path data dir

namespace JobFormat

variable (format : JobFormat γ ι)

def jobEnsureSegmentsSaved (job : ι) (path : Name) (dir : Folder Name γ) : Folder Name γ :=
  let sidecar := jobSidecarPath path segmentsSuffix
  if (dir.files sidecar).isSome then dir
  else (jobWriteFile env sidecar (format.segments job) dir).2

def jobSave (job : ι) (path : Name) (dir : Folder Name γ) : Bool × Folder Name γ :=
  jobWriteFile env path (format.header job) (format.jobEnsureSegmentsSaved env job path dir)

def jobLoadSegmentsAndProgress (path : Name) (job : ι) (dir : Folder Name γ) : ι × Folder Name γ :=
  let (segments, dir) := readFile env (jobSidecarPath path segmentsSuffix) dir
  match segments.bind format.loadFiles with
  | none => (job, dir)
  | some load =>
      let (progress, dir) := readFile env (jobSidecarPath path progressSuffix) dir
      (load progress job, dir)

def jobLoad (path : Name) (dir : Folder Name γ) : Option ι × Folder Name γ :=
  let (json, dir) := readFile env path dir
  match json.bind format.loadHeader with
  | none => (none, dir)
  | some job =>
      let (job, dir) := format.jobLoadSegmentsAndProgress env path job dir
      (some job, dir)

/-- An entry of the directory in `queue_open`; `room` is the call of `ensure_capacity`. -/
def openEntry (room : κ → Folder Name γ → Option κ × Folder Name γ) (add : κ → ι → κ)
    (state : κ × Folder Name γ) (entry : Name) : κ × Folder Name γ :=
  if hasSuffix entry tmpSuffix then (state.1, removeFile env entry state.2)
  else if !hasSuffix entry jsonSuffix then state
  else
    match room state.1 state.2 with
    | (none, dir) => (state.1, dir)
    | (some jobs, dir) =>
        match format.jobLoad env entry dir with
        | (none, dir) => (jobs, dir)
        | (some job, dir) => (add jobs job, dir)

/-- The job that is loaded when no call fails. -/
def loaded (files : Name → Option γ) (stem : Name) : Option ι :=
  ((files (jobPath stem)).bind format.loadHeader).map fun job =>
    (((files (stem ++ segmentsSuffix)).bind format.loadFiles).map fun load =>
      load (files (stem ++ progressSuffix)) job).getD job

end JobFormat

variable {env} {format : JobFormat γ ι} {path name stem : Name} {data : γ} {dir : Folder Name γ}

theorem jobWriteFile_of_ne (notPath : name ≠ path) (notTmp : hasSuffix name tmpSuffix = false) :
    (jobWriteFile env path data dir).2.files name = dir.files name := by
  refine replaceFile_of_ne ?_ notPath
  rintro rfl
  rw [hasSuffix_append] at notTmp
  contradiction

theorem jobWriteFile_succeeds (succeeds : (jobWriteFile env path data dir).1 = true) :
    (jobWriteFile env path data dir).2.files path = some data := by
  rw [jobWriteFile, replaceFile_succeeds succeeds, Function.update_self]

theorem jobLoad_files (format : JobFormat γ ι) (env : Faults γ) (path : Name)
    (dir : Folder Name γ) : (format.jobLoad env path dir).2.files = dir.files := by
  unfold jobLoad jobLoadSegmentsAndProgress readFile
  dsimp only
  split
  · rfl
  · split <;> rfl

theorem jobLoad_calm (calm : env.Calm) :
    (format.jobLoad env (jobPath stem) dir).1 = format.loaded dir.files stem := by
  simp only [jobLoad, jobLoadSegmentsAndProgress, readFile_calm calm,
    jobSidecarPath_jobPath, loaded]
  cases (dir.files (jobPath stem)).bind format.loadHeader with
  | none => rfl
  | some job => cases (dir.files (stem ++ segmentsSuffix)).bind format.loadFiles <;> rfl

end Files

def QueueJob.header (job : QueueJob) : Header where
  id := job.id
  name := job.name
  state := jobStateName job.state
  priority := job.priority
  retriesUsed := job.retriesUsed
  lastError := job.lastError
  outputDir := job.outputDir

def Header.job (fields : Header) : QueueJob where
  id := fields.id
  name := fields.name
  outputDir := fields.outputDir
  state := jobStateFromName fields.state
  busy := false
  retriesUsed := fields.retriesUsed
  files := []
  priority := fields.priority
  lastError := fields.lastError

def outlineFormat : JobFormat DirFile QueueJob where
  header job := .header job.header
  segments job := .segments (job.files.map (·.outline))
  loadHeader file := file.header?.map Header.job
  loadFiles
    | .segments files => some fun progress job =>
        { job with files := filesFrom ((progress.map DirFile.bitmap).getD []) 0 files }
    | .header _ => some fun _ job => job
    | .progress _ | .garbage => none

def jobSave (env : QueueEnv) : QueueJob → Name → QueueDir → Bool × QueueDir :=
  outlineFormat.jobSave env

def jobLoad (env : QueueEnv) : Name → QueueDir → Option QueueJob × QueueDir :=
  outlineFormat.jobLoad env

structure JobQueue where
  jobs : List QueueJob
  capacity : ℕ

def wrapInt (n : ℤ) : ℤ :=
  n.bmod (2 ^ 32)

def strcmp : Name → Name → ℤ
  | [], [] => 0
  | [], _ :: _ => -1
  | _ :: _, [] => 1
  | a :: rest, b :: rest' => if a = b then strcmp rest rest' else if a < b then -1 else 1

def jobPriorityCmp (a b : QueueJob) : ℤ :=
  if a.priority ≠ b.priority then wrapInt (a.priority - b.priority) else strcmp a.id b.id

def memmove {α : Type} (slots : List α) (dst src n : ℕ) : List α :=
  slots.take dst ++ (slots.drop src).take n ++ slots.drop (dst + n)

def renumberPriorities (jobs : List QueueJob) : List QueueJob :=
  jobs.mapIdx fun i job => { job with priority := wrapInt i }

def QueueJob.requeued (job : QueueJob) : QueueJob :=
  { job with state := if job.state.active then .queued else job.state }

def JobQueue.indexOf (q : JobQueue) (id : Name) : ℕ :=
  q.jobs.findIdx (·.id = id)

def JobQueue.nextPriority (q : JobQueue) : ℤ :=
  match q.jobs.getLast? with
  | some last => wrapInt (last.priority + 1)
  | none => 0

section Operations

variable (env : QueueEnv)

def ensureCapacity (q : JobQueue) (dir : QueueDir) : Option JobQueue × QueueDir :=
  if q.jobs.length < q.capacity then (some q, dir)
  else
    (if env.fails dir.clock then none
      else some { q with capacity := if q.capacity = 0 then 16 else q.capacity * 2 },
      ⟨dir.files, dir.clock + 1⟩)

def loadEntries (entries : List Name) (q : JobQueue) (dir : QueueDir) : JobQueue × QueueDir :=
  entries.foldl (outlineFormat.openEntry env (ensureCapacity env)
    fun q job => { q with jobs := q.jobs ++ [job.requeued] }) (q, dir)

def queueOpen (qsort : (QueueJob → QueueJob → ℤ) → List QueueJob → List QueueJob)
    (entries : List Name) (dir : QueueDir) : Option JobQueue × QueueDir :=
  if env.fails dir.clock then (none, ⟨dir.files, dir.clock + 1⟩)
  else
    let (q, dir) := loadEntries env entries ⟨[], 0⟩ ⟨dir.files, dir.clock + 1⟩
    (some { q with jobs := qsort jobPriorityCmp q.jobs }, dir)

def queueSaveJob (job : QueueJob) (dir : QueueDir) : Bool × QueueDir :=
  jobSave env job (jobPath job.id) dir

def queueAddJob (job : QueueJob) (q : JobQueue) (dir : QueueDir) : Bool × JobQueue × QueueDir :=
  let job := { job with priority := q.nextPriority }
  match queueSaveJob env job dir with
  | (false, dir) => (false, q, dir)
  | (true, dir) =>
      match ensureCapacity env q dir with
      | (none, dir) => (false, q, dir)
      | (some q, dir) => (true, { q with jobs := q.jobs ++ [job] }, dir)

def queueRemoveJob (id : Name) (q : JobQueue) (dir : QueueDir) : ℤ × JobQueue × QueueDir :=
  let i := q.indexOf id
  match q.jobs[i]? with
  | none => (-1, q, dir)
  | some job =>
      if !job.removable then (-2, q, dir)
      else
        let path := jobPath id
        let dir := removeFile env path dir
        let dir := removeFile env (jobSidecarPath path segmentsSuffix) dir
        let dir := removeFile env (jobSidecarPath path progressSuffix) dir
        (0, { q with
          jobs := (memmove q.jobs i (i + 1) (q.jobs.length - i - 1)).take (q.jobs.length - 1) },
          dir)

def moveJob (jobs : List QueueJob) (job : QueueJob) (oldIndex newIndex : ℕ) : List QueueJob :=
  let jobs := memmove jobs oldIndex (oldIndex + 1) (jobs.length - oldIndex - 1)
  let jobs := memmove jobs (newIndex + 1) newIndex (jobs.length - newIndex - 1)
  jobs.set newIndex job

/-- `queue_reorder_job`; whether it returned `0`.  It ignores what
`queue_save_job` returns. -/
def queueReorderJob (id : Name) (newIndex : ℕ) (q : JobQueue) (dir : QueueDir) :
    Bool × JobQueue × QueueDir :=
  match q.jobs[q.indexOf id]? with
  | none => (false, q, dir)
  | some job =>
      if newIndex ≥ q.jobs.length then (false, q, dir)
      else
        let jobs := renumberPriorities (moveJob q.jobs job (q.indexOf id) newIndex)
        (true, { q with jobs := jobs },
          jobs.foldl (fun dir job => (queueSaveJob env job dir).2) dir)

def changeAndSave (i : ℕ) (job : QueueJob) (q : JobQueue) (dir : QueueDir) :
    Bool × JobQueue × QueueDir :=
  let (saved, dir) := queueSaveJob env job dir
  (saved, { q with jobs := q.jobs.set i job }, dir)

def QueueJob.request (job : QueueJob) (request : Request) : Option QueueJob :=
  (request.apply job.toJob).map fun changed =>
    { job with
      toJob := changed
      lastError := if request = .retry then [] else job.lastError }

/-- `queue_pause_job`, `queue_resume_job`, `queue_cancel_job` and
`queue_retry_job`; whether they returned `0`. -/
def queueRequestJob (id : Name) (request : Request) (q : JobQueue) (dir : QueueDir) :
    Bool × JobQueue × QueueDir :=
  match q.jobs[q.indexOf id]? with
  | none => (false, q, dir)
  | some job =>
      match job.request request with
      | none => (false, q, dir)
      | some changed => changeAndSave env (q.indexOf id) changed q dir

end Operations

structure QueueState where
  queue : JobQueue
  dir : QueueDir
  added : ℕ

inductive QueueOp
  | add (new : NewJob)
  | remove (id : Name)
  | reorder (id : Name) (newIndex : ℕ)
  | request (id : Name) (request : Request)
  | worker (id : Name) (state : JobState) (busy : Bool) (retriesUsed : ℕ) (lastError : Name)

def QueueState.after (s : QueueState) {α : Type} (result : α × JobQueue × QueueDir) : QueueState :=
  { s with queue := result.2.1, dir := result.2.2 }

def queueStep (env : QueueEnv) (s : QueueState) : QueueOp → Option QueueState
  | .add new =>
      some { s.after (queueAddJob env new.create s.queue s.dir) with added := s.added + 1 }
  | .remove id => some (s.after (queueRemoveJob env id s.queue s.dir))
  | .reorder id newIndex => some (s.after (queueReorderJob env id newIndex s.queue s.dir))
  | .request id request => some (s.after (queueRequestJob env id request s.queue s.dir))
  | .worker id state busy retriesUsed lastError =>
      (s.queue.jobs[s.queue.indexOf id]?).map fun job =>
        s.after (changeAndSave env (s.queue.indexOf id)
          { job with state, busy, retriesUsed, lastError } s.queue s.dir)

def QueueState.start : QueueState :=
  ⟨⟨[], 0⟩, ⟨fun _ => none, 0⟩, 0⟩

def Admitted (s : QueueState) : QueueOp → Prop
  | .add new => (∀ job ∈ s.queue.jobs, job.id ≠ new.id) ∧ s.added + 1 < 2 ^ 31
  | _ => True

instance (s : QueueState) (op : QueueOp) : Decidable (Admitted s op) :=
  match op with
  | .add new => inferInstanceAs (Decidable ((∀ job ∈ s.queue.jobs, job.id ≠ new.id) ∧ _))
  | .remove _ | .reorder .. | .request .. | .worker .. => .isTrue trivial

end NzbDownloader.Queue
