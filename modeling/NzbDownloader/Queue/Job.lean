import Mathlib.Data.List.Lookmap
import NzbDownloader.Util.Name

/-!
# Jobs and the requests on them

The job record of `queue/job.h`, as far as the worker threads and the queue's
request handlers read it, and the state changes of `queue/queue.c`.
-/

namespace NzbDownloader.Queue

open Util

inductive JobState
  | queued
  | downloading
  | paused
  | verifying
  | repairing
  | extracting
  | completed
  | failed
  | cancelled
  deriving DecidableEq, Repr

def JobState.active : JobState → Bool
  | .downloading | .verifying | .repairing | .extracting => true
  | _ => false

structure Segment where
  messageId : String
  downloaded : Bool
  deriving DecidableEq, Repr

structure JobFile where
  filename : Name
  segments : List Segment
  deriving DecidableEq, Repr

def jobFileIsPar2Volume (name : Name) : Bool :=
  let start := beforeDigits (name.rdrop 5)
  let before := start.dropLast
  hasSuffixCi name ".par2".toList ∧ endDigits (name.rdrop 5) ≠ [] ∧ start.getLast? = some '+' ∧
    endDigits before ≠ [] ∧ hasSuffixCi (beforeDigits before) ".vol".toList

example : ["a.vol03+4.PAR2", "a.par2", "a.vol+4.par2", "vol3+4.par2"].map
    (fun name => jobFileIsPar2Volume name.toList) = [true, false, false, false] := by
  decide

def JobFile.volume (file : JobFile) : Bool :=
  jobFileIsPar2Volume file.filename

def segmentAt (files : List JobFile) (f i : ℕ) : Option Segment :=
  files[f]?.bind (·.segments[i]?)

/-- A loop of `job_mark_segment_downloaded`, which stops where it marks. -/
def markFirst {α : Type} (hit : α → Bool) (mark : α → α) (items : List α) : List α :=
  items.lookmap fun item => if hit item then some (mark item) else none

structure Job where
  state : JobState
  busy : Bool
  retriesUsed : ℕ
  files : List JobFile
  deriving DecidableEq, Repr

namespace Job

def setState (job : Job) (state : JobState) : Job :=
  { job with state }

def setBusy (job : Job) (busy : Bool) : Job :=
  { job with busy }

def stopped (job : Job) : Bool :=
  job.state = .paused ∨ job.state = .cancelled

def wasCancelled (job : Job) : Bool :=
  job.state = .cancelled

def failOrRetry (maxRetries : ℕ) (job : Job) : Job :=
  if job.retriesUsed < maxRetries then
    { job with retriesUsed := job.retriesUsed + 1, state := .queued }
  else job.setState .failed

def markSegments (messageId : String) : List Segment → List Segment :=
  markFirst (·.messageId = messageId) fun segment => { segment with downloaded := true }

def markFiles (messageId : String) : List JobFile → List JobFile :=
  markFirst (·.segments.any (·.messageId = messageId)) fun file =>
    { file with segments := markSegments messageId file.segments }

def markSegmentDownloaded (job : Job) (messageId : String) : Job :=
  { job with files := markFiles messageId job.files }

def segment? (job : Job) (f i : ℕ) : Option Segment :=
  segmentAt job.files f i

/-- The completeness check of `download_job`: every segment of every file that
is not a recovery volume has arrived. -/
def contentComplete (job : Job) : Bool :=
  job.files.all fun file => file.volume || file.segments.all (·.downloaded)

def removable (job : Job) : Bool :=
  !(job.state.active || job.busy)

end Job

inductive Request
  | pause
  | resume
  | cancel
  | retry
  deriving DecidableEq, Repr

/-- `queue_pause_job`, `queue_resume_job`, `queue_cancel_job` and
`queue_retry_job`; `none` if the job's state does not admit the request. -/
def Request.apply (job : Job) : Request → Option Job
  | .pause =>
      if job.state ≠ .queued ∧ job.state ≠ .downloading then none
      else some (job.setState .paused)
  | .resume => if job.state ≠ .paused then none else some (job.setState .queued)
  | .cancel =>
      if job.state = .completed ∨ job.state = .cancelled then none
      else some (job.setState .cancelled)
  | .retry =>
      if job.state ≠ .failed ∧ job.state ≠ .cancelled then none
      else some { job with retriesUsed := 0, state := .queued }

def Request.cancelsPool : Request → Bool
  | .pause | .cancel => true
  | .resume | .retry => false

section Admission

variable {request : Request} {job job' : Job}

theorem Request.state_of_stop (stops : request.cancelsPool = true)
    (admitted : request.apply job = some job') :
    job'.state = .paused ∨ job'.state = .cancelled := by
  cases request with
  | pause =>
    simp only [apply, Option.ite_none_left_eq_some] at admitted
    cases admitted.2
    exact .inl rfl
  | cancel =>
    simp only [apply, Option.ite_none_left_eq_some] at admitted
    cases admitted.2
    exact .inr rfl
  | resume | retry => contradiction

theorem Request.state_of_lift (lifts : request.cancelsPool = false)
    (admitted : request.apply job = some job') :
    job.state = .paused ∨ job.state = .failed ∨ job.state = .cancelled := by
  cases request with
  | pause | cancel => contradiction
  | resume =>
    simp only [apply, Option.ite_none_left_eq_some, not_not] at admitted
    exact .inl admitted.1
  | retry =>
    simp only [apply, Option.ite_none_left_eq_some, not_and_or, not_not] at admitted
    exact .inr admitted.1

theorem Request.apply_completed (request : Request) (completed : job.state = .completed) :
    request.apply job = none := by
  cases request <;> simp [apply, completed]

theorem Request.files_of_apply (admitted : request.apply job = some job') :
    job'.files = job.files := by
  cases request <;> simp only [apply, Option.ite_none_left_eq_some] at admitted <;>
    cases admitted.2 <;> rfl

end Admission

end NzbDownloader.Queue
