import NzbDownloader.Lib.Transition
import NzbDownloader.Queue.Job

/-!
# The threads around the queue

One state of the running program: the queue and its job objects, the downloader
thread, the finalizer thread with its queue, the connection pool and the pending
pool cancellations of the request handlers.  A step is what one thread does
between two points where another thread can intervene: one region under
`queue_lock`, one test of the job's state, or one blocking call with its
outcome.  Steps that need a job object stop once the object has been freed.
-/

namespace NzbDownloader.Download

open Queue Function

abbrev JobRef := ℕ

inductive Phase
  | content
  | volumes
  deriving DecidableEq, Repr

inductive Pass
  | first
  | second
  deriving DecidableEq, Repr

inductive DlPoint
  | picked
  | reachable
  | started (phase : Phase)
  | opening (phase : Phase)
  | fileLoop (phase : Phase) (files : List ℕ)
  | segLoop (phase : Phase) (file : ℕ) (segs files : List ℕ)
  | segFetch (phase : Phase) (file seg : ℕ) (segs files : List ℕ)
  | waiting (phase : Phase)
  | fetched (phase : Phase)
  | stopping
  | counting
  | incomplete
  | complete
  | scanning (pass : Pass)
  | verifying (pass : Pass)
  | verified (pass : Pass) (ok : Bool)
  | damaged
  | refetching
  | repairReady
  | repairPrep
  | repairing
  | repairFailed
  | failing
  | failed
  | stopBusy
  | marking
  | passing
  deriving DecidableEq, Repr

inductive FinPoint
  | took
  | skipping
  | admitted
  | begun
  | extracting
  | extracted
  | installing
  | failing
  | failedCheck
  | failed
  | marking
  deriving DecidableEq, Repr

/-- What one step of `download_job` does: the job afterwards, where the thread
goes on (`none`: it returns), the segment handed to the pool, and whether the
job was put into the finalize queue. -/
structure DlEffect where
  job : Job
  next : Option DlPoint
  fetch : Option (ℕ × ℕ)
  enqueued : Bool
  deriving DecidableEq, Repr

def DlEffect.goto (job : Job) (point : DlPoint) : DlEffect :=
  ⟨job, some point, none, false⟩

def DlEffect.leave (job : Job) : DlEffect :=
  ⟨job, none, none, false⟩

def phaseFiles (files : List JobFile) (phase : Phase) : List ℕ :=
  (List.range files.length).filter fun f =>
    (files[f]?.map (·.volume)) == some (phase == .volumes)

def segIndices (files : List JobFile) (f : ℕ) : List ℕ :=
  List.range ((files[f]?.map (·.segments.length)).getD 0)

open DlEffect in
/-- One step of `download_job`.  `quiet` says that no fetch is outstanding, `ok`
is the outcome of the call at this point. -/
def dlStep (maxRetries : ℕ) (quiet : Bool) (job : Job) (ok : Bool) : DlPoint → Option DlEffect
  | .picked =>
      if ok then some (goto job .reachable) else some (leave (job.failOrRetry maxRetries))
  | .reachable =>
      if ok then some (goto (job.setState .downloading) (.started .content))
      else some (leave (job.setState .failed))
  | .started phase =>
      if ok then some (goto job (.opening phase)) else some (leave (job.setState .failed))
  | .opening phase =>
      some (goto job (if ok then .fileLoop phase (phaseFiles job.files phase) else .fetched phase))
  | .fileLoop phase [] => some (goto job (.waiting phase))
  | .fileLoop phase (f :: files) =>
      some (goto job
        (if job.stopped then .waiting phase else .segLoop phase f (segIndices job.files f) files))
  | .segLoop phase _ [] files => some (goto job (.fileLoop phase files))
  | .segLoop phase f (i :: segs) files =>
      if job.stopped then some (goto job (.fileLoop phase files))
      else if (job.segment? f i).any (·.downloaded) then
        some (goto job (.segLoop phase f segs files))
      else some (goto job (.segFetch phase f i segs files))
  | .segFetch phase f i segs files =>
      some { goto job (.segLoop phase f segs files) with fetch := if ok then some (f, i) else none }
  | .waiting phase => if quiet then some (goto job (.fetched phase)) else none
  | .fetched phase =>
      if job.stopped then some (goto job .stopping)
      else some (goto job (match phase with | .content => .counting | .volumes => .repairReady))
  | .stopping => some (leave job)
  | .counting => some (goto job (if job.contentComplete then .complete else .incomplete))
  | .incomplete => some (leave (job.failOrRetry maxRetries))
  | .complete => some (goto (job.setBusy true) (.scanning .first))
  | .scanning pass =>
      if ok then some (goto (job.setState .verifying) (.verifying pass))
      else some (goto job (.verified pass true))
  | .verifying pass => some (goto job (.verified pass ok))
  | .verified _ true => some (goto (job.setBusy false) .passing)
  | .verified pass false =>
      if job.wasCancelled then some (goto job .stopBusy)
      else some (goto job (match pass with | .first => .damaged | .second => .failing))
  | .damaged => some (goto (job.setBusy false) .refetching)
  | .refetching => some (goto (job.setState .downloading) (.started .volumes))
  | .repairReady => some (goto (job.setBusy true) .repairPrep)
  | .repairPrep =>
      if ok then some (goto (job.setState .repairing) .repairing)
      else some (goto job .repairFailed)
  | .repairing => some (goto job (if ok then .scanning .second else .repairFailed))
  | .repairFailed => some (goto job (if job.wasCancelled then .stopBusy else .failing))
  | .failing => some (goto (job.setBusy false) .failed)
  | .failed => some (leave (job.setState .failed))
  | .stopBusy => some (goto (job.setBusy false) .marking)
  | .marking => some (goto (job.setState .cancelled) .stopping)
  | .passing =>
      if ok then some { leave job with enqueued := true }
      else some (leave (job.setState .failed))

/-- One step of `finalizer_main`: the job afterwards and where the thread goes
on (`none`: it takes the next job). -/
def finStep (job : Job) (ok : Bool) : FinPoint → Job × Option FinPoint
  | .took => (job, some (if job.stopped then .skipping else .admitted))
  | .skipping => (job, none)
  | .admitted => (job.setBusy true, some .begun)
  -- Without an output directory `finalize_job` returns 1 at once.
  | .begun => if ok then (job.setState .extracting, some .extracting) else (job, some .extracted)
  | .extracting => (job, some (if ok then .extracted else .failing))
  | .extracted => (job.setState .completed, some .installing)
  | .installing => (job.setBusy false, none)
  | .failing => (job.setBusy false, some .failedCheck)
  | .failedCheck => (job, some (if job.wasCancelled then .marking else .failed))
  | .failed => (job.setState .failed, none)
  | .marking => (job.setState .cancelled, some .skipping)

structure Fetch where
  job : JobRef
  file : ℕ
  seg : ℕ
  deriving DecidableEq, Repr

inductive Stop
  | paused
  | cancelled
  deriving DecidableEq, Repr

structure Sys where
  heap : JobRef → Option Job
  queue : List JobRef
  downloader : Option (JobRef × DlPoint)
  finalizeQueue : List JobRef
  finalizer : Option (JobRef × FinPoint)
  poolQueue : List Fetch
  poolActive : List Fetch
  /-- Fetches `nntp_pool_cancel_all` has taken off the queue and not yet
  completed, with the job whose request cancelled the pool. -/
  poolDropped : List (JobRef × Fetch)
  cancelRequests : List JobRef
  maxRetries : ℕ
  stops : JobRef → Option Stop
  /-- History: fetches that ended with `NNTP_POOL_ERR_CANCELLED`, with the job
  whose request cancelled them. -/
  cancelledFetches : List (JobRef × Fetch)

namespace Sys

def setJob (s : Sys) (j : JobRef) (job : Job) : Sys :=
  { s with heap := update s.heap j (some job) }

@[simp]
theorem setJob_heap_self (s : Sys) (j : JobRef) (job : Job) :
    (s.setJob j job).heap j = some job :=
  update_self _ _ _

theorem setJob_heap_of_ne {i j : JobRef} (different : i ≠ j) (s : Sys) (job : Job) :
    (s.setJob j job).heap i = s.heap i :=
  update_of_ne different _ _

def findNextQueued (s : Sys) : Option JobRef :=
  s.queue.find? fun j => (s.heap j).any (·.state == .queued)

def outstanding (s : Sys) : List Fetch :=
  s.poolQueue ++ s.poolActive ++ s.poolDropped.map Prod.snd

def quiet (s : Sys) : Bool :=
  s.outstanding.isEmpty

def holders (s : Sys) : List JobRef :=
  (s.downloader.map Prod.fst).toList ++ s.finalizeQueue ++ (s.finalizer.map Prod.fst).toList

end Sys

inductive Act
  | downloader (ok : Bool)
  | finalizer (ok : Bool)
  | workerTakes
  | workerEnds (fetch : Fetch) (ok : Bool)
  | dropEnds
  /-- The part of a request under `queue_lock`; `saved` is the result of
  `queue_save_job`. -/
  | request (request : Request) (j : JobRef) (saved : Bool)
  | poolCancel (j : JobRef)
  | delete (j : JobRef)
  | add (j : JobRef) (files : List JobFile)
  deriving DecidableEq, Repr

section Steps

def downloaderStep (s : Sys) (ok : Bool) : Option Sys :=
  match s.downloader with
  | none => s.findNextQueued.map fun j => { s with downloader := some (j, .picked) }
  | some (j, point) => do
      let job ← s.heap j
      let effect ← dlStep s.maxRetries s.quiet job ok point
      some { s.setJob j effect.job with
        downloader := effect.next.map fun next => (j, next)
        poolQueue := s.poolQueue ++ (effect.fetch.map fun fi => ⟨j, fi.1, fi.2⟩).toList
        finalizeQueue := if effect.enqueued then s.finalizeQueue ++ [j] else s.finalizeQueue }

def finalizerStep (s : Sys) (ok : Bool) : Option Sys :=
  match s.finalizer with
  | none =>
      match s.finalizeQueue with
      | [] => none
      | j :: rest => some { s with finalizer := some (j, .took), finalizeQueue := rest }
  | some (j, point) => do
      let job ← s.heap j
      let (job, next) := finStep job ok point
      some { s.setJob j job with finalizer := next.map fun next => (j, next) }

def acceptSegment (s : Sys) (fetch : Fetch) : Option Sys := do
  let job ← s.heap fetch.job
  let segment ← job.segment? fetch.file fetch.seg
  some (s.setJob fetch.job (job.markSegmentDownloaded segment.messageId))

/-- The effect of a request on the history of stops; resuming and retrying lift
a stop, a pause or cancel counts once it is saved. -/
def recordStop (s : Sys) (j : JobRef) (request : Request) (saved : Bool) : JobRef → Option Stop :=
  match request with
  | .resume | .retry => update s.stops j none
  | .pause => if saved then update s.stops j (some .paused) else s.stops
  | .cancel => if saved then update s.stops j (some .cancelled) else s.stops

def step (s : Sys) : Act → Option Sys
  | .downloader ok => downloaderStep s ok
  | .finalizer ok => finalizerStep s ok
  | .workerTakes =>
      match s.poolQueue with
      | [] => none
      | fetch :: rest => some { s with poolQueue := rest, poolActive := fetch :: s.poolActive }
  | .workerEnds fetch ok =>
      if fetch ∈ s.poolActive then
        let ended := { s with poolActive := s.poolActive.erase fetch }
        if ok then acceptSegment ended fetch else some ended
      else none
  | .dropEnds =>
      match s.poolDropped with
      | [] => none
      | entry :: rest =>
          some { s with poolDropped := rest, cancelledFetches := entry :: s.cancelledFetches }
  | .request request j saved => do
      if j ∈ s.queue then
        let job ← s.heap j
        let job ← request.apply job
        some { s.setJob j job with
          stops := recordStop s j request saved
          cancelRequests :=
            if saved && request.cancelsPool then j :: s.cancelRequests else s.cancelRequests }
      else none
  | .poolCancel j =>
      if j ∈ s.cancelRequests then
        some { s with
          cancelRequests := s.cancelRequests.erase j
          poolQueue := []
          poolDropped := s.poolDropped ++ s.poolQueue.map fun fetch => (j, fetch) }
      else none
  | .delete j => do
      if j ∈ s.queue then
        let job ← s.heap j
        if job.removable then
          some { s with
            heap := update s.heap j none
            queue := s.queue.erase j
            stops := update s.stops j none }
        else none
      else none
  | .add j files =>
      -- A new object has an address no part of the program refers to.
      if s.heap j = none ∧ j ∉ s.queue ∧ j ∉ s.holders ∧ j ∉ s.outstanding.map Fetch.job ∧
          j ∉ s.cancelRequests ∧ s.stops j = none then
        some { s.setJob j ⟨.queued, false, 0, files⟩ with queue := s.queue ++ [j] }
      else none

end Steps

/-- The program after start-up: threads and pool are idle, no job is in an
active state (`queue_open` has re-queued those) or busy. -/
structure Initial (s : Sys) : Prop where
  queued : ∀ j ∈ s.queue, (s.heap j).isSome
  nodup : s.queue.Nodup
  calm : ∀ j job, s.heap j = some job → job.state.active = false ∧ job.busy = false
  downloader : s.downloader = none
  finalizer : s.finalizer = none
  finalizeQueue : s.finalizeQueue = []
  poolQueue : s.poolQueue = []
  poolActive : s.poolActive = []
  poolDropped : s.poolDropped = []
  stops : ∀ j, s.stops j = none
  cancelledFetches : s.cancelledFetches = []

def booted (jobs : List Job) (maxRetries : ℕ) : Sys where
  heap := fun j => jobs[j]?
  queue := List.range jobs.length
  downloader := none
  finalizeQueue := []
  finalizer := none
  poolQueue := []
  poolActive := []
  poolDropped := []
  cancelRequests := []
  maxRetries := maxRetries
  stops := fun _ => none
  cancelledFetches := []

theorem booted_initial {jobs : List Job} (maxRetries : ℕ)
    (calm : ∀ job ∈ jobs, job.state.active = false ∧ job.busy = false) :
    Initial (booted jobs maxRetries) where
  queued := by
    intro j member
    simpa [booted] using member
  nodup := List.nodup_range
  calm := by
    intro j job allocated
    exact calm job (List.mem_of_getElem? allocated)
  downloader := rfl
  finalizer := rfl
  finalizeQueue := rfl
  poolQueue := rfl
  poolActive := rfl
  poolDropped := rfl
  stops := fun _ => rfl
  cancelledFetches := rfl

def downloadsEmpty : List Act :=
  List.replicate 10 (.downloader true) ++ [.downloader false] ++
    List.replicate 2 (.downloader true)

/-- Some worker still refers to the job object: the downloader is processing it,
a fetch of one of its segments is outstanding, it waits in the finalize queue, or
the finalizer is processing it. -/
def Sys.Refers (s : Sys) (j : JobRef) : Prop :=
  j ∈ s.holders ∨ j ∈ s.outstanding.map Fetch.job

instance (s : Sys) (j : JobRef) : Decidable (s.Refers j) :=
  inferInstanceAs (Decidable (_ ∨ _))

end NzbDownloader.Download
