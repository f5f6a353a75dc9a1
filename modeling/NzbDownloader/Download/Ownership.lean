import NzbDownloader.Download.System

/-!
# Which worker holds a job

The inversion of the step function, and the rule for invariants that say at each point
of a worker what the job it holds looks like.
-/

namespace NzbDownloader.Download

open Queue Lib.Transition List DlEffect Function Sys

inductive Moves (s : Sys) : Act → Sys → Prop
  | pick {ok : Bool} {j : JobRef} (idle : s.downloader = none)
      (found : s.findNextQueued = some j) :
      Moves s (.downloader ok) { s with downloader := some (j, .picked) }
  | download {ok : Bool} {j : JobRef} {point : DlPoint} {job : Job} {effect : DlEffect}
      (at' : s.downloader = some (j, point)) (allocated : s.heap j = some job)
      (does : dlStep s.maxRetries s.quiet job ok point = some effect) :
      Moves s (.downloader ok) { s.setJob j effect.job with
        downloader := effect.next.map fun next => (j, next)
        poolQueue := s.poolQueue ++ (effect.fetch.map fun fi => ⟨j, fi.1, fi.2⟩).toList
        finalizeQueue := if effect.enqueued then s.finalizeQueue ++ [j] else s.finalizeQueue }
  | dequeue {ok : Bool} {j : JobRef} {rest : List JobRef} (idle : s.finalizer = none)
      (waiting : s.finalizeQueue = j :: rest) :
      Moves s (.finalizer ok) { s with finalizer := some (j, .took), finalizeQueue := rest }
  | finalize {ok : Bool} {j : JobRef} {point : FinPoint} {job : Job}
      (at' : s.finalizer = some (j, point)) (allocated : s.heap j = some job) :
      Moves s (.finalizer ok) { s.setJob j (finStep job ok point).1 with
        finalizer := (finStep job ok point).2.map fun next => (j, next) }
  | workerTakes {fetch : Fetch} {rest : List Fetch} (waiting : s.poolQueue = fetch :: rest) :
      Moves s .workerTakes { s with poolQueue := rest, poolActive := fetch :: s.poolActive }
  | workerFails {fetch : Fetch} (working : fetch ∈ s.poolActive) :
      Moves s (.workerEnds fetch false) { s with poolActive := s.poolActive.erase fetch }
  | workerAccepts {fetch : Fetch} {job : Job} {segment : Segment}
      (working : fetch ∈ s.poolActive) (allocated : s.heap fetch.job = some job)
      (found : job.segment? fetch.file fetch.seg = some segment) :
      Moves s (.workerEnds fetch true)
        { s.setJob fetch.job (job.markSegmentDownloaded segment.messageId) with
          poolActive := s.poolActive.erase fetch }
  | dropEnds {entry : JobRef × Fetch} {rest : List (JobRef × Fetch)}
      (dropped : s.poolDropped = entry :: rest) :
      Moves s .dropEnds
        { s with poolDropped := rest, cancelledFetches := entry :: s.cancelledFetches }
  | request {request : Request} {j : JobRef} {saved : Bool} {job job' : Job}
      (known : j ∈ s.queue) (allocated : s.heap j = some job)
      (admitted : request.apply job = some job') :
      Moves s (.request request j saved) { s.setJob j job' with
        stops := recordStop s j request saved
        cancelRequests :=
          if saved && request.cancelsPool then j :: s.cancelRequests else s.cancelRequests }
  | poolCancel {j : JobRef} (requested : j ∈ s.cancelRequests) :
      Moves s (.poolCancel j) { s with
        cancelRequests := s.cancelRequests.erase j
        poolQueue := []
        poolDropped := s.poolDropped ++ s.poolQueue.map fun fetch => (j, fetch) }
  | delete {j : JobRef} {job : Job} (known : j ∈ s.queue) (allocated : s.heap j = some job)
      (removable : job.removable = true) :
      Moves s (.delete j) { s with
        heap := update s.heap j none
        queue := s.queue.erase j
        stops := update s.stops j none }
  | add {j : JobRef} {files : List JobFile} (free : s.heap j = none) (unknown : j ∉ s.queue)
      (unheld : j ∉ s.holders) (unfetched : j ∉ s.outstanding.map Fetch.job)
      (unrequested : j ∉ s.cancelRequests) (unstopped : s.stops j = none) :
      Moves s (.add j files)
        { s.setJob j ⟨.queued, false, 0, files⟩ with queue := s.queue ++ [j] }

variable {s : Sys} {j : JobRef} {job : Job} {point : DlPoint} {s' : Sys}

theorem moves_of_step {a : Act} (taken : step s a = some s') : Moves s a s' := by
  cases a with
  | downloader ok =>
    simp only [step, downloaderStep] at taken
    split at taken
    · rename_i idle
      obtain ⟨j, found, rfl⟩ := Option.map_eq_some_iff.mp taken
      exact .pick idle found
    · rename_i j point at'
      obtain ⟨job, allocated, rest⟩ := Option.bind_eq_some_iff.mp taken
      obtain ⟨effect, does, done⟩ := Option.bind_eq_some_iff.mp rest
      cases done
      exact .download at' allocated does
  | finalizer ok =>
    simp only [step, finalizerStep] at taken
    split at taken
    · rename_i idle
      split at taken
      · contradiction
      · rename_i j rest waiting
        cases taken
        exact .dequeue idle waiting
    · rename_i j point at'
      obtain ⟨job, allocated, done⟩ := Option.bind_eq_some_iff.mp taken
      cases done
      exact .finalize at' allocated
  | workerTakes =>
    simp only [step] at taken
    split at taken
    · contradiction
    · rename_i fetch rest waiting
      cases taken
      exact .workerTakes waiting
  | workerEnds fetch ok =>
    simp only [step] at taken
    split at taken
    · rename_i working
      cases ok with
      | false =>
        cases taken
        exact .workerFails working
      | true =>
        obtain ⟨job, allocated, rest⟩ := Option.bind_eq_some_iff.mp taken
        obtain ⟨segment, found, done⟩ := Option.bind_eq_some_iff.mp rest
        cases done
        exact .workerAccepts working allocated found
    · contradiction
  | dropEnds =>
    simp only [step] at taken
    split at taken
    · contradiction
    · rename_i entry rest dropped
      cases taken
      exact .dropEnds dropped
  | request request j saved =>
    simp only [step] at taken
    split at taken
    · rename_i known
      obtain ⟨job, allocated, rest⟩ := Option.bind_eq_some_iff.mp taken
      obtain ⟨job', admitted, done⟩ := Option.bind_eq_some_iff.mp rest
      cases done
      exact .request known allocated admitted
    · contradiction
  | poolCancel j =>
    simp only [step] at taken
    split at taken
    · rename_i requested
      cases taken
      exact .poolCancel requested
    · contradiction
  | delete j =>
    simp only [step] at taken
    split at taken
    · rename_i known
      obtain ⟨job, allocated, rest⟩ := Option.bind_eq_some_iff.mp taken
      split at rest
      · rename_i removable
        cases rest
        exact .delete known allocated removable
      · contradiction
    · contradiction
  | add j files =>
    simp only [step] at taken
    split at taken
    · rename_i fresh
      obtain ⟨free, unknown, unheld, unfetched, unrequested, unstopped⟩ := fresh
      cases taken
      exact .add free unknown unheld unfetched unrequested unstopped
    · contradiction

theorem findNextQueued_spec (found : s.findNextQueued = some j) :
    j ∈ s.queue ∧ ∃ job, s.heap j = some job ∧ job.state = .queued := by
  refine ⟨mem_of_find?_eq_some found, ?_⟩
  have test := find?_some found
  cases allocated : s.heap j with
  | none => simp [allocated] at test
  | some job => exact ⟨job, rfl, by simpa [allocated] using test⟩

def DlPoint.fetching : DlPoint → Bool
  | .fileLoop _ _ | .segLoop _ _ _ _ | .segFetch _ _ _ _ _ | .waiting _ => true
  | _ => false

def FetchesOwned (s : Sys) : Prop :=
  ∀ fetch ∈ s.outstanding, ∃ point, s.downloader = some (fetch.job, point) ∧ point.fetching = true

theorem mem_outstanding {fetch : Fetch} : fetch ∈ s.outstanding ↔
    fetch ∈ s.poolQueue ∨ fetch ∈ s.poolActive ∨ ∃ j, (j, fetch) ∈ s.poolDropped := by
  simp [outstanding]

/-- While fetches are outstanding, a step of `download_job` stays inside
`download_segments`; only there does it hand out fetches. -/
theorem dlStep_fetching {maxRetries : ℕ} {quiet ok : Bool} {effect : DlEffect}
    (does : dlStep maxRetries quiet job ok point = some effect) :
    (point.fetching → quiet = false →
      ∃ next, effect.next = some next ∧ next.fetching) ∧
    (effect.fetch ≠ none → ∃ next, effect.next = some next ∧ next.fetching) := by
  unfold dlStep at does
  split at does <;> (repeat' split at does) <;> cases does <;>
    simp_all [goto, leave, DlPoint.fetching]

theorem FetchesOwned.of_subset (owned : FetchesOwned s) (same : s'.downloader = s.downloader)
    (subset : ∀ fetch ∈ s'.outstanding, fetch ∈ s.outstanding) : FetchesOwned s' := by
  intro fetch member
  rw [same]
  exact owned fetch (subset fetch member)

theorem FetchesOwned.step {s : Sys} {a : Act} (owned : FetchesOwned s) (moves : Moves s a s') :
    FetchesOwned s' := by
  cases moves with
  | pick idle found =>
    intro fetch member
    obtain ⟨point, busy, _⟩ := owned fetch member
    rw [idle] at busy
    contradiction
  | @download ok j point job effect at' allocated does =>
    obtain ⟨stays, hands⟩ := dlStep_fetching does
    intro fetch member
    have cases' : fetch ∈ s.outstanding ∨
        fetch ∈ (effect.fetch.map fun fi => (⟨j, fi.1, fi.2⟩ : Fetch)).toList := by
      simp only [mem_outstanding, mem_append] at member ⊢
      rcases member with (old | new) | rest
      · exact .inl (.inl old)
      · exact .inr new
      · exact .inl (.inr rest)
    rcases cases' with old | new
    · obtain ⟨point', here, fetching⟩ := owned fetch old
      rw [at'] at here
      cases here
      have outstanding : s.quiet = false := by
        unfold quiet
        cases list : s.outstanding with
        | nil => simp [list] at old
        | cons _ _ => rfl
      obtain ⟨next, goes, still⟩ := stays fetching outstanding
      exact ⟨next, by simp [goes], still⟩
    · cases handed : effect.fetch with
      | none => simp [handed] at new
      | some fi =>
        obtain ⟨next, goes, still⟩ := hands (by simp [handed])
        rw [handed] at new
        obtain rfl : fetch = ⟨j, fi.1, fi.2⟩ := by simpa using new
        exact ⟨next, by simp [goes], still⟩
  | dequeue | finalize | request | delete => exact owned.of_subset rfl fun _ member => member
  | workerTakes waiting =>
    refine owned.of_subset rfl fun fetch member => ?_
    simp only [mem_outstanding, mem_cons, waiting] at member ⊢
    tauto
  | workerFails | workerAccepts =>
    refine owned.of_subset rfl fun fetch member => ?_
    simp only [mem_outstanding] at member ⊢
    exact member.imp_right fun rest => rest.imp_left mem_of_mem_erase
  | dropEnds dropped =>
    refine owned.of_subset rfl fun fetch member => ?_
    simp only [mem_outstanding, dropped, mem_cons] at member ⊢
    exact member.imp_right fun rest => rest.imp_right fun ⟨j, inRest⟩ => ⟨j, .inr inRest⟩
  | poolCancel requested =>
    refine owned.of_subset rfl fun fetch member => ?_
    simp only [mem_outstanding, not_mem_nil, mem_append, mem_map, false_or,
      Prod.mk.injEq] at member ⊢
    rcases member with working | ⟨j', dropped | ⟨fetch', queued, _, rfl⟩⟩
    · exact .inr (.inl working)
    · exact .inr (.inr ⟨j', dropped⟩)
    · exact .inl queued
  | add free unknown unheld unfetched unrequested unstopped =>
    exact owned.of_subset rfl fun _ member => member

theorem Initial.fetchesOwned (initial : Initial s) : FetchesOwned s := by
  intro fetch member
  simp [mem_outstanding, initial.poolQueue, initial.poolActive, initial.poolDropped] at member

theorem FetchesOwned.refers_iff (owned : FetchesOwned s) : s.Refers j ↔ j ∈ s.holders := by
  constructor
  · rintro (held | fetched)
    · exact held
    · obtain ⟨fetch, member, rfl⟩ := mem_map.mp fetched
      obtain ⟨point, here, _⟩ := owned fetch member
      simp [holders, here]
  · exact .inl

theorem mem_holders : j ∈ s.holders ↔
    (∃ point, s.downloader = some (j, point)) ∨ j ∈ s.finalizeQueue ∨
      ∃ point, s.finalizer = some (j, point) := by
  simp only [holders, mem_append, Option.mem_toList, Option.map_eq_some_iff, or_assoc]
  constructor
  · rintro (⟨⟨_, point⟩, here, rfl⟩ | waiting | ⟨⟨_, point⟩, here, rfl⟩)
    · exact .inl ⟨point, here⟩
    · exact .inr (.inl waiting)
    · exact .inr (.inr ⟨point, here⟩)
  · rintro (⟨point, here⟩ | waiting | ⟨point, here⟩)
    · exact .inl ⟨(j, point), here, rfl⟩
    · exact .inr (.inl waiting)
    · exact .inr (.inr ⟨(j, point), here, rfl⟩)

/-- What holds of a job at each point of the downloader, in the finalize queue
and at each point of the finalizer. -/
structure Assertions where
  dl : DlPoint → Job → Prop
  queue : Job → Prop
  fin : FinPoint → Job → Prop

/-- The assertions survive the steps of the workers themselves, depend on
nothing but state and busy flag, and exclude `JOB_QUEUED` from the hand-over
on. -/
structure Assertions.Sound (A : Assertions) : Prop where
  pick : ∀ {job}, job.state = .queued → A.dl .picked job
  download : ∀ {maxRetries quiet job ok point effect}, A.dl point job →
    dlStep maxRetries quiet job ok point = some effect →
    (∀ next, effect.next = some next → A.dl next effect.job) ∧
      (effect.enqueued = true → effect.next = none ∧ A.queue effect.job)
  dequeue : ∀ {job}, A.queue job → A.fin .took job
  finalize : ∀ {job ok point job' next}, A.fin point job →
    finStep job ok point = (job', some next) → A.fin next job'
  mark : ∀ {job messageId point}, A.dl point job → A.dl point (job.markSegmentDownloaded messageId)
  queue_ne_queued : ∀ {job}, A.queue job → job.state ≠ .queued
  fin_ne_queued : ∀ {point job}, A.fin point job → job.state ≠ .queued

def Assertions.Kept (A : Assertions) (s : Sys) (j : JobRef) (job job' : Job) : Prop :=
  (∀ point, s.downloader = some (j, point) → A.dl point job → A.dl point job') ∧
    (j ∈ s.finalizeQueue → A.queue job → A.queue job') ∧
    ∀ point, s.finalizer = some (j, point) → A.fin point job → A.fin point job'

structure Assertions.At (A : Assertions) (s : Sys) (j : JobRef) (job : Job) : Prop where
  dl : ∀ {point}, s.downloader = some (j, point) → A.dl point job
  queue : j ∈ s.finalizeQueue → A.queue job
  fin : ∀ {point}, s.finalizer = some (j, point) → A.fin point job

variable {A : Assertions}

theorem Assertions.At.of_not_held (free : j ∉ s.holders) : A.At s j job where
  dl here := (free (mem_holders.mpr (.inl ⟨_, here⟩))).elim
  queue waiting := (free (mem_holders.mpr (.inr (.inl waiting)))).elim
  fin here := (free (mem_holders.mpr (.inr (.inr ⟨_, here⟩)))).elim

theorem Assertions.Kept.of_not_held {job' : Job} (free : j ∉ s.holders) : A.Kept s j job job' :=
  have held : A.At s j job' := .of_not_held free
  ⟨fun _ here _ => held.dl here, fun waiting _ => held.queue waiting,
    fun _ here _ => held.fin here⟩

structure Assertions.Hold (A : Assertions) (s : Sys) : Prop where
  fetches : FetchesOwned s
  single : s.holders.Nodup
  dl : ∀ {j point job}, s.downloader = some (j, point) → s.heap j = some job → A.dl point job
  queue : ∀ {j job}, j ∈ s.finalizeQueue → s.heap j = some job → A.queue job
  fin : ∀ {j point job}, s.finalizer = some (j, point) → s.heap j = some job → A.fin point job

namespace Assertions

variable {a : Act}

theorem after_goto (held : A.dl point job) :
    (∀ next, (goto job point).next = some next →
      A.dl next (goto job point).job) ∧
    ((goto job point).enqueued →
      (goto job point).next = none ∧ A.queue (goto job point).job) := by
  refine ⟨fun next goes => ?_, fun passed => nomatch passed⟩
  cases goes
  exact held

theorem after_leave (job : Job) :
    (∀ next, (leave job).next = some next → A.dl next (leave job).job) ∧
    ((leave job).enqueued →
      (leave job).next = none ∧ A.queue (leave job).job) :=
  ⟨fun _ goes => (nomatch goes), fun passed => nomatch passed⟩

theorem after_pass (held : A.queue job) :
    (∀ next, { leave job with enqueued := true }.next = some next →
      A.dl next { leave job with enqueued := true }.job) ∧
    ({ leave job with enqueued := true }.enqueued = true →
      { leave job with enqueued := true }.next = none ∧
        A.queue { leave job with enqueued := true }.job) :=
  ⟨fun _ goes => (nomatch goes), fun _ => ⟨rfl, held⟩⟩

section Step

variable (hold : A.Hold s)
include hold

theorem Hold.not_held_of_queued (sound : A.Sound) (idle : s.downloader = none)
    (allocated : s.heap j = some job) (queued : job.state = .queued) : j ∉ s.holders := by
  intro held
  rcases mem_holders.mp held with ⟨point, here⟩ | waiting | ⟨point, here⟩
  · rw [idle] at here
    contradiction
  · exact sound.queue_ne_queued (hold.queue waiting allocated) queued
  · exact sound.fin_ne_queued (hold.fin here allocated) queued

theorem Hold.at_job (fetches : FetchesOwned s') (single : s'.holders.Nodup) {record : Option Job} (heap : s'.heap = update s.heap j record)
    (downloader : ∀ i point, i ≠ j → s'.downloader = some (i, point) →
      s.downloader = some (i, point))
    (finalizeQueue : ∀ i, i ≠ j → i ∈ s'.finalizeQueue → i ∈ s.finalizeQueue)
    (finalizer : ∀ i point, i ≠ j → s'.finalizer = some (i, point) → s.finalizer = some (i, point))
    (here : ∀ job, record = some job → A.At s' j job) : A.Hold s' := by
  have everywhere : ∀ i job, s'.heap i = some job → A.At s' i job := by
    intro i job found
    rw [heap] at found
    by_cases same : i = j
    · subst same
      rw [update_self] at found
      exact here job found
    · rw [update_of_ne same] at found
      exact ⟨fun at' => hold.dl (downloader i _ same at') found,
        fun waiting => hold.queue (finalizeQueue i same waiting) found,
        fun at' => hold.fin (finalizer i _ same at') found⟩
  exact ⟨fetches, single, fun at' found => (everywhere _ _ found).dl at',
    fun waiting found => (everywhere _ _ found).queue waiting,
    fun at' found => (everywhere _ _ found).fin at'⟩

theorem Hold.record (fetches : FetchesOwned s') {job : Job}
    (heap : s'.heap = update s.heap j (some job)) (downloader : s'.downloader = s.downloader)
    (finalizeQueue : s'.finalizeQueue = s.finalizeQueue) (finalizer : s'.finalizer = s.finalizer)
    (here : A.At s j job) : A.Hold s' := by
  refine hold.at_job fetches ?_ heap (fun _ _ _ at' => downloader ▸ at')
    (fun _ _ waiting => finalizeQueue ▸ waiting) (fun _ _ _ at' => finalizer ▸ at') ?_
  · rw [holders, downloader, finalizeQueue, finalizer]
    exact hold.single
  · rintro record ⟨⟩
    exact ⟨fun at' => here.dl (downloader ▸ at'), fun waiting => here.queue (finalizeQueue ▸ waiting),
      fun at' => here.fin (finalizer ▸ at')⟩

theorem Hold.downloader_apart (here : s.downloader = some (j, point)) :
    j ∉ s.finalizeQueue ∧ ∀ point, s.finalizer ≠ some (j, point) := by
  have nodup := hold.single
  simp only [holders, here, Option.map_some, Option.toList_some, cons_append,
    nil_append, nodup_cons, mem_append, not_or] at nodup
  exact ⟨nodup.1.1, fun point also => nodup.1.2 (by simp [also])⟩

theorem Hold.finalizer_apart {point : FinPoint} (here : s.finalizer = some (j, point)) :
    j ∉ s.finalizeQueue ∧ ∀ point, s.downloader ≠ some (j, point) := by
  have nodup := hold.single
  simp only [holders, here, Option.map_some, Option.toList_some, nodup_append,
    mem_append, mem_singleton, forall_eq] at nodup
  obtain ⟨_, _, apart⟩ := nodup
  exact ⟨fun waiting => apart j (.inr waiting) rfl,
    fun point also => apart j (.inl (by simp [also])) rfl⟩

theorem Hold.pick (sound : A.Sound) (idle : s.downloader = none) (found : s.findNextQueued = some j)
    (fetches : FetchesOwned { s with downloader := some (j, .picked) }) :
    A.Hold { s with downloader := some (j, .picked) } := by
  obtain ⟨_, job, allocated, queued⟩ := findNextQueued_spec found
  have free := hold.not_held_of_queued sound idle allocated queued
  have single : (j :: s.holders).Nodup := nodup_cons.mpr ⟨free, hold.single⟩
  refine hold.at_job fetches ?_ (update_eq_self j s.heap).symm ?_
    (fun _ _ waiting => waiting) (fun _ _ _ here => here) ?_
  · simpa [holders, idle] using single
  · rintro i point different ⟨⟩
    exact absurd rfl different
  intro record found
  cases allocated.symm.trans found
  refine ⟨?_, fun waiting => hold.queue waiting allocated, fun here => hold.fin here allocated⟩
  rintro point ⟨⟩
  exact sound.pick queued

theorem Hold.nodup_download {effect : DlEffect} (at' : s.downloader = some (j, point))
    (passes : effect.enqueued → effect.next = none) :
    (((effect.next.map fun next => (j, next)).map Prod.fst).toList ++
      (if effect.enqueued then s.finalizeQueue ++ [j] else s.finalizeQueue) ++
        (s.finalizer.map Prod.fst).toList).Nodup := by
  have single := hold.single
  simp only [holders, at', Option.map_some, Option.toList_some, cons_append,
    nil_append] at single
  cases passed : effect.enqueued with
  | false =>
    cases effect.next with
    | none => simpa using (nodup_cons.mp single).2
    | some next => simpa using single
  | true =>
    have moved : (s.finalizeQueue ++ [j] ++ (s.finalizer.map Prod.fst).toList).Nodup := by
      refine (List.Perm.nodup_iff ?_).mpr single
      rw [append_assoc]
      exact perm_middle
    simpa [passes passed] using moved

theorem Hold.download (sound : A.Sound) {point : DlPoint}
    {job : Job} {effect : DlEffect} {ok : Bool} (at' : s.downloader = some (j, point))
    (allocated : s.heap j = some job)
    (does : dlStep s.maxRetries s.quiet job ok point = some effect)
    (heap : s'.heap = update s.heap j (some effect.job))
    (downloader : s'.downloader = effect.next.map fun next => (j, next))
    (finalizeQueue : s'.finalizeQueue =
      if effect.enqueued then s.finalizeQueue ++ [j] else s.finalizeQueue)
    (finalizer : s'.finalizer = s.finalizer) (fetches : FetchesOwned s') : A.Hold s' := by
  obtain ⟨stays, passes⟩ := sound.download (hold.dl at' allocated) does
  obtain ⟨notWaiting, notFinalized⟩ := hold.downloader_apart at'
  refine hold.at_job fetches ?_ heap ?_ ?_ (fun _ _ _ here => finalizer ▸ here) ?_
  · rw [holders, downloader, finalizeQueue, finalizer]
    exact hold.nodup_download at' fun passed => (passes passed).1
  · intro i point' different here
    obtain ⟨next, _, ⟨⟩⟩ := Option.map_eq_some_iff.mp (downloader ▸ here)
    exact absurd rfl different
  · intro i different waiting
    rw [finalizeQueue] at waiting
    split at waiting
    · exact (mem_append.mp waiting).resolve_right (different ∘ mem_singleton.mp)
    · exact waiting
  · rintro record ⟨⟩
    refine ⟨fun here => ?_, fun waiting => ?_, fun here => ?_⟩
    · obtain ⟨next, goes, ⟨⟩⟩ := Option.map_eq_some_iff.mp (downloader ▸ here)
      exact stays _ goes
    · rw [finalizeQueue] at waiting
      split at waiting
      · exact (passes ‹_›).2
      · exact absurd waiting notWaiting
    · exact absurd (finalizer ▸ here) (notFinalized _)

theorem Hold.dequeue (sound : A.Sound) {rest : List JobRef}
    (idle : s.finalizer = none) (waiting : s.finalizeQueue = j :: rest)
    (fetches : FetchesOwned { s with finalizer := some (j, .took), finalizeQueue := rest }) :
    A.Hold { s with finalizer := some (j, .took), finalizeQueue := rest } := by
  have single := hold.single
  simp only [holders, idle, waiting, Option.map_none, Option.toList_none,
    append_nil] at single
  have moved : ((s.downloader.map Prod.fst).toList ++ rest ++ [j]).Nodup := by
    refine (List.Perm.nodup_iff ?_).mpr single
    rw [append_assoc]
    exact List.Perm.append_left _ perm_append_comm
  refine hold.at_job fetches (by simpa [holders] using moved)
    (update_eq_self j s.heap).symm (fun _ _ _ here => here)
    (fun i _ later => waiting ▸ .tail _ later) ?_ ?_
  · rintro i point different ⟨⟩
    exact absurd rfl different
  intro record found
  refine ⟨fun here => hold.dl here found, fun later => ?_, ?_⟩
  · exact absurd later (nodup_cons.mp (nodup_append.mp single).2.1).1
  · rintro point ⟨⟩
    exact sound.dequeue (hold.queue (waiting ▸ (.head _)) found)

theorem Hold.finalize (sound : A.Sound) {point : FinPoint}
    {job : Job} {ok : Bool} (at' : s.finalizer = some (j, point)) (allocated : s.heap j = some job)
    (heap : s'.heap = update s.heap j (some (finStep job ok point).1))
    (downloader : s'.downloader = s.downloader) (finalizeQueue : s'.finalizeQueue = s.finalizeQueue)
    (finalizer : s'.finalizer = (finStep job ok point).2.map fun next => (j, next))
    (fetches : FetchesOwned s') : A.Hold s' := by
  obtain ⟨notWaiting, notDownloaded⟩ := hold.finalizer_apart at'
  refine hold.at_job fetches ?_ heap (fun _ _ _ here => downloader ▸ here)
    (fun _ _ waiting => finalizeQueue ▸ waiting) ?_ ?_
  · have single := hold.single
    simp only [holders, at', Option.map_some, Option.toList_some] at single
    rw [holders, downloader, finalizeQueue, finalizer]
    cases (finStep job ok point).2 with
    | none => simpa using (nodup_append.mp single).1
    | some next => simpa using single
  · intro i point' different here
    obtain ⟨next, _, ⟨⟩⟩ := Option.map_eq_some_iff.mp (finalizer ▸ here)
    exact absurd rfl different
  · rintro record ⟨⟩
    refine ⟨fun here => absurd (downloader ▸ here) (notDownloaded _),
      fun waiting => absurd (finalizeQueue ▸ waiting) notWaiting, fun here => ?_⟩
    obtain ⟨next, goes, ⟨⟩⟩ := Option.map_eq_some_iff.mp (finalizer ▸ here)
    exact sound.finalize (hold.fin at' allocated) (Prod.ext rfl goes)

theorem Hold.step (sound : A.Sound) (moves : Moves s a s')
    (requests : ∀ {request j saved job job'}, a = .request request j saved →
      s.heap j = some job → request.apply job = some job' → A.Kept s j job job') :
    A.Hold s' := by
  have fetches := hold.fetches.step moves
  cases moves with
  | pick idle found => exact hold.pick sound idle found fetches
  | download at' allocated does => exact hold.download sound at' allocated does rfl rfl rfl rfl fetches
  | dequeue idle waiting => exact hold.dequeue sound idle waiting fetches
  | finalize at' allocated => exact hold.finalize sound at' allocated rfl rfl rfl rfl fetches
  | workerTakes | workerFails | dropEnds | poolCancel =>
    exact ⟨fetches, hold.single, hold.dl, hold.queue, hold.fin⟩
  | @workerAccepts fetch job segment working allocated found =>
    obtain ⟨point, here, _⟩ := hold.fetches fetch (by simp [mem_outstanding, working])
    obtain ⟨notWaiting, notFinalized⟩ := hold.downloader_apart here
    exact hold.record fetches rfl rfl rfl rfl ⟨fun here' => sound.mark (hold.dl here' allocated),
      fun waiting => absurd waiting notWaiting, fun here' => absurd here' (notFinalized _)⟩
  | request known allocated admitted =>
    obtain ⟨keepDl, keepQueue, keepFin⟩ := requests rfl allocated admitted
    exact hold.record fetches rfl rfl rfl rfl
      ⟨fun here => keepDl _ here (hold.dl here allocated),
        fun waiting => keepQueue waiting (hold.queue waiting allocated),
        fun here => keepFin _ here (hold.fin here allocated)⟩
  | delete known allocated removable =>
    exact hold.at_job fetches hold.single rfl (fun _ _ _ here => here) (fun _ _ waiting => waiting)
      (fun _ _ _ here => here) fun _ none => absurd none (Option.some_ne_none _).symm
  | add free unknown unheld unfetched unrequested unstopped =>
    exact hold.record fetches rfl rfl rfl rfl (.of_not_held unheld)

end Step

theorem Hold.initial (A : Assertions) (initial : Initial s) : A.Hold s where
  fetches := initial.fetchesOwned
  single := by simp [holders, initial.downloader, initial.finalizeQueue, initial.finalizer]
  dl := by
    intro j point job here
    simp [initial.downloader] at here
  queue := by
    intro j job waiting
    simp [initial.finalizeQueue] at waiting
  fin := by
    intro j point job here
    simp [initial.finalizer] at here

end Assertions

end NzbDownloader.Download
