import NzbDownloader.Download.Ownership

/-!
# Pauses and cancels in force

Most of the places that write a job's state do not look at the state before.
-/

namespace NzbDownloader.Download

open Queue Lib.Transition

def Stop.admits : Stop → JobState → Bool
  | .paused, state => state = .paused ∨ state = .cancelled
  | .cancelled, state => state = .cancelled

def DlPoint.heeds (stop : Stop) : DlPoint → Bool
  | .started _ | .opening _ | .fileLoop _ _ | .segLoop _ _ _ _ | .segFetch _ _ _ _ _ | .waiting _
  | .fetched _ | .stopping | .stopBusy | .marking | .verified _ true | .passing => true
  | .verifying _ | .verified _ false | .repairFailed => stop = .cancelled
  | _ => false

def FinPoint.heeds (stop : Stop) : FinPoint → Bool
  | .took | .skipping | .marking => true
  | .failing | .failedCheck => stop = .cancelled
  | _ => false

def DlPoint.allocates : DlPoint → Bool
  | .started _ | .passing => true
  | _ => false

section Stopped

variable {stop : Stop} {job : Job}

theorem stopped_of_admits (admits : stop.admits job.state) : job.stopped = true := by
  cases stop with
  | paused => exact admits
  | cancelled => simp [Job.stopped, of_decide_eq_true admits]

theorem wasCancelled_of_admits (admits : stop.admits job.state)
    (cancelled : decide (stop = .cancelled) = true) : job.wasCancelled = true := by
  cases of_decide_eq_true cancelled
  exact admits

theorem admits_cancelled (stop : Stop) : stop.admits .cancelled = true := by
  cases stop <;> rfl

theorem not_admits_queued (stop : Stop) : ¬stop.admits .queued = true := by
  cases stop <;> decide

theorem heeds_after_goto {point : DlPoint} (admits : stop.admits job.state)
    (heeds : point.heeds stop) :
    stop.admits (DlEffect.goto job point).job.state = true ∧
      ∀ next, (DlEffect.goto job point).next = some next → next.heeds stop = true := by
  refine ⟨admits, fun next goes => ?_⟩
  cases goes
  exact heeds

theorem heeds_after_leave (enqueued : Bool) (admits : stop.admits job.state) :
    stop.admits { DlEffect.leave job with enqueued }.job.state = true ∧
      ∀ next, { DlEffect.leave job with enqueued }.next = some next → next.heeds stop = true :=
  ⟨admits, fun _ goes => nomatch goes⟩

theorem heeds_verified {pass : Pass} (ok : Bool)
    (heeds : (DlPoint.verifying pass).heeds stop) :
    (DlPoint.verified pass ok).heeds stop = true := by
  cases ok with
  | true => rfl
  | false => exact heeds

theorem dlStep_heeds {maxRetries : ℕ} {quiet ok : Bool} {point : DlPoint} {effect : DlEffect}
    (heeds : point.heeds stop) (admits : stop.admits job.state)
    (memory : point.allocates → ok = true)
    (does : dlStep maxRetries quiet job ok point = some effect) :
    stop.admits effect.job.state = true ∧
      ∀ next, effect.next = some next → next.heeds stop = true := by
  have stopped := stopped_of_admits admits
  unfold dlStep at does
  split at does <;> (repeat' split at does) <;> cases does <;> first
    | exact absurd heeds Bool.false_ne_true
    | exact heeds_after_goto admits rfl
    | exact heeds_after_goto admits heeds
    | exact heeds_after_leave _ admits
    | exact heeds_after_goto (admits_cancelled stop) rfl
    | exact heeds_after_goto admits (heeds_verified _ heeds)
    | exact absurd (memory rfl) ‹_›
    | exact absurd (wasCancelled_of_admits admits heeds) ‹_›

theorem finStep_heeds {ok : Bool} {point : FinPoint} {job' : Job} {next : Option FinPoint}
    (heeds : point.heeds stop) (admits : stop.admits job.state)
    (does : finStep job ok point = (job', next)) :
    stop.admits job'.state = true ∧ ∀ point', next = some point' → point'.heeds stop = true := by
  have stopped := stopped_of_admits admits
  unfold finStep at does
  split at does <;> (repeat' split at does) <;> cases does <;>
    refine ⟨?_, fun point' goes => ?_⟩ <;> (try cases goes) <;> first
    | exact absurd heeds Bool.false_ne_true
    | exact admits
    | exact heeds
    | rfl
    | exact admits_cancelled stop
    | exact absurd (wasCancelled_of_admits admits heeds) ‹_›

end Stopped

def Sys.Heeds (s : Sys) (j : JobRef) (stop : Stop) : Prop :=
  (∀ held ∈ s.downloader, held.1 = j → held.2.heeds stop = true) ∧
    ∀ held ∈ s.finalizer, held.1 = j → held.2.heeds stop = true

/-- Every pause and cancel that is accepted finds the workers at points that heed
it, and no allocation fails for a stopped job. -/
def HeedsStops (s : Sys) : Act → Prop
  | .request .pause j true => s.Heeds j .paused
  | .request .cancel j true => s.Heeds j .cancelled
  | .downloader false =>
      ∀ held ∈ s.downloader, held.2.allocates = true → s.stops held.1 = none
  | _ => True

instance (s : Sys) (j : JobRef) (stop : Stop) : Decidable (s.Heeds j stop) :=
  inferInstanceAs (Decidable (_ ∧ _))

instance (s : Sys) : (a : Act) → Decidable (HeedsStops s a)
  | .request .pause j true => inferInstanceAs (Decidable (s.Heeds j .paused))
  | .request .cancel j true => inferInstanceAs (Decidable (s.Heeds j .cancelled))
  | .downloader false => inferInstanceAs
      (Decidable (∀ held ∈ s.downloader, held.2.allocates = true → s.stops held.1 = none))
  | .request .pause _ false | .request .cancel _ false | .request .resume _ _
  | .request .retry _ _ | .downloader true | .finalizer _ | .workerTakes | .workerEnds _ _
  | .dropEnds | .poolCancel _ | .delete _ | .add _ _ => isTrue trivial

structure StopsHeeded (s : Sys) : Prop where
  honoured : ∀ {j stop}, s.stops j = some stop →
    ∃ job, s.heap j = some job ∧ stop.admits job.state = true
  heeds : ∀ {j stop}, s.stops j = some stop → s.Heeds j stop

namespace StopsHeeded

variable {s s' : Sys} {a : Act}

theorem initial (initial : Initial s) : StopsHeeded s where
  honoured := by
    intro j stop inForce
    rw [initial.stops j] at inForce
    contradiction
  heeds := by
    intro j stop inForce
    rw [initial.stops j] at inForce
    contradiction

theorem of_states (heeded : StopsHeeded s) (downloader : s'.downloader = s.downloader)
    (finalizer : s'.finalizer = s.finalizer) (stops : s'.stops = s.stops)
    (states : ∀ j job, s.heap j = some job → ∃ job', s'.heap j = some job' ∧
      job'.state = job.state) : StopsHeeded s' where
  honoured := by
    intro j stop inForce
    rw [stops] at inForce
    obtain ⟨job, allocated, admits⟩ := heeded.honoured inForce
    obtain ⟨job', allocated', same⟩ := states j job allocated
    exact ⟨job', allocated', by rw [same]; exact admits⟩
  heeds := by
    intro j stop inForce
    rw [stops] at inForce
    unfold Sys.Heeds
    rw [downloader, finalizer]
    exact heeded.heeds inForce

theorem at_job (heeded : StopsHeeded s) (j : JobRef)
    (heap : ∀ i, i ≠ j → s'.heap i = s.heap i) (stops : ∀ i, i ≠ j → s'.stops i = s.stops i)
    (downloader : ∀ held ∈ s'.downloader, held.1 ≠ j → held ∈ s.downloader)
    (finalizer : ∀ held ∈ s'.finalizer, held.1 ≠ j → held ∈ s.finalizer)
    (here : ∀ {stop}, s'.stops j = some stop →
      (∃ job, s'.heap j = some job ∧ stop.admits job.state) ∧ s'.Heeds j stop) :
    StopsHeeded s' where
  honoured := by
    intro i stop inForce
    by_cases same : i = j
    · subst same
      exact (here inForce).1
    · rw [stops i same] at inForce
      rw [heap i same]
      exact heeded.honoured inForce
  heeds := by
    intro i stop inForce
    by_cases same : i = j
    · subst same
      exact (here inForce).2
    rw [stops i same] at inForce
    obtain ⟨byDownloader, byFinalizer⟩ := heeded.heeds inForce
    constructor
    · intro held member holds
      exact byDownloader held (downloader held member (by rw [holds]; exact same)) holds
    · intro held member holds
      exact byFinalizer held (finalizer held member (by rw [holds]; exact same)) holds

theorem download {ok : Bool} {j : JobRef} {point : DlPoint} {job : Job} {effect : DlEffect}
    {stop : Stop} (heeded : StopsHeeded s) (allowed : HeedsStops s (.downloader ok))
    (at' : s.downloader = some (j, point)) (allocated : s.heap j = some job)
    (does : dlStep s.maxRetries s.quiet job ok point = some effect)
    (inForce : s.stops j = some stop) :
    stop.admits effect.job.state = true ∧
      ∀ next, effect.next = some next → next.heeds stop = true := by
  obtain ⟨record, found, admits⟩ := heeded.honoured inForce
  cases allocated.symm.trans found
  have memory : point.allocates → ok = true := by
    intro allocates
    cases ok with
    | true => rfl
    | false =>
      have lifted := allowed (j, point) at' allocates
      rw [inForce] at lifted
      contradiction
  exact dlStep_heeds ((heeded.heeds inForce).1 _ at' rfl) admits memory does

theorem recordStop_of_ne {i j : JobRef} (different : i ≠ j) (s : Sys) (request : Request)
    (saved : Bool) : recordStop s j request saved i = s.stops i := by
  cases request <;> cases saved <;> simp [recordStop, different]

theorem request {request : Request} {j : JobRef} {saved : Bool} {job job' : Job} {stop : Stop}
    (heeded : StopsHeeded s) (allowed : HeedsStops s (.request request j saved))
    (allocated : s.heap j = some job) (admitted : request.apply job = some job')
    (inForce : recordStop s j request saved j = some stop) :
    stop.admits job'.state = true ∧ s.Heeds j stop := by
  cases request with
  | resume | retry => simp [recordStop] at inForce
  | pause =>
    simp only [Request.apply] at admitted
    split at admitted
    · contradiction
    rename_i pausable
    cases admitted
    cases saved with
    | true =>
      obtain rfl : Stop.paused = stop := by simpa [recordStop] using inForce
      exact ⟨rfl, allowed⟩
    | false =>
      obtain ⟨record, found, admits⟩ := heeded.honoured inForce
      cases allocated.symm.trans found
      rcases of_decide_eq_true (stopped_of_admits admits) with paused | cancelled
      · simp [paused] at pausable
      · simp [cancelled] at pausable
  | cancel =>
    simp only [Request.apply] at admitted
    split at admitted
    · contradiction
    cases admitted
    refine ⟨admits_cancelled stop, ?_⟩
    cases saved with
    | true =>
      obtain rfl : Stop.cancelled = stop := by simpa [recordStop] using inForce
      exact allowed
    | false => exact heeded.heeds inForce

theorem step (heeded : StopsHeeded s) (allowed : HeedsStops s a) (moves : Moves s a s') :
    StopsHeeded s' := by
  cases moves with
  | @pick ok j idle found =>
    refine heeded.at_job j (fun _ _ => rfl) (fun _ _ => rfl) ?_ (fun _ member _ => member) ?_
    · rintro held member different
      cases member
      exact absurd rfl different
    · intro stop inForce
      obtain ⟨_, job, allocated, queued⟩ := findNextQueued_spec found
      obtain ⟨record, found, admits⟩ := heeded.honoured inForce
      cases allocated.symm.trans found
      rw [queued] at admits
      exact absurd admits (not_admits_queued stop)
  | @download ok j point job effect at' allocated does =>
    refine heeded.at_job j (fun i different => s.setJob_heap_of_ne different _) (fun _ _ => rfl)
      ?_ (fun _ member _ => member) ?_
    · intro held member different
      obtain ⟨next, _, rfl⟩ := Option.map_eq_some_iff.mp member
      exact absurd rfl different
    · intro stop inForce
      obtain ⟨admits, next⟩ := heeded.download allowed at' allocated does inForce
      refine ⟨⟨effect.job, s.setJob_heap_self j _, admits⟩, ?_, (heeded.heeds inForce).2⟩
      intro held member _
      obtain ⟨point', goes, rfl⟩ := Option.map_eq_some_iff.mp member
      exact next point' goes
  | @dequeue ok j rest idle waiting =>
    refine heeded.at_job j (fun _ _ => rfl) (fun _ _ => rfl) (fun _ member _ => member) ?_ ?_
    · rintro held member different
      cases member
      exact absurd rfl different
    · intro stop inForce
      refine ⟨heeded.honoured inForce, (heeded.heeds inForce).1, ?_⟩
      intro held member _
      cases member
      rfl
  | @finalize ok j point job at' allocated =>
    refine heeded.at_job j (fun i different => s.setJob_heap_of_ne different _) (fun _ _ => rfl)
      (fun _ member _ => member) ?_ ?_
    · intro held member different
      obtain ⟨next, _, rfl⟩ := Option.map_eq_some_iff.mp member
      exact absurd rfl different
    · intro stop inForce
      obtain ⟨record, found, admits⟩ := heeded.honoured inForce
      cases allocated.symm.trans found
      obtain ⟨stays, next⟩ :=
        finStep_heeds ((heeded.heeds inForce).2 _ at' rfl) admits (Prod.eta (finStep job ok point)).symm
      refine ⟨⟨_, s.setJob_heap_self j _, stays⟩, (heeded.heeds inForce).1, ?_⟩
      intro held member _
      obtain ⟨point', goes, rfl⟩ := Option.map_eq_some_iff.mp member
      exact next point' goes
  | @workerAccepts fetch job segment working allocated found =>
    refine heeded.of_states rfl rfl rfl ?_
    intro j record found'
    by_cases same : j = fetch.job
    · subst same
      cases allocated.symm.trans found'
      exact ⟨_, s.setJob_heap_self _ _, rfl⟩
    · exact ⟨record, (s.setJob_heap_of_ne same _).trans found', rfl⟩
  | workerTakes | workerFails | dropEnds | poolCancel =>
    exact heeded.of_states rfl rfl rfl fun _ job found => ⟨job, found, rfl⟩
  | @request request j saved job job' known allocated admitted =>
    refine heeded.at_job j (fun i different => s.setJob_heap_of_ne different _)
      (fun i different => recordStop_of_ne different s request saved)
      (fun _ member _ => member) (fun _ member _ => member) ?_
    intro stop inForce
    obtain ⟨admits, heeds⟩ := heeded.request allowed allocated admitted inForce
    exact ⟨⟨job', s.setJob_heap_self j _, admits⟩, heeds⟩
  | @delete j job known allocated removable =>
    refine heeded.at_job j (fun i different => Function.update_of_ne different _ _)
      (fun i different => Function.update_of_ne different _ _)
      (fun _ member _ => member) (fun _ member _ => member) ?_
    intro stop inForce
    simp at inForce
  | @add j files free unknown unheld unfetched unrequested unstopped =>
    refine heeded.at_job j (fun i different => s.setJob_heap_of_ne different _) (fun _ _ => rfl)
      (fun _ member _ => member) (fun _ member _ => member) ?_
    intro stop inForce
    change s.stops j = some stop at inForce
    rw [unstopped] at inForce
    contradiction

end StopsHeeded

/-- In a run whose pauses and cancels find the workers at heeding points, every
stop in force is honoured: a cancelled job stays cancelled until a retry, a
paused one stays paused or becomes cancelled. -/
theorem stop_honoured {s₀ s : Sys} {j : JobRef} {stop : Stop} (initial : Initial s₀)
    (reachable : Reachable step HeedsStops s₀ s) (inForce : s.stops j = some stop) :
    ∃ job, s.heap j = some job ∧ stop.admits job.state = true := by
  have heeded : StopsHeeded s :=
    reachable.invariant (StopsHeeded.initial initial)
      fun _ _ _ heeded allowed taken => heeded.step allowed (moves_of_step taken)
  exact heeded.honoured inForce

theorem cancel_undone : ∃ s₀ s : Sys, ∃ j : JobRef, ∃ job : Job, Initial s₀ ∧
    Reachable step Anything s₀ s ∧ s.stops j = some .cancelled ∧ s.heap j = some job ∧
      job.state = .downloading := by
  let acts : List Act :=
    [.downloader true, .request .cancel 0 true, .downloader true, .downloader true]
  have runs : ((replay step (fun _ _ => true) (booted [⟨.queued, false, 0, []⟩] 3) acts).any
      fun s => decide (s.stops 0 = some .cancelled) &&
        (s.heap 0).any fun job => decide (job.state = .downloading)) = true := by
    decide +kernel
  obtain ⟨s, reachable, ends⟩ := exists_reachable (fun _ _ _ => trivial) runs
  rw [Bool.and_eq_true, decide_eq_true_eq] at ends
  obtain ⟨job, allocated, downloading⟩ := Option.any_eq_true _ _ |>.mp ends.2
  exact ⟨_, s, 0, job, booted_initial 3 (by decide), reachable, ends.1, allocated,
    of_decide_eq_true downloading⟩

theorem stop_honoured_dispatching : ∃ s : Sys, ∃ job : Job,
    Reachable step HeedsStops (booted [⟨.queued, false, 0, []⟩] 3) s ∧
      s.stops 0 = some .paused ∧ s.downloader = none ∧ s.heap 0 = some job ∧
      Stop.paused.admits job.state = true := by
  let acts : List Act := List.replicate 5 (.downloader true) ++ [.request .pause 0 true] ++
    List.replicate 4 (.downloader true)
  have runs : ((replay step (fun s a => decide (HeedsStops s a))
      (booted [⟨.queued, false, 0, []⟩] 3) acts).any fun s =>
        decide (s.stops 0 = some .paused) && decide (s.downloader = none)) = true := by
    decide +kernel
  obtain ⟨s, reachable, ends⟩ := exists_reachable (fun _ _ passed => of_decide_eq_true passed) runs
  rw [Bool.and_eq_true, decide_eq_true_eq, decide_eq_true_eq] at ends
  obtain ⟨job, allocated, admits⟩ :=
    stop_honoured (booted_initial 3 (by decide)) reachable ends.1
  exact ⟨s, job, reachable, ends.1, ends.2, allocated, admits⟩

end NzbDownloader.Download
