import NzbDownloader.Download.Ownership

/-!
# Deleting a job that a worker refers to

`queue_remove_job` refuses a job that is busy or in one of four active states.
-/

namespace NzbDownloader.Download

open Queue Lib.Transition Assertions

/-- While no held job is paused or cancelled, a held job is queued only until
`JOB_DOWNLOADING`, and otherwise active or busy. -/
def heldActive : Assertions where
  dl point job :=
    match point with
    | .picked | .reachable => job.state = .queued
    | .stopping | .stopBusy | .marking => False
    | _ => job.state.active = true
  queue job := job.state.active = true
  fin point job :=
    match point with
    | .begun | .extracting | .extracted => job.state.active = true ∧ job.busy = true
    | .installing => job.state = .completed ∧ job.busy = true
    | .skipping | .marking => False
    | _ => job.state.active = true

variable {job : Job}

theorem ne_queued_of_active (active : job.state.active) : job.state ≠ .queued := by
  intro queued
  rw [queued] at active
  contradiction

theorem not_stopped_of_active (active : job.state.active) : ¬job.stopped = true := by
  intro stopped
  rcases of_decide_eq_true stopped with paused | cancelled
  · rw [paused] at active
    contradiction
  · rw [cancelled] at active
    contradiction

theorem not_wasCancelled_of_active (active : job.state.active) :
    ¬job.wasCancelled = true := by
  intro cancelled
  rw [of_decide_eq_true cancelled] at active
  contradiction

theorem held_cases {s : Sys} {j : JobRef} (hold : heldActive.Hold s) (held : j ∈ s.holders)
    (allocated : s.heap j = some job) :
    job.state.active ∨ job.state = .completed ∧ job.busy ∨ job.state = .queued ∧
      (s.downloader = some (j, .picked) ∨ s.downloader = some (j, .reachable)) := by
  rcases mem_holders.mp held with ⟨point, here⟩ | waiting | ⟨point, here⟩
  · have asserted := hold.dl here allocated
    cases point <;> first
      | exact .inl asserted
      | exact asserted.elim
      | exact .inr (.inr ⟨asserted, .inl here⟩)
      | exact .inr (.inr ⟨asserted, .inr here⟩)
  · exact .inl (hold.queue waiting allocated)
  · have asserted := hold.fin here allocated
    cases point <;> first
      | exact .inl asserted
      | exact .inl asserted.1
      | exact asserted.elim
      | exact .inr (.inl asserted)

theorem heldActive_not_lifted {s : Sys} {j : JobRef} (hold : heldActive.Hold s)
    (held : j ∈ s.holders) (allocated : s.heap j = some job) :
    job.state ≠ .paused ∧ job.state ≠ .failed ∧ job.state ≠ .cancelled := by
  rcases held_cases hold held allocated with active | ⟨completed, _⟩ | ⟨queued, _⟩
  · refine ⟨?_, ?_, ?_⟩ <;> intro state <;> rw [state] at active <;> contradiction
  · rw [completed]
    decide
  · rw [queued]
    decide

theorem heldActive_sound : heldActive.Sound where
  pick queued := queued
  download := by
    intro maxRetries quiet job ok point effect held does
    unfold dlStep at does
    split at does <;> (repeat' split at does) <;> cases does <;> first
      | exact after_leave _
      | exact after_goto held
      | exact after_goto rfl
      | exact after_pass held
      | exact (not_stopped_of_active held ‹_›).elim
      | exact (not_wasCancelled_of_active held ‹_›).elim
  dequeue active := active
  finalize := by
    intro job ok point job' next held does
    unfold finStep at does
    split at does <;> (repeat' split at does) <;> cases does <;> first
      | exact held
      | exact held.1
      | exact ⟨held, rfl⟩
      | exact ⟨rfl, held.2⟩
      | exact (not_stopped_of_active held ‹_›).elim
      | exact (not_wasCancelled_of_active held ‹_›).elim
  mark := by
    intro job messageId point held
    cases point <;> exact held
  queue_ne_queued active := ne_queued_of_active active
  fin_ne_queued := by
    intro point job held
    cases point <;> first
      | exact ne_queued_of_active held
      | exact ne_queued_of_active held.1
      | exact held.elim
      | (rw [show job.state = .completed from held.1]; decide)

/-- The requests that leave the jobs of the workers alone: no pause or cancel of
a job a worker refers to, and no delete of a job the downloader has picked and
not yet marked as downloading. -/
def SparesHeld (s : Sys) : Act → Prop
  | .request request j _ => request.cancelsPool = true → ¬s.Refers j
  | .delete j => s.downloader ≠ some (j, .picked) ∧ s.downloader ≠ some (j, .reachable)
  | _ => True

instance (s : Sys) : (a : Act) → Decidable (SparesHeld s a)
  | .request request j _ => inferInstanceAs (Decidable (request.cancelsPool = true → ¬s.Refers j))
  | .delete _ => inferInstanceAs (Decidable (_ ∧ _))
  | .downloader _ | .finalizer _ | .workerTakes | .workerEnds _ _ | .dropEnds | .poolCancel _
  | .add _ _ => isTrue trivial

theorem heldActive_step {s s' : Sys} {a : Act} (hold : heldActive.Hold s) (spares : SparesHeld s a)
    (taken : step s a = some s') : heldActive.Hold s' := by
  refine hold.step heldActive_sound (moves_of_step taken) ?_
  intro request j saved job job' asked allocated admitted
  subst asked
  -- No worker holds the job: a pause or cancel spares it, the others do not apply.
  have free : j ∉ s.holders := by
    intro held
    cases stops : request.cancelsPool with
    | true => exact spares stops (.inl held)
    | false =>
      obtain ⟨notPaused, notFailed, notCancelled⟩ := heldActive_not_lifted hold held allocated
      rcases Request.state_of_lift stops admitted with paused | failed | cancelled
      · exact notPaused paused
      · exact notFailed failed
      · exact notCancelled cancelled
  exact Assertions.Kept.of_not_held free

theorem not_removable_of_held {s : Sys} {j : JobRef} (hold : heldActive.Hold s)
    (held : j ∈ s.holders) (spares : SparesHeld s (.delete j)) (allocated : s.heap j = some job) :
    ¬job.removable = true := by
  rcases held_cases hold held allocated with active | ⟨_, busy⟩ | ⟨_, picked | reachable⟩
  · simp [Job.removable, active]
  · simp [Job.removable, busy]
  · exact absurd picked spares.1
  · exact absurd reachable spares.2

/-- In a run that spares the jobs of the workers, `queue_remove_job` never
succeeds on a job a worker refers to. -/
theorem delete_not_referred {s₀ s s' : Sys} {j : JobRef} (initial : Initial s₀)
    (reachable : Reachable step SparesHeld s₀ s) (spares : SparesHeld s (.delete j))
    (deleted : step s (.delete j) = some s') : ¬s.Refers j := by
  have hold : heldActive.Hold s :=
    reachable.invariant (Assertions.Hold.initial heldActive initial)
      fun _ _ _ hold spares taken => heldActive_step hold spares taken
  rw [hold.fetches.refers_iff]
  intro held
  cases moves_of_step deleted with
  | delete known allocated removable =>
    exact not_removable_of_held hold held spares allocated removable

theorem delete_picked : ∃ s₀ s s' : Sys, ∃ j : JobRef, Initial s₀ ∧
    Reachable step Anything s₀ s ∧ step s (.delete j) = some s' ∧ s.Refers j := by
  let s₀ := booted [⟨.queued, false, 0, []⟩] 3
  let s : Sys := { s₀ with downloader := some (0, .picked) }
  have picked : step s₀ (.downloader true) = some s := rfl
  have deletes : (step s (.delete 0)).isSome := by decide
  obtain ⟨s', deleted⟩ := Option.isSome_iff_exists.mp deletes
  refine ⟨s₀, s, s', 0, booted_initial 3 (by decide), ?_, deleted, ?_⟩
  · exact Reachable.tail _ Reachable.refl trivial picked
  · exact .inl (mem_holders.mpr (.inl ⟨.picked, rfl⟩))

/-- A job without segments and PAR2 files is downloaded, handed over, completed
without an output directory and deleted. -/
theorem delete_not_referred_completed : ∃ s s' : Sys,
    Reachable step SparesHeld (booted [⟨.queued, false, 0, []⟩] 3) s ∧
      step s (.delete 0) = some s' ∧ ¬s.Refers 0 := by
  let acts : List Act := downloadsEmpty ++ List.replicate 3 (.finalizer true) ++
    List.replicate 3 (.finalizer false)
  have runs : ((replay step (fun s a => decide (SparesHeld s a))
      (booted [⟨.queued, false, 0, []⟩] 3) acts).any fun s =>
        decide (SparesHeld s (.delete 0)) && (step s (.delete 0)).isSome) = true := by
    decide +kernel
  obtain ⟨s, reachable, allowed⟩ :=
    exists_reachable (fun _ _ passed => of_decide_eq_true passed) runs
  rw [Bool.and_eq_true, decide_eq_true_eq] at allowed
  obtain ⟨s', deleted⟩ := Option.isSome_iff_exists.mp allowed.2
  exact ⟨s, s', reachable, deleted,
    delete_not_referred (booted_initial 3 (by decide)) reachable allowed.1 deleted⟩

end NzbDownloader.Download
