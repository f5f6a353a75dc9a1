import NzbDownloader.Download.Ownership

/-!
# At most one owner

A job is taken by the downloader when it is queued, so it is held twice once a held job can
become queued.
-/

namespace NzbDownloader.Download

open Queue Lib.Transition JobState Assertions

def heldOnce : Assertions where
  dl point job :=
    match point with
    | .picked | .reachable => job.state ≠ .completed
    | _ => job.state ≠ .queued ∧ job.state ≠ .completed
  queue job := job.state ≠ .queued ∧ job.state ≠ .completed
  fin point job :=
    match point with
    | .installing => job.state ≠ .queued
    | _ => job.state ≠ .queued ∧ job.state ≠ .completed

theorem heldOnce_sound : heldOnce.Sound where
  pick := by
    intro job queued completed
    rw [queued] at completed
    contradiction
  download := by
    intro maxRetries quiet job ok point effect held does
    unfold dlStep at does
    split at does <;> (repeat' split at does) <;> cases does <;> first
      | exact after_leave _
      | exact after_goto held
      | exact after_goto ⟨noConfusion, noConfusion⟩
      | exact after_pass held
  dequeue unfinished := unfinished
  finalize := by
    intro job ok point job' next held does
    unfold finStep at does
    split at does <;> (repeat' split at does) <;> cases does <;> first
      | exact held
      | exact ⟨noConfusion, noConfusion⟩
      | exact noConfusion
  mark := by
    intro job messageId point held
    cases point <;> exact held
  queue_ne_queued unfinished := unfinished.1
  fin_ne_queued := by
    intro point job held
    cases point <;> first
      | exact held
      | exact held.1

variable {job : Job}

theorem heldOnce_of_stopped (stopped : job.state = .paused ∨ job.state = .cancelled) :
    (∀ point, heldOnce.dl point job) ∧ heldOnce.queue job ∧ ∀ point, heldOnce.fin point job := by
  have unfinished : job.state ≠ .queued ∧ job.state ≠ .completed := by
    rcases stopped with paused | cancelled
    · rw [paused]
      decide
    · rw [cancelled]
      decide
  refine ⟨fun point => ?_, unfinished, fun point => ?_⟩
  · cases point <;> first
      | exact unfinished
      | exact unfinished.2
  · cases point <;> first
      | exact unfinished
      | exact unfinished.1

def LiftsUnheld (s : Sys) : Act → Prop
  | .request request j _ => request.cancelsPool = false → ¬s.Refers j
  | _ => True

instance (s : Sys) : (a : Act) → Decidable (LiftsUnheld s a)
  | .request request j _ => inferInstanceAs (Decidable (request.cancelsPool = false → ¬s.Refers j))
  | .downloader _ | .finalizer _ | .workerTakes | .workerEnds _ _ | .dropEnds | .poolCancel _
  | .delete _ | .add _ _ => isTrue trivial

theorem heldOnce_step {s s' : Sys} {a : Act} (hold : heldOnce.Hold s) (lifts : LiftsUnheld s a)
    (moves : Moves s a s') : heldOnce.Hold s' := by
  refine hold.step heldOnce_sound moves ?_
  intro request j saved job job' asked allocated admitted
  subst asked
  cases stops : request.cancelsPool with
  | true =>
    obtain ⟨dl, queue, fin⟩ := heldOnce_of_stopped (Request.state_of_stop stops admitted)
    exact ⟨fun point _ _ => dl point, fun _ _ => queue, fun point _ _ => fin point⟩
  | false => exact Assertions.Kept.of_not_held fun held => lifts stops (.inl held)

theorem heldOnce_reachable {s₀ s : Sys} (initial : Initial s₀)
    (reachable : Reachable step LiftsUnheld s₀ s) : heldOnce.Hold s :=
  reachable.invariant (Assertions.Hold.initial heldOnce initial)
    fun _ _ _ hold lifts taken => heldOnce_step hold lifts (moves_of_step taken)

theorem heldOnce_dl_ne_completed {point : DlPoint} (held : heldOnce.dl point job) :
    job.state ≠ .completed := by
  cases point <;> first
    | exact held.2
    | exact held

theorem finStep_completed {ok : Bool} {point : FinPoint} (held : heldOnce.fin point job)
    (completed : job.state = .completed) : (finStep job ok point).1.state = .completed := by
  cases point <;> first
    | exact absurd completed held.2
    | exact completed

theorem completed_step {s s' : Sys} {a : Act} (hold : heldOnce.Hold s) (moves : Moves s a s')
    {j : JobRef} {job' : Job} (allocated : s.heap j = some job) (completed : job.state = .completed)
    (allocated' : s'.heap j = some job') : job'.state = .completed := by
  have unchanged : s'.heap j = s.heap j → job'.state = .completed := by
    intro same
    cases (allocated.symm.trans (same.symm.trans allocated'))
    exact completed
  cases moves with
  | pick | dequeue | workerTakes | workerFails | dropEnds | poolCancel => exact unchanged rfl
  | @download ok i point record effect at' found does =>
    by_cases same : j = i
    · subst same
      cases allocated.symm.trans found
      exact absurd completed (heldOnce_dl_ne_completed (hold.dl at' found))
    · exact unchanged (s.setJob_heap_of_ne same _)
  | @finalize ok i point record at' found =>
    by_cases same : j = i
    · subst same
      cases allocated.symm.trans found
      cases (s.setJob_heap_self j _).symm.trans allocated'
      exact finStep_completed (hold.fin at' found) completed
    · exact unchanged (s.setJob_heap_of_ne same _)
  | @workerAccepts fetch record segment working found _ =>
    by_cases same : j = fetch.job
    · subst same
      cases allocated.symm.trans found
      cases (s.setJob_heap_self fetch.job _).symm.trans allocated'
      exact completed
    · exact unchanged (s.setJob_heap_of_ne same _)
  | @request request i saved record record' known found admitted =>
    by_cases same : j = i
    · subst same
      cases allocated.symm.trans found
      rw [request.apply_completed completed] at admitted
      contradiction
    · exact unchanged (s.setJob_heap_of_ne same _)
  | @delete i record known found removable =>
    by_cases same : j = i
    · subst same
      simp at allocated'
    · exact unchanged (Function.update_of_ne same _ _)
  | @add i files free unknown unheld unfetched unrequested unstopped =>
    by_cases same : j = i
    · subst same
      rw [free] at allocated
      contradiction
    · exact unchanged (s.setJob_heap_of_ne same _)

/-- In a run that resumes and retries only jobs no worker refers to, every job is
held at most once, none is completed while it waits for the finalizer or before
the finalizer completes it, and a completed job stays completed. -/
theorem single_owner {s₀ s : Sys} (initial : Initial s₀)
    (reachable : Reachable step LiftsUnheld s₀ s) :
    s.holders.Nodup ∧
    (∀ j job, s.heap j = some job →
      (j ∈ s.finalizeQueue ∨ ∃ point, s.finalizer = some (j, point) ∧ point ≠ .installing) →
        job.state ≠ .completed) ∧
    ∀ a s' j job job', step s a = some s' → s.heap j = some job → job.state = .completed →
      s'.heap j = some job' → job'.state = .completed := by
  have hold := heldOnce_reachable initial reachable
  refine ⟨hold.single, ?_, ?_⟩
  · rintro j job allocated (waiting | ⟨point, here, early⟩)
    · exact (hold.queue waiting allocated).2
    · have asserted := hold.fin here allocated
      cases point <;> first
        | exact asserted.2
        | exact absurd rfl early
  · intro a s' j job job' taken allocated completed allocated'
    exact completed_step hold (moves_of_step taken) allocated completed allocated'

/-- A job that waits for the finalizer is paused and resumed.  The downloader
picks it again; then the finalizer completes it, and the downloader finds too
little disk space and fails it. -/
theorem resume_held_twice : ∃ s₀ s₁ s₂ s₃ : Sys, ∃ j : JobRef, ∃ completed failed : Job,
    Initial s₀ ∧ Reachable step Anything s₀ s₁ ∧ s₁.holders = [j, j] ∧
    Reachable step Anything s₁ s₂ ∧ s₂.heap j = some completed ∧ completed.state = .completed ∧
    Reachable step Anything s₂ s₃ ∧ s₃.heap j = some failed ∧ failed.state = .failed := by
  let run := replay step fun _ _ => true
  let resumes : List Act :=
    [.request .pause 0 true, .request .resume 0 true, .downloader true]
  let completes : List Act := List.replicate 3 (.finalizer true) ++
    List.replicate 3 (.finalizer false)
  have runs : ((run (booted [⟨.queued, false, 0, []⟩] 3) (downloadsEmpty ++ resumes)).any
      fun s₁ => decide (s₁.holders = [0, 0]) && (run s₁ completes).any
      fun s₂ => ((s₂.heap 0).any fun job => decide (job.state = .completed)) &&
        (run s₂ [.downloader true, .downloader false]).any
      fun s₃ => (s₃.heap 0).any fun job => decide (job.state = .failed)) = true := by
    decide +kernel
  simp only [Option.any_eq_true, Bool.and_eq_true, decide_eq_true_eq] at runs
  obtain ⟨s₁, first, twice, s₂, second, ⟨completed, found, isCompleted⟩, s₃, third, failed,
    found', isFailed⟩ := runs
  have reaches : ∀ {s s' : Sys} {acts : List Act}, run s acts = some s' →
      Reachable step Anything s s' :=
    fun executed => replay_reachable (fun _ _ _ => trivial) executed
  exact ⟨_, s₁, s₂, s₃, 0, completed, failed, booted_initial 3 (by decide), reaches first, twice,
    reaches second, found, isCompleted, reaches third, found', isFailed⟩

theorem single_owner_resumed : ∃ s : Sys,
    Reachable step LiftsUnheld (booted [⟨.queued, false, 0, []⟩] 3) s ∧
      s.finalizer = some (0, .took) ∧ s.holders.Nodup := by
  let acts : List Act := List.replicate 5 (.downloader true) ++ [.request .pause 0 true] ++
    List.replicate 4 (.downloader true) ++ [.request .resume 0 true] ++ downloadsEmpty ++
    [.finalizer true]
  have runs : ((replay step (fun s a => decide (LiftsUnheld s a))
      (booted [⟨.queued, false, 0, []⟩] 3) acts).any
      fun s => decide (s.finalizer = some (0, .took))) = true := by
    decide +kernel
  obtain ⟨s, reachable, took⟩ := exists_reachable (fun _ _ passed => of_decide_eq_true passed) runs
  exact ⟨s, reachable, of_decide_eq_true took,
    (single_owner (booted_initial 3 (by decide)) reachable).1⟩

end NzbDownloader.Download
