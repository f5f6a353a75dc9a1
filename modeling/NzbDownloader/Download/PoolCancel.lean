import NzbDownloader.Download.Ownership

/-!
# Cancelling the pool for a request

A pause or cancel of any job takes every waiting fetch off the pool's queue.
The waiting fetches belong to the job the downloader is processing, which need
not be the job of the request.
-/

namespace NzbDownloader.Download

open Queue Lib.Transition

def CancelsOwn (s : Sys) : Act → Prop
  | .poolCancel j => s.poolQueue = [] ∨ ∀ held ∈ s.downloader, held.1 = j
  | _ => True

instance (s : Sys) : (a : Act) → Decidable (CancelsOwn s a)
  | .poolCancel j => inferInstanceAs (Decidable (_ ∨ ∀ held ∈ s.downloader, held.1 = j))
  | .downloader _ | .finalizer _ | .workerTakes | .workerEnds _ _ | .dropEnds | .request _ _ _
  | .delete _ | .add _ _ => isTrue trivial

def requester (s : Sys) : Act → Option JobRef
  | .request _ j _ => some j
  | .poolCancel j => some j
  | .dropEnds => s.poolDropped.head?.map Prod.fst
  | _ => none

structure CancelledOwn (s : Sys) : Prop where
  fetches : FetchesOwned s
  dropped : ∀ entry ∈ s.poolDropped, entry.2.job = entry.1
  cancelled : ∀ entry ∈ s.cancelledFetches, entry.2.job = entry.1

/-- Nothing of the job changes: its record, the thread that may be processing it,
and its fetches at every stage of the pool. -/
structure Undisturbed (s s' : Sys) (j : JobRef) : Prop where
  heap : s'.heap j = s.heap j
  downloader : s'.downloader = s.downloader
  poolQueue : s'.poolQueue.filter (·.job = j) = s.poolQueue.filter (·.job = j)
  poolActive : s'.poolActive = s.poolActive
  poolDropped : s'.poolDropped.filter (·.2.job = j) = s.poolDropped.filter (·.2.job = j)
  cancelled : s'.cancelledFetches.filter (·.2.job = j) = s.cancelledFetches.filter (·.2.job = j)

section Steps

variable {s s' : Sys} {a : Act} {i j : JobRef}

theorem CancelledOwn.waiting (own : CancelledOwn s) (allowed : CancelsOwn s (.poolCancel j)) :
    ∀ fetch ∈ s.poolQueue, fetch.job = j := by
  intro fetch waiting
  rcases allowed with none | processing
  · rw [none] at waiting
    contradiction
  · obtain ⟨point, here, _⟩ := own.fetches fetch (mem_outstanding.mpr (.inl waiting))
    exact processing _ here

theorem CancelledOwn.step (own : CancelledOwn s) (allowed : CancelsOwn s a) (moves : Moves s a s') :
    CancelledOwn s' := by
  have fetches := own.fetches.step moves
  cases moves with
  | @dropEnds entry rest dropped =>
    have ofDropped := own.dropped
    rw [dropped] at ofDropped
    refine ⟨fetches, fun entry' member => ofDropped entry' (.tail _ member), ?_⟩
    intro entry' member
    rcases List.mem_cons.mp member with rfl | earlier
    · exact ofDropped entry' (.head _)
    · exact own.cancelled entry' earlier
  | @poolCancel j requested =>
    refine ⟨fetches, ?_, own.cancelled⟩
    intro entry member
    rcases List.mem_append.mp member with earlier | now
    · exact own.dropped entry earlier
    · obtain ⟨fetch, waiting, rfl⟩ := List.mem_map.mp now
      exact own.waiting allowed fetch waiting
  | _ => exact ⟨fetches, own.dropped, own.cancelled⟩

theorem CancelledOwn.initial (initial : Initial s) : CancelledOwn s where
  fetches := initial.fetchesOwned
  dropped := by simp [initial.poolDropped]
  cancelled := by simp [initial.cancelledFetches]

theorem CancelledOwn.undisturbed (own : CancelledOwn s) (allowed : CancelsOwn s a)
    (moves : Moves s a s') (acts : requester s a = some i) (other : j ≠ i) :
    Undisturbed s s' j := by
  cases moves with
  | request known allocated admitted =>
    cases acts
    exact ⟨s.setJob_heap_of_ne other _, rfl, rfl, rfl, rfl, rfl⟩
  | @dropEnds entry rest dropped =>
    have owner := own.dropped entry (by rw [dropped]; exact .head _)
    simp only [requester, dropped, List.head?_cons, Option.map_some, Option.some.injEq] at acts
    have foreign : ¬entry.2.job = j := by
      rw [owner, acts]
      exact fun same => other same.symm
    refine ⟨rfl, rfl, rfl, rfl, ?_, ?_⟩
    · simp [dropped, foreign]
    · simp [foreign]
  | poolCancel requested =>
    cases acts
    have foreign : ∀ fetch ∈ s.poolQueue, ¬fetch.job = j := by
      intro fetch waiting same
      exact other (same.symm.trans (own.waiting allowed fetch waiting))
    refine ⟨rfl, rfl, ?_, rfl, ?_, rfl⟩
    · symm
      simpa using foreign
    · simpa using foreign
  | _ => contradiction

end Steps

/-- In a run whose pool cancellations find the downloader with the job of the
request, a fetch is cancelled only for a request on its own job, and no request
disturbs another job. -/
theorem requests_undisturbing {s₀ s : Sys} (initial : Initial s₀)
    (reachable : Reachable step CancelsOwn s₀ s) :
    (∀ entry ∈ s.cancelledFetches, entry.2.job = entry.1) ∧
    ∀ a s' i j, CancelsOwn s a → step s a = some s' → requester s a = some i → j ≠ i →
      Undisturbed s s' j := by
  have own : CancelledOwn s :=
    reachable.invariant (CancelledOwn.initial initial)
      fun _ _ _ own allowed taken => own.step allowed (moves_of_step taken)
  refine ⟨own.cancelled, ?_⟩
  intro a s' i j allowed taken acts other
  exact own.undisturbed allowed (moves_of_step taken) acts other

def oneSegment : Job :=
  ⟨.queued, false, 0, [⟨"a.bin".toList, [⟨"a@news", false⟩]⟩]⟩

def dispatchesSegment : List Act :=
  List.replicate 8 (.downloader true)

/-- While job 0 is downloading, the queued job 1 is paused.  The fetch of job 0's
only segment is cancelled, so job 0 is found incomplete and loses a retry. -/
theorem pause_cancels_other : ∃ s₀ s : Sys, ∃ i j : JobRef, ∃ before after : Job, ∃ fetch : Fetch,
    Initial s₀ ∧ Reachable step Anything s₀ s ∧ i ≠ j ∧ (i, fetch) ∈ s.cancelledFetches ∧
      fetch.job = j ∧ s₀.heap j = some before ∧ s.heap j = some after ∧
      after.contentComplete = false ∧ after.retriesUsed = before.retriesUsed + 1 := by
  let acts : List Act := dispatchesSegment ++
    [.request .pause 1 true, .poolCancel 1, .dropEnds] ++ List.replicate 6 (.downloader true)
  have runs : ((replay step (fun _ _ => true) (booted [oneSegment, oneSegment] 3) acts).any
      fun s => decide ((1, ⟨0, 0, 0⟩) ∈ s.cancelledFetches) &&
        decide (s.heap 0 = some { oneSegment with retriesUsed := 1 })) = true := by
    decide +kernel
  obtain ⟨s, reachable, ends⟩ := exists_reachable (fun _ _ _ => trivial) runs
  rw [Bool.and_eq_true, decide_eq_true_eq, decide_eq_true_eq] at ends
  exact ⟨_, s, 1, 0, oneSegment, _, ⟨0, 0, 0⟩, booted_initial 3 (by decide), reachable, by decide,
    ends.1, rfl, rfl, ends.2, by decide, rfl⟩

theorem requests_undisturbing_paused : ∃ s s' : Sys,
    Reachable step CancelsOwn (booted [oneSegment, oneSegment] 3) s ∧
      s.cancelledFetches = [(0, ⟨0, 0, 0⟩)] ∧ step s (.request .cancel 1 true) = some s' ∧
      (∀ entry ∈ s.cancelledFetches, entry.2.job = entry.1) ∧ Undisturbed s s' 0 := by
  let acts : List Act := dispatchesSegment ++ [.request .pause 0 true, .poolCancel 0, .dropEnds]
  have runs : ((replay step (fun s a => decide (CancelsOwn s a))
      (booted [oneSegment, oneSegment] 3) acts).any
      fun s => decide (s.cancelledFetches = [(0, ⟨0, 0, 0⟩)]) &&
        (step s (.request .cancel 1 true)).isSome) = true := by
    decide +kernel
  obtain ⟨s, reachable, ends⟩ := exists_reachable (fun _ _ passed => of_decide_eq_true passed) runs
  rw [Bool.and_eq_true, decide_eq_true_eq] at ends
  obtain ⟨s', taken⟩ := Option.isSome_iff_exists.mp ends.2
  obtain ⟨own, undisturbed⟩ := requests_undisturbing (booted_initial 3 (by decide)) reachable
  exact ⟨s, s', reachable, ends.1, taken, own,
    undisturbed (.request .cancel 1 true) s' 1 0 trivial taken rfl (by decide)⟩

end NzbDownloader.Download
