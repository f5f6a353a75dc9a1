import Mathlib.Data.List.Nodup
import NzbDownloader.Lib.Tally
import NzbDownloader.Lib.Transition

/-!
# The pool of NNTP connections

`nntp/nntp_pool.c` at the grain of its critical sections: any number of calls of
its functions are in progress at once, each of them between two sections, while
the worker threads take fetches off the queue.  Each call of `nntp_pool_fetch`
has a ticket of its own.

A call that touches the pool after it was freed has no defined behaviour; the
model has no step for it.
-/

namespace NzbDownloader.Nntp

open Lib Transition List Option Prod

def errTransport : ℤ :=
  -1

def errCancelled : ℤ :=
  -2

structure Attempt where
  opens : Bool
  status : ℤ
  deriving DecidableEq, Repr

/-- The loop of `run_job`: the status it returns, and whether the connection is
open afterwards.  The list has an attempt for each of the rounds the loop may
make; those after a success are not made. -/
def runLoop : (status : ℤ) → (connected : Bool) → List Attempt → ℤ × Bool
  | status, connected, [] => (status, connected)
  | _, connected, attempt :: rest =>
      if !connected && !attempt.opens then runLoop errTransport false rest
      else if 200 ≤ attempt.status ∧ attempt.status < 400 then (attempt.status, true)
      else runLoop attempt.status (0 ≤ attempt.status) rest

def runJob (connected : Bool) (attempts : List Attempt) : ℤ × Bool :=
  runLoop errTransport connected attempts

inductive WorkerPoint
  | waiting
  | running (ticket : ℕ)
  | finished
  | exited
  deriving DecidableEq, Repr

open WorkerPoint

structure Worker where
  point : WorkerPoint := .waiting
  conn : Bool := false
  seenCloseGen : ℕ := 0
  deriving DecidableEq, Repr

def WorkerPoint.holds : WorkerPoint → List ℕ
  | .running ticket => [ticket]
  | .waiting | .finished | .exited => []

inductive Call
  /-- `nntp_pool_fetch`, past its first check of `shutdown` and with its job created. -/
  | fetching (ticket : ℕ)
  /-- `nntp_pool_cancel_all`, with the jobs it has detached and not released, and
  whether `nntp_pool_destroy` called it. -/
  | cancelling (pending : List ℕ) (destroys : Bool)
  | joining (joined : ℕ)
  deriving DecidableEq, Repr

def Call.pending : Call → List ℕ
  | .cancelling pending _ => pending
  | .fetching _ | .joining _ => []

def Call.undecided : Call → List ℕ
  | .fetching ticket => [ticket]
  | .cancelling _ _ | .joining _ => []

section Holdings

variable (ticket : ℕ) (pending : List ℕ) (destroys : Bool)

@[simp] theorem WorkerPoint.holds_waiting : waiting.holds = [] := rfl

@[simp] theorem WorkerPoint.holds_running : (running ticket).holds = [ticket] := rfl

@[simp] theorem WorkerPoint.holds_finished : finished.holds = [] := rfl

@[simp] theorem Call.pending_fetching : (Call.fetching ticket).pending = [] := rfl

@[simp] theorem Call.pending_cancelling : (Call.cancelling pending destroys).pending = pending := rfl

@[simp] theorem Call.undecided_fetching : (Call.fetching ticket).undecided = [ticket] := rfl

@[simp] theorem Call.undecided_cancelling : (Call.cancelling pending destroys).undecided = [] := rfl

end Holdings

structure Pool where
  queue : List ℕ
  shutdown : Bool
  active : ℕ
  closeGen : ℕ
  workers : List Worker
  calls : List Call
  destroyed : Bool
  freed : Bool
  tickets : ℕ
  accepted : List ℕ
  refused : List ℕ
  started : List ℕ
  completed : List (ℕ × ℤ)
  deriving DecidableEq, Repr

open Pool

inductive PoolAct
  | fetch (allocated : Bool)
  | enqueue (k : ℕ)
  | closeIdle
  | cancelAll
  | destroy
  | cancelNext (k : ℕ)
  | cancelEnds (k : ℕ)
  | join (k : ℕ)
  | free (k : ℕ)
  | closeConn (w : ℕ)
  | take (w : ℕ)
  /-- Worker `w` runs its job and calls `done_cb`; `idle` if it drops a connection
  that has been idle for long. -/
  | run (w : ℕ) (idle : Bool) (attempts : List Attempt)
  | rest (w : ℕ)
  | exit (w : ℕ)
  deriving DecidableEq, Repr

def Worker.outdated (worker : Worker) (pool : Pool) : Bool :=
  worker.conn && worker.seenCloseGen ≠ pool.closeGen

namespace Pool

def setCall (pool : Pool) (k : ℕ) (call : Call) : Pool :=
  { pool with calls := pool.calls.set k call }

def endCall (pool : Pool) (k : ℕ) : Pool :=
  { pool with calls := pool.calls.eraseIdx k }

def setWorker (pool : Pool) (w : ℕ) (worker : Worker) : Pool :=
  { pool with workers := pool.workers.set w worker }

def callStep (pool : Pool) : PoolAct → Option Pool
  | .fetch allocated =>
      if pool.freed then none
      else if pool.shutdown || !allocated then
        some { pool with tickets := pool.tickets + 1, refused := pool.tickets :: pool.refused }
      else
        some { pool with
          tickets := pool.tickets + 1, calls := pool.calls ++ [.fetching pool.tickets] }
  | .enqueue k =>
      match pool.calls[k]? with
      | some (.fetching ticket) =>
          if pool.freed then none
          else if pool.shutdown then
            some { pool.endCall k with refused := ticket :: pool.refused }
          else
            some { pool.endCall k with
              queue := pool.queue ++ [ticket], accepted := pool.accepted ++ [ticket] }
      | _ => none
  | .closeIdle => if pool.freed then none else some { pool with closeGen := pool.closeGen + 1 }
  | .cancelAll =>
      if pool.freed then none
      else some { pool with queue := [], calls := pool.calls ++ [.cancelling pool.queue false] }
  | .destroy =>
      if pool.destroyed then none
      else
        some { pool with
          destroyed := true, queue := [], calls := pool.calls ++ [.cancelling pool.queue true] }
  | .cancelNext k =>
      match pool.calls[k]? with
      | some (.cancelling (ticket :: pending) destroys) =>
          some { pool.setCall k (.cancelling pending destroys) with
            completed := (ticket, errCancelled) :: pool.completed }
      | _ => none
  | .cancelEnds k =>
      match pool.calls[k]? with
      | some (.cancelling [] false) => some (pool.endCall k)
      | some (.cancelling [] true) => some { pool.setCall k (.joining 0) with shutdown := true }
      | _ => none
  | .join k =>
      match pool.calls[k]? with
      | some (.joining joined) =>
          if (pool.workers[joined]?).any (·.point = .exited) then
            some (pool.setCall k (.joining (joined + 1)))
          else none
      | _ => none
  | .free k =>
      match pool.calls[k]? with
      | some (.joining joined) =>
          if joined = pool.workers.length then some { pool.endCall k with freed := true } else none
      | _ => none
  | _ => none

def workerStep (pool : Pool) (w : ℕ) (worker : Worker) : PoolAct → Option Pool
  | .closeConn _ =>
      if worker.point = .waiting ∧ worker.outdated pool then
        some (pool.setWorker w { worker with conn := false, seenCloseGen := pool.closeGen })
      else none
  | .take _ =>
      match pool.queue with
      | [] => none
      | ticket :: queue =>
          if worker.point = .waiting ∧ !worker.outdated pool then
            some { pool.setWorker w
                { worker with point := .running ticket, seenCloseGen := pool.closeGen } with
              queue, active := pool.active + 1, started := pool.started ++ [ticket] }
          else none
  | .run _ idle attempts =>
      match worker.point with
      | .running ticket =>
          let (status, conn) := runJob (worker.conn && !idle) attempts
          some { pool.setWorker w { worker with point := .finished, conn } with
            completed := (ticket, status) :: pool.completed }
      | _ => none
  | .rest _ =>
      if worker.point = .finished then
        some { pool.setWorker w { worker with point := .waiting } with active := pool.active - 1 }
      else none
  | .exit _ =>
      if worker.point = .waiting ∧ !worker.outdated pool ∧ pool.queue = [] ∧ pool.shutdown then
        some (pool.setWorker w { worker with point := .exited, conn := false })
      else none
  | _ => none

def step (pool : Pool) (a : PoolAct) : Option Pool :=
  match a with
  | .closeConn w | .take w | .run w _ _ | .rest w | .exit w =>
      pool.workers[w]?.bind fun worker => pool.workerStep w worker a
  | _ => pool.callStep a

def create (workers : ℕ) : Pool where
  queue := []
  shutdown := false
  active := 0
  closeGen := 0
  workers := List.replicate workers {}
  calls := []
  destroyed := false
  freed := false
  tickets := 0
  accepted := []
  refused := []
  started := []
  completed := []

end Pool

inductive PoolMoves (s : Pool) : PoolAct → Pool → Prop
  | refuse {allocated : Bool} : PoolMoves s (.fetch allocated)
      { s with tickets := s.tickets + 1, refused := s.tickets :: s.refused }
  | fetch : PoolMoves s (.fetch true)
      { s with tickets := s.tickets + 1, calls := s.calls ++ [.fetching s.tickets] }
  | enqueueRefused {k ticket : ℕ} (found : s.calls[k]? = some (.fetching ticket)) :
      PoolMoves s (.enqueue k) { s.endCall k with refused := ticket :: s.refused }
  | enqueue {k ticket : ℕ} (found : s.calls[k]? = some (.fetching ticket))
      (opened : s.shutdown = false) :
      PoolMoves s (.enqueue k) { s.endCall k with
        queue := s.queue ++ [ticket], accepted := s.accepted ++ [ticket] }
  | closeIdle : PoolMoves s .closeIdle { s with closeGen := s.closeGen + 1 }
  | cancelAll : PoolMoves s .cancelAll
      { s with queue := [], calls := s.calls ++ [.cancelling s.queue false] }
  | destroy : PoolMoves s .destroy
      { s with destroyed := true, queue := [], calls := s.calls ++ [.cancelling s.queue true] }
  | cancelNext {k ticket : ℕ} {pending : List ℕ} {destroys : Bool}
      (found : s.calls[k]? = some (.cancelling (ticket :: pending) destroys)) :
      PoolMoves s (.cancelNext k) { s.setCall k (.cancelling pending destroys) with
        completed := (ticket, errCancelled) :: s.completed }
  | cancelEnds {k : ℕ} (found : s.calls[k]? = some (.cancelling [] false)) :
      PoolMoves s (.cancelEnds k) (s.endCall k)
  | shutdown {k : ℕ} (found : s.calls[k]? = some (.cancelling [] true)) :
      PoolMoves s (.cancelEnds k) { s.setCall k (.joining 0) with shutdown := true }
  | join {k joined : ℕ} (found : s.calls[k]? = some (.joining joined))
      (exited : (s.workers[joined]?).any (·.point = .exited) = true) :
      PoolMoves s (.join k) (s.setCall k (.joining (joined + 1)))
  | free {k : ℕ} (found : s.calls[k]? = some (.joining s.workers.length)) :
      PoolMoves s (.free k) { s.endCall k with freed := true }
  | closeConn {w : ℕ} {worker : Worker} (found : s.workers[w]? = some worker)
      (waits : worker.point = .waiting) :
      PoolMoves s (.closeConn w)
        (s.setWorker w { worker with conn := false, seenCloseGen := s.closeGen })
  | take {w ticket : ℕ} {worker : Worker} {queue : List ℕ} (found : s.workers[w]? = some worker)
      (waits : worker.point = .waiting) (waiting : s.queue = ticket :: queue) :
      PoolMoves s (.take w) { s.setWorker w
          { worker with point := .running ticket, seenCloseGen := s.closeGen } with
        queue, active := s.active + 1, started := s.started ++ [ticket] }
  | run {w ticket : ℕ} {worker : Worker} {idle : Bool} {attempts : List Attempt}
      (found : s.workers[w]? = some worker) (runs : worker.point = .running ticket) :
      PoolMoves s (.run w idle attempts) { s.setWorker w { worker with
          point := .finished, conn := (runJob (worker.conn && !idle) attempts).2 } with
        completed := (ticket, (runJob (worker.conn && !idle) attempts).1) :: s.completed }
  | rest {w : ℕ} {worker : Worker} (found : s.workers[w]? = some worker)
      (finished : worker.point = .finished) :
      PoolMoves s (.rest w)
        { s.setWorker w { worker with point := .waiting } with active := s.active - 1 }
  | exit {w : ℕ} {worker : Worker} (found : s.workers[w]? = some worker)
      (waits : worker.point = .waiting) (empty : s.queue = []) (closed : s.shutdown = true) :
      PoolMoves s (.exit w) (s.setWorker w { worker with point := .exited, conn := false })

section Inversion

variable {s s' : Pool} {a : PoolAct}

theorem moves_of_callStep (taken : s.callStep a = some s') : PoolMoves s a s' := by
  cases a with
  | fetch allocated =>
    simp only [callStep, ite_none_left_eq_some] at taken
    obtain ⟨_, taken⟩ := taken
    split at taken
    · cases taken
      exact .refuse
    · rename_i opened
      obtain rfl : allocated = true := by simpa using (by simpa using opened : _ ∧ _).2
      cases taken
      exact .fetch
  | enqueue k =>
    simp only [callStep] at taken
    split at taken
    · rename_i found
      rw [ite_none_left_eq_some] at taken
      obtain ⟨_, taken⟩ := taken
      split at taken
      · cases taken
        exact .enqueueRefused found
      · rename_i opened
        cases taken
        exact .enqueue found (by simpa using opened)
    · contradiction
  | closeIdle =>
    simp only [callStep, ite_none_left_eq_some] at taken
    cases taken.2
    exact .closeIdle
  | cancelAll =>
    simp only [callStep, ite_none_left_eq_some] at taken
    cases taken.2
    exact .cancelAll
  | destroy =>
    simp only [callStep, ite_none_left_eq_some] at taken
    cases taken.2
    exact .destroy
  | cancelNext k =>
    simp only [callStep] at taken
    split at taken
    · cases taken
      exact .cancelNext ‹_›
    · contradiction
  | cancelEnds k =>
    simp only [callStep] at taken
    split at taken
    · cases taken
      exact .cancelEnds ‹_›
    · cases taken
      exact .shutdown ‹_›
    · contradiction
  | join k =>
    simp only [callStep] at taken
    split at taken
    · rw [ite_none_right_eq_some] at taken
      cases taken.2
      exact .join ‹_› taken.1
    · contradiction
  | free k =>
    simp only [callStep] at taken
    split at taken
    · rename_i joined found
      rw [ite_none_right_eq_some] at taken
      obtain ⟨rfl, taken⟩ := taken
      cases taken
      exact .free found
    · contradiction
  | closeConn w | take w | run w idle attempts | rest w | exit w => contradiction

theorem moves_of_workerStep {w : ℕ} {worker : Worker} (found : s.workers[w]? = some worker)
    (ofWorker : a = .closeConn w ∨ a = .take w ∨ (∃ idle attempts, a = .run w idle attempts) ∨
      a = .rest w ∨ a = .exit w)
    (taken : s.workerStep w worker a = some s') : PoolMoves s a s' := by
  rcases ofWorker with rfl | rfl | ⟨idle, attempts, rfl⟩ | rfl | rfl
  · simp only [workerStep, ite_none_right_eq_some] at taken
    cases taken.2
    exact .closeConn found taken.1.1
  · simp only [workerStep] at taken
    split at taken
    · contradiction
    · rename_i waiting
      rw [ite_none_right_eq_some] at taken
      cases taken.2
      exact .take found taken.1.1 waiting
  · simp only [workerStep] at taken
    split at taken
    · rename_i runs
      cases taken
      exact .run found runs
    · contradiction
  · simp only [workerStep, ite_none_right_eq_some] at taken
    cases taken.2
    exact .rest found taken.1
  · simp only [workerStep, ite_none_right_eq_some] at taken
    cases taken.2
    exact .exit found taken.1.1 taken.1.2.2.1 taken.1.2.2.2

theorem moves_of_step (taken : s.step a = some s') : PoolMoves s a s' := by
  cases a with
  | closeConn w | take w | run w idle attempts | rest w | exit w =>
    obtain ⟨worker, found, taken⟩ := bind_eq_some_iff.mp taken
    exact moves_of_workerStep found (by simp) taken
  | _ => exact moves_of_callStep taken

end Inversion

def Pool.places (s : Pool) (t : ℕ) : ℕ :=
  s.queue.count t + tally (·.point.holds.count t) s.workers + tally (·.pending.count t) s.calls +
    (s.completed.map fst).count t

def Pool.decisions (s : Pool) (t : ℕ) : ℕ :=
  s.accepted.count t + tally (·.undecided.count t) s.calls + s.refused.count t

def Pool.Joined (s : Pool) (joined : ℕ) : Prop :=
  s.shutdown = true ∧ ∀ w < joined, (s.workers[w]?).any (·.point = .exited) = true

/-- A status that `done_cb` may be called with. -/
def IsStatus (status : ℤ) : Prop :=
  status = errCancelled ∨ ∃ connected attempts, status = (runJob connected attempts).1

/-- Fetches are in one place each and in their order; a worker leaves only when the
queue is empty for good, and the pool is freed only when all have left. -/
structure PoolSound (s : Pool) : Prop where
  placed : ∀ t, s.places t = s.accepted.count t
  decided : ∀ t, s.decisions t = (List.range s.tickets).count t
  ordered : (s.started ++ s.queue).Sublist s.accepted
  exited : ∀ worker ∈ s.workers, worker.point = .exited → s.shutdown = true ∧ s.queue = []
  joined : ∀ n, .joining n ∈ s.calls → s.Joined n
  freed : s.freed = true → s.Joined s.workers.length
  statuses : ∀ call ∈ s.completed, IsStatus call.2

section Invariant

variable {s s' : Pool} {a : PoolAct}

theorem places_of_moves (moves : PoolMoves s a s') (placed : ∀ t, s.places t = s.accepted.count t)
    (t : ℕ) : s'.places t = s'.accepted.count t := by
  have before := placed t
  unfold places at before ⊢
  cases moves with
  | refuse | closeIdle => exact before
  | fetch => simpa using before
  | enqueueRefused found | cancelEnds found | free found =>
    dsimp only [endCall]
    rw [tally_eraseIdx_of_zero _ found rfl, before]
  | enqueue found opened =>
    dsimp only [endCall]
    rw [tally_eraseIdx_of_zero _ found rfl, count_append, count_append]
    omega
  | cancelAll | destroy =>
    simp only [tally_append, tally_cons, tally_nil, Call.pending_cancelling, count_nil]
    omega
  | @cancelNext k ticket pending destroys found =>
    have calls := tally_set (·.pending.count t) found (.cancelling pending destroys)
    simp only [Call.pending_cancelling, count_cons] at calls
    simp only [setCall, map_cons, count_cons]
    omega
  | shutdown found | join found exited =>
    dsimp only [setCall]
    rw [tally_set_of_eq _ found, before]
    rfl
  | closeConn found waits =>
    dsimp only [setWorker]
    rw [tally_set_of_eq _ found, before]
    rfl
  | @take w ticket worker queue found waits waiting =>
    have workers := tally_set (·.point.holds.count t) found
      { worker with point := .running ticket, seenCloseGen := s.closeGen }
    rw [waiting] at before
    simp only [waits, holds_waiting, holds_running, count_cons,
      count_nil] at workers before
    simp only [setWorker]
    omega
  | @run w ticket worker idle attempts found runs =>
    have workers := tally_set (·.point.holds.count t) found
      { worker with point := .finished, conn := (runJob (worker.conn && !idle) attempts).2 }
    simp only [runs, holds_running, holds_finished, count_cons,
      count_nil] at workers
    simp only [setWorker, map_cons, count_cons]
    omega
  | rest found waits | exit found waits =>
    dsimp only [setWorker]
    rw [tally_set_of_eq _ found (by rw [waits]; rfl), before]

theorem decisions_of_moves (moves : PoolMoves s a s')
    (decided : ∀ t, s.decisions t = (List.range s.tickets).count t) (t : ℕ) :
    s'.decisions t = (List.range s'.tickets).count t := by
  have before := decided t
  unfold decisions at before ⊢
  cases moves with
  | refuse =>
    simp only [range_succ, count_append, count_cons, count_nil]
    omega
  | fetch =>
    simp only [range_succ, count_append, tally_append, tally_cons, tally_nil,
      Call.undecided_fetching]
    omega
  | enqueueRefused found | enqueue found opened =>
    have calls := tally_eraseIdx (·.undecided.count t) found
    simp only [Call.undecided_fetching, count_cons, count_nil] at calls
    simp only [endCall, count_append, count_cons, count_nil]
    omega
  | closeIdle | closeConn | take | run | rest | exit => exact before
  | cancelAll | destroy => simpa using before
  | cancelNext found | shutdown found | join found exited =>
    dsimp only [setCall]
    rw [tally_set_of_eq _ found, before]
    rfl
  | cancelEnds found | free found =>
    dsimp only [endCall]
    rw [tally_eraseIdx_of_zero _ found rfl, before]

theorem ordered_of_moves (moves : PoolMoves s a s')
    (ordered : (s.started ++ s.queue).Sublist s.accepted) :
    (s'.started ++ s'.queue).Sublist s'.accepted := by
  cases moves with
  | enqueue found opened =>
    rw [← append_assoc]
    exact ordered.append (List.Sublist.refl _)
  | cancelAll | destroy =>
    rw [append_nil]
    exact (sublist_append_left _ _).trans ordered
  | take found waits waiting =>
    rw [waiting, append_cons] at ordered
    exact ordered
  | _ => exact ordered

theorem mem_of_exited {w : ℕ} {other new : Worker} (member : other ∈ s.workers.set w new)
    (exited : other.point = .exited) (stays : new.point ≠ .exited) : other ∈ s.workers := by
  rcases mem_or_eq_of_mem_set member with old | rfl
  · exact old
  · exact absurd exited stays

section Moves

variable (moves : PoolMoves s a s')
include moves

theorem exited_of_moves
    (exited : ∀ worker ∈ s.workers, worker.point = .exited → s.shutdown ∧ s.queue = []) :
    ∀ worker ∈ s'.workers, worker.point = .exited → s'.shutdown ∧ s'.queue = [] := by
  intro other member left
  cases moves with
  | enqueue found opened =>
    rw [(exited other member left).1] at opened
    contradiction
  | cancelAll | destroy => exact ⟨(exited other member left).1, rfl⟩
  | shutdown found => exact ⟨rfl, (exited other member left).2⟩
  | closeConn found waits =>
    exact exited other (mem_of_exited member left (by simp [waits])) left
  | take found waits waiting =>
    rw [(exited other (mem_of_exited member left nofun) left).2] at waiting
    contradiction
  | run | rest => exact exited other (mem_of_exited member left nofun) left
  | exit found waits empty closed => exact ⟨closed, empty⟩
  | _ => exact exited other member left

theorem statuses_of_moves (statuses : ∀ call ∈ s.completed, IsStatus call.2) :
    ∀ call ∈ s'.completed, IsStatus call.2 := by
  cases moves with
  | cancelNext => exact forall_mem_cons.mpr ⟨.inl rfl, statuses⟩
  | run => exact forall_mem_cons.mpr ⟨.inr ⟨_, _, rfl⟩, statuses⟩
  | _ => exact statuses

theorem exited_stays {w : ℕ} (exited : (s.workers[w]?).any (·.point = .exited) = true) :
    (s'.workers[w]?).any (·.point = .exited) = true := by
  have others : ∀ {w' : ℕ} {worker new : Worker}, s.workers[w']? = some worker →
      worker.point ≠ .exited → ((s.workers.set w' new)[w]?).any (·.point = .exited) = true := by
    intro w' worker new found inside
    have different : w' ≠ w := by
      rintro rfl
      simp [found, inside] at exited
    rwa [getElem?_set_ne different]
  cases moves with
  | closeConn found waits | take found waits waiting | exit found waits empty closed =>
    exact others found (by simp [waits])
  | run found runs => exact others found (by simp [runs])
  | rest found finished => exact others found (by simp [finished])
  | _ => exact exited

theorem shutdown_stays (closed : s.shutdown) : s'.shutdown = true := by
  cases moves with
  | shutdown => rfl
  | _ => exact closed

theorem length_workers : s'.workers.length = s.workers.length := by
  cases moves <;> simp [setWorker, setCall, endCall]

theorem Pool.Joined.stays {joined : ℕ} (done : s.Joined joined) : s'.Joined joined :=
  ⟨shutdown_stays moves done.1, fun w below => exited_stays moves (done.2 w below)⟩

theorem joined_of_moves (joined : ∀ n, .joining n ∈ s.calls → s.Joined n) :
    ∀ n, .joining n ∈ s'.calls → s'.Joined n := by
  intro n member
  have stays : .joining n ∈ s.calls → s'.Joined n := fun old => (joined n old).stays moves
  cases moves with
  | fetch | cancelAll | destroy =>
    rcases mem_append.mp member with old | new
    · exact stays old
    · simp at new
  | enqueueRefused | enqueue | cancelEnds | free =>
    exact stays (mem_of_mem_eraseIdx member)
  | cancelNext =>
    rcases mem_or_eq_of_mem_set member with old | new
    · exact stays old
    · contradiction
  | shutdown found =>
    rcases mem_or_eq_of_mem_set member with old | new
    · exact stays old
    · cases new
      exact ⟨rfl, fun w below => absurd below (Nat.not_lt_zero w)⟩
  | @join k m found exited =>
    rcases mem_or_eq_of_mem_set member with old | new
    · exact stays old
    cases new
    have before := joined m (mem_of_getElem? found)
    refine ⟨before.1, fun w below => ?_⟩
    rcases Nat.lt_succ_iff_lt_or_eq.mp below with earlier | rfl
    · exact before.2 w earlier
    · exact exited
  | _ => exact stays member

theorem freed_of_moves (joined : ∀ n, .joining n ∈ s.calls → s.Joined n)
    (freed : s.freed → s.Joined s.workers.length) :
    s'.freed = true → s'.Joined s'.workers.length := by
  intro isFreed
  rw [length_workers moves]
  refine Pool.Joined.stays moves ?_
  cases moves with
  | free found => exact joined _ (mem_of_getElem? found)
  | _ => exact freed isFreed

end Moves

theorem PoolSound.step (sound : PoolSound s) (taken : s.step a = some s') : PoolSound s' where
  placed := places_of_moves (moves_of_step taken) sound.placed
  decided := decisions_of_moves (moves_of_step taken) sound.decided
  ordered := ordered_of_moves (moves_of_step taken) sound.ordered
  exited := exited_of_moves (moves_of_step taken) sound.exited
  joined := joined_of_moves (moves_of_step taken) sound.joined
  freed := freed_of_moves (moves_of_step taken) sound.joined sound.freed
  statuses := statuses_of_moves (moves_of_step taken) sound.statuses

theorem PoolSound.create (n : ℕ) : PoolSound (Pool.create n) where
  placed t := by
    have idle : tally (·.point.holds.count t) (List.replicate n ({} : Worker)) = 0 := by
      apply tally_eq_zero.mpr
      intro worker member
      rw [eq_of_mem_replicate member]
      rfl
    simp [Pool.places, Pool.create, idle]
  decided t := by simp [Pool.decisions, Pool.create]
  ordered := List.Sublist.refl _
  exited worker member exited := by
    rw [eq_of_mem_replicate member] at exited
    contradiction
  joined n member := by simp [Pool.create] at member
  freed impossible := nomatch impossible
  statuses := nofun

theorem PoolSound.settled (sound : PoolSound s) (freed : s.freed) (some' : s.workers ≠ [])
    (t : ℕ) : tally (·.pending.count t) s.calls + (s.completed.map fst).count t =
      s.accepted.count t := by
  have joined := sound.freed freed
  have left : ∀ worker ∈ s.workers, worker.point = .exited := by
    intro worker member
    obtain ⟨w, inside, rfl⟩ := mem_iff_getElem.mp member
    simpa [inside] using joined.2 w inside
  have none : tally (·.point.holds.count t) s.workers = 0 := by
    apply tally_eq_zero.mpr
    intro worker member
    rw [left worker member]
    rfl
  obtain ⟨worker, member⟩ := exists_mem_of_ne_nil _ some'
  have placed := sound.placed t
  rw [places, (sound.exited worker member (left worker member)).2, none] at placed
  simpa using placed

end Invariant

end NzbDownloader.Nntp
