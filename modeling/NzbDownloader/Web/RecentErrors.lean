import NzbDownloader.Queue.Persist

/-!
# Recent errors

`log_log` and `log_for_each_recent` of `log/log.c`, and the list `recent_errors` that
`api_status_get` makes of the last lines.
-/

namespace NzbDownloader.Web

open Util Queue.Persist List

inductive LogLevel
  | error | warn | info | debug
  deriving DecidableEq

open LogLevel

namespace LogLevel

def rank : LogLevel → ℕ
  | error => 0
  | warn => 1
  | info => 2
  | debug => 3

def tag : LogLevel → Name
  | error => "[ERROR]".toList
  | warn => "[WARN ]".toList
  | info => "[INFO ]".toList
  | debug => "[DEBUG]".toList

end LogLevel

/-- A call of `log_log`, with the message `vsnprintf` makes, the level in force and the time as
`strftime` writes it: a number comes first. -/
structure LogCall where
  level : LogLevel
  current : LogLevel
  message : Name
  time : Name
  time_head : time.head? ≠ some '['

namespace LogCall

def letThrough (call : LogCall) : Bool :=
  call.level.rank ≤ call.current.rank

def line (call : LogCall) : Name :=
  snprintf 1024 (call.time ++ ' ' :: call.level.tag ++ ' ' :: snprintf 896 call.message)

end LogCall

structure LineRing where
  slots : List Name
  next : ℕ
  count : ℕ

namespace LineRing

def empty (capacity : ℕ) : LineRing :=
  ⟨List.replicate capacity [], 0, 0⟩

def push (size : ℕ) (ring : LineRing) (line : Name) : LineRing where
  slots := ring.slots.set ring.next (snprintf size line)
  next := (ring.next + 1) % ring.slots.length
  count := if ring.count < ring.slots.length then ring.count + 1 else ring.count

def lines (ring : LineRing) : List Name :=
  let start := if ring.count < ring.slots.length then 0 else ring.next
  (List.range ring.count).map fun i => ring.slots.getD ((start + i) % ring.slots.length) []

end LineRing

def logRing (calls : List LogCall) : LineRing :=
  ((calls.filter (·.letThrough)).map (·.line)).foldl (LineRing.push 1024) (.empty 500)

def collectErrorCb (ring : LineRing) (line : Name) : LineRing :=
  if error.tag.isPrefixOf line then ring.push 200 line else ring

def recentErrors (calls : List LogCall) : List Name :=
  ((logRing calls).lines.foldl collectErrorCb (.empty 10)).lines

def lastOf {α : Type} (n : ℕ) (items : List α) : List α :=
  items.drop (items.length - n)

def recentCalls (calls : List LogCall) : List LogCall :=
  lastOf 500 (calls.filter (·.letThrough))

def expectedErrors (calls : List LogCall) : List Name :=
  (lastOf 10 ((recentCalls calls).filter (·.level = .error))).map fun call => snprintf 200 call.line

theorem LogCall.not_error_line (call : LogCall) :
    ¬error.tag <+: snprintf 1024 call.line := by
  rintro ⟨rest, starts⟩
  have first : (snprintf 1024 call.line).head? = some '[' := by
    rw [← starts]
    rfl
  rw [snprintf, LogCall.line, snprintf, take_take] at first
  have head := call.time_head
  cases time : call.time with
  | nil => simp [time] at first
  | cons c rest =>
    rw [time] at head
    exact head (by simpa [time] using first)

theorem not_error_slot (calls : List LogCall) (i : ℕ) :
    ¬error.tag <+: (logRing calls).slots.getD i [] := by
  have all : ∀ line ∈ (logRing calls).slots, ¬error.tag <+: line := by
    refine List.foldlRecOn (motive := fun ring : LineRing =>
      ∀ line ∈ ring.slots, ¬error.tag <+: line) _ _ ?_ ?_
    · intro line slot
      rw [eq_of_mem_replicate slot]
      decide
    · intro ring inherited line written text slot
      obtain ⟨call, -, rfl⟩ := mem_map.mp written
      rcases mem_or_eq_of_mem_set slot with old | rfl
      · exact inherited text old
      · exact call.not_error_line
  by_cases inside : i < (logRing calls).slots.length
  · rw [getD_eq_getElem _ _ inside]
    exact all _ (getElem_mem inside)
  · rw [getD_eq_default _ _ (not_lt.mp inside)]
    decide

theorem recentErrors_eq_nil (calls : List LogCall) : recentErrors calls = [] := by
  have skipped : (logRing calls).lines.foldl collectErrorCb (.empty 10) = .empty 10 := by
    refine List.foldlRecOn (motive := (· = LineRing.empty 10)) _ _ rfl ?_
    rintro ring rfl line member
    obtain ⟨i, -, rfl⟩ := mem_map.mp member
    exact if_neg fun error => not_error_slot calls _ ( isPrefixOf_iff_prefix.mp error)
  rw [recentErrors, skipped]
  rfl

/-- The list is right only while there is no error to show. -/
theorem recentErrors_eq_expected_iff (calls : List LogCall) :
    recentErrors calls = expectedErrors calls ↔
      ∀ call ∈ recentCalls calls, call.level ≠ .error := by
  rw [recentErrors_eq_nil, eq_comm, expectedErrors, map_eq_nil_iff, lastOf,
    drop_eq_nil_iff]
  have positive : (((recentCalls calls).filter (·.level = .error)).length ≤
      ((recentCalls calls).filter (·.level = .error)).length - 10) ↔
        (recentCalls calls).filter (·.level = .error) = [] := by
    rw [← length_eq_zero_iff]
    omega
  rw [positive]
  simp

def failedCall : LogCall :=
  ⟨.error, .info, "job: invalid JSON".toList, "2026-11-17 10:00:00".toList, by decide⟩

theorem recentErrors_misses : recentErrors [failedCall] = [] ∧
    expectedErrors [failedCall] =
      ["2026-11-17 10:00:00 [ERROR] job: invalid JSON".toList] := by
  decide +kernel

end NzbDownloader.Web
