import NzbDownloader.Queue.CrashSafe

/-!
# The order of progress writes

`segment_done_cb` takes a bitmap of the job under one lock and writes it under another.
Between the two a thread may be overtaken by one with a newer bitmap.
-/

namespace NzbDownloader.Queue.Persist

open Lib Util Transition Option CrashState Writers

variable {bitmap : Bytes}

section Order

variable {τ : Type} [DecidableEq τ] {job : JobData} {stem : Name} {s s' : CrashState τ}

def InFlight (stem : Name) (s : CrashState τ) (t : τ) (bitmap : Bytes) : Prop :=
  s.phase t = .ensuring (.progress bitmap) ∨
    ⟨stem ++ progressSuffix, .raw bitmap⟩ ∈ s.disk.todo t

def CrashState.saved (s : CrashState τ) (stem : Name) : Bytes :=
  bitmapIn s.disk.files stem

def CrashEvent.continues : CrashEvent τ → Bool
  | .restart _ _ => false
  | _ => true

/-- The process goes on, and a bitmap that is put in place shows no segment that
another bitmap in flight does not show. -/
def OldestFirst (stem : Name) (s : CrashState τ) : CrashEvent τ → Prop
  | .write (.rename t) =>
      ∀ bitmap rest, s.disk.todo t = ⟨stem ++ progressSuffix, .raw bitmap⟩ :: rest →
        ∀ u other, InFlight stem s u other → ∀ i, flagAt bitmap i = true → flagAt other i = true
  | .restart _ _ => False
  | _ => True

structure CrashState.Begins (job : JobData) (stem : Name) (s : CrashState τ) : Prop
    extends Tracked job stem s where
  phase : ∀ t, s.phase t = .idle

omit [DecidableEq τ] in
theorem CrashState.New.begins (new : s.New stem job) : s.Begins job stem :=
  ⟨new.tracked, new.phase⟩

structure Rising (job : JobData) (stem : Name) (s : CrashState τ) : Prop
    extends Tracked job stem s where
  behind : ∀ {t bitmap i}, InFlight stem s t bitmap → i < (flagsOf job.files).length →
    flagAt (s.saved stem) i = true → flagAt bitmap i = true

omit [DecidableEq τ] in
theorem CrashState.Begins.rising (begins : s.Begins job stem) : Rising job stem s where
  toTracked := begins.toTracked
  behind {t bitmap i} flight := by
    rcases flight with ensuring | queued
    · rw [begins.phase] at ensuring
      contradiction
    · rw [begins.idle (by rw [begins.phase]; decide)] at queued
      contradiction

theorem inFlight_access {t u : τ} {save : Save} (phase : s.phase t = .ensuring save)
    (flight : InFlight stem
      { s.setPhase t .saving with disk := s.disk.assign t (s.writesOf stem save) } u bitmap) :
    ∃ u', InFlight stem s u' bitmap := by
  rcases flight with ensuring | queued
  · exact ⟨u, .inl (ensuring_of_saving ensuring)⟩
  · rcases mem_todo_assign queued with ⟨_, member⟩ | before
    · obtain ⟨_, rfl, same⟩ := progress_of_writesOf member
      cases same
      exact ⟨t, .inl phase⟩
    · exact ⟨u, .inr before⟩

variable {event : CrashEvent τ}

theorem inFlight_of_step {u : τ} (running : ∀ crash entries, event ≠ .restart crash entries)
    (taken : crashStep stem s event = some s') (flight : InFlight stem s' u bitmap) :
    (∃ u', InFlight stem s u' bitmap) ∨ bitmap = jobProgressSnapshot s.memory := by
  cases event with
  | access t =>
    obtain ⟨save, phase, rfl⟩ := access_of_step taken
    exact .inl (inFlight_access phase flight)
  | write step =>
    obtain ⟨disk, moved, rfl⟩ := map_eq_some_iff.mp taken
    rcases flight with ensuring | queued
    · exact .inl ⟨u, .inl ensuring⟩
    · exact .inl ⟨u, .inr (mem_todo_of_step moved queued)⟩
  | other name content =>
    obtain ⟨-, ⟨⟩⟩ := ite_none_left_eq_some.mp taken
    exact .inl ⟨u, flight⟩
  | restart crash entries => exact absurd rfl (running crash entries)
  | _ =>
    have quiet := quiet_of_step rfl taken
    rcases flight with ensuring | queued
    · rcases quiet.phase u with same | ⟨-, saves⟩
      · exact .inl ⟨u, .inl (same.symm.trans ensuring)⟩
      · cases ((saves _ ensuring).resolve_left nofun).1
        exact .inr rfl
    · exact .inl ⟨u, .inr (quiet.disk ▸ queued)⟩

theorem saved_of_step (tracked : Tracked job stem s)
    (running : ∀ crash entries, event ≠ .restart crash entries)
    (taken : crashStep stem s event = some s') :
    s'.saved stem = s.saved stem ∨ ∃ t bitmap rest, event = .write (.rename t) ∧
      s.disk.todo t = ⟨stem ++ progressSuffix, .raw bitmap⟩ :: rest ∧ s'.saved stem = bitmap := by
  have apart (path : Name) : stem ++ progressSuffix ≠ tmpName path := fun same =>
    named_of_own progress_mem_own ⟨path, same.symm⟩
  have kept (files : s'.disk.files (stem ++ progressSuffix) =
      s.disk.files (stem ++ progressSuffix)) : s'.saved stem = s.saved stem := by
    rw [saved, saved, bitmapIn, files, bitmapIn]
  cases event with
  | access t =>
    obtain ⟨save, -, rfl⟩ := access_of_step taken
    exact .inl rfl
  | other name content =>
    obtain ⟨foreign, ⟨⟩⟩ := ite_none_left_eq_some.mp taken
    exact .inl (kept (put_files (apart_of_foreign foreign _ progress_mem_own).1))
  | write step =>
    obtain ⟨disk, moved, rfl⟩ := map_eq_some_iff.mp taken
    cases moves_of_step tmpName (Document.raw []) moved with
    | create | flush => exact .inl (kept (Function.update_of_ne (apart _) _ _))
    | syncDir | fail => exact .inl rfl
    | @rename t write rest held next =>
      obtain ⟨path, data⟩ := write
      rcases eq_or_ne (stem ++ progressSuffix) path with rfl | different
      · have queued : s.disk.Possible (stem ++ progressSuffix) data :=
          .inr ⟨t, next ▸ (.head _)⟩
        obtain ⟨bitmap, rfl, -⟩ := (tracked.good progress_mem_own queued).progress rfl
        refine .inr ⟨t, bitmap, rest, rfl, next, ?_⟩
        have flushed := tracked.orderly.flushed held next
        rw [saved, bitmapIn]
        dsimp only at flushed ⊢
        rw [Function.update_self, flushed]
        rfl
      · exact .inl (kept ((Function.update_of_ne different _ _).trans
          (Function.update_of_ne (apart _) _ _)))
  | restart crash entries => exact absurd rfl (running crash entries)
  | _ =>
    exact .inl (kept (by rw [(quiet_of_step rfl taken).disk]))

omit [DecidableEq τ] in
theorem Tracked.shows_snapshot {i : ℕ} (tracked : Tracked job stem s)
    (inside : i < (flagsOf job.files).length) (set : flagAt (s.saved stem) i) :
    flagAt (jobProgressSnapshot s.memory) i = true := by
  rw [← tracked.kept.length_flagsOf] at inside
  have within : Within (s.saved stem) s.memory.flags := by
    rw [saved, bitmapIn]
    cases written : s.disk.files (stem ++ progressSuffix) with
    | none => exact within_nil _
    | some data =>
      have possible : s.disk.Possible (stem ++ progressSuffix) data :=
        .inl (written ▸ (.head _))
      obtain ⟨bitmap, rfl, within⟩ := (tracked.good progress_mem_own possible).progress rfl
      exact within
  rw [jobProgressSnapshot, flagAt_bitmapOf, List.getD_eq_getElem?_getD, within i inside set]
  rfl

theorem Rising.step (rising : Rising job stem s) (oldest : OldestFirst stem s event)
    (taken : crashStep stem s event = some s') :
    Rising job stem s' ∧ ∀ i < (flagsOf job.files).length, flagAt (s.saved stem) i →
      flagAt (s'.saved stem) i = true := by
  have running : ∀ crash entries, event ≠ .restart crash entries := by
    rintro crash entries rfl
    exact oldest
  have tracked := rising.toTracked.step running taken
  rcases saved_of_step rising.toTracked running taken with same | ⟨t, bitmap, rest, rfl, next, new⟩
  · refine ⟨⟨tracked, fun flight inside set => ?_⟩, fun i _ set => same ▸ set⟩
    rw [same] at set
    rcases inFlight_of_step running taken flight with ⟨u, before⟩ | rfl
    · exact rising.behind before inside set
    · exact rising.shows_snapshot inside set
  · have mine : InFlight stem s t bitmap := .inr (next ▸ (.head _))
    refine ⟨⟨tracked, fun flight inside set => ?_⟩, fun i inside set => ?_⟩
    · rw [new] at set
      obtain ⟨disk, moved, rfl⟩ := map_eq_some_iff.mp taken
      rcases flight with ensuring | queued
      · exact oldest bitmap rest next _ _ (.inl ensuring) _ set
      · exact oldest bitmap rest next _ _ (.inr (mem_todo_of_step moved queued)) _ set
    · rw [new]
      exact rising.behind mine inside set

/-- In runs that write the oldest bitmap first, a segment that the saved bitmap
shows at some moment is shown by every later one. -/
theorem progress_never_back {start : CrashState τ} {i : ℕ} (begins : start.Begins job stem)
    (first : Reachable (crashStep stem) (OldestFirst stem) start s)
    (later : Reachable (crashStep stem) (OldestFirst stem) s s')
    (segment : i < (flagsOf job.files).length) (set : flagAt (s.saved stem) i = true) :
    flagAt (s'.saved stem) i = true := by
  have rising := first.invariant begins.rising
    fun _ _ _ rising oldest taken => (rising.step oldest taken).1
  have both : Rising job stem s' ∧ flagAt (s'.saved stem) i = true := by
    refine later.invariant
      (I := fun state => Rising job stem state ∧ flagAt (state.saved stem) i = true)
      ⟨rising, set⟩ ?_
    rintro _ _ _ ⟨rising, set⟩ oldest taken
    exact ⟨(rising.step oldest taken).1, (rising.step oldest taken).2 i segment set⟩
  exact both.2

end Order

def twoThreads : CrashState Bool :=
  ⟨newJob 50, .starting fun _ => none, fun _ => .idle, [], .resting, 0, 0⟩

theorem twoThreads_begins : twoThreads.Begins (newJob 50) ['a'] :=
  CrashState.New.begins ⟨rfl, ⟨_, rfl, fun _ _ => rfl⟩, fun _ => rfl, rfl, rfl⟩

def batch (t : Bool) (first : ℕ) : List (CrashEvent Bool) :=
  (List.range' first 25).flatMap fun i => [.mark t [Char.ofNat (97 + i)], .count t (100 * i)]

def writeBy (t : Bool) : List (CrashEvent Bool) :=
  [.write (.create t), .write (.flush t), .write (.rename t), .write (.syncDir t)]

def firstCheckpoint : List (CrashEvent Bool) :=
  [.start 0] ++ batch false 0 ++ [.snapshot false, .access false] ++ writeBy false ++
    writeBy false ++ [.done false]

def secondCheckpoint : List (CrashEvent Bool) :=
  batch true 25 ++ [.snapshot true, .access true] ++ writeBy true ++ [.done true]

def aloneInFlight (stem : Name) (s : CrashState Bool) : CrashEvent Bool → Bool
  | .write (.rename t) =>
      (s.disk.todo t).head?.map (·.path) ≠ some (stem ++ progressSuffix) ∨
        (s.disk.todo t).tail = [] ∧ s.phase t = .saving ∧ s.disk.todo (!t) = [] ∧
          s.phase (!t) = .idle
  | .restart _ _ => false
  | _ => true

theorem oldestFirst_of_alone {stem : Name} (s : CrashState Bool) (event : CrashEvent Bool)
    (alone : aloneInFlight stem s event) : OldestFirst stem s event := by
  cases event with
  | restart crash entries => exact absurd alone Bool.false_ne_true
  | write step =>
    cases step with
    | rename t =>
      intro bitmap rest next u other flight
      obtain different | ⟨last, saving, nothing, idle⟩ := of_decide_eq_true alone
      · rw [next] at different
        exact absurd rfl different
      rw [next] at last
      rcases Bool.eq_or_eq_not u t with rfl | rfl
      · rcases flight with ensuring | queued
        · cases saving.symm.trans ensuring
        · rw [next, show rest = [] from last] at queued
          cases List.mem_singleton.mp queued
          exact fun _ set => set
      · rcases flight with ensuring | queued
        · cases idle.symm.trans ensuring
        · rw [nothing] at queued
          contradiction
    | create | flush | syncDir | fail => trivial
  | _ => trivial

theorem progress_never_back_two_threads : ∃ s s' : CrashState Bool,
    Reachable (crashStep ['a']) (OldestFirst ['a']) twoThreads s ∧
      Reachable (crashStep ['a']) (OldestFirst ['a']) s s' ∧
      flagAt (s.saved ['a']) 3 = true ∧ flagAt (s'.saved ['a']) 30 = true ∧
      flagAt (s'.saved ['a']) 3 = true := by
  have executed : ((replay (crashStep ['a']) (aloneInFlight ['a']) twoThreads
      firstCheckpoint).bind fun s =>
        (replay (crashStep ['a']) (aloneInFlight ['a']) s secondCheckpoint).map fun s' =>
          (flagAt (s.saved ['a']) 3, flagAt (s'.saved ['a']) 30)) = some (true, true) := by
    decide +kernel
  obtain ⟨s, s', first, later, shown⟩ := exists_two_runs oldestFirst_of_alone executed
  obtain ⟨before, after⟩ := Prod.mk.inj shown
  exact ⟨s, s', first, later, before, after,
    progress_never_back twoThreads_begins first later (by decide +kernel) before⟩

def overtaking : List (CrashEvent Bool) :=
  [.start 0] ++ batch false 0 ++ [.snapshot false] ++ batch true 25 ++
    [.snapshot true, .access true] ++ writeBy true ++ writeBy true ++ [.done true]

theorem overtaken_write_goes_back : ∃ s s' : CrashState Bool,
    twoThreads.Begins (newJob 50) ['a'] ∧
      Reachable (crashStep ['a']) (fun _ event => event.continues) twoThreads s ∧
      Reachable (crashStep ['a']) (fun _ event => event.continues) s s' ∧
      flagAt (s.saved ['a']) 30 = true ∧ flagAt (s'.saved ['a']) 30 = false := by
  have executed : ((replay (crashStep ['a']) (fun _ event => event.continues)
      twoThreads overtaking).bind fun s =>
        (replay (crashStep ['a']) (fun _ event => event.continues) s
          (.access false :: writeBy false)).map fun s' =>
            (flagAt (s.saved ['a']) 30, flagAt (s'.saved ['a']) 30)) = some (true, false) := by
    decide +kernel
  obtain ⟨s, s', first, later, shown⟩ := exists_two_runs (fun _ _ running => running) executed
  obtain ⟨before, after⟩ := Prod.mk.inj shown
  exact ⟨s, s', twoThreads_begins, first, later, before, after⟩

end NzbDownloader.Queue.Persist
