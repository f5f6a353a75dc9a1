import NzbDownloader.Download.HandOver
import NzbDownloader.Par2.Provenance
import NzbDownloader.Queue.Marking

/-!
# One uninterrupted download

`download_job` from the pick to its return, when nothing pauses, cancels or stops it and
no allocation or local call fails.  Whether an article is there is permanent; what PAR2
finds and repairs is what the modelled calls give on the bytes that have arrived.
-/

namespace NzbDownloader.Download

open Lib Lib.Effect Util Par2 Queue Job Storage List Option DlEffect Bool

/-- What one call of `download_job` works with.  `content` is what the accepted
articles of a content file add up to; the bytes of a volume depend on the segments
that have arrived; `entries` is what `readdir` lists before and after the volumes
have been fetched. -/
structure Setup where
  env : Env
  qsort : List Par2Slice → List Par2Slice
  dir : String
  maxRetries : ℕ
  article : String → Bool
  content : Name → Bytes
  volumes : List JobFile → Name → Option Bytes
  entries : Pass → List String
  rounds : ℕ

variable {segs files : List ℕ} {disk : String → Option Bytes} {resolved : List (Par2File × String)}
  {present : ℕ → Bool}

section Fetching

variable (article : String → Bool)

def arrive (files : List JobFile) (f i : ℕ) : List JobFile :=
  match segmentAt files f i with
  | none => files
  | some segment =>
      if article segment.messageId then markFiles segment.messageId files else files

def fetchSegments (f : ℕ) : List ℕ → List JobFile → List JobFile
  | [], files => files
  | i :: rest, files =>
      fetchSegments f rest (if arrivedAt files f i then files else arrive article files f i)

def fetchFiles : List ℕ → List JobFile → List JobFile
  | [], files => files
  | f :: rest, files => fetchFiles rest (fetchSegments article f (segIndices files f) files)

/-- From `files` to `files'` only segments were marked that are the first with
their message id and whose article is there. -/
structure Fetched (files files' : List JobFile) : Prop where
  ids : idAt files' = idAt files
  names : files'.map (·.filename) = files.map (·.filename)
  kept : ∀ f i, arrivedAt files f i = true → arrivedAt files' f i = true
  sound : ∀ f i, arrivedAt files' f i = true → arrivedAt files f i = true ∨
    ∃ messageId, article messageId = true ∧ FirstWith files messageId f i

section Arrival

variable {article} {files files' files'' : List JobFile} {f i : ℕ} {messageId : String}

theorem Fetched.refl (files : List JobFile) : Fetched article files files :=
  ⟨rfl, rfl, fun _ _ arrived => arrived, fun _ _ arrived => .inl arrived⟩

theorem Fetched.trans (first : Fetched article files files')
    (second : Fetched article files' files'') : Fetched article files files'' where
  ids := second.ids.trans first.ids
  names := second.names.trans first.names
  kept f i arrived := second.kept f i (first.kept f i arrived)
  sound := by
    intro f i arrived
    rcases second.sound f i arrived with before | ⟨messageId, available, isFirst⟩
    · exact first.sound f i before
    · exact .inr ⟨messageId, available, isFirst.of_ids first.ids.symm⟩

theorem fetched_arrive (files : List JobFile) (f i : ℕ) :
    Fetched article files (arrive article files f i) := by
  unfold arrive
  split
  · exact Fetched.refl files
  rename_i segment found
  split
  · rename_i available
    refine ⟨idAt_markFiles _ _, markFiles_filename _ _, ?_, ?_⟩
    · intro f' i' arrived
      exact arrivedAt_markFiles.mpr (.inl arrived)
    · intro f' i' arrived
      exact (arrivedAt_markFiles.mp arrived).imp_right fun first =>
        ⟨segment.messageId, available, first⟩
  · exact Fetched.refl files

end Arrival

end Fetching

/-! ## The run -/

/-- The segment whose fetch ends before the next step of `download_job`. -/
def landing : DlPoint → Option (ℕ × ℕ)
  | .segFetch _ f i _ _ => some (f, i)
  | _ => none

namespace Setup

variable (setup : Setup)

def choice (point : DlPoint) (job : Job) : Choice where
  ok := true
  quiet := true
  rounds := setup.rounds
  entries := some (setup.entries (if point = .scanning .first then .first else .second))
  volumes := setup.volumes job.files

def step : Checked → CheckedAct → Option Checked :=
  checkedStep setup.env setup.qsort setup.dir setup.content setup.maxRetries

/-- One step of `download_job`, and the arrival of the segment it has asked for. -/
def turn (s : Checked) : Option Checked := do
  let point ← s.point
  let t ← setup.step s (.go (setup.choice point s.job))
  match landing point with
  | none => return t
  | some (f, i) =>
      setup.step t (.other { t.job with files := arrive setup.article t.job.files f i })

def attempt : ℕ → Checked → Option Checked
  | 0, _ => none
  | fuel + 1, s => if s.point.isNone then some s else (setup.turn s).bind (attempt fuel)

/-- `download_job` returns from this state with that result. -/
def Ends (s result : Checked) : Prop :=
  ∃ fuel, setup.attempt fuel s = some result

end Setup

def Checked.at (s : Checked) (job : Job) (point : DlPoint) : Checked :=
  { s with job := job, point := some point, handed := false }

section Rules

variable {setup : Setup} {s t result : Checked} {job job' : Job} {point next : DlPoint} {ok : Bool}
  {phase : Phase}

theorem Setup.Ends.turn (taken : setup.turn s = some t) (rest : setup.Ends t result) :
    setup.Ends s result := by
  obtain ⟨fuel, runs⟩ := rest
  refine ⟨fuel + 1, ?_⟩
  have running : s.point.isNone = false := by
    cases there : s.point with
    | none => simp [Setup.turn, there] at taken
    | some => rfl
  simp only [Setup.attempt, running, taken, false_eq_true, if_false, bind_some, runs]

theorem Setup.attempt_mono {fuel more : ℕ} (enough : fuel ≤ more)
    (ends : setup.attempt fuel s = some result) : setup.attempt more s = some result := by
  induction fuel generalizing more s with
  | zero => contradiction
  | succ fuel ih =>
    cases more with
    | zero => exact absurd enough (Nat.not_succ_le_zero fuel)
    | succ more =>
      rw [attempt] at ends ⊢
      by_cases returned : s.point.isNone = true
      · rw [if_pos returned] at ends ⊢
        exact ends
      · rw [if_neg returned] at ends ⊢
        obtain ⟨t, taken, later⟩ := bind_eq_some_iff.mp ends
        rw [taken]
        exact ih (Nat.le_of_succ_le_succ enough) later

theorem Setup.Ends.unique {result' : Checked} (ends : setup.Ends s result)
    (ends' : setup.Ends s result') : result = result' := by
  obtain ⟨fuel, runs⟩ := ends
  obtain ⟨fuel', runs'⟩ := ends'
  have early := attempt_mono (Nat.le_max_left fuel fuel') runs
  have late := attempt_mono (Nat.le_max_right fuel fuel') runs'
  exact some.inj (early.symm.trans late)

/-- The call at a point answers `ok` and leaves the state as in `t`. -/
def Setup.Does (setup : Setup) (s : Checked) (job : Job) (point : DlPoint) (ok : Bool)
    (t : Checked) : Prop :=
  perform setup.env setup.qsort setup.dir setup.content (setup.choice point job) (s.at job point)
    point = some (ok, t.at job point)

theorem Setup.Does.turn {effect : DlEffect} (called : setup.Does s job point ok t)
    (does : dlStep setup.maxRetries true job ok point = some effect)
    (settled : landing point = none) : setup.turn (s.at job point) =
      some { t with job := effect.job, point := effect.next, handed := effect.enqueued } := by
  have quiet : (setup.choice point job).quiet = true := rfl
  have stepped : setup.step (s.at job point) (.go (setup.choice point job)) =
      some { t with job := effect.job, point := effect.next, handed := effect.enqueued } := by
    rw [Setup.Does] at called
    simp only [Setup.step, checkedStep, bind_eq_bind]
    rw [show (s.at job point).point = some point from rfl, bind_some, called,
      bind_some, quiet, show (t.at job point).job = job from rfl, does]
    rfl
  simp only [Setup.turn, bind_eq_bind]
  rw [show (s.at job point).point = some point from rfl, bind_some,
    show (s.at job point).job = job from rfl, stepped, bind_some, settled]
  rfl

theorem Setup.Ends.goto (called : setup.Does s job point ok t)
    (does : dlStep setup.maxRetries true job ok point = some (goto job' next))
    (settled : landing point = none) (rest : setup.Ends (t.at job' next) result) :
    setup.Ends (s.at job point) result :=
  turn (called.turn does settled) rest

theorem Setup.Ends.leave {enqueued : Bool} (called : setup.Does s job point ok t)
    (does : dlStep setup.maxRetries true job ok point =
      some { leave job' with enqueued }) (settled : landing point = none) :
    setup.Ends (s.at job point) { t with job := job', point := none, handed := enqueued } :=
  turn (called.turn does settled) ⟨1, rfl⟩

theorem Setup.Ends.fetch {f i : ℕ}
    (rest : setup.Ends (s.at { job with files := arrive setup.article job.files f i }
      (.segLoop phase f segs files)) result) :
    setup.Ends (s.at job (.segFetch phase f i segs files)) result := by
  refine turn ?_ rest
  have names : (arrive setup.article job.files f i).map (·.filename) =
      job.files.map (·.filename) := (fetched_arrive job.files f i).names
  simp only [Setup.turn, Setup.step, checkedStep, perform, dlStep, landing, Checked.at,
    Checked.names, DlEffect.goto, bind_eq_bind, bind_some]
  exact if_pos names

theorem Setup.Ends.segLoop {f : ℕ} (running : job.stopped = false)
    (rest : setup.Ends (s.at { job with files := fetchSegments setup.article f segs job.files }
      (.fileLoop phase files)) result) :
    setup.Ends (s.at job (.segLoop phase f segs files)) result := by
  induction segs generalizing job with
  | nil => exact goto rfl rfl rfl rest
  | cons i segs ih =>
    rw [fetchSegments] at rest
    by_cases arrived : arrivedAt job.files f i = true
    · rw [if_pos arrived] at rest
      refine goto rfl ?_ rfl (ih running rest)
      simp only [dlStep, running, false_eq_true, if_false]
      exact if_pos arrived
    · rw [if_neg arrived] at rest
      refine goto rfl ?_ rfl (fetch (ih running rest))
      simp only [dlStep, running, false_eq_true, if_false]
      exact if_neg arrived

theorem Setup.Ends.fileLoop (running : job.stopped = false)
    (rest : setup.Ends (s.at { job with files := fetchFiles setup.article files job.files }
      (.waiting phase)) result) : setup.Ends (s.at job (.fileLoop phase files)) result := by
  induction files generalizing job with
  | nil => exact goto rfl rfl rfl rest
  | cons f files ih =>
    refine goto rfl ?_ rfl (segLoop running (ih running rest))
    simp only [dlStep, running, false_eq_true, if_false]

end Rules

/-! ## The outcome -/

namespace Setup

variable (setup : Setup) (start : Checked)

def scan (pass : Pass) (disk : String → Option Bytes) : Option ScanSet :=
  par2ScanDir setup.rounds setup.env.md5 setup.qsort disk setup.dir (some (setup.entries pass))

/-- `par2_repair_job`, in the same way. -/
def repair (names : List Name) (w : World) : Option (Bool × World) := do
  let set ← setup.scan .second w.disk
  if set.files.length = 0 then return (false, w)
  else
    match par2RepairSet setup.env set.toPar2Set (repairFiles setup.dir names) w with
    | .ok _ w => return (true, w)
    | .error _ w => return (false, w)

end Setup

section Outcome

variable {setup : Setup} {start s : Checked} {job : Job} {names : List Name} {pass : Pass}
  {passed repaired handed : Bool} {w : World}

theorem Setup.Ends.repair (named : job.files.map (·.filename) = names)
    (going : job.wasCancelled = false)
    (repairs : setup.repair names s.world = some (repaired, w)) :
    ∃ (t : Checked) (job' : Job), t.world = w ∧ job'.files = job.files ∧
      job'.wasCancelled = false ∧
      ∀ {result}, setup.Ends
          (t.at job' (if repaired then .scanning .second else .repairFailed)) result →
        setup.Ends (s.at job .repairReady) result := by
  obtain ⟨set, scanned, outcome⟩ := bind_eq_some_iff.mp repairs
  let ready := { s with set := set }
  let busy := (job.setBusy true).setState .repairing
  have prepares : setup.Does s (job.setBusy true) .repairPrep (decide (set.files.length ≠ 0))
      ready := by
    rw [scan] at scanned
    simp only [Setup.Does, perform, choice, bind_eq_bind, Checked.at, reduceCtorEq,
      if_false]
    rw [scanned]
    simp [ready]
  by_cases none : set.files.length = 0
  · rw [decide_eq_false (not_not.mpr none)] at prepares
    rw [if_pos none] at outcome
    cases outcome
    exact ⟨ready, job.setBusy true, rfl, rfl, going, fun ends =>
      goto rfl rfl rfl (goto prepares rfl rfl ends)⟩
  rw [decide_eq_true none] at prepares
  rw [if_neg none] at outcome
  have repairs : setup.Does ready busy .repairing repaired { ready with world := w } := by
    have same : (ready.at busy .repairing).names = names := named
    simp only [Setup.Does, perform, same]
    split at outcome <;> rename_i returns
    all_goals
      cases outcome
      rw [show par2RepairSet setup.env (ready.at busy .repairing).set.toPar2Set
        (repairFiles setup.dir names) (ready.at busy .repairing).world = _ from returns]
      rfl
  exact ⟨{ ready with world := w }, busy, rfl, rfl, rfl, fun ends => goto rfl rfl rfl
    (goto prepares rfl rfl (goto repairs rfl rfl ends))⟩

end Outcome

/-! ## A film with an index and a volume

One block of four bytes and one recovery slice of exponent zero. -/

end NzbDownloader.Download
