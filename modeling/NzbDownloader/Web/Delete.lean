import NzbDownloader.Download.Spares
import NzbDownloader.Lib.ByteFile
import NzbDownloader.Lib.Transition

/-!
# Deleting a job

`api_jobs_delete` removes the job's directory below `temp_dir` and, for a job that is not
completed, its destination directory as the current settings give it.  Which job has created
a file follows from the downloads and finalizations of a run.  The directories are without
symbolic links here; what `rmdir_recursive` does with those is in `Storage.Rmdir`.
-/

namespace NzbDownloader.Web

open Util Queue Storage Lib Download Transition List Option Function

def queueRemoveJob (queue : List JobRecord) (id : Name) : ℤ × List JobRecord :=
  match queue.find? (·.id = id) with
  | none => (-1, queue)
  | some job => if job.removable then (0, queue.eraseP (·.id = id)) else (-2, queue)

structure DeleteOutcome where
  status : ℕ
  error : Option String
  queue : List JobRecord
  disk : Disk Name Bytes

/-- `api_jobs_delete`, with `rmdir_recursive` removing all it is asked to. -/
def apiJobsDelete (config : StorageConfig) (queue : List JobRecord) (disk : Disk Name Bytes)
    (id : Name) : DeleteOutcome :=
  let tempDir := config.tempDir ++ [id]
  let destDir := (queue.find? (·.id = id)).bind fun job =>
    if job.state ≠ .completed then jobOutputDestDir config job else none
  match queueRemoveJob queue id with
  | (0, queue) =>
      let disk := disk.removeTree tempDir
      ⟨200, none, queue, destDir.elim disk disk.removeTree⟩
  | (-2, queue) =>
      ⟨409, some "job is still actively being processed - try again in a moment", queue, disk⟩
  | (_, queue) => ⟨404, some "no such job", queue, disk⟩

/-- A directory that a job puts files into: `temp_dir` with its id, or an output directory
with its sanitised name. -/
structure Place where
  job : Name
  parent : Path
  name : Name
  deriving DecidableEq, Repr

def Place.dir (place : Place) : Path :=
  place.parent ++ [place.name]

def tempPlace (config : StorageConfig) (id : Name) : Place :=
  ⟨id, config.tempDir, id⟩

/-- Where `job_output_dest_dir` sends the output: to the job's override or the configured
directory, under the job's name without `.nzb` and sanitised. -/
def outputPlace (config : StorageConfig) (job : JobRecord) : Option Place :=
  (job.outputDir <|> config.outputDir).map fun dir => ⟨job.id, dir, jobOutputSubdir job⟩

/-- The queue, the settings and the disk.  `creator` and `places` are history: the job that
has written each file last, and the directories that jobs have put files into. -/
structure Shelf where
  config : StorageConfig
  queue : List JobRecord
  disk : Disk Name Bytes
  creator : Path → Option Name
  places : List Place

open NzbDownloader.Web.Shelf

inductive ShelfEvent
  | download (id : Name) (filename : Name) (content : Bytes)
  | finalize (id : Name) (env : FinalizeEnv)
  | delete (id : Name)
  | configure (config : StorageConfig)
  /-- Jobs are added, change their state, and so on. -/
  | requeue (queue : List JobRecord)
  /-- Another program writes a file. -/
  | foreign (path : Path) (content : Bytes)

/-- What has changed on the disk is the work of the job. -/
def Shelf.credit (s : Shelf) (id : Name) (disk : Disk Name Bytes) : Path → Option Name :=
  fun path => if disk.file path = s.disk.file path then s.creator path else some id

def Shelf.work (s : Shelf) (place : Place) (disk : Disk Name Bytes) : Shelf :=
  { s with disk := disk, creator := s.credit place.job disk, places := place :: s.places }

def Shelf.setState (s : Shelf) (id : Name) (state : JobState) : Shelf :=
  { s with queue := s.queue.map fun job => if job.id = id then { job with state } else job }

def Shelf.step (s : Shelf) : ShelfEvent → Option Shelf
  | .download id filename content => do
      let job ← s.queue.find? (·.id = id)
      let disk := (s.disk.mkdirP (fun _ => true) (jobTempDir s.config job)).2
      let disk ← disk.write (jobTempDir s.config job ++ [pathSanitizeComponent filename]) content
      some (s.work (tempPlace s.config id) disk)
  | .finalize id env => do
      let job ← s.queue.find? (·.id = id)
      let (ok, disk) := finalizeJob env s.config job s.disk
      let state := if ok then JobState.completed else .failed
      match outputPlace s.config job with
      | none => some (s.setState id state)
      | some place => some ((s.work place disk).setState id state)
  | .delete id =>
      let outcome := apiJobsDelete s.config s.queue s.disk id
      some { s with
        queue := outcome.queue
        disk := outcome.disk
        places := s.places.filter fun place =>
          place.job ≠ id ∨ outcome.disk.dir place.dir = true }
  | .configure config => some { s with config := config }
  | .requeue queue => some { s with queue := queue }
  | .foreign path content => do
      let disk ← s.disk.write path content
      some { s with disk := disk, creator := update s.creator path none }

/-- The file belongs to the finished output of another job, or lies below the
output directory and was not created by the job. -/
def Shelf.Foreign (s : Shelf) (job : JobRecord) (path : Path) : Prop :=
  (∃ other ∈ s.queue, other.id ≠ job.id ∧ other.state = .completed ∧
    s.creator path = some other.id) ∨
  ∃ outputDir ∈ job.outputDir <|> s.config.outputDir, outputDir <+: path ∧
    s.creator path ≠ some job.id

/-- The two directories have different names in one directory, and neither is in the parent
of the other. -/
structure Place.Apart (place other : Place) : Prop where
  names : place.parent = other.parent → place.name ≠ other.name
  above : ¬place.dir <+: other.parent
  below : ¬other.dir <+: place.parent

/-- The job has put files into this directory before, or it holds none. -/
def Shelf.Owned (s : Shelf) (place : Place) : Prop :=
  place ∈ s.places ∨ ∀ path, place.dir <+: path → s.disk.file path = none

/-- A job puts files only into directories that are new or its own and that do not collide
with another job's; a job is deleted only while the directories that the settings now give
for it are its own or hold nothing.  Other programs leave the directories of jobs alone. -/
def Shelf.Careful (s : Shelf) : ShelfEvent → Prop
  | .download id _ _ => s.Owned (tempPlace s.config id) ∧
      ∀ other ∈ s.places, other.job ≠ id → (tempPlace s.config id).Apart other
  | .finalize id env => ∀ job, s.queue.find? (·.id = id) = some job →
      ∀ place, outputPlace s.config job = some place → s.Owned place ∧
        (∀ other ∈ s.places, other.job ≠ place.job → place.Apart other) ∧
        ExtractsBelow env place.dir
  | .delete id => ∀ job, s.queue.find? (·.id = id) = some job → job.removable = true →
      s.Owned (tempPlace s.config id) ∧
        (job.state ≠ .completed → ∀ place, outputPlace s.config job = some place → s.Owned place)
  | .foreign path _ => ∀ place ∈ s.places, ¬place.dir <+: path
  | _ => True

/-- Every file below a directory of a job was created by this job. -/
def Shelf.Sound (s : Shelf) : Prop :=
  ∀ place ∈ s.places, ∀ path content, place.dir <+: path → s.disk.file path = some content →
    s.creator path = some place.job

variable {s s' : Shelf} {place other : Place} {path : Path} {id : Name} {job : JobRecord}

theorem Place.Apart.outside (apart : place.Apart other) (below : other.dir <+: path) :
    ¬place.dir <+: path := by
  intro here
  rcases prefix_or_prefix_of_prefix here below with first | second
  · rcases prefix_concat_iff.mp first with same | above
    · obtain ⟨parents, names⟩ := append_inj' same rfl
      exact apart.names parents (singleton_inj.mp names)
    · exact apart.above above
  · rcases prefix_concat_iff.mp second with same | above
    · obtain ⟨parents, names⟩ := append_inj' same rfl
      exact apart.names parents.symm (singleton_inj.mp names).symm
    · exact apart.below above

variable {content : Bytes}

theorem Shelf.Owned.creator (owned : s.Owned place) (sound : s.Sound) (below : place.dir <+: path)
    (found : s.disk.file path = some content) : s.creator path = some place.job := by
  rcases owned with earlier | empty
  · exact sound place earlier path content below found
  · rw [empty path below] at found
    contradiction

theorem Shelf.Sound.work (sound : s.Sound) (owned : s.Owned place)
    (apart : ∀ other ∈ s.places, other.job ≠ place.job → place.Apart other)
    {disk : Disk Name Bytes} (adds : AddsBelow place.dir s.disk disk) :
    (s.work place disk).Sound := by
  intro other member path content below found
  change s.credit place.job disk path = some other.job
  change disk.file path = some content at found
  unfold credit
  split
  · rename_i unchanged
    rw [unchanged] at found
    rcases mem_cons.mp member with rfl | earlier
    · exact owned.creator sound below found
    · exact sound other earlier path content below found
  · rename_i changed
    rcases mem_cons.mp member with rfl | earlier
    · rfl
    by_cases same : other.job = place.job
    · rw [same]
    · rcases adds path ((apart other earlier same).outside below) with unchanged | gone
      · exact absurd unchanged changed
      · rw [gone] at found
        contradiction

theorem Shelf.Sound.mono (sound : s.Sound) (places : ∀ place ∈ s'.places, place ∈ s.places)
    (creators : s'.creator = s.creator)
    (files : ∀ path content, s'.disk.file path = some content → s.disk.file path = some content) :
    s'.Sound := by
  intro place member path content below found
  rw [creators]
  exact sound place (places place member) path content below (files path content found)

theorem jobOutputDestDir_eq (config : StorageConfig) (job : JobRecord) :
    jobOutputDestDir config job = (outputPlace config job).map Place.dir := by
  rw [jobOutputDestDir, outputPlace, Option.map_map]
  rfl

theorem apiJobsDelete_file (config : StorageConfig) (queue : List JobRecord)
    (disk : Disk Name Bytes) (id : Name)
    (found : (apiJobsDelete config queue disk id).disk.file path = some content) :
    disk.file path = some content := by
  have shrinks : ∀ (disk : Disk Name Bytes) dir, (disk.removeTree dir).file path = some content →
      disk.file path = some content := by
    intro disk dir found
    rcases disk.removeTree_file_cases dir path with same | ⟨-, gone⟩
    · exact same.symm.trans found
    · rw [gone] at found
      contradiction
  unfold apiJobsDelete at found
  split at found
  · cases dest : (queue.find? (·.id = id)).bind fun job =>
      if job.state ≠ .completed then jobOutputDestDir config job else none with
    | none =>
      simp only [dest] at found
      exact shrinks disk _ found
    | some dir =>
      simp only [dest] at found
      exact shrinks disk _ (shrinks _ dir found)
  · exact found
  · exact found

theorem step_download {filename : Name} (taken : s.step (.download id filename content) = some s') :
    ∃ disk, s' = s.work (tempPlace s.config id) disk ∧ disk.file = update s.disk.file
      ((tempPlace s.config id).dir ++ [pathSanitizeComponent filename]) (some content) := by
  simp only [Shelf.step, bind_eq_bind, bind_eq_some_iff] at taken
  obtain ⟨job, found, disk, written, taken⟩ := taken
  cases taken
  obtain rfl : job.id = id := by simpa using find?_some found
  refine ⟨disk, rfl, ?_⟩
  rw [(Disk.write_spec written).1, Disk.mkdirP_file]
  rfl

theorem Shelf.Sound.step {event : ShelfEvent} (sound : s.Sound) (careful : s.Careful event)
    (taken : s.step event = some s') : s'.Sound := by
  cases event with
  | download id filename content =>
    obtain ⟨disk, rfl, files⟩ := step_download taken
    refine sound.work careful.1 careful.2 fun path outside => .inl ?_
    rw [files, update_of_ne]
    rintro rfl
    exact outside (prefix_append _ _)
  | finalize id env =>
    simp only [Shelf.step, bind_eq_bind, bind_eq_some_iff] at taken
    obtain ⟨job, found, taken⟩ := taken
    split at taken
    · cases taken
      exact sound.mono (fun _ member => member) rfl fun _ _ there => there
    · rename_i place isPlace
      cases taken
      obtain ⟨owned, apart, extracts⟩ := careful job found place isPlace
      have configured : jobOutputDestDir s.config job = some place.dir := by
        rw [jobOutputDestDir_eq, isPlace]
        rfl
      have worked := sound.work owned apart (finalizeJob_addsBelow configured extracts)
      exact worked.mono (fun _ member => member) rfl fun _ _ there => there
  | delete id =>
    cases taken
    exact sound.mono (fun _ member => (mem_filter.mp member).1) rfl
      fun _ _ => apiJobsDelete_file s.config s.queue s.disk id
  | configure config =>
    cases taken
    exact sound
  | requeue queue =>
    cases taken
    exact sound
  | foreign path content =>
    simp only [Shelf.step, bind_eq_bind, bind_eq_some_iff] at taken
    obtain ⟨disk, written, taken⟩ := taken
    cases taken
    intro place member path' content' below found
    have different : path' ≠ path := by
      rintro rfl
      exact careful place member below
    dsimp only at found ⊢
    rw [(Disk.write_spec written).1, update_of_ne different] at found
    rw [update_of_ne different]
    exact sound place member path' content' below found

def queuedJob (id name : String) (files : List String) : JobRecord where
  state := .queued
  busy := false
  retriesUsed := 0
  files := files.map fun filename => ⟨filename.toList, []⟩
  id := id.toList
  name := name.toList
  outputDir := none

def filmJob : JobRecord :=
  queuedJob "j2" "film.nzb" ["film.mkv", "extra.mkv"]

end NzbDownloader.Web
