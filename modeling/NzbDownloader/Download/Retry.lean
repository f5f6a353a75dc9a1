import NzbDownloader.Download.Spares

/-!
# Retrying a finalization

After a failed `finalize_job` the files should be where they were, so that the user can
retry the job: whatever call has failed, in the copy of a file after any of its blocks.
-/

namespace NzbDownloader.Download.Retry

open Util Queue Storage Extract Lib List Disk

/-- No call fails, and nobody cancels the job. -/
structure Calm (env : FinalizeEnv) : Prop where
  memory : env.memory = true
  mkdir : ∀ path, env.mkdir path = true
  rename : ∀ src dst, env.rename src dst ≠ .refused
  fails : ∀ n, env.fails n = false
  cancelled : ∀ n, env.cancelled n = false

variable {env : FinalizeEnv} {config : StorageConfig} {job : JobRecord} {destDir : Path}
  {disk disk' after : Disk Name Bytes} {file : JobFile} {src : Path} {n n' : ℕ} {ok : Bool}

theorem Calm.unhindered (calm : Calm env) (src dst : Path) : Unhindered env src dst := by
  cases answer : env.rename src dst with
  | permitted => exact .inl answer
  | refused => exact absurd answer (calm.rename src dst)
  | crossDevice => exact .inr ⟨answer, calm.fails, calm.cancelled⟩

theorem moveFile_self (moved : moveFile env src src disk n = (ok, disk', n')) :
    disk' = disk := by
  have near : renameAnswer env src src ≠ .crossDevice := by
    rw [renameAnswer]
    split
    · rw [if_pos rfl]
      decide
    · rename_i far
      exact far
  rw [moveFile] at moved
  split at moved
  · cases moved
    rfl
  · rw [rename] at moved
    cases found : disk.file src with
    | none =>
      rw [found] at moved
      cases moved
      rfl
    | some content =>
      rw [found] at moved
      simp only [if_true] at moved
      cases moved
      rfl
  · contradiction

theorem moveFiles_single {files : List JobFile} (single : toMove files = [file]) :
    ∃ ok disk' n', moveFile env (jobFilePath config job file)
        (destDir ++ [pathSanitizeComponent file.filename]) disk n = (ok, disk', n') ∧
      moveFiles env config job destDir files disk n = (ok, disk') := by
  have plain : ¬isSidecarFile file.filename = true :=
    (mem_toMove.mp (by rw [single]; exact .head _)).2
  rw [← moveFiles_toMove, single, moveFiles, if_neg plain]
  rcases moveFile env _ _ disk n with ⟨_ | _, disk', n'⟩
  · exact ⟨_, _, _, rfl, rfl⟩
  · exact ⟨_, _, _, rfl, rfl⟩

theorem moveFiles_self (files : List JobFile) (n : ℕ) (disk : Disk Name Bytes) :
    (moveFiles env config job (jobTempDir config job) files disk n).2 = disk := by
  induction files generalizing n with
  | nil => rfl
  | cons file rest ih =>
    rw [moveFiles]
    split
    · exact ih n
    split
    · rename_i disk₁ n₁ moved
      rw [moveFile_self moved]
      exact ih n₁
    · rename_i moved
      exact moveFile_self moved

theorem moveFiles_self_calm_iff (calm : Calm env) (files : List JobFile) (n : ℕ) :
    (moveFiles env config job (jobTempDir config job) files disk n).1 = true ↔
      ∀ file ∈ toMove files, (disk.file (jobFilePath config job file)).isSome = true := by
  rw [← moveFiles_toMove]
  have plain : ∀ file ∈ toMove files, ¬isSidecarFile file.filename = true :=
    fun file member => (mem_toMove.mp member).2
  generalize toMove files = moving at plain
  induction moving generalizing n with
  | nil => exact iff_of_true rfl nofun
  | cons file rest ih =>
    have here := @moveFile_iff disk env (jobFilePath config job file)
      (jobFilePath config job file) n (calm.unhindered _ _)
    simp only [true_or, and_true] at here
    rw [forall_mem_cons, ← here, moveFiles, if_neg (plain file (.head _)), ← jobFilePath]
    split
    · rename_i moved
      rw [moveFile_self moved, moved]
      exact (ih _ fun other later => plain other (.tail _ later)).trans (and_iff_right rfl).symm
    · rename_i moved
      rw [moved]
      exact iff_of_false (by simp) (by simp)

def MovesAtOnce (config : StorageConfig) (job : JobRecord) (destDir : Path) : Prop :=
  destDir = jobTempDir config job ∨ (toMove job.files).length ≤ 1

theorem moveFiles_failed (once : MovesAtOnce config job destDir)
    (failed : moveFiles env config job destDir job.files disk n = (false, disk')) :
    disk'.dir = disk.dir ∧
      (disk'.file = disk.file ∨ destDir ≠ jobTempDir config job ∧
        ∀ path, (∀ name, path ≠ destDir ++ [name]) → disk'.file path = disk.file path) := by
  by_cases self : destDir = jobTempDir config job
  · subst self
    have same := @moveFiles_self env config job job.files n disk
    rw [failed] at same
    exact ⟨congrArg dir same, .inl (congrArg file same)⟩
  · rcases few : toMove job.files with _ | ⟨file, _ | ⟨second, rest⟩⟩
    · rw [← moveFiles_toMove, few] at failed
      cases failed
    · obtain ⟨ok, disk₁, n₁, moved, eq⟩ := moveFiles_single few
      cases eq.symm.trans failed
      obtain ⟨dirs, frame⟩ := moveFile_frame moved
      exact ⟨dirs, .inr ⟨self, fun path apart => frame path (apart _) nofun⟩⟩
    · rcases once with same | single
      · exact absurd same self
      · rw [few] at single
        exact absurd single (by simp)

theorem moveFiles_calm_iff (once : MovesAtOnce config job destDir) (calm : Calm env) :
    (moveFiles env config job destDir job.files disk n).1 = true ↔
      ∀ file ∈ toMove job.files, (disk.file (jobFilePath config job file)).isSome ∧
        (destDir = jobTempDir config job ∨ disk.dir destDir ∧
          disk.dir (destDir ++ [pathSanitizeComponent file.filename]) = false) := by
  by_cases self : destDir = jobTempDir config job
  · subst self
    simp only [true_or, and_true]
    exact moveFiles_self_calm_iff calm job.files n
  · rcases few : toMove job.files with _ | ⟨file, _ | ⟨second, rest⟩⟩
    · rw [← moveFiles_toMove, few]
      exact iff_of_true rfl nofun
    · have apart : jobFilePath config job file ≠ destDir ++ [pathSanitizeComponent file.filename] :=
        ne_of_dir self _ _
      obtain ⟨ok, disk₁, n₁, moved, eq⟩ := moveFiles_single few
      rw [eq, ← congrArg Prod.fst moved, forall_mem_singleton,
        moveFile_iff (calm.unhindered _ _)]
      simp only [apart, self, dropLast_concat, false_or]
    · rcases once with same | single
      · exact absurd same self
      · rw [few] at single
        exact absurd single (by simp)

def InPlace (config : StorageConfig) (job : JobRecord) (disk after : Disk Name Bytes) : Prop :=
  ∀ file ∈ job.files,
    after.file (jobFilePath config job file) = disk.file (jobFilePath config job file)

def CanFinalize (config : StorageConfig) (job : JobRecord) (disk : Disk Name Bytes) : Prop :=
  ∀ env, Calm env → (finalizeJob env config job disk).1 = true

/-- Whenever `finalize_job` returns 0, it has left every file of the job in place and can be
called again. -/
def Retryable (config : StorageConfig) (job : JobRecord) (disk : Disk Name Bytes) : Prop :=
  ∀ env after, finalizeJob env config job disk = (false, after) →
    InPlace config job disk after ∧ (CanFinalize config job disk → CanFinalize config job after)

theorem finalizeJob_of_plain (configured : jobOutputDestDir config job = some destDir)
    (plain : ∀ file ∈ job.files, classify file.filename = none) :
    finalizeJob env config job disk =
      if job.files ≠ [] ∧ env.memory = false then (false, disk)
      else if (disk.mkdirP env.mkdir destDir).1 = false then
        (false, (disk.mkdirP env.mkdir destDir).2)
      else
        match moveFiles env config job destDir job.files (disk.mkdirP env.mkdir destDir).2 0 with
        | (false, disk) => (false, disk)
        | (true, disk) => (true, disk.removeTree (jobTempDir config job)) := by
  rcases made : disk.mkdirP env.mkdir destDir with ⟨ok, disk₁⟩
  rw [finalizeJob, configured]
  dsimp only [placeOutput]
  rw [extractJob_of_plain plain]
  by_cases noMemory : job.files ≠ [] ∧ env.memory = false
  · rw [if_pos noMemory, if_pos noMemory]
  · rw [if_neg noMemory, if_neg noMemory]
    dsimp only
    rw [made]
    cases ok with
    | false | true => rfl

structure Prepared (destDir : Path) (disk after : Disk Name Bytes) : Prop where
  made : (after.mkdirP (fun _ => true) destDir).1 = (disk.mkdirP (fun _ => true) destDir).1
  dirs : (after.mkdirP (fun _ => true) destDir).2.dir = (disk.mkdirP (fun _ => true) destDir).2.dir

theorem prepared_mkdirP (permits : Path → Bool) (destDir : Path) (disk : Disk Name Bytes) :
    Prepared destDir disk (disk.mkdirP permits destDir).2 := by
  have again := mkdirAll_mkdirAll permits destDir.inits.tail disk
  exact ⟨congrArg Prod.fst again, congrArg (fun result => result.2.dir) again⟩

theorem Prepared.of_files (prepared : Prepared destDir disk after) (dirs : disk'.dir = after.dir)
    (files : ∀ path, (∀ name, path ≠ destDir ++ [name]) → disk'.file path = after.file path) :
    Prepared destDir disk disk' := by
  have same := @mkdirAll_congr _ _ _ after disk' (fun _ => true) destDir.inits.tail dirs
    (fun path member => by
      refine congrArg Option.isSome (files path fun name => ?_)
      rintro rfl
      have shorter := ((mem_inits _ _).mp (mem_of_mem_tail member)).length_le
      rw [length_append, length_singleton] at shorter
      omega)
  exact ⟨same.1.trans prepared.made, same.2.trans prepared.dirs⟩

section AtOnce

variable (configured : jobOutputDestDir config job = some destDir)
  (plain : ∀ file ∈ job.files, classify file.filename = none)
  (once : MovesAtOnce config job destDir)
include configured plain once

theorem finalizeJob_failed (failed : finalizeJob env config job disk = (false, after)) :
    InPlace config job disk after ∧ Prepared destDir disk after := by
  rw [finalizeJob_of_plain configured plain] at failed
  have files := mkdirP_file env.mkdir disk destDir
  have prepared := prepared_mkdirP env.mkdir destDir disk
  generalize (disk.mkdirP env.mkdir destDir).2 = disk₁ at files prepared failed
  split_ifs at failed
  · cases failed
    exact ⟨fun _ _ => rfl, ⟨rfl, rfl⟩⟩
  · cases failed
    exact ⟨fun file _ => congrFun files _, prepared⟩
  split at failed
  · rename_i stopped
    cases failed
    obtain ⟨dirs, same | ⟨elsewhere, outside⟩⟩ := moveFiles_failed once stopped
    · exact ⟨fun file _ => congrFun (same.trans files) _,
        prepared.of_files dirs fun path _ => congrFun same path⟩
    · refine ⟨fun file _ => ?_, prepared.of_files dirs outside⟩
      exact (outside _ fun name => ne_of_dir elsewhere _ name).trans (congrFun files _)
  · cases failed

theorem finalizeJob_calm_iff (calm : Calm env) :
    (finalizeJob env config job disk).1 = true ↔
      (disk.mkdirP (fun _ => true) destDir).1 = true ∧
        ∀ file ∈ toMove job.files, (disk.file (jobFilePath config job file)).isSome ∧
          (destDir = jobTempDir config job ∨
            (disk.mkdirP (fun _ => true) destDir).2.dir destDir = true ∧
            (disk.mkdirP (fun _ => true) destDir).2.dir
              (destDir ++ [pathSanitizeComponent file.filename]) = false) := by
  have permits : env.mkdir = fun _ => true := funext calm.mkdir
  have moves := @moveFiles_calm_iff env config job destDir
    (disk.mkdirP (fun _ => true) destDir).2 0 once calm
  rw [mkdirP_file] at moves
  rw [finalizeJob_of_plain configured plain, permits, calm.memory, if_neg (by simp), ← moves]
  cases (disk.mkdirP (fun _ => true) destDir).1 with
  | false => simp
  | true =>
    rw [if_neg (by simp)]
    split <;> rename_i moved <;> simp [moved]

theorem retryable_of_movesAtOnce : Retryable config job disk := by
  intro env after failed
  obtain ⟨inPlace, prepared⟩ := finalizeJob_failed configured plain once failed
  refine ⟨inPlace, fun can env' calm => ?_⟩
  have before := (finalizeJob_calm_iff configured plain once calm).mp (can env' calm)
  rw [finalizeJob_calm_iff configured plain once calm, prepared.made, prepared.dirs]
  refine ⟨before.1, fun file member => ?_⟩
  rw [inPlace file (mem_of_mem_filter member)]
  exact before.2 file member

end AtOnce

structure Ready (config : StorageConfig) (job : JobRecord) (disk : Disk Name Bytes)
    (destDir : Path) : Prop where
  onDisk : ∀ file ∈ toMove job.files, (disk.file (jobFilePath config job file)).isSome = true
  made : (disk.mkdirP (fun _ => true) destDir).1 = true
  isDir : (disk.mkdirP (fun _ => true) destDir).2.dir destDir = true
  free : ∀ file ∈ toMove job.files,
    disk.dir (destDir ++ [pathSanitizeComponent file.filename]) = false

/-- Only the file at `path` can be renamed. -/
def renamesOnly (path : Path) : FinalizeEnv :=
  { permitting with rename := fun src _ => if src = path then .permitted else .refused }

theorem renameAnswer_renamesOnly (path src dst : Path) :
    renameAnswer (renamesOnly path) src dst = if src = path then .permitted else .refused := by
  simp only [renameAnswer, renamesOnly]
  split_ifs <;> rfl

theorem moveFile_renamesOnly {src dst : Path} {n : ℕ} (different : src ≠ dst)
    (found : (disk.file src).isSome) (isDir : disk.dir dst.dropLast)
    (free : disk.dir dst = false) : ∃ disk',
      moveFile (renamesOnly src) src dst disk n = (true, disk', n) ∧
        disk'.file src = none := by
  obtain ⟨disk', renamed⟩ := Option.isSome_iff_exists.mp
    (rename_isSome_iff.mpr ⟨found, .inr ⟨isDir, free⟩⟩)
  obtain ⟨content, -, files, -⟩ := rename_spec different renamed
  refine ⟨disk', ?_, ?_⟩
  · rw [moveFile, renameAnswer_renamesOnly, if_pos rfl]
    simp only [renamed]
  · rw [files, Function.update_of_ne different, erase_file_self]

theorem moveFile_renamesOnly_gone {gone src dst : Path} {n : ℕ} (empty : disk.file gone = none) :
    moveFile (renamesOnly gone) src dst disk n = (false, disk, n) := by
  by_cases same : src = gone
  · subst same
    rw [moveFile, renameAnswer_renamesOnly, if_pos rfl, rename, empty]
  · rw [moveFile, renameAnswer_renamesOnly, if_neg same]

theorem finalizeJob_loses_first {first second : JobFile} {rest : List JobFile}
    (configured : jobOutputDestDir config job = some destDir)
    (plain : ∀ file ∈ job.files, classify file.filename = none)
    (ready : Ready config job disk destDir) (elsewhere : destDir ≠ jobTempDir config job)
    (two : toMove job.files = first :: second :: rest) : ∃ after,
      finalizeJob (renamesOnly (jobFilePath config job first)) config job disk =
        (false, after) ∧ after.file (jobFilePath config job first) = none := by
  have member : first ∈ toMove job.files := by
    rw [two]
    exact .head _
  have onDisk := ready.onDisk first member
  have free := (mkdirP_dir_below (fun _ => true) disk destDir _).trans (ready.free first member)
  rw [← mkdirP_file (fun _ => true) disk destDir] at onDisk
  obtain ⟨disk₁, moved, gone⟩ := @moveFile_renamesOnly _ (jobFilePath config job first) _ 0
    (ne_of_dir elsewhere _ _) onDisk (by rw [dropLast_concat]; exact ready.isDir) free
  have plainOf : ∀ file ∈ toMove job.files, ¬isSidecarFile file.filename = true :=
    fun file member => (mem_toMove.mp member).2
  rw [two] at plainOf
  have loop : moveFiles (renamesOnly (jobFilePath config job first)) config job destDir
      job.files (disk.mkdirP (fun _ => true) destDir).2 0 = (false, disk₁) := by
    rw [← moveFiles_toMove, two, moveFiles, if_neg (plainOf first (.head _)), moved]
    simp only [moveFiles, if_neg (plainOf second (.tail _ (.head _))),
      moveFile_renamesOnly_gone gone]
  refine ⟨disk₁, ?_, gone⟩
  rw [finalizeJob_of_plain configured plain]
  simp only [show (renamesOnly (jobFilePath config job first)).mkdir = fun _ => true from rfl,
    show (renamesOnly (jobFilePath config job first)).memory = true from rfl, ready.made, loop,
    Bool.true_eq_false, and_false, if_false]

/-- A job without archives can be finalized again after any failure, unless a second file is
to be moved: then the first may be gone from the job's directory. -/
theorem retryable_iff_movesAtOnce
    (plain : ∀ file ∈ job.files, classify file.filename = none) :
    ((∀ destDir, jobOutputDestDir config job = some destDir → MovesAtOnce config job destDir) →
      Retryable config job disk) ∧
    ((∀ destDir, jobOutputDestDir config job = some destDir → Ready config job disk destDir) →
      (Retryable config job disk ↔
        ∀ destDir, jobOutputDestDir config job = some destDir → MovesAtOnce config job destDir)) := by
  have retryable : (∀ destDir, jobOutputDestDir config job = some destDir →
      MovesAtOnce config job destDir) → Retryable config job disk := by
    intro once
    cases configured : jobOutputDestDir config job with
    | none =>
      intro env after failed
      rw [finalizeJob, configured] at failed
      cases failed
    | some destDir => exact retryable_of_movesAtOnce configured plain (once destDir configured)
  refine ⟨retryable, fun ready => ⟨fun retry destDir configured => ?_, retryable⟩⟩
  by_contra several
  obtain ⟨elsewhere, many⟩ := not_or.mp several
  rcases two : toMove job.files with _ | ⟨first, _ | ⟨second, rest⟩⟩
  · exact many (by simp [two])
  · exact many (by simp [two])
  have member : first ∈ toMove job.files := by
    rw [two]
    exact .head _
  have onDisk := (ready destDir configured).onDisk first member
  obtain ⟨after, failed, gone⟩ :=
    finalizeJob_loses_first configured plain (ready destDir configured) elsewhere two
  rw [← (retry _ _ failed).1 first (mem_of_mem_filter member), gone] at onDisk
  contradiction

theorem retryable_film : Retryable showConfig (showJob "show.mkv" "show.par2")
    (showDisk "show.mkv" "show.par2") := by
  refine (retryable_iff_movesAtOnce (by decide +kernel)).1 fun destDir _ => .inr ?_
  decide +kernel

theorem second_film_stays : ∃ (env : FinalizeEnv) (job : JobRecord) (disk : Disk Name Bytes),
    (∀ file ∈ job.files, classify file.filename = none) ∧
    (∀ file ∈ job.files, (disk.file (jobFilePath showConfig job file)).isSome = true) ∧
    (finalizeJob env showConfig job disk).1 = false ∧
    (∃ file ∈ job.files,
      (finalizeJob env showConfig job disk).2.file (jobFilePath showConfig job file) = none) ∧
    (∃ env', Calm env' ∧ (finalizeJob env' showConfig job disk).1 = true ∧
      (finalizeJob env' showConfig job (finalizeJob env showConfig job disk).2).1 = false) := by
  refine ⟨renamesOnly ["tmp".toList, "j1".toList, "one.mkv".toList], showJob "one.mkv" "two.mkv",
    showDisk "one.mkv" "two.mkv", ?_, ?_, ?_, ?_, permitting,
    ⟨rfl, fun _ => rfl, nofun, fun _ => rfl, fun _ => rfl⟩, ?_⟩
  all_goals decide +kernel

end NzbDownloader.Download.Retry
