import NzbDownloader.Download.Finalize

/-!
# What finalization leaves alone

A finalization that fails is retried with the files it finds in the job's directory, so it
matters whether it had moved some of them already.
-/

namespace NzbDownloader.Download

open Util Queue Storage Extract Lib List

variable {env : FinalizeEnv} {config : StorageConfig} {job other : JobRecord}
  {destDir : Path} {disk disk' disk'' : Disk Name Bytes}

def SparesFiles (config : StorageConfig) (job : JobRecord) (disk disk' : Disk Name Bytes) : Prop :=
  ∀ name, disk'.file (jobTempDir config job ++ [name]) =
    disk.file (jobTempDir config job ++ [name])

def ExtractionSpares (env : FinalizeEnv) (config : StorageConfig) (job : JobRecord) : Prop :=
  (∀ volumes disk, SparesFiles config job disk (env.extractOneArchive volumes disk).2) ∧
    ∀ disk, SparesFiles config job disk (env.extractNested disk).2

/-- Nothing stops the move of any file. -/
structure Movable (env : FinalizeEnv) (config : StorageConfig) (job : JobRecord)
    (destDir : Path) (disk : Disk Name Bytes) : Prop where
  unhindered : ∀ file ∈ toMove job.files, Unhindered env (jobFilePath config job file)
    (destDir ++ [pathSanitizeComponent file.filename])
  onDisk : ∀ file ∈ toMove job.files, (disk.file (jobFilePath config job file)).isSome = true
  vacant : disk.file destDir = none
  free : ∀ file ∈ toMove job.files,
    disk.dir (destDir ++ [pathSanitizeComponent file.filename]) = false
  distinct : ((toMove job.files).map fun file => pathSanitizeComponent file.filename).Nodup

def MovesTogether (env : FinalizeEnv) (config : StorageConfig) (job : JobRecord)
    (destDir : Path) (disk : Disk Name Bytes) : Prop :=
  (∃ file ∈ job.files, ¬classify file.filename = none) ∨ (toMove job.files).length ≤ 1 ∨
    Movable env config job destDir disk

/-- A relation between disks that no step of an extraction into `destDir` breaks. -/
structure Respects (env : FinalizeEnv) (destDir : Path)
    (R : Disk Name Bytes → Disk Name Bytes → Prop) : Prop where
  refl : ∀ disk, R disk disk
  trans : ∀ {disk disk' disk''}, R disk disk' → R disk' disk'' → R disk disk''
  mkdirP : ∀ disk, R disk (disk.mkdirP env.mkdir destDir).2
  archive : ∀ volumes disk, R disk (env.extractOneArchive volumes disk).2
  nested : ∀ disk, R disk (env.extractNested disk).2

section Rules

variable {R : Disk Name Bytes → Disk Name Bytes → Prop} (respects : Respects env destDir R)

include respects

theorem extractSets_rule (srcDir : Path) (sets : List (List Member)) (disk : Disk Name Bytes) :
    R disk (extractSets env srcDir sets disk).2 := by
  induction sets generalizing disk with
  | nil => exact respects.refl disk
  | cons volumes rest ih =>
    have first := respects.archive
      (volumes.map fun volume => srcDir ++ [pathSanitizeComponent volume.filename]) disk
    unfold extractSets
    split
    · rename_i extracted
      rw [extracted] at first
      exact respects.trans first (ih _)
    · rename_i extracted
      rwa [extracted] at first

theorem extractJob_rule (files : List JobFile) (srcDir : Path) (disk : Disk Name Bytes) :
    R disk (extractJob env files srcDir destDir disk).2 := by
  have made := respects.mkdirP disk
  unfold extractJob
  split_ifs
  · exact respects.refl disk
  · exact respects.refl disk
  split
  · exact respects.refl disk
  split
  · rename_i failed
    rwa [failed] at made
  rename_i disk₁ created
  rw [created] at made
  have step := extractSets_rule respects srcDir (groupVolumes env.qsort (members files)) disk₁
  split
  · rename_i failed
    rw [failed] at step
    exact respects.trans made step
  · rename_i disk₂ succeeded
    rw [succeeded] at step
    have nested := respects.nested disk₂
    split <;> rename_i ended <;> rw [ended] at nested
    all_goals exact respects.trans made (respects.trans step nested)

theorem moveFiles_rule (files : List JobFile) (disk : Disk Name Bytes) (n : ℕ)
    (moves : ∀ file ∈ files, ∀ disk n, R disk (moveFile env (jobFilePath config job file)
      (destDir ++ [pathSanitizeComponent file.filename]) disk n).2.1) :
    R disk (moveFiles env config job destDir files disk n).2 := by
  induction files generalizing disk n with
  | nil => exact respects.refl disk
  | cons file rest ih =>
    have later := fun disk n => ih disk n fun file' member => moves file' (.tail _ member)
    have first := moves file (.head _) disk n
    unfold moveFiles
    split_ifs
    · exact later disk n
    split
    · rename_i moved
      rw [moved] at first
      exact respects.trans first (later _ _)
    · rename_i failed
      rwa [failed] at first

theorem placeOutput_rule (disk : Disk Name Bytes)
    (moves : ∀ file ∈ job.files, ∀ disk n, R disk (moveFile env (jobFilePath config job file)
      (destDir ++ [pathSanitizeComponent file.filename]) disk n).2.1) :
    R disk (placeOutput env config job destDir disk).2 := by
  have extracted := extractJob_rule respects job.files (jobTempDir config job) disk
  unfold placeOutput
  split
  · rename_i failed
    rwa [failed] at extracted
  · rename_i succeeded
    rwa [succeeded] at extracted
  rename_i disk₁ none
  rw [none] at extracted
  have made := respects.mkdirP disk₁
  split
  · rename_i stopped
    rw [stopped] at made
    exact respects.trans extracted made
  · rename_i created
    rw [created] at made
    exact respects.trans extracted
      (respects.trans made (moveFiles_rule respects job.files _ 0 moves))

end Rules

theorem respects_sparesFiles (spares : ExtractionSpares env config other) :
    Respects env destDir (SparesFiles config other) where
  refl disk _ := rfl
  trans first second name := (second name).trans (first name)
  mkdirP disk name := by rw [Disk.mkdirP_file]
  archive := spares.1
  nested := spares.2

variable {files : List JobFile}

theorem of_extractJob_none {srcDir : Path}
    (none : extractJob env files srcDir destDir disk = (.none, disk')) :
    disk' = disk ∧ ∀ file ∈ files, classify file.filename = Option.none := by
  unfold extractJob at none
  split_ifs at none with empty noMemory
  · cases none
    exact ⟨rfl, by simp [empty]⟩
  · cases none
  split at none
  · rename_i noSets
    cases none
    refine ⟨rfl, fun file member => ?_⟩
    by_contra archive
    exact groupVolumes_ne_nil member archive _ noSets
  · split at none
    · cases none
    · split at none
      · cases none
      · split at none <;> cases none

theorem ne_of_id (different : other.id ≠ job.id) (name name' : Name) :
    jobTempDir config other ++ [name] ≠ jobTempDir config job ++ [name'] := by
  intro same
  have dirs : config.tempDir ++ [other.id] = config.tempDir ++ [job.id] :=
    append_inj_left' same rfl
  exact different (singleton_inj.mp (append_inj_right' dirs rfl))

theorem moveFiles_failed_spares {n : ℕ} (elsewhere : destDir ≠ jobTempDir config job)
    (single : (toMove files).length ≤ 1)
    (failed : moveFiles env config job destDir files disk n = (false, disk')) :
    SparesFiles config job disk disk' := by
  rw [← moveFiles_toMove] at failed
  rcases moving : toMove files with _ | ⟨file, _ | ⟨next, rest⟩⟩
  · rw [moving] at failed
    cases failed
  · have plain : ¬isSidecarFile file.filename = true :=
      (mem_toMove.mp (by rw [moving]; exact .head _)).2
    rw [moving, moveFiles, if_neg plain] at failed
    split at failed
    · cases failed
    · rename_i stopped
      cases failed
      exact fun name => (moveFile_frame stopped).2 _ (ne_of_dir elsewhere _ _) fun moved =>
        absurd moved Bool.false_ne_true
  · rw [moving] at single
    exact absurd single (by simp)

theorem Movable.not_failed (movable : Movable env config job destDir disk) (proper : destDir ≠ [])
    (made : disk.mkdirP env.mkdir destDir = (true, disk')) :
    ¬moveFiles env config job destDir job.files disk' 0 = (false, disk'') := by
  intro failed
  have files : disk'.file = disk.file := by
    rw [← Disk.mkdirP_file env.mkdir disk destDir, made]
  have free : ∀ file ∈ toMove job.files,
      disk'.dir (destDir ++ [pathSanitizeComponent file.filename]) = false := by
    intro file member
    have below := Disk.mkdirP_dir_below env.mkdir disk destDir
      (pathSanitizeComponent file.filename)
    rw [made, movable.free file member] at below
    exact below
  obtain ⟨_, succeeded, _⟩ := moveFiles_succeeds movable.unhindered
    (Disk.mkdirP_isDir proper movable.vacant made) (by rw [files]; exact movable.onDisk) free
    movable.distinct
  rw [succeeded] at failed
  cases failed

theorem jobOutputDestDir_ne_nil (configured : jobOutputDestDir config job = some destDir) :
    destDir ≠ [] := by
  obtain ⟨_, _, rfl⟩ := Option.map_eq_some_iff.mp configured
  simp

theorem placeOutput_failed_spares (spares : ExtractionSpares env config job)
    (elsewhere : destDir ≠ jobTempDir config job) (proper : destDir ≠ [])
    (together : MovesTogether env config job destDir disk)
    (failed : placeOutput env config job destDir disk = (false, disk')) :
    SparesFiles config job disk disk' := by
  have respects : Respects env destDir (SparesFiles config job) := respects_sparesFiles spares
  unfold placeOutput at failed
  split at failed
  · rename_i extracted
    cases failed
    have spared := extractJob_rule respects job.files (jobTempDir config job) disk
    rwa [extracted] at spared
  · cases failed
  · rename_i extracted
    obtain ⟨same, plain⟩ := of_extractJob_none extracted
    rw [same] at failed
    have made := respects.mkdirP disk
    split at failed
    · rename_i stopped
      cases failed
      rwa [stopped] at made
    · rename_i created
      rcases together with ⟨file, member, archive⟩ | single | movable
      · exact absurd (plain file member) archive
      · rw [created] at made
        exact respects.trans made (moveFiles_failed_spares elsewhere single failed)
      · exact absurd failed (movable.not_failed proper created)

theorem placeOutput_spares_other (different : other.id ≠ job.id)
    (spares : ExtractionSpares env config other) (elsewhere : destDir ≠ jobTempDir config other) :
    SparesFiles config other disk (placeOutput env config job destDir disk).2 := by
  refine placeOutput_rule (respects_sparesFiles spares) disk fun file _ disk n name => ?_
  exact (moveFile_frame rfl).2 _ (ne_of_dir elsewhere _ _) fun _ => ne_of_id different _ _

theorem finalizeJob_failed_spares (configured : jobOutputDestDir config job = some destDir)
    (spares : ExtractionSpares env config job) (elsewhere : destDir ≠ jobTempDir config job)
    (together : MovesTogether env config job destDir disk)
    (failed : finalizeJob env config job disk = (false, disk')) :
    SparesFiles config job disk disk' := by
  simp only [finalizeJob, configured] at failed
  split at failed
  · rename_i stopped
    cases failed
    exact placeOutput_failed_spares spares elsewhere (jobOutputDestDir_ne_nil configured) together
      stopped
  · cases failed

theorem finalizeJob_spares_other (configured : jobOutputDestDir config job = some destDir)
    (different : other.id ≠ job.id) (spares : ExtractionSpares env config other)
    (elsewhere : destDir ≠ jobTempDir config other) :
    SparesFiles config other disk (finalizeJob env config job disk).2 := by
  have placed : SparesFiles config other disk (placeOutput env config job destDir disk).2 :=
    placeOutput_spares_other different spares elsewhere
  simp only [finalizeJob, configured]
  split
  · rename_i failed
    rwa [failed] at placed
  rename_i succeeded
  rw [succeeded] at placed
  intro name
  rw [Disk.removeTree_file_of_not_below (fun below => ?_), placed name]
  rw [jobTempDir, jobTempDir, append_assoc, prefix_append_right_inj,
    singleton_append, cons_prefix_cons] at below
  exact different below.1.symm

/-- Outside `dir` files are left alone or removed. -/
def AddsBelow (dir : Path) (disk disk' : Disk Name Bytes) : Prop :=
  ∀ path, ¬dir <+: path → disk'.file path = disk.file path ∨ disk'.file path = none

/-- The archives put their files below `dir`. -/
def ExtractsBelow (env : FinalizeEnv) (dir : Path) : Prop :=
  (∀ volumes disk, AddsBelow dir disk (env.extractOneArchive volumes disk).2) ∧
    ∀ disk, AddsBelow dir disk (env.extractNested disk).2

theorem AddsBelow.trans {dir : Path} (first : AddsBelow dir disk disk')
    (second : AddsBelow dir disk' disk'') : AddsBelow dir disk disk'' := by
  intro path outside
  rcases second path outside with same | gone
  · rw [same]
    exact first path outside
  · exact .inr gone

theorem respects_addsBelow {dir : Path} (extracts : ExtractsBelow env dir) :
    Respects env destDir (AddsBelow dir) where
  refl disk _ _ := .inl rfl
  trans := AddsBelow.trans
  mkdirP disk _ _ := .inl (by rw [Disk.mkdirP_file])
  archive := extracts.1
  nested := extracts.2

theorem moveFile_addsBelow (src : Path) (name : Name) (disk : Disk Name Bytes) (n : ℕ) :
    AddsBelow destDir disk (moveFile env src (destDir ++ [name]) disk n).2.1 := by
  intro path outside
  have different : path ≠ destDir ++ [name] := by
    rintro rfl
    exact outside (prefix_append _ _)
  rcases moved : moveFile env src (destDir ++ [name]) disk n with ⟨ok, disk', n'⟩
  by_cases isSrc : ok = true ∧ path = src
  · obtain ⟨rfl, rfl⟩ := isSrc
    obtain ⟨content, found, _, left⟩ := moveFile_spec different moved
    rw [found]
    exact left.symm
  · exact .inl ((moveFile_frame moved).2 path different fun ok same => isSrc ⟨ok, same⟩)

theorem finalizeJob_addsBelow (configured : jobOutputDestDir config job = some destDir)
    (extracts : ExtractsBelow env destDir) :
    AddsBelow destDir disk (finalizeJob env config job disk).2 := by
  have placed := placeOutput_rule (respects_addsBelow extracts) disk
    fun (file : JobFile) (_ : file ∈ job.files) disk n =>
      moveFile_addsBelow (jobFilePath config job file) _ disk n
  simp only [finalizeJob, configured]
  split
  · rename_i failed
    rwa [failed] at placed
  rename_i disk₁ succeeded
  rw [succeeded] at placed
  exact placed.trans fun path _ =>
    (Disk.removeTree_file_cases disk₁ _ path).imp_right And.right

end NzbDownloader.Download
