import Mathlib.Data.List.Sort
import NzbDownloader.Lib.ByteFile
import NzbDownloader.Lib.Disk
import NzbDownloader.Extract.Classify
import NzbDownloader.Storage.Layout

/-!
# Finalizing a job

`finalize_job` extracts the archives among the files of a job into the
destination directory, or moves the files there if there is no archive, and
removes the job's directory below `temp_dir` in both cases.  The archive library
and the system calls answer as the environment says; the rest is the code, down to
the blocks in which `move_file` copies to another device.
-/

namespace NzbDownloader.Download

open Util Queue Storage Extract Lib List Function Disk

inductive RenameAnswer
  | permitted
  | crossDevice
  | refused
  deriving DecidableEq, Repr

structure Member where
  id : ArchiveId
  filename : Name
  deriving DecidableEq, Repr

def Member.key (member : Member) : ArchiveKind × Name :=
  (member.id.kind, member.id.base)

/-- The answers of the system and the libraries to one call of `finalize_job`.
`fails`, `cancelled` and `flushed` are about the calls of its copies, by number:
whether a call fails, whether the job was cancelled by then, and how much a failing
`fclose` has written. -/
structure FinalizeEnv where
  memory : Bool
  mkdir : Path → Bool
  rename : Path → Path → RenameAnswer
  fails : ℕ → Bool
  cancelled : ℕ → Bool
  flushed : ℕ → ℕ
  qsort : List Member → List Member
  extractOneArchive : List Path → Disk Name Bytes → Bool × Disk Name Bytes
  extractNested : Disk Name Bytes → Bool × Disk Name Bytes

inductive ExtractResult
  | none
  | ok
  | failed
  deriving DecidableEq, Repr

def members (files : List JobFile) : List Member :=
  files.filterMap fun file => (classify file.filename).map fun id => ⟨id, file.filename⟩

/-- The outer loop of `extract_job`: the volumes with the key of the first one that is not
marked are marked and sorted. -/
def groupVolumes (qsort : List Member → List Member) : List Member → List (List Member)
  | [] => []
  | member :: rest =>
      qsort (member :: rest.filter (·.key = member.key)) ::
        groupVolumes qsort (rest.filter (·.key ≠ member.key))
termination_by volumes => volumes.length
decreasing_by
  simpa using Nat.lt_succ_of_le ((List.length_filter_le _ _).trans_eq List.length_attach)

section Finalize

variable (env : FinalizeEnv)

def extractSets (srcDir : Path) : List (List Member) → Disk Name Bytes → Bool × Disk Name Bytes
  | [], disk => (true, disk)
  | volumes :: rest, disk =>
      match env.extractOneArchive
          (volumes.map fun volume => srcDir ++ [pathSanitizeComponent volume.filename]) disk with
      | (true, disk) => extractSets srcDir rest disk
      | (false, disk) => (false, disk)

def extractJob (files : List JobFile) (srcDir destDir : Path) (disk : Disk Name Bytes) :
    ExtractResult × Disk Name Bytes :=
  if files = [] then (.none, disk)
  else if env.memory = false then (.failed, disk)
  else
    match groupVolumes env.qsort (members files) with
    | [] => (.none, disk)
    | sets =>
        match disk.mkdirP env.mkdir destDir with
        | (false, disk) => (.failed, disk)
        | (true, disk) =>
            match extractSets env srcDir sets disk with
            | (false, disk) => (.failed, disk)
            | (true, disk) =>
                match env.extractNested disk with
                | (false, disk) => (.failed, disk)
                | (true, disk) => (.ok, disk)

def blockSize : ℕ := 65536

/-- The copy loop of `move_file`: whether it ended without an error, what was copied, and
the number of the next call. -/
def copyLoop : ℕ → Bytes → Bytes → ℕ → Bool × Bytes × ℕ
  | 0, _, copied, n => (false, copied, n)
  | fuel + 1, rest, copied, n =>
      -- An error of `fread` ends the loop and is found by `ferror`.
      if env.fails n then (false, copied, n + 1)
      else if rest = [] then (true, copied, n + 1)
      else if env.fails (n + 1) then (false, copied, n + 2)
      else if env.cancelled (n + 2) then (false, copied ++ rest.take blockSize, n + 3)
      else copyLoop fuel (rest.drop blockSize) (copied ++ rest.take blockSize) (n + 3)

def renameAnswer (src dst : Path) : RenameAnswer :=
  match env.rename src dst with
  | .crossDevice => if src = dst then .permitted else .crossDevice
  | answer => answer

def tryErase (n : ℕ) (path : Path) (disk : Disk Name Bytes) : Disk Name Bytes :=
  if env.fails n then disk else disk.erase path

def copyFile (src dst : Path) (disk : Disk Name Bytes) (n : ℕ) : Bool × Disk Name Bytes × ℕ :=
  match disk.file src with
  | none => (false, disk, n + 1)
  | some content =>
      if env.fails n then (false, disk, n + 1)
      else if env.fails (n + 1) ∨ (disk.write dst []).isNone then (false, disk, n + 2)
      else
        let (ok, copied, n) := copyLoop env (content.length + 1) content [] (n + 2)
        -- The output is closed, and then one of the two files removed.
        if ok ∧ ¬env.fails n then (true, tryErase env (n + 1) src (disk.put dst copied), n + 2)
        else (false, tryErase env (n + 1) dst (disk.put dst (copied.take (env.flushed n))), n + 2)

def moveFile (src dst : Path) (disk : Disk Name Bytes) (n : ℕ) : Bool × Disk Name Bytes × ℕ :=
  match renameAnswer env src dst with
  | .refused => (false, disk, n)
  | .permitted =>
      match disk.rename src dst with
      | none => (false, disk, n)
      | some disk => (true, disk, n)
  | .crossDevice => copyFile env src dst disk n

def moveFiles (config : StorageConfig) (job : JobRecord) (destDir : Path) :
    List JobFile → Disk Name Bytes → ℕ → Bool × Disk Name Bytes
  | [], disk, _ => (true, disk)
  | file :: rest, disk, n =>
      if isSidecarFile file.filename then moveFiles config job destDir rest disk n
      else
        match moveFile env (jobFilePath config job file)
            (destDir ++ [pathSanitizeComponent file.filename]) disk n with
        | (true, disk, n) => moveFiles config job destDir rest disk n
        | (false, disk, _) => (false, disk)

def placeOutput (config : StorageConfig) (job : JobRecord) (destDir : Path)
    (disk : Disk Name Bytes) : Bool × Disk Name Bytes :=
  match extractJob env job.files (jobTempDir config job) destDir disk with
  | (.failed, disk) => (false, disk)
  | (.ok, disk) => (true, disk)
  | (.none, disk) =>
      match disk.mkdirP env.mkdir destDir with
      | (false, disk) => (false, disk)
      | (true, disk) => moveFiles env config job destDir job.files disk 0

def finalizeJob (config : StorageConfig) (job : JobRecord) (disk : Disk Name Bytes) :
    Bool × Disk Name Bytes :=
  match jobOutputDestDir config job with
  | none => (true, disk)
  | some destDir =>
      match placeOutput env config job destDir disk with
      | (false, disk) => (false, disk)
      | (true, disk) => (true, disk.removeTree (jobTempDir config job))

end Finalize

def IsLoose (file : JobFile) : Prop :=
  ¬hasSuffixCi file.filename ".par2".toList = true ∧ classify file.filename = none

instance (file : JobFile) : Decidable (IsLoose file) :=
  inferInstanceAs (Decidable (_ ∧ _))

variable {config : StorageConfig} {job : JobRecord} {destDir : Path} {disk disk' : Disk Name Bytes}

def Placed (config : StorageConfig) (job : JobRecord) (destDir : Path)
    (disk placed : Disk Name Bytes) : Prop :=
  ∀ file ∈ job.files, IsLoose file → ∀ content,
    disk.file (jobFilePath config job file) = some content →
      placed.file (destDir ++ [pathSanitizeComponent file.filename]) = some content

/-- Whatever the environment answers, when `finalize_job` returns 1 every loose
file is in the destination directory, before and after `temp_dir` is removed. -/
def LosesNothing (config : StorageConfig) (job : JobRecord) (destDir : Path)
    (disk : Disk Name Bytes) : Prop :=
  ∀ env after, finalizeJob env config job disk = (true, after) →
    ∃ placed, placeOutput env config job destDir disk = (true, placed) ∧
      Placed config job destDir disk placed ∧ Placed config job destDir disk after

/-- No file is loose, or no file is a volume and the destination is not inside the
job's own directory below `temp_dir`. -/
def Unmixed (config : StorageConfig) (job : JobRecord) (destDir : Path) : Prop :=
  (∀ file ∈ job.files, ¬IsLoose file) ∨
    (∀ file ∈ job.files, classify file.filename = none) ∧ ¬jobTempDir config job <+: destDir

variable {env : FinalizeEnv} {src dst path : Path} {files : List JobFile} {n n' : ℕ} {ok : Bool}

theorem placeOutput_of_finalizeJob {after : Disk Name Bytes}
    (configured : jobOutputDestDir config job = some destDir)
    (returned : finalizeJob env config job disk = (true, after)) :
    ∃ placed, placeOutput env config job destDir disk = (true, placed) ∧
      after = placed.removeTree (jobTempDir config job) := by
  simp only [finalizeJob, configured] at returned
  split at returned
  · cases returned
  · rename_i placed output
    cases returned
    exact ⟨placed, output, rfl⟩

variable {placed : Disk Name Bytes}

theorem finalizeJob_of_placeOutput (configured : jobOutputDestDir config job = some destDir)
    (output : placeOutput env config job destDir disk = (true, placed)) :
    finalizeJob env config job disk = (true, placed.removeTree (jobTempDir config job)) := by
  simp only [finalizeJob, configured, output]

/-! ## Moving a file -/

theorem copyLoop_spec {fuel : ℕ} {rest copied whole : Bytes}
    (ended : copyLoop env fuel rest copied n = (true, whole, n')) : whole = copied ++ rest := by
  induction fuel generalizing rest copied n with
  | zero => cases ended
  | succ fuel ih =>
    rw [copyLoop] at ended
    split_ifs at ended with _ done
    · cases ended
    · cases ended
      rw [done, append_nil]
    · cases ended
    · cases ended
    · rw [ih ended, append_assoc, take_append_drop]

theorem copyLoop_calm (fails : ∀ n, env.fails n = false) (cancelled : ∀ n, env.cancelled n = false)
    {fuel : ℕ} {rest : Bytes} (enough : rest.length < fuel) (copied : Bytes) :
    (copyLoop env fuel rest copied n).1 = true := by
  induction fuel generalizing rest copied n with
  | zero => omega
  | succ fuel ih =>
    simp only [copyLoop, fails, cancelled, Bool.false_eq_true, if_false]
    split
    · rfl
    rename_i more
    have shorter : 0 < rest.length := length_pos_iff.mpr more
    refine ih ?_ _
    rw [length_drop, blockSize]
    omega

theorem tryErase_file_of_ne (different : path ≠ dst) :
    (tryErase env n dst disk).file path = disk.file path := by
  rw [tryErase]
  split
  · rfl
  · exact erase_file_of_ne different disk

theorem tryErase_file_self : (tryErase env n path disk).file path = none ∨
    (tryErase env n path disk).file path = disk.file path := by
  rw [tryErase]
  split
  · exact .inr rfl
  · exact .inl (erase_file_self disk path)

theorem tryErase_put_dir {content : Bytes} :
    (tryErase env n path (disk.put dst content)).dir = disk.dir := by
  rw [tryErase]
  split <;> exact put_dir disk dst content

theorem copyFile_frame (copied : copyFile env src dst disk n = (ok, disk', n')) :
    disk'.dir = disk.dir ∧ ∀ path, path ≠ dst → (ok = true → path ≠ src) →
      disk'.file path = disk.file path := by
  rw [copyFile] at copied
  split at copied
  · cases copied
    exact ⟨rfl, fun _ _ _ => rfl⟩
  split_ifs at copied
  · cases copied
    exact ⟨rfl, fun _ _ _ => rfl⟩
  · cases copied
    exact ⟨rfl, fun _ _ _ => rfl⟩
  dsimp only at copied
  split_ifs at copied
  · cases copied
    refine ⟨tryErase_put_dir, fun path notDst notSrc => ?_⟩
    rw [tryErase_file_of_ne (notSrc rfl), put_file_of_ne notDst]
  · cases copied
    refine ⟨tryErase_put_dir, fun path notDst _ => ?_⟩
    rw [tryErase_file_of_ne notDst, put_file_of_ne notDst]

theorem moveFile_frame (moved : moveFile env src dst disk n = (ok, disk', n')) :
    disk'.dir = disk.dir ∧ ∀ path, path ≠ dst → (ok = true → path ≠ src) →
      disk'.file path = disk.file path := by
  rw [moveFile] at moved
  split at moved
  · cases moved
    exact ⟨rfl, fun _ _ _ => rfl⟩
  · split at moved
    · cases moved
      exact ⟨rfl, fun _ _ _ => rfl⟩
    · rename_i renamed
      cases moved
      obtain ⟨dirs, files⟩ := rename_frame renamed
      exact ⟨dirs, fun path notDst notSrc => files path (notSrc rfl) notDst⟩
  · exact copyFile_frame moved

theorem copyFile_spec (different : src ≠ dst)
    (copied : copyFile env src dst disk n = (true, disk', n')) :
    ∃ content, disk.file src = some content ∧ disk'.file dst = some content ∧
      (disk'.file src = none ∨ disk'.file src = some content) := by
  rw [copyFile] at copied
  split at copied
  · cases copied
  rename_i content found
  split_ifs at copied with _ blocked
  · cases copied
  · cases copied
  dsimp only at copied
  split_ifs at copied with done
  · cases copied
    have whole := copyLoop_spec (Prod.ext done.1 rfl :
      copyLoop env (content.length + 1) content [] (n + 2) = (true, _))
    obtain ⟨isDir, free⟩ := write_isSome_iff.mp
      (Option.isSome_iff_ne_none.mpr fun none => blocked (.inr (by rw [none]; rfl)))
    rw [whole, nil_append]
    refine ⟨content, found, ?_, ?_⟩
    · rw [tryErase_file_of_ne different.symm, put_file_self isDir free]
    · have left : (disk.put dst content).file src = disk.file src :=
        put_file_of_ne different content
      rw [← found, ← left]
      exact tryErase_file_self
  · cases copied

theorem moveFile_spec (different : src ≠ dst)
    (moved : moveFile env src dst disk n = (true, disk', n')) :
    ∃ content, disk.file src = some content ∧ disk'.file dst = some content ∧
      (disk'.file src = none ∨ disk'.file src = some content) := by
  rw [moveFile] at moved
  split at moved
  · cases moved
  · split at moved
    · cases moved
    · rename_i renamed
      cases moved
      obtain ⟨content, found, files, _⟩ := rename_spec different renamed
      refine ⟨content, found, by rw [files, update_self], .inl ?_⟩
      rw [files, update_of_ne different, erase_file_self]
  · exact copyFile_spec different moved

/-- Nothing stops the move but what is on the disk. -/
def Unhindered (env : FinalizeEnv) (src dst : Path) : Prop :=
  env.rename src dst = .permitted ∨ env.rename src dst = .crossDevice ∧
    (∀ n, env.fails n = false) ∧ ∀ n, env.cancelled n = false

theorem copyFile_iff (fails : ∀ n, env.fails n = false) (cancelled : ∀ n, env.cancelled n = false) :
    (copyFile env src dst disk n).1 ↔
      (disk.file src).isSome = true ∧ disk.dir dst.dropLast ∧ disk.dir dst = false := by
  rw [copyFile, ← @write_isSome_iff _ _ _ disk dst ([] : Bytes)]
  cases disk.file src with
  | none => exact iff_of_false nofun (fun both => nomatch both.1)
  | some content =>
    have whole := @copyLoop_calm env (n + 2) fails cancelled (content.length + 1) content
      (Nat.lt_succ_self _) []
    simp only [fails, whole]
    cases disk.write dst [] <;> simp

theorem moveFile_iff (unhindered : Unhindered env src dst) :
    (moveFile env src dst disk n).1 = true ↔ (disk.file src).isSome ∧
      (src = dst ∨ disk.dir dst.dropLast ∧ disk.dir dst = false) := by
  have renames (answer : renameAnswer env src dst = .permitted) :
      (moveFile env src dst disk n).1 = true ↔ (disk.file src).isSome ∧
        (src = dst ∨ disk.dir dst.dropLast ∧ disk.dir dst = false) := by
    rw [moveFile, answer, ← rename_isSome_iff]
    cases disk.rename src dst <;> simp
  rcases unhindered with permitted | ⟨crossDevice, fails, cancelled⟩
  · exact renames (by rw [renameAnswer, permitted])
  by_cases same : src = dst
  · exact renames (by rw [renameAnswer, crossDevice]; exact if_pos same)
  · have answer : renameAnswer env src dst = .crossDevice := by
      rw [renameAnswer, crossDevice]
      exact if_neg same
    rw [moveFile, answer]
    simp only [same, false_or]
    exact copyFile_iff fails cancelled

/-! ## Moving the files of a job -/

def toMove (files : List JobFile) : List JobFile :=
  files.filter fun file => ¬isSidecarFile file.filename = true

theorem mem_toMove {file : JobFile} :
    file ∈ toMove files ↔ file ∈ files ∧ ¬isSidecarFile file.filename = true := by
  simp [toMove]

theorem moveFiles_toMove : moveFiles env config job destDir (toMove files) disk n =
    moveFiles env config job destDir files disk n := by
  induction files generalizing disk n with
  | nil => rfl
  | cons file rest ih =>
    by_cases sidecar : isSidecarFile file.filename = true
    · rw [toMove, filter_cons_of_neg (by simpa using sidecar), ← toMove, ih, moveFiles,
        if_pos sidecar]
    · rw [toMove, filter_cons_of_pos (by simpa using sidecar), ← toMove, moveFiles, moveFiles]
      simp only [ih]

theorem ne_of_dir {dir : Path} (different : destDir ≠ dir) (name name' : Name) :
    dir ++ [name] ≠ destDir ++ [name'] := by
  intro same
  exact different (append_inj_left' same rfl).symm

section NoArchive

variable {temp dest : Path} {origin : Disk Name Bytes} {done : List Name} {name : Name}

structure MoveProgress (temp dest : Path) (origin disk : Disk Name Bytes) (done : List Name) :
    Prop where
  source : ∀ name, disk.file (temp ++ [name]) = none ∨
    disk.file (temp ++ [name]) = origin.file (temp ++ [name])
  placed : ∀ name ∈ done, ∃ content, origin.file (temp ++ [name]) = some content ∧
    disk.file (dest ++ [name]) = some content

theorem MoveProgress.move (progress : MoveProgress temp dest origin disk done)
    (different : dest ≠ temp)
    (moved : moveFile env (temp ++ [name]) (dest ++ [name]) disk n = (true, disk', n')) :
    MoveProgress temp dest origin disk' (name :: done) := by
  have apart := ne_of_dir different
  obtain ⟨content, found, there, left⟩ := moveFile_spec (apart name name) moved
  obtain ⟨_, frame⟩ := moveFile_frame moved
  have original : origin.file (temp ++ [name]) = some content := by
    rcases progress.source name with gone | same
    · rw [found] at gone
      contradiction
    · rw [← same, found]
  constructor
  · intro other
    by_cases same : other = name
    · rw [same, original]
      exact left
    · rw [frame _ (apart other name) fun _ => by simpa using same]
      exact progress.source other
  · intro other member
    by_cases same : other = name
    · rw [same]
      exact ⟨content, original, there⟩
    obtain ⟨content', original', there'⟩ :=
      progress.placed other ((mem_cons.mp member).resolve_left same)
    refine ⟨content', original', ?_⟩
    rw [frame _ (by simpa using same) fun _ => (apart name other).symm, there']

theorem MoveProgress.moves (different : dest ≠ jobTempDir config job)
    (progress : MoveProgress (jobTempDir config job) dest origin disk done)
    (moved : moveFiles env config job dest files disk n = (true, disk')) :
    ∃ done', MoveProgress (jobTempDir config job) dest origin disk' done' ∧ done ⊆ done' ∧
      ∀ file ∈ toMove files, pathSanitizeComponent file.filename ∈ done' := by
  rw [← moveFiles_toMove] at moved
  have plain : ∀ file ∈ toMove files, ¬isSidecarFile file.filename = true :=
    fun file member => (mem_toMove.mp member).2
  generalize toMove files = moving at moved plain
  induction moving generalizing disk done n with
  | nil =>
    cases moved
    exact ⟨done, progress, List.Subset.refl done, nofun⟩
  | cons file rest ih =>
    rw [moveFiles, if_neg (plain file (.head _))] at moved
    split at moved
    · rename_i moved₁
      obtain ⟨done', progress', grown, covered⟩ := ih (progress.move different moved₁) moved
        fun other later => plain other (.tail _ later)
      refine ⟨done', progress', fun _ member => grown (.tail _ member), ?_⟩
      rintro other (_ | ⟨_, later⟩)
      · exact grown (.head _)
      · exact covered other later
    · cases moved

theorem members_of_plain (plain : ∀ file ∈ files, classify file.filename = none) :
    members files = [] := by
  simp only [members, filterMap_eq_nil_iff]
  intro file member
  rw [plain file member]
  rfl

theorem extractJob_of_plain (plain : ∀ file ∈ job.files, classify file.filename = none)
    (srcDir : Path) : extractJob env job.files srcDir destDir disk =
      (if job.files ≠ [] ∧ env.memory = false then .failed else .none, disk) := by
  unfold extractJob
  rw [members_of_plain plain, groupVolumes]
  by_cases empty : job.files = []
  · simp [empty]
  · by_cases memory : env.memory = false <;> simp [empty, memory]

theorem placeOutput_of_plain (plain : ∀ file ∈ job.files, classify file.filename = none)
    (output : placeOutput env config job destDir disk = (true, placed)) :
    moveFiles env config job destDir job.files (disk.mkdirP env.mkdir destDir).2 0
      = (true, placed) := by
  unfold placeOutput at output
  rw [extractJob_of_plain plain] at output
  split_ifs at output
  · cases output
  dsimp only at output
  split at output
  · cases output
  · rename_i made
    rw [made]
    exact output

theorem losesNothing_of_plain (configured : jobOutputDestDir config job = some destDir)
    (plain : ∀ file ∈ job.files, classify file.filename = none)
    (outside : ¬jobTempDir config job <+: destDir) : LosesNothing config job destDir disk := by
  intro env after returned
  obtain ⟨placed, output, rfl⟩ := placeOutput_of_finalizeJob configured returned
  have different : destDir ≠ jobTempDir config job := by
    rintro same
    exact outside (by rw [same])
  have start : MoveProgress (jobTempDir config job) destDir disk
      (disk.mkdirP env.mkdir destDir).2 [] := by
    refine ⟨fun name => .inr ?_, by simp⟩
    rw [mkdirP_file]
  obtain ⟨done, progress, _, covered⟩ := start.moves different (placeOutput_of_plain plain output)
  have arrived : Placed config job destDir disk placed := by
    intro file member loose content found
    have moved : ¬isSidecarFile file.filename = true := by
      rw [isSidecarFile_iff loose.2]
      exact loose.1
    obtain ⟨content', original, there⟩ :=
      progress.placed _ (covered file (mem_toMove.mpr ⟨member, moved⟩))
    rw [there, ← original]
    exact found
  refine ⟨placed, output, arrived, ?_⟩
  intro file member loose content found
  have there := arrived file member loose content found
  by_cases below :
      jobTempDir config job <+: destDir ++ [pathSanitizeComponent file.filename]
  · -- The job's directory itself cannot be the place of a file.
    rcases prefix_concat_iff.mp below with same | inside
    · have notDir := placed.apart there
      rw [← same] at notDir
      simpa [removeTree, notDir] using there
    · exact absurd inside outside
  · rw [removeTree_file_of_not_below below]
    exact there

theorem moveFiles_succeeds (unhindered : ∀ file ∈ toMove files,
      Unhindered env (jobFilePath config job file)
        (dest ++ [pathSanitizeComponent file.filename])) (isDir : disk.dir dest)
    (onDisk : ∀ file ∈ toMove files, (disk.file (jobFilePath config job file)).isSome = true)
    (free : ∀ file ∈ toMove files,
      disk.dir (dest ++ [pathSanitizeComponent file.filename]) = false)
    (distinct : ((toMove files).map fun file => pathSanitizeComponent file.filename).Nodup) :
    ∃ disk', moveFiles env config job dest files disk n = (true, disk') ∧
      disk'.dir = disk.dir := by
  rw [← moveFiles_toMove]
  have plain : ∀ file ∈ toMove files, ¬isSidecarFile file.filename = true :=
    fun file member => (mem_toMove.mp member).2
  generalize toMove files = moving at unhindered onDisk free distinct plain
  induction moving generalizing disk n with
  | nil => exact ⟨disk, rfl, rfl⟩
  | cons file rest ih =>
    obtain ⟨fresh, distinct⟩ := nodup_cons.mp distinct
    have succeeds := (@moveFile_iff disk env _ _ n (unhindered file (.head _))).mpr
      ⟨onDisk file (.head _), .inr ⟨by simpa using isDir, free file (.head _)⟩⟩
    rw [moveFiles, if_neg (plain file (.head _))]
    rcases result : moveFile env (jobFilePath config job file)
      (dest ++ [pathSanitizeComponent file.filename]) disk n with ⟨ok, disk₁, n₁⟩
    rw [result] at succeeds
    cases succeeds
    obtain ⟨dirs, frame⟩ := moveFile_frame result
    have onDisk₁ : ∀ other ∈ rest, (disk₁.file (jobFilePath config job other)).isSome = true := by
      intro other later
      have name : pathSanitizeComponent other.filename ≠ pathSanitizeComponent file.filename :=
        fun same => fresh (mem_map.mpr ⟨other, later, same⟩)
      rw [frame _ ?_ fun _ => by simpa [jobFilePath] using name]
      · exact onDisk other (.tail _ later)
      · exact fun same => name (singleton_inj.mp (append_inj_right' same rfl))
    obtain ⟨disk', moved, dirs'⟩ := @ih disk₁ n₁ (by rw [dirs]; exact isDir)
      (fun other later => unhindered other (.tail _ later)) onDisk₁
      (fun other later => by rw [dirs]; exact free other (.tail _ later)) distinct
      fun other later => plain other (.tail _ later)
    exact ⟨disk', moved, dirs'.trans dirs⟩

end NoArchive

structure Placeable (config : StorageConfig) (job : JobRecord) (destDir : Path)
    (disk : Disk Name Bytes) : Prop where
  onDisk : ∀ file ∈ job.files, IsLoose file →
    ∃ content, disk.file (jobFilePath config job file) = some content
  distinct : ((job.files.filter fun file => IsLoose file).map fun file =>
    pathSanitizeComponent file.filename).Nodup
  made : (disk.mkdirP (fun _ => true) destDir).1 = true
  isDir : (disk.mkdirP (fun _ => true) destDir).2.dir destDir = true
  free : ∀ file ∈ job.files, IsLoose file →
    disk.dir (destDir ++ [pathSanitizeComponent file.filename]) = false

/-- Every call succeeds, and the archives are empty. -/
def permitting : FinalizeEnv where
  memory := true
  mkdir := fun _ => true
  rename := fun _ _ => .permitted
  fails := fun _ => false
  cancelled := fun _ => false
  flushed := id
  qsort := id
  extractOneArchive := fun _ disk => (true, disk)
  extractNested := fun disk => (true, disk)

/-- The archives hold the file `target`. -/
def obligingEnv (target : Path) (content : Bytes) : FinalizeEnv :=
  { permitting with extractOneArchive := fun _ disk => (true, disk.put target content) }

theorem extractSets_oblig {target : Path} {content : Bytes} (srcDir : Path)
    {sets : List (List Member)} (some : sets ≠ []) (isDir : disk.dir target.dropLast)
    (free : disk.dir target = false) :
    ∃ disk', extractSets (obligingEnv target content) srcDir sets disk = (true, disk') ∧
      disk'.file target = Option.some content := by
  induction sets generalizing disk with
  | nil => contradiction
  | cons volumes rest ih =>
    rcases rest with _ | ⟨next, rest⟩
    · exact ⟨disk.put target content, rfl, put_file_self isDir free content⟩
    · have dirs := put_dir disk target content
      exact ih (cons_ne_nil _ _) (by rw [dirs]; exact isDir) (by rw [dirs]; exact free)

theorem groupVolumes_ne_nil {file : JobFile} (member : file ∈ files)
    (archive : ¬classify file.filename = none) (qsort : List Member → List Member) :
    groupVolumes qsort (members files) ≠ [] := by
  obtain ⟨id, found⟩ := Option.ne_none_iff_exists'.mp archive
  have volume : (⟨id, file.filename⟩ : Member) ∈ members files := by
    simp only [members, mem_filterMap]
    exact ⟨file, member, by rw [found]; rfl⟩
  obtain ⟨first, rest, split⟩ := exists_cons_of_ne_nil (ne_nil_of_mem volume)
  rw [split, groupVolumes]
  exact cons_ne_nil _ _

theorem placeOutput_archive {file : JobFile} (member : file ∈ job.files)
    (archive : ¬classify file.filename = none) {name : Name} {content : Bytes}
    (made : (disk.mkdirP (fun _ => true) destDir).1 = true)
    (isDir : (disk.mkdirP (fun _ => true) destDir).2.dir destDir = true)
    (free : disk.dir (destDir ++ [name]) = false) :
    ∃ placed, placeOutput (obligingEnv (destDir ++ [name]) content) config job destDir disk =
        (true, placed) ∧ placed.file (destDir ++ [name]) = some content := by
  let env := obligingEnv (destDir ++ [name]) content
  have some : ¬job.files = [] := ne_nil_of_mem member
  obtain ⟨first, rest, sets⟩ := exists_cons_of_ne_nil (groupVolumes_ne_nil member archive env.qsort)
  have creates : disk.mkdirP env.mkdir destDir =
      (true, (disk.mkdirP (fun _ => true) destDir).2) := Prod.ext made rfl
  obtain ⟨placed, extracted, there⟩ := @extractSets_oblig (disk.mkdirP (fun _ => true) destDir).2
    (destDir ++ [name]) content (jobTempDir config job) (first :: rest) (cons_ne_nil _ _)
    (by simpa using isDir) (by rw [mkdirP_dir_below]; exact free)
  have extracts : extractJob env job.files (jobTempDir config job) destDir disk = (.ok, placed) := by
    unfold extractJob
    rw [if_neg some, if_neg (by simp [env, obligingEnv, permitting]), sets]
    simp only [creates, env, extracted]
    rfl
  exact ⟨placed, by simp only [placeOutput, env, extracts], there⟩

section

variable (configured : jobOutputDestDir config job = some destDir)
  (placeable : Placeable config job destDir disk)

include configured placeable

/-- The archive may hold another file of the same name. -/
theorem not_losesNothing_of_archive {loose archive : JobFile} (member : loose ∈ job.files)
    (isLoose : IsLoose loose) (member' : archive ∈ job.files)
    (isArchive : ¬classify archive.filename = none) : ¬LosesNothing config job destDir disk := by
  intro safe
  obtain ⟨content, found⟩ := placeable.onDisk loose member isLoose
  obtain ⟨placed, output, there⟩ := @placeOutput_archive config _ _ _ _ member' isArchive _
    (0 :: content) placeable.made placeable.isDir (placeable.free loose member isLoose)
  obtain ⟨placed', output', arrived, _⟩ := safe _ _ (finalizeJob_of_placeOutput configured output)
  cases output.symm.trans output'
  rw [arrived loose member isLoose content found] at there
  simp at there

theorem not_losesNothing_of_inside (plain : ∀ file ∈ job.files, classify file.filename = none)
    {loose : JobFile} (member : loose ∈ job.files) (isLoose : IsLoose loose)
    (inside : jobTempDir config job <+: destDir) : ¬LosesNothing config job destDir disk := by
  intro safe
  let made := (disk.mkdirP (fun _ => true) destDir).2
  have same : toMove job.files = job.files.filter fun file => IsLoose file := by
    refine filter_congr fun file member => decide_eq_decide.mpr ?_
    rw [isSidecarFile_iff (plain file member)]
    exact ⟨fun moved => ⟨moved, plain file member⟩, fun loose => loose.1⟩
  have isLooseOf : ∀ file ∈ toMove job.files, file ∈ job.files ∧ IsLoose file := by
    rw [same]
    simp [mem_filter]
  have moves : ∃ placed, moveFiles permitting config job destDir job.files made 0 = (true, placed) ∧
      placed.dir = made.dir := by
    refine moveFiles_succeeds (fun _ _ => .inl rfl) placeable.isDir ?_ ?_ ?_
    · intro file moved
      obtain ⟨member, loose⟩ := isLooseOf file moved
      obtain ⟨content, found⟩ := placeable.onDisk file member loose
      rw [mkdirP_file, found]
      rfl
    · intro file moved
      obtain ⟨member, loose⟩ := isLooseOf file moved
      rw [mkdirP_dir_below]
      exact placeable.free file member loose
    · rw [same]
      exact placeable.distinct
  obtain ⟨placed, moved, dirs⟩ := moves
  have output : placeOutput permitting config job destDir disk = (true, placed) := by
    have creates : disk.mkdirP permitting.mkdir destDir = (true, made) := Prod.ext placeable.made rfl
    have nothing : extractJob permitting job.files (jobTempDir config job) destDir disk =
        (.none, disk) := by
      rw [extractJob_of_plain plain]
      simp [permitting]
    simp only [placeOutput, nothing, creates, moved]
  obtain ⟨content, found⟩ := placeable.onDisk loose member isLoose
  obtain ⟨_, _, _, stayed⟩ := safe _ _ (finalizeJob_of_placeOutput configured output)
  have there := stayed loose member isLoose content found
  have isDir : placed.dir (jobTempDir config job) = true := by
    rw [dirs]
    refine mkdirP_dir_mono _ _ ?_
    simpa [jobFilePath] using disk.parent found
  rw [removeTree_file_below isDir (inside.trans (prefix_append _ _))] at there
  contradiction

end

/-- `finalize_job` loses no loose file of an unmixed job; for every other job whose
files are in place it loses one when nothing is refused. -/
theorem finalizeJob_losesNothing (configured : jobOutputDestDir config job = some destDir) :
    (Unmixed config job destDir → LosesNothing config job destDir disk) ∧
    (Placeable config job destDir disk →
      (LosesNothing config job destDir disk ↔ Unmixed config job destDir)) := by
  have enough : Unmixed config job destDir → LosesNothing config job destDir disk := by
    rintro (noLoose | ⟨plain, outside⟩)
    · intro env after returned
      obtain ⟨placed, output, rfl⟩ := placeOutput_of_finalizeJob configured returned
      exact ⟨placed, output, fun file member loose => absurd loose (noLoose file member),
        fun file member loose => absurd loose (noLoose file member)⟩
    · exact losesNothing_of_plain configured plain outside
  refine ⟨enough, fun placeable => ⟨fun safe => ?_, enough⟩⟩
  by_contra mixed
  rw [Unmixed, not_or] at mixed
  obtain ⟨someLoose, notPlain⟩ := mixed
  simp only [not_forall, not_not] at someLoose
  obtain ⟨loose, member, isLoose⟩ := someLoose
  by_cases plain : ∀ file ∈ job.files, classify file.filename = none
  · have inside : jobTempDir config job <+: destDir := by
      by_contra outside
      exact notPlain ⟨plain, outside⟩
    exact not_losesNothing_of_inside configured placeable plain member isLoose inside safe
  · simp only [not_forall] at plain
    obtain ⟨archive, member', isArchive⟩ := plain
    exact not_losesNothing_of_archive configured placeable member isLoose member' isArchive safe

section Examples

def showJob (first second : String) : JobRecord where
  state := .extracting
  busy := true
  retriesUsed := 0
  files := [⟨first.toList, []⟩, ⟨second.toList, []⟩]
  id := "j1".toList
  name := "show.nzb".toList
  outputDir := none

def showConfig : StorageConfig where
  tempDir := ["tmp".toList]
  outputDir := some ["out".toList]

def showDisk (first second : String) : Disk Name Bytes :=
  ofFiles [(["tmp".toList, "j1".toList, first.toList], [1]),
    (["tmp".toList, "j1".toList, second.toList], [2])]

/-- The archive of the job holds `show.mkv`; its description `show.nfo` next to the
archive is removed with the job's directory. -/
theorem finalizeJob_drops_loose : ∃ (env : FinalizeEnv) (config : StorageConfig)
    (job : JobRecord) (destDir : Path) (disk : Disk Name Bytes) (file : JobFile) (content : Bytes),
    jobOutputDestDir config job = some destDir ∧ file ∈ job.files ∧ IsLoose file ∧
    disk.file (jobFilePath config job file) = some content ∧
    (finalizeJob env config job disk).1 = true ∧
    (finalizeJob env config job disk).2.file (jobFilePath config job file) = none ∧
    (finalizeJob env config job disk).2.file (destDir ++ [pathSanitizeComponent file.filename])
      = none := by
  let destDir : Path := ["out".toList, "show".toList]
  refine ⟨obligingEnv (destDir ++ ["show.mkv".toList]) [3], showConfig,
    showJob "show.rar" "show.nfo", destDir, showDisk "show.rar" "show.nfo",
    ⟨"show.nfo".toList, []⟩, [2], ?_⟩
  decide +kernel

theorem finalizeJob_losesNothing_film :
    jobOutputDestDir showConfig (showJob "show.mkv" "show.par2") =
      some ["out".toList, "show".toList] ∧
    LosesNothing showConfig (showJob "show.mkv" "show.par2") ["out".toList, "show".toList]
      (showDisk "show.mkv" "show.par2") := by
  have configured : jobOutputDestDir showConfig (showJob "show.mkv" "show.par2") =
      some ["out".toList, "show".toList] := by
    decide
  have unmixed : Unmixed showConfig (showJob "show.mkv" "show.par2")
      ["out".toList, "show".toList] := by
    refine .inr ⟨?_, ?_⟩ <;> decide
  exact ⟨configured, (finalizeJob_losesNothing configured).1 unmixed⟩

end Examples

end NzbDownloader.Download
