import NzbDownloader.Queue.Persist

/-!
# A saved job is loaded as it was

The three files of a job are written by different functions.  The header and the
list of segments are read back field by field, and the running number of the bit
meets the flag of each segment.
-/

namespace NzbDownloader.Queue.Persist

open Lib Util List Option FileData Json

theorem snprintf_of_fitsIn {size : ℕ} {text : Name} (fits : FitsIn size text) :
    snprintf size text = text := by
  unfold FitsIn at fits
  exact take_of_length_le (by omega)

theorem toInt_of_isInt {n : ℤ} (int : IsInt n) : toInt n = n := by
  obtain ⟨low, high⟩ := int
  unfold toInt
  omega

theorem roundToDouble_of_lt {n : ℕ} (small : n < 2 ^ 53) : roundToDouble n = n := by
  have shift : n.log2 - 52 = 0 := by
    by_cases zero : n = 0
    · rw [zero]
      rfl
    · have bound := (Nat.log2_lt zero).mpr small
      omega
  unfold roundToDouble
  rw [shift]
  simp [Nat.mod_one]

theorem toDouble_of_exactSize {n : ℤ} (exact' : ExactSize n) : toDouble n = n := by
  rw [toDouble, roundToDouble_of_lt exact', Int.sign_mul_natAbs]

section Fields

variable {members : List (String × Tree)} {key : String} {i size : ℕ}

theorem loadString_object {text : Name} (names : (members.map Prod.fst).Nodup)
    (at' : members[i]? = some (key, .string text)) (fits : FitsIn size text) :
    loadString size (.object members) key = text := by
  rw [loadString, get?_object names at']
  exact snprintf_of_fitsIn fits

theorem loadNumber_object {value : ℤ} (names : (members.map Prod.fst).Nodup)
    (at' : members[i]? = some (key, .number value)) :
    loadNumber (.object members) key = value := by
  rw [loadNumber, get?_object names at']
  rfl

theorem loadBool_object {value : Bool} (names : (members.map Prod.fst).Nodup)
    (at' : members[i]? = some (key, .bool value)) : loadBool (.object members) key = value := by
  rw [loadBool, get?_object names at']
  rfl

theorem loadItems_object {items : List Tree} (names : (members.map Prod.fst).Nodup)
    (at' : members[i]? = some (key, .array items)) : loadItems (.object members) key = items := by
  rw [loadItems, get?_object names at']
  rfl

end Fields

theorem filterMap_string? (texts : List Name) :
    (texts.map (string : Name → Tree)).filterMap string? = texts := by
  rw [filterMap_map]
  exact filterMap_some

theorem foldl_jobAddPassword {passwords known : List Name} (nodup : (known ++ passwords).Nodup)
    (count : (known ++ passwords).length ≤ jobMaxPasswords)
    (fits : ∀ password ∈ passwords, password ≠ [] ∧ FitsIn 256 password) :
    passwords.foldl jobAddPassword known = known ++ passwords := by
  induction passwords generalizing known with
  | nil => exact (append_nil known).symm
  | cons password rest ih =>
    obtain ⟨nonempty, short⟩ := fits password (.head _)
    have fresh : password ∉ known := by
      intro member
      exact disjoint_of_nodup_append nodup member (.head _)
    have added : jobAddPassword known password = known ++ [password] := by
      rw [length_append, length_cons] at count
      rw [jobAddPassword, if_neg, snprintf_of_fitsIn short]
      rintro (empty | member | full)
      · exact nonempty empty
      · exact fresh member
      · omega
    rw [foldl_cons, added, ih, append_assoc, singleton_append]
    · rwa [append_assoc, singleton_append]
    · rwa [append_assoc, singleton_append]
    · exact fun other member => fits other (.tail _ member)

theorem foldl_jobAddPkgPath {paths known : List Name}
    (count : (known ++ paths).length ≤ jobMaxPkgs) (fits : ∀ path ∈ paths, FitsIn 900 path) :
    paths.foldl jobAddPkgPath known = known ++ paths := by
  induction paths generalizing known with
  | nil => exact (append_nil known).symm
  | cons path rest ih =>
    have added : jobAddPkgPath known path = known ++ [path] := by
      rw [length_append, length_cons] at count
      rw [jobAddPkgPath, if_neg (by omega), snprintf_of_fitsIn (fits path (.head _))]
    rw [foldl_cons, added, ih, append_assoc, singleton_append]
    · rwa [append_assoc, singleton_append]
    · exact fun other member => fits other (.tail _ member)

theorem headerMembers_names (job : JobData) : ((headerMembers job).map Prod.fst).Nodup := by
  change ["id", "name", "state", "priority", "retries_used", "last_error", "final_bytes",
    "output_dir", "add_to_shadowmount", "auto_install_pkgs", "nfo_path", "passwords",
    "pkg_paths"].Nodup
  decide

theorem fileMembers_names (file : FileData) : ((fileMembers file).map Prod.fst).Nodup := by
  change ["filename", "subject", "bytes", "segments"].Nodup
  decide

theorem segmentMembers_names (segment : SegmentData) :
    ((segmentMembers segment).map Prod.fst).Nodup := by
  change ["message_id", "bytes", "number"].Nodup
  decide

theorem jobStateFromName_text (state : JobState) :
    jobStateFromName (String.ofList (jobStateName state).toList) = state := by
  rw [String.ofList_toList]
  cases state <;> decide

theorem loadHeader_jobHeaderTree {job : JobData} (fits : job.Fits) :
    loadHeader (jobHeaderTree job) = { job.persisted with files := [] } := by
  have names := headerMembers_names job
  have text (i size : ℕ) (key : String) (value : Name)
      (at' : (headerMembers job)[i]? = some (key, .string value)) (short : FitsIn size value) :
      loadString size (jobHeaderTree job) key = value :=
    loadString_object names at' short
  have number (i : ℕ) (key : String) (value : ℤ)
      (at' : (headerMembers job)[i]? = some (key, .number value)) :
      loadNumber (jobHeaderTree job) key = value :=
    loadNumber_object names at'
  have flag (i : ℕ) (key : String) (value : Bool)
      (at' : (headerMembers job)[i]? = some (key, .bool value)) :
      loadBool (jobHeaderTree job) key = value :=
    loadBool_object names at'
  have texts (i : ℕ) (key : String) (values : List Name)
      (at' : (headerMembers job)[i]? = some (key, .array (values.map .string))) :
      (loadItems (jobHeaderTree job) key).filterMap string? = values := by
    rw [jobHeaderTree, loadItems_object names at', filterMap_string?]
  have state : (jobHeaderTree job).get? "state" = some (.string (jobStateName job.state).toList) :=
    @get?_object _ _ _ _ 2 names rfl
  unfold loadHeader
  rw [text 0 13 "id" job.id rfl fits.id, text 1 256 "name" job.name rfl fits.name, state,
    number 3 "priority" job.priority rfl, number 4 "retries_used" job.retriesUsed rfl,
    text 5 256 "last_error" job.lastError rfl fits.lastError,
    number 6 "final_bytes" (toDouble job.finalBytes) rfl,
    text 7 512 "output_dir" job.outputDir rfl fits.outputDir,
    flag 8 "add_to_shadowmount" job.addToShadowmount rfl,
    flag 9 "auto_install_pkgs" job.autoInstallPkgs rfl,
    text 10 900 "nfo_path" job.nfoPath rfl fits.nfoPath,
    texts 11 "passwords" job.passwords rfl, texts 12 "pkg_paths" job.pkgPaths rfl,
    toInt_of_isInt fits.priority, toInt_of_isInt fits.retriesUsed,
    toDouble_of_exactSize fits.finalBytes,
    @foldl_jobAddPassword job.passwords [] fits.passwordsNodup fits.passwordCount fits.passwords,
    @foldl_jobAddPkgPath job.pkgPaths [] fits.pkgCount fits.pkgPaths]
  rw [bind_some, string?, map_some, jobStateFromName_text]
  rfl

def SegmentData.reload (segment : SegmentData) (downloaded : Bool) : SegmentData :=
  ⟨segment.messageId, toDouble segment.bytes, segment.number, downloaded⟩

def reloadSegments (bitmap : Bytes) : ℕ → List SegmentData → List SegmentData
  | _, [] => []
  | k, segment :: rest => segment.reload (flagAt bitmap k) :: reloadSegments bitmap (k + 1) rest

def FileData.reload (file : FileData) (bitmap : Bytes) (k : ℕ) : FileData :=
  let segments := reloadSegments bitmap k file.segments
  ⟨file.filename, file.subject, segments, totalBytes segments, rfl⟩

def reloadFiles (bitmap : Bytes) : ℕ → List FileData → List FileData
  | _, [] => []
  | k, file :: rest => file.reload bitmap k :: reloadFiles bitmap (k + file.segments.length) rest

def HasFlags (bitmap : Bytes) (k : ℕ) (flags : List Bool) : Prop :=
  ∀ i < flags.length, flagAt bitmap (k + i) = flags.getD i false

variable {segments : List SegmentData}

section Loops

variable {bitmap : Bytes} {k : ℕ}

theorem HasFlags.head {flag : Bool} {rest : List Bool} (has : HasFlags bitmap k (flag :: rest)) :
    flagAt bitmap k = flag :=
  has 0 (Nat.zero_lt_succ _)

theorem HasFlags.append {first rest : List Bool} (has : HasFlags bitmap k (first ++ rest)) :
    HasFlags bitmap k first ∧ HasFlags bitmap (k + first.length) rest := by
  constructor
  · intro i inside
    rw [has i (by rw [length_append]; omega), getD_append _ _ _ _ inside]
  · intro i inside
    rw [Nat.add_assoc, has (first.length + i) (by rw [length_append]; omega),
      getD_append_right _ _ _ _ (Nat.le_add_right _ _), Nat.add_sub_cancel_left]

theorem hasFlags_snapshot (job : JobData) : HasFlags (jobProgressSnapshot job) 0 job.flags := by
  intro i _
  rw [Nat.zero_add, jobProgressSnapshot, flagAt_bitmapOf]

def FileData.extend (file : FileData) (segments : List SegmentData) : FileData :=
  ⟨file.filename, file.subject, file.segments ++ segments, totalBytes (file.segments ++ segments), rfl⟩

theorem FileData.extend_nil (file : FileData) : file.extend [] = file := by
  obtain ⟨filename, subject, segments, bytes, rfl⟩ := file
  simp [extend]

theorem FileData.extend_extend (file : FileData) (first second : List SegmentData) :
    (file.extend first).extend second = file.extend (first ++ second) := by
  simp only [extend, append_assoc]

theorem totalBytes_append_singleton (segments : List SegmentData) (segment : SegmentData) :
    totalBytes (segments ++ [segment]) = wrapLong (totalBytes segments + segment.bytes) := by
  rw [totalBytes, foldl_append]
  rfl

theorem loadSegment_segmentMembers {segment : SegmentData} (inField : segment.InField)
    (file : FileData) :
    loadSegment bitmap (file, k) (.object (segmentMembers segment)) =
      (file.extend [segment.reload (flagAt bitmap k)], k + 1) := by
  have names := segmentMembers_names segment
  have messageId : (object (segmentMembers segment)).get? "message_id" =
      some (.string segment.messageId) :=
    @get?_object _ _ _ _ 0 names rfl
  have bytes : loadNumber (.object (segmentMembers segment)) "bytes" = toDouble segment.bytes :=
    @loadNumber_object _ _ 1 _ names rfl
  have number : loadNumber (.object (segmentMembers segment)) "number" = segment.number :=
    @loadNumber_object _ _ 2 _ names rfl
  rw [loadSegment, messageId, bytes, number, toInt_of_isInt inField.number]
  obtain ⟨filename, subject, segments, bytes, rfl⟩ := file
  simp only [bind_some, string?, jobFileAddSegment, extend,
    snprintf_of_fitsIn inField.messageId, totalBytes_append_singleton, SegmentData.reload]

theorem loadSegments_eq (inField : ∀ segment ∈ segments, segment.InField) (file : FileData) :
    (segments.map fun segment => (.object (segmentMembers segment) : Tree)).foldl
        (loadSegment bitmap) (file, k) =
      (file.extend (reloadSegments bitmap k segments), k + segments.length) := by
  induction segments generalizing file k with
  | nil => rw [reloadSegments, extend_nil]; rfl
  | cons segment rest ih =>
    rw [map_cons, foldl_cons,
      loadSegment_segmentMembers (inField segment (.head _)) file,
      ih fun other member => inField other (.tail _ member),
      extend_extend, length_cons, Nat.add_right_comm, ← Nat.add_assoc]
    rfl

theorem loadFile_fileMembers {file : FileData} (inField : file.InField) (loaded : List FileData) :
    loadFile bitmap (loaded, k) (.object (fileMembers file)) =
      (loaded ++ [file.reload bitmap k], k + file.segments.length) := by
  have names := fileMembers_names file
  have filename : (object (fileMembers file)).get? "filename" = some (.string file.filename) :=
    @get?_object _ _ _ _ 0 names rfl
  have subject : (object (fileMembers file)).get? "subject" = some (.string file.subject) :=
    @get?_object _ _ _ _ 1 names rfl
  have segments : loadItems (.object (fileMembers file)) "segments" =
      file.segments.map fun segment => .object (segmentMembers segment) :=
    @loadItems_object _ _ 3 _ names rfl
  rw [loadFile, filename, subject, segments, bind_some, bind_some, string?,
    string?, getD_some, getD_some, loadSegments_eq inField.segments]
  simp only [newFile, extend, reload, snprintf_of_fitsIn inField.filename,
    snprintf_of_fitsIn inField.subject, nil_append]

theorem loadFiles_eq {files : List FileData} (inField : ∀ file ∈ files, file.InField)
    (loaded : List FileData) :
    ((files.map fun file => (.object (fileMembers file) : Tree)).foldl (loadFile bitmap)
      (loaded, k)).1 = loaded ++ reloadFiles bitmap k files := by
  induction files generalizing loaded k with
  | nil => exact (append_nil loaded).symm
  | cons file rest ih =>
    rw [map_cons, foldl_cons,
      loadFile_fileMembers (inField file (.head _)) loaded,
      ih fun other member => inField other (.tail _ member),
      append_assoc, singleton_append]
    rfl

theorem reloadSegments_eq_self (exact' : ∀ segment ∈ segments, ExactSize segment.bytes)
    (has : HasFlags bitmap k (segments.map (·.downloaded))) :
    reloadSegments bitmap k segments = segments := by
  induction segments generalizing k with
  | nil => rfl
  | cons segment rest ih =>
    have later : HasFlags bitmap (k + 1) (rest.map (·.downloaded)) :=
      (@HasFlags.append bitmap k [segment.downloaded] _ has).2
    rw [reloadSegments, SegmentData.reload, has.head,
      toDouble_of_exactSize (exact' segment (.head _)),
      ih (fun other member => exact' other (.tail _ member)) later]

theorem reloadFiles_eq_self {files : List FileData}
    (exact' : ∀ file ∈ files, ∀ segment ∈ file.segments, ExactSize segment.bytes)
    (has : HasFlags bitmap k (files.flatMap fun file => file.segments.map (·.downloaded))) :
    reloadFiles bitmap k files = files := by
  induction files generalizing k with
  | nil => rfl
  | cons file rest ih =>
    rw [flatMap_cons] at has
    obtain ⟨here, later⟩ := has.append
    rw [length_map] at later
    obtain ⟨filename, subject, segments, bytes, rfl⟩ := file
    rw [reloadFiles, ih (fun other member => exact' other (.tail _ member)) later]
    simp only [reload, reloadSegments_eq_self (exact' _ (.head _)) here]

end Loops

section Disk

variable {env reading : Faults Document} {job : JobData} {stem name : Name}
  {dir : Folder Name Document}

def OwnList (job : JobData) (stem : Name) (dir : Folder Name Document) : Prop :=
  dir.files (stem ++ segmentsSuffix) = none ∨
    dir.files (stem ++ segmentsSuffix) = some (.json (jobSegmentsTree job))

theorem OwnList.ensure (own : OwnList job stem dir) :
    OwnList job stem (jobEnsureSegmentsSaved env job (jobPath stem) dir) := by
  rw [jobEnsureSegmentsSaved, JobFormat.jobEnsureSegmentsSaved, jobSidecarPath_jobPath]
  split
  · exact own
  rcases @replaceFile_path _ _ _ env (stem ++ segmentsSuffix ++ tmpSuffix) (stem ++ segmentsSuffix)
    (treeFormat.segments job) dir (append_ne_append (by decide) (by decide) (by decide)) with
    kept | written
  · rw [OwnList, jobWriteFile, kept]
    exact own
  · exact .inr written

theorem ensure_of_ne (notSegments : name ≠ stem ++ segmentsSuffix)
    (notTmp : hasSuffix name tmpSuffix = false) :
    (jobEnsureSegmentsSaved env job (jobPath stem) dir).files name = dir.files name := by
  rw [jobEnsureSegmentsSaved, JobFormat.jobEnsureSegmentsSaved, jobSidecarPath_jobPath]
  split
  · rfl
  · refine replaceFile_of_ne ?_ notSegments
    rintro rfl
    rw [hasSuffix_append] at notTmp
    contradiction

def bitmapIn (files : Name → Option Document) (stem : Name) : Bytes :=
  ((files (stem ++ progressSuffix)).map Document.bitmap).getD []

theorem jobLoad_from {header tree : Tree} (reads : reading.Calm)
    (headed : dir.files (jobPath stem) = some (.json header))
    (listed : dir.files (stem ++ segmentsSuffix) = some (.json tree)) :
    (jobLoad reading (jobPath stem) dir).1 = some { loadHeader header with
      files := ((loadItems tree "files").foldl (loadFile (bitmapIn dir.files stem)) ([], 0)).1 } := by
  rw [jobLoad, jobLoad_calm reads, JobFormat.loaded, headed, listed]
  rfl

theorem jobLoad_eq {header : Tree} (reads : reading.Calm)
    (inField : ∀ file ∈ job.files, file.InField)
    (headed : dir.files (jobPath stem) = some (.json header))
    (listed : dir.files (stem ++ segmentsSuffix) = some (.json (jobSegmentsTree job))) :
    (jobLoad reading (jobPath stem) dir).1 = some { loadHeader header with
      files := reloadFiles (bitmapIn dir.files stem) 0 job.files } := by
  have items : loadItems (jobSegmentsTree job) "files" =
      job.files.map fun file => .object (fileMembers file) :=
    @loadItems_object [("files", .array (job.files.map fun file => .object (fileMembers file)))]
      "files" 0 _ (nodup_singleton _) rfl
  rw [jobLoad_from reads headed listed, items, loadFiles_eq inField, nil_append]

theorem OwnList.write {path : Name} (own : OwnList job stem dir) (env : Faults Document)
    (data : Document) (notPath : stem ++ segmentsSuffix ≠ path) :
    OwnList job stem
      (jobWriteFile env path data (jobEnsureSegmentsSaved env job (jobPath stem) dir)).2 := by
  have belongs : BelongsTo (stem ++ segmentsSuffix) stem := .inr rfl
  rw [OwnList, jobWriteFile_of_ne notPath belongs.not_tmp]
  exact own.ensure

/-- Saving and loading a job is a round trip, once its list of segments has reached the disk:
a failure to write that file is the only one that the two calls do not report. -/
theorem jobLoad_of_saved (job : JobData) (stem : Name) (dir : Folder Name Document)
    (env reading : Faults Document) (fits : job.Fits) (own : OwnList job stem dir)
    (saved : (jobSave env job (jobPath stem) dir).1 = true)
    (written : (jobWriteProgress env job (jobPath stem) (jobProgressSnapshot job)
      (jobSave env job (jobPath stem) dir).2).1 = true)
    (listed : ((jobWriteProgress env job (jobPath stem) (jobProgressSnapshot job)
      (jobSave env job (jobPath stem) dir).2).2.files (stem ++ segmentsSuffix)).isSome = true)
    (reads : reading.Calm) :
    (jobLoad reading (jobPath stem) (jobWriteProgress env job (jobPath stem)
      (jobProgressSnapshot job) (jobSave env job (jobPath stem) dir).2).2).1 =
      some job.persisted := by
  have ofHeader : BelongsTo (jobPath stem) stem := .inl rfl
  have ofSegments : BelongsTo (stem ++ segmentsSuffix) stem := .inr rfl
  have header : (jobSave env job (jobPath stem) dir).2.files (jobPath stem) =
      some (.json (jobHeaderTree job)) := jobWriteFile_succeeds saved
  have list : OwnList job stem (jobSave env job (jobPath stem) dir).2 :=
    own.write env (.json (jobHeaderTree job)) jobPath_ne_segments.symm
  generalize (jobSave env job (jobPath stem) dir).2 = after at *
  rw [jobWriteProgress, jobSidecarPath_jobPath] at written listed ⊢
  have progress := jobWriteFile_succeeds written
  have has := hasFlags_snapshot job
  rw [jobLoad_eq reads (fun file member => (fits.files file member).inField) ?_ ?_, bitmapIn, progress,
    loadHeader_jobHeaderTree fits, map_some, getD_some, Document.bitmap,
    reloadFiles_eq_self (fun file member => (fits.files file member).exactSize) has]
  · rfl
  · rw [jobWriteFile_of_ne ofHeader.ne_progress ofHeader.not_tmp,
      ensure_of_ne jobPath_ne_segments ofHeader.not_tmp, header]
  · rcases list.write env (.raw (jobProgressSnapshot job)) ofSegments.ne_progress with missing | there
    · rw [missing] at listed
      contradiction
    · exact there

def sampleJob : JobData :=
  let article (number : ℕ) : SegmentData :=
    ⟨s!"<{number}@news>".toList, 700000, number, number == 2 || number == 10⟩
  let first := (List.range' 1 8).map article
  let second := (List.range' 9 2).map article
  { JobData.blank with
    id := "a".toList, name := "show".toList, state := .paused, priority := 3
    lastError := "stopped".toList, passwords := ["one".toList, "two".toList]
    outputDir := "/data".toList, addToShadowmount := true
    files := [⟨"a.rar".toList, "a".toList, first, totalBytes first, rfl⟩,
      ⟨"b.rar".toList, "b".toList, second, totalBytes second, rfl⟩] }

def emptyFolder : Folder Name Document :=
  ⟨fun _ => none, 0⟩

def failingAt (numbers : List ℕ) : Faults Document :=
  ⟨fun n => numbers.contains n, .raw []⟩

theorem jobLoad_of_saved_sample :
    (jobLoad (failingAt []) (jobPath sampleJob.id) (jobWriteProgress (failingAt []) sampleJob
      (jobPath sampleJob.id) (jobProgressSnapshot sampleJob)
      (jobSave (failingAt []) sampleJob (jobPath sampleJob.id) emptyFolder).2).2).1 =
      some sampleJob.persisted := by
  apply jobLoad_of_saved sampleJob sampleJob.id emptyFolder (failingAt []) (failingAt [])
  · decide +kernel
  · exact .inl rfl
  · decide +kernel
  · decide +kernel
  · decide +kernel
  · exact fun _ => rfl

/-- If the list of segments cannot be opened for writing, both calls still succeed, and the
job is loaded without its files. -/
theorem unlisted_of_failed_segments :
    let env := failingAt [0, 4]
    let saved := jobSave env sampleJob (jobPath sampleJob.id) emptyFolder
    let written := jobWriteProgress env sampleJob (jobPath sampleJob.id)
      (jobProgressSnapshot sampleJob) saved.2
    sampleJob.Fits ∧ saved.1 = true ∧ written.1 = true ∧
      (jobLoad (failingAt []) (jobPath sampleJob.id) written.2).1 =
        some { sampleJob.persisted with files := [] } ∧
      sampleJob.files ≠ [] := by
  refine ⟨?_, ?_, ?_, ?_, ?_⟩
  · decide +kernel
  · decide +kernel
  · decide +kernel
  · decide +kernel
  · decide +kernel

end Disk

end NzbDownloader.Queue.Persist
