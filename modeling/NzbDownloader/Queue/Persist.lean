import Mathlib.Tactic.MkIffOfInductiveProp
import NzbDownloader.Lib.Bitmap
import NzbDownloader.Lib.Json
import NzbDownloader.Queue.Store

/-!
# Saving and loading a job

`queue/job.c` with all the data that it saves: the header and the list of
segments as JSON, and the downloaded flags as a bitmap.  What cJSON prints it
parses again, so that a file is its tree.
-/

namespace NzbDownloader.Queue.Persist

open Lib Util Json

def snprintf (size : ℕ) (text : Name) : Name :=
  text.take (size - 1)

def wrapLong (n : ℤ) : ℤ :=
  n.bmod (2 ^ 64)

def roundToDouble (n : ℕ) : ℕ :=
  let unit := 2 ^ (n.log2 - 52)
  let down := n / unit
  let rest := n % unit
  (if 2 * rest > unit ∨ 2 * rest = unit ∧ down % 2 = 1 then down + 1 else down) * unit

def toDouble (n : ℤ) : ℤ :=
  n.sign * roundToDouble n.natAbs

def toInt (n : ℤ) : ℤ :=
  max (-2 ^ 31) (min (2 ^ 31 - 1) n)

structure SegmentData where
  messageId : Name
  bytes : ℤ
  number : ℤ
  downloaded : Bool
  deriving DecidableEq

def totalBytes (segments : List SegmentData) : ℤ :=
  segments.foldl (fun total segment => wrapLong (total + segment.bytes)) 0

structure FileData where
  filename : Name
  subject : Name
  segments : List SegmentData
  bytes : ℤ
  bytes_eq : bytes = totalBytes segments
  deriving DecidableEq

structure JobData where
  id : Name
  name : Name
  state : JobState
  busy : Bool
  priority : ℤ
  retriesUsed : ℤ
  lastError : Name
  finalBytes : ℤ
  passwords : List Name
  outputDir : Name
  addToShadowmount : Bool
  autoInstallPkgs : Bool
  nfoPath : Name
  nfoChecked : Bool
  pkgPaths : List Name
  pkgChecked : Bool
  files : List FileData
  deriving DecidableEq

def JobData.blank : JobData :=
  ⟨[], [], .queued, false, 0, 0, [], 0, [], [], false, false, [], false, [], false, []⟩

def jobMaxPasswords : ℕ := 8

def jobMaxPkgs : ℕ := 16

def newFile (filename subject : Name) : FileData :=
  ⟨snprintf 512 filename, snprintf 1024 subject, [], 0, rfl⟩

def jobFileAddSegment (file : FileData) (messageId : Name) (bytes number : ℤ) (downloaded : Bool) :
    FileData where
  filename := file.filename
  subject := file.subject
  segments := file.segments ++ [⟨snprintf 512 messageId, bytes, number, downloaded⟩]
  bytes := wrapLong (file.bytes + bytes)
  bytes_eq := by rw [totalBytes, List.foldl_append, ← totalBytes, ← file.bytes_eq]; rfl

def jobAddPassword (passwords : List Name) (password : Name) : List Name :=
  if password = [] ∨ password ∈ passwords ∨ passwords.length ≥ jobMaxPasswords then passwords
  else passwords ++ [snprintf 256 password]

def jobAddPkgPath (paths : List Name) (path : Name) : List Name :=
  if paths.length ≥ jobMaxPkgs then paths else paths ++ [snprintf 900 path]

abbrev Tree := Json Name

inductive Document where
  | json (tree : Tree)
  | raw (bytes : Bytes)

def Document.tree? : Document → Option Tree
  | .json tree => some tree
  | .raw _ => none

def Document.bitmap : Document → Bytes
  | .json _ => []
  | .raw bytes => bytes

def segmentMembers (segment : SegmentData) : List (String × Tree) :=
  [("message_id", .string segment.messageId),
    ("bytes", .number (toDouble segment.bytes)),
    ("number", .number segment.number)]

def fileMembers (file : FileData) : List (String × Tree) :=
  [("filename", .string file.filename),
    ("subject", .string file.subject),
    ("bytes", .number (toDouble file.bytes)),
    ("segments", .array (file.segments.map fun segment => .object (segmentMembers segment)))]

def jobSegmentsTree (job : JobData) : Tree :=
  .object [("files", .array (job.files.map fun file => .object (fileMembers file)))]

def headerMembers (job : JobData) : List (String × Tree) :=
  [("id", .string job.id),
    ("name", .string job.name),
    ("state", .string (jobStateName job.state).toList),
    ("priority", .number job.priority),
    ("retries_used", .number job.retriesUsed),
    ("last_error", .string job.lastError),
    ("final_bytes", .number (toDouble job.finalBytes)),
    ("output_dir", .string job.outputDir),
    ("add_to_shadowmount", .bool job.addToShadowmount),
    ("auto_install_pkgs", .bool job.autoInstallPkgs),
    ("nfo_path", .string job.nfoPath),
    ("passwords", .array (job.passwords.map .string)),
    ("pkg_paths", .array (job.pkgPaths.map .string))]

def jobHeaderTree (job : JobData) : Tree :=
  .object (headerMembers job)

def JobData.flags (job : JobData) : List Bool :=
  job.files.flatMap fun file => file.segments.map (·.downloaded)

def jobProgressSnapshot (job : JobData) : Bytes :=
  bitmapOf job.flags

def loadString (size : ℕ) (tree : Tree) (key : String) : Name :=
  (((tree.get? key).bind string?).map (snprintf size)).getD []

def loadNumber (tree : Tree) (key : String) : ℤ :=
  ((tree.get? key).bind number?).getD 0

def loadBool (tree : Tree) (key : String) : Bool :=
  ((tree.get? key).map isTrue).getD false

def loadItems (tree : Tree) (key : String) : List Tree :=
  ((tree.get? key).map children).getD []

def loadSegment (bitmap : Bytes) (state : FileData × ℕ) (item : Tree) : FileData × ℕ :=
  match (item.get? "message_id").bind string? with
  | none => (state.1, state.2 + 1)
  | some messageId =>
      (jobFileAddSegment state.1 messageId (loadNumber item "bytes") (toInt (loadNumber item "number"))
        (flagAt bitmap state.2), state.2 + 1)

def loadFile (bitmap : Bytes) (state : List FileData × ℕ) (item : Tree) : List FileData × ℕ :=
  let file := newFile (((item.get? "filename").bind string?).getD [])
    (((item.get? "subject").bind string?).getD [])
  let (file, bit) := (loadItems item "segments").foldl (loadSegment bitmap) (file, state.2)
  (state.1 ++ [file], bit)

def loadHeader (tree : Tree) : JobData where
  id := loadString 13 tree "id"
  name := loadString 256 tree "name"
  state := (((tree.get? "state").bind string?).map fun text =>
    jobStateFromName (String.ofList text)).getD .queued
  busy := false
  priority := toInt (loadNumber tree "priority")
  retriesUsed := toInt (loadNumber tree "retries_used")
  lastError := loadString 256 tree "last_error"
  finalBytes := loadNumber tree "final_bytes"
  passwords := ((loadItems tree "passwords").filterMap string?).foldl jobAddPassword []
  outputDir := loadString 512 tree "output_dir"
  addToShadowmount := loadBool tree "add_to_shadowmount"
  autoInstallPkgs := loadBool tree "auto_install_pkgs"
  nfoPath := loadString 900 tree "nfo_path"
  nfoChecked := false
  pkgPaths := ((loadItems tree "pkg_paths").filterMap string?).foldl jobAddPkgPath []
  pkgChecked := false
  files := []

def treeFormat : JobFormat Document JobData where
  header job := .json (jobHeaderTree job)
  segments job := .json (jobSegmentsTree job)
  loadHeader file := file.tree?.map loadHeader
  loadFiles file := file.tree?.map fun tree progress job =>
    let bitmap := (progress.map Document.bitmap).getD []
    { job with files := ((loadItems tree "files").foldl (loadFile bitmap) ([], 0)).1 }

section Disk

variable (env : Faults Document)

def jobEnsureSegmentsSaved : JobData → Name → Folder Name Document → Folder Name Document :=
  treeFormat.jobEnsureSegmentsSaved env

def jobSave : JobData → Name → Folder Name Document → Bool × Folder Name Document :=
  treeFormat.jobSave env

def jobWriteProgress (job : JobData) (path : Name) (bitmap : Bytes) (dir : Folder Name Document) :
    Bool × Folder Name Document :=
  jobWriteFile env (jobSidecarPath path progressSuffix) (.raw bitmap)
    (jobEnsureSegmentsSaved env job path dir)

def jobLoad : Name → Folder Name Document → Option JobData × Folder Name Document :=
  treeFormat.jobLoad env

end Disk

def ExactSize (n : ℤ) : Prop :=
  n.natAbs < 2 ^ 53
  deriving Decidable

def IsInt (n : ℤ) : Prop :=
  -2 ^ 31 ≤ n ∧ n < 2 ^ 31
  deriving Decidable

def FitsIn (size : ℕ) (text : Name) : Prop :=
  text.length < size
  deriving Decidable

structure SegmentData.InField (segment : SegmentData) : Prop where
  messageId : FitsIn 512 segment.messageId
  number : IsInt segment.number

structure FileData.InField (file : FileData) : Prop where
  filename : FitsIn 512 file.filename
  subject : FitsIn 1024 file.subject
  segments : ∀ segment ∈ file.segments, segment.InField

@[mk_iff]
structure SegmentData.Fits (segment : SegmentData) : Prop where
  messageId : FitsIn 512 segment.messageId
  bytes : ExactSize segment.bytes
  number : IsInt segment.number

instance (segment : SegmentData) : Decidable segment.Fits :=
  decidable_of_iff' _ (SegmentData.fits_iff segment)

@[mk_iff]
structure FileData.Fits (file : FileData) : Prop where
  filename : FitsIn 512 file.filename
  subject : FitsIn 1024 file.subject
  segments : ∀ segment ∈ file.segments, segment.Fits

instance (file : FileData) : Decidable file.Fits :=
  decidable_of_iff' _ (FileData.fits_iff file)

theorem FileData.Fits.inField {file : FileData} (fits : file.Fits) : file.InField where
  filename := fits.filename
  subject := fits.subject
  segments segment member :=
    ⟨(fits.segments segment member).messageId, (fits.segments segment member).number⟩

theorem FileData.Fits.exactSize {file : FileData} (fits : file.Fits) :
    ∀ segment ∈ file.segments, ExactSize segment.bytes :=
  fun segment member => (fits.segments segment member).bytes

@[mk_iff]
structure JobData.Fits (job : JobData) : Prop where
  id : FitsIn 13 job.id
  name : FitsIn 256 job.name
  priority : IsInt job.priority
  retriesUsed : IsInt job.retriesUsed
  lastError : FitsIn 256 job.lastError
  finalBytes : ExactSize job.finalBytes
  passwordCount : job.passwords.length ≤ jobMaxPasswords
  passwordsNodup : job.passwords.Nodup
  passwords : ∀ password ∈ job.passwords, password ≠ [] ∧ FitsIn 256 password
  outputDir : FitsIn 512 job.outputDir
  nfoPath : FitsIn 900 job.nfoPath
  pkgCount : job.pkgPaths.length ≤ jobMaxPkgs
  pkgPaths : ∀ path ∈ job.pkgPaths, FitsIn 900 path
  files : ∀ file ∈ job.files, file.Fits

instance (job : JobData) : Decidable job.Fits :=
  decidable_of_iff' _ (JobData.fits_iff job)

def JobData.persisted (job : JobData) : JobData :=
  { job with busy := false, nfoChecked := false, pkgChecked := false }

end NzbDownloader.Queue.Persist
