import NzbDownloader.Nzb.MessageIds
import NzbDownloader.Extract.Classify

/-!
# The paths of the files of a document

`job_file_path` and the target of the move in `finalize_job`, with the sizes of their
buffers.
-/

namespace NzbDownloader.Nzb

open Lib Util Queue.Persist Extract List
open Storage (pathSanitizeComponent)

structure Directories where
  tempDir : Name
  outputDir : Name

def jobTempDir (storage : Directories) (job : JobData) : Name :=
  snprintf 700 (storage.tempDir ++ '/' :: job.id)

def safeName (file : FileData) : Name :=
  pathSanitizeComponent (snprintf 512 file.filename)

def jobFilePath (storage : Directories) (job : JobData) (file : FileData) : Name :=
  snprintf 900 (jobTempDir storage job ++ '/' :: safeName file)

def jobOutputSubdir (job : JobData) : Name :=
  let name := snprintf 256 job.name
  snprintf 300 <| pathSanitizeComponent <|
    if name.length > 4 ∧ hasSuffixCi name ".nzb".toList then name.rdrop 4 else name

def jobOutputDestDir (storage : Directories) (job : JobData) : Name :=
  let outputDir := snprintf 512 (if job.outputDir ≠ [] then job.outputDir else storage.outputDir)
  if outputDir = [] then [] else snprintf 900 (outputDir ++ '/' :: jobOutputSubdir job)

def movedPath (storage : Directories) (job : JobData) (file : FileData) : Name :=
  snprintf 1200 (jobOutputDestDir storage job ++ '/' :: safeName file)

def movedFiles (storage : Directories) (job : JobData) : List FileData :=
  if jobOutputDestDir storage job = [] then []
  else job.files.filter fun file => !isSidecarFile file.filename

structure Apart (storage : Directories) (job : JobData) : Prop where
  downloaded : (job.files.map (jobFilePath storage job)).Nodup
  moved : ((movedFiles storage job).map (movedPath storage job)).Nodup

def titleOf (subject : Name) : Name :=
  let quoted := (subject.dropWhile (· ≠ '"')).tail
  let name := quoted.takeWhile (· ≠ '"')
  if '"' ∈ quoted ∧ name ≠ [] then snprintf 512 name
  else stripTrailingPartSuffix (snprintf 512 subject)

theorem extractFilename_eq (subject : Name) :
    extractFilename subject = pathSanitizeComponent (titleOf subject) :=
  rfl

def Nameless (title : Name) : Prop :=
  title ∈ [[], ['.'], ['.', '.'], "unnamed".toList]

def flat (c : Char) : Char :=
  if c = '/' ∨ c = '\\' then '_' else c

def Alike (room : ℕ) (a b : Name) : Prop :=
  Nameless a ∧ Nameless b ∨ (a.take room).map flat = (b.take room).map flat

instance (room : ℕ) (a b : Name) : Decidable (Alike room a b) :=
  inferInstanceAs (Decidable (a ∈ _ ∧ b ∈ _ ∨ _))

def subjectOf (attrs : List (Name × Name)) : Name :=
  (findAttr attrs "subject".toList).getD []

def fileSubjects (document : List Event) : List Name :=
  document.filterMap fun
    | .start name attrs => if tagOf name = .file then some (subjectOf attrs) else none
    | _ => none

def reserved : List Name :=
  [[], ['.'], ['.', '.']]

def isPlain (c : Char) : Bool :=
  c ≠ '_' ∧ c ≠ '/' ∧ c ≠ '\\'

theorem flat_eq_iff {c d : Char} (plain : isPlain d) : flat c = d ↔ c = d := by
  simp only [isPlain, ne_eq, decide_eq_true_eq] at plain
  unfold flat
  split_ifs with separator
  · constructor
    · rintro rfl
      exact absurd rfl plain.1
    · rintro rfl
      exact absurd separator (not_or.mpr plain.2)
  · exact Iff.rfl

variable {name dir : Name} {room size : ℕ} {ctx : ParseCtx} {calls : List (Event × Bool)}

theorem map_flat_eq_iff {title : Name} (plain : name.all isPlain) :
    title.map flat = name ↔ title = name := by
  induction title generalizing name with
  | nil => simp [eq_comm]
  | cons c rest ih =>
    cases name with
    | nil => simp
    | cons d name =>
      obtain ⟨first, others⟩ := Bool.and_eq_true_iff.mp plain
      rw [map_cons, List.cons.injEq, List.cons.injEq, flat_eq_iff first, ih others]

theorem take_map_flat_eq_iff {title : Name} (plain : name.all isPlain)
    (short : name.length < room) : (title.take room).map flat = name ↔ title = name := by
  rw [map_flat_eq_iff plain]
  constructor
  · intro same
    have whole : title.length ≤ room := by
      have length := congrArg List.length same
      rw [length_take] at length
      omega
    rwa [take_of_length_le whole] at same
  · rintro rfl
    exact take_of_length_le short.le

theorem pathSanitizeComponent_eq (title : Name) : pathSanitizeComponent title =
    if title ∈ reserved then "unnamed".toList else title.map flat := by
  have empty : title.map flat = [] ↔ title = [] := map_flat_eq_iff rfl
  have here : title.map flat = ['.'] ↔ title = ['.'] := map_flat_eq_iff rfl
  have above : title.map flat = ['.', '.'] ↔ title = ['.', '.'] := map_flat_eq_iff rfl
  simp only [reserved, mem_cons, not_mem_nil, or_false, ← empty, ← here, ← above]
  rfl

theorem nameless_iff (title : Name) :
    Nameless title ↔ title ∈ reserved ∨ title = "unnamed".toList := by
  simp only [Nameless, reserved, mem_cons, not_mem_nil, or_false]
  tauto

theorem sanitized_reserved_iff {a b : Name} (wide : 7 < room) (first : a ∈ reserved)
    (second : b ∉ reserved) :
    (pathSanitizeComponent a).take room = (pathSanitizeComponent b).take room ↔ Alike room a b := by
  have short : a.all isPlain ∧ a.length < room := by
    simp only [reserved, mem_cons, not_mem_nil, or_false] at first
    rcases first with rfl | rfl | rfl
    all_goals exact ⟨rfl, by simp; omega⟩
  have other : ¬(a.take room).map flat = (b.take room).map flat := by
    rw [(take_map_flat_eq_iff short.1 short.2).mpr rfl, eq_comm,
      take_map_flat_eq_iff short.1 short.2]
    rintro rfl
    exact second first
  rw [pathSanitizeComponent_eq, pathSanitizeComponent_eq, if_pos first, if_neg second, Alike,
    nameless_iff, nameless_iff, take_of_length_le (by exact wide.le), ← map_take, eq_comm,
    take_map_flat_eq_iff (by decide) wide]
  tauto

theorem sanitized_take_eq_iff (wide : 7 < room) (a b : Name) :
    (pathSanitizeComponent a).take room = (pathSanitizeComponent b).take room ↔ Alike room a b := by
  by_cases first : a ∈ reserved <;> by_cases second : b ∈ reserved
  · have same : Alike room a b :=
      .inl ⟨(nameless_iff a).mpr (.inl first), (nameless_iff b).mpr (.inl second)⟩
    simp only [pathSanitizeComponent_eq, if_pos first, if_pos second, same]
  · exact sanitized_reserved_iff wide first second
  · rw [eq_comm, sanitized_reserved_iff wide second first, Alike, Alike, eq_comm,
      and_comm]
  · rw [pathSanitizeComponent_eq, pathSanitizeComponent_eq, if_neg first, if_neg second, Alike,
      nameless_iff, nameless_iff, map_take, map_take]
    constructor
    · exact .inr
    · rintro (⟨unnamed, unnamed'⟩ | same)
      · rw [unnamed.resolve_left first, unnamed'.resolve_left second]
      · exact same

theorem length_trimWs_le (text : Name) : (trimWs text).length ≤ text.length :=
  ( rdropWhile_prefix _ _).length_le.trans ( dropWhile_suffix _).length_le

theorem length_stripTrailingPartSuffix_le (text : Name) :
    (stripTrailingPartSuffix text).length ≤ text.length := by
  have front : ((text.dropLast.rdropWhile (· ≠ '(')).dropLast).length ≤ text.length :=
    (( dropLast_prefix _).length_le.trans ( rdropWhile_prefix _ _).length_le).trans
      ( dropLast_prefix _).length_le
  have name := (length_trimWs_le (text.dropLast.rdropWhile (· ≠ '(')).dropLast).trans front
  unfold stripTrailingPartSuffix
  dsimp only
  split_ifs
  · refine (length_trimWs_le _).trans (le_trans ?_ name)
    rw [rdrop_eq_reverse_drop_reverse, length_reverse, length_drop,
      length_reverse]
    exact Nat.sub_le _ _
  · exact name
  · exact le_rfl

theorem length_titleOf_le (subject : Name) : (titleOf subject).length ≤ 511 := by
  unfold titleOf
  dsimp only
  split_ifs
  · exact length_take_le _ _
  · exact (length_stripTrailingPartSuffix_le _).trans (length_take_le _ _)

theorem length_extractFilename_le (subject : Name) : (extractFilename subject).length ≤ 511 := by
  rw [extractFilename_eq, pathSanitizeComponent_eq]
  split_ifs
  · decide
  · rw [length_map]
    exact length_titleOf_le subject

theorem pathSanitizeComponent_idem (title : Name) :
    pathSanitizeComponent (pathSanitizeComponent title) = pathSanitizeComponent title := by
  by_cases replaced : title ∈ reserved
  · rw [pathSanitizeComponent_eq title, if_pos replaced]
    decide
  have stays : title.map flat ∉ reserved := by
    simp only [reserved, mem_cons, not_mem_nil, or_false] at replaced ⊢
    rwa [map_flat_eq_iff rfl, map_flat_eq_iff rfl, map_flat_eq_iff rfl]
  rw [pathSanitizeComponent_eq title, if_neg replaced, pathSanitizeComponent_eq, if_neg stays,
    map_map]
  refine map_congr_left fun c _ => ?_
  simp only [Function.comp_apply, flat]
  split_ifs <;> simp_all

theorem snprintf_extractFilename (subject : Name) :
    snprintf 512 (extractFilename subject) = extractFilename subject :=
  take_of_length_le (length_extractFilename_le subject)

theorem filenames_modify (files : List FileData) (index : ℕ) (messageId : Name)
    (bytes number : ℤ) :
    (files.modify index fun file =>
      jobFileAddSegment file messageId bytes number false).map (·.filename) =
        files.map (·.filename) := by
  induction files generalizing index with
  | nil => rw [modify_nil]
  | cons file rest ih =>
    cases index with
    | zero => rfl
    | succ index => rw [modify_succ_cons, map_cons, map_cons, ih]

theorem fileSubjects_file (attrs : List (Name × Name)) (tag : tagOf name = .file)
    (rest : List Event) :
    fileSubjects (.start name attrs :: rest) = subjectOf attrs :: fileSubjects rest :=
  filterMap_cons_some (if_pos tag)

theorem fileSubjects_start (attrs : List (Name × Name)) (tag : tagOf name ≠ .file)
    (rest : List Event) : fileSubjects (.start name attrs :: rest) = fileSubjects rest :=
  filterMap_cons_none (if_neg tag)

theorem filenames_start (memory : Bool) (name : Name) (attrs : List (Name × Name))
    (sound : (startElement memory name attrs ctx).error = false) :
    (startElement memory name attrs ctx).files.map (·.filename) = ctx.files.map (·.filename) ++
      (fileSubjects [.start name attrs]).map extractFilename := by
  cases tag : tagOf name with
  | file =>
    rw [fileSubjects_file attrs tag]
    unfold startElement at sound ⊢
    rw [tag] at sound ⊢
    cases memory with
    | true =>
      rw [if_pos rfl, map_append, map_singleton, newFile, snprintf_extractFilename]
      rfl
    | false => contradiction
  | segment | password | other =>
    rw [fileSubjects_start attrs (by rw [tag]; rintro ⟨⟩)]
    unfold startElement
    rw [tag]
    exact (append_nil _).symm

theorem filenames_stop (ctx : ParseCtx) (memory : Bool) (name : Name) :
    (endElement memory name ctx).files.map (·.filename) = ctx.files.map (·.filename) := by
  unfold endElement
  cases tagOf name with
  | segment =>
    dsimp only
    split
    · rfl
    · split_ifs
      · rfl
      · exact filenames_modify ..
      · rfl
  | password =>
    split_ifs <;> rfl
  | file | other => rfl

theorem filenames_handle (call : Event × Bool) (sound : (handle ctx call).error = false) :
    (handle ctx call).files.map (·.filename) = ctx.files.map (·.filename) ++
      (fileSubjects [call.1]).map extractFilename := by
  obtain ⟨event, memory⟩ := call
  cases event with
  | start name attrs => exact filenames_start memory name attrs sound
  | text data =>
    change (charData data ctx).files.map _ = _
    unfold charData
    split_ifs <;> exact (append_nil _).symm
  | stop name => exact (filenames_stop ctx memory name).trans (append_nil _).symm

theorem fileSubjects_cons (event : Event) (rest : List Event) :
    fileSubjects (event :: rest) = fileSubjects [event] ++ fileSubjects rest :=
  filterMap_append (l := [event])

theorem filenames_foldl (sound : (calls.foldl handle ctx).error = false) :
    (calls.foldl handle ctx).files.map (·.filename) = ctx.files.map (·.filename) ++
      (fileSubjects (calls.map Prod.fst)).map extractFilename := by
  induction calls generalizing ctx with
  | nil => exact (append_nil _).symm
  | cons call rest ih =>
    rw [foldl_cons, ih sound, filenames_handle call (error_of_foldl sound),
      append_assoc, ← map_append, ← fileSubjects_cons]
    rfl

theorem filenames_of_nzbParseFile {path id : Name} {job : JobData}
    (parsed : nzbParseFile path id calls = some job) :
    job.files.map (·.filename) = (fileSubjects (calls.map Prod.fst)).map extractFilename := by
  unfold nzbParseFile at parsed
  dsimp only at parsed
  split_ifs at parsed with failed
  cases parsed
  exact filenames_foldl (Bool.not_eq_true _ ▸ failed)

theorem snprintf_path (fits : dir.length + 1 < size) :
    snprintf size (dir ++ '/' :: name) = dir ++ '/' :: name.take (size - 2 - dir.length) := by
  obtain ⟨room, rfl⟩ : ∃ room, size = dir.length + 2 + room := ⟨size - (dir.length + 2), by omega⟩
  rw [snprintf, take_append, take_of_length_le (by omega)]
  congr 1
  rw [show dir.length + 2 + room - 1 - dir.length = room + 1 by omega, take_succ_cons]
  congr 2
  omega

theorem nodup_paths_iff {subjects : List Name} (fits : dir.length + 9 < size) :
    (subjects.map fun subject => snprintf size (dir ++ '/' :: extractFilename subject)).Nodup ↔
      (subjects.map titleOf).Pairwise fun a b => ¬Alike (size - 2 - dir.length) a b := by
  have told : ∀ a b, snprintf size (dir ++ '/' :: extractFilename a) ≠
      snprintf size (dir ++ '/' :: extractFilename b) ↔
        ¬Alike (size - 2 - dir.length) (titleOf a) (titleOf b) := by
    intro a b
    rw [snprintf_path (by omega), snprintf_path (by omega), ne_eq, append_cancel_left_eq,
      List.cons.injEq, and_iff_right rfl, extractFilename_eq, extractFilename_eq,
      sanitized_take_eq_iff (by omega)]
  rw [List.Nodup, pairwise_map, pairwise_map]
  exact List.Pairwise.iff told

theorem map_path_of_filenames {files : List FileData} {subjects : List Name} (size : ℕ)
    (dir : Name) (names : files.map (·.filename) = subjects.map extractFilename) :
    (files.map fun file => snprintf size (dir ++ '/' :: safeName file)) =
      subjects.map fun subject => snprintf size (dir ++ '/' :: extractFilename subject) := by
  let pathOf (name : Name) : Name :=
    snprintf size (dir ++ '/' :: pathSanitizeComponent (snprintf 512 name))
  calc
    files.map (fun file => snprintf size (dir ++ '/' :: safeName file))
      = (files.map (·.filename)).map pathOf := by rw [map_map]; rfl
    _ = (subjects.map extractFilename).map pathOf := by rw [names]
    _ = subjects.map fun subject => snprintf size (dir ++ '/' :: extractFilename subject) := by
        rw [map_map]
        refine map_congr_left fun subject _ => ?_
        simp only [pathOf, Function.comp_apply, snprintf_extractFilename]
        rw [extractFilename_eq, pathSanitizeComponent_idem]

theorem length_jobTempDir (storage : Directories) (job : JobData) :
    (jobTempDir storage job).length ≤ 699 :=
  length_take_le _ _

theorem length_jobOutputDestDir (storage : Directories) (job : JobData) :
    (jobOutputDestDir storage job).length ≤ 899 := by
  unfold jobOutputDestDir
  dsimp only
  split_ifs
  all_goals first | exact Nat.zero_le _ | exact length_take_le _ _

def movedSubjects (subjects : List Name) : List Name :=
  subjects.filter fun subject => !isSidecarFile (extractFilename subject)

/-- The files of a parsed job are kept apart exactly if no two of their titles are alike,
as far as the paths have them. -/
theorem apart_iff {path id : Name} {calls : List (Event × Bool)} {parsed job : JobData}
    (isParsed : nzbParseFile path id calls = some parsed) (files : job.files = parsed.files)
    (storage : Directories) :
    Apart storage job ↔
      ((fileSubjects (calls.map Prod.fst)).map titleOf).Pairwise
          (fun a b => ¬Alike (898 - (jobTempDir storage job).length) a b) ∧
      (jobOutputDestDir storage job ≠ [] →
        ((movedSubjects (fileSubjects (calls.map Prod.fst))).map titleOf).Pairwise
          fun a b => ¬Alike (1198 - (jobOutputDestDir storage job).length) a b) := by
  have names := filenames_of_nzbParseFile isParsed
  rw [← files] at names
  generalize fileSubjects (calls.map Prod.fst) = subjects at names ⊢
  have short := length_jobTempDir storage job
  have short' := length_jobOutputDestDir storage job
  have downloaded : (job.files.map (jobFilePath storage job)).Nodup ↔ (subjects.map titleOf).Pairwise
      fun a b => ¬Alike (898 - (jobTempDir storage job).length) a b := by
    have paths := map_path_of_filenames 900 (jobTempDir storage job) names
    change (job.files.map fun file => snprintf 900 (_ ++ '/' :: safeName file)).Nodup ↔ _
    rw [paths, nodup_paths_iff (by omega)]
  have moved : ((movedFiles storage job).map (movedPath storage job)).Nodup ↔
      (jobOutputDestDir storage job ≠ [] → ((movedSubjects subjects).map titleOf).Pairwise
        fun a b => ¬Alike (1198 - (jobOutputDestDir storage job).length) a b) := by
    by_cases unset : jobOutputDestDir storage job = []
    · simp [movedFiles, unset]
    have left : (movedFiles storage job).map (·.filename) =
        (movedSubjects subjects).map extractFilename := by
      rw [movedFiles, if_neg unset, movedSubjects]
      have filtered := congrArg (List.filter fun name => !isSidecarFile name) names
      rwa [filter_map, filter_map] at filtered
    have paths := map_path_of_filenames 1200 (jobOutputDestDir storage job) left
    change ((movedFiles storage job).map fun file =>
      snprintf 1200 (_ ++ '/' :: safeName file)).Nodup ↔ _
    rw [paths, nodup_paths_iff (by omega)]
    exact ⟨fun apart _ => apart, fun apart => apart unset⟩
  rw [← downloaded, ← moved]
  exact ⟨fun apart => ⟨apart.downloaded, apart.moved⟩, fun both => ⟨both.1, both.2⟩⟩

def documentOf (subjects : List Name) : List (Event × Bool) :=
  subjects.flatMap fun subject =>
    [(.start "file".toList [("subject".toList, subject)], true), (.stop "file".toList, true)]

def jobOf (files : List (Name × Name)) : JobData :=
  { jobCreate "a3f9c1e08b47".toList "show.nzb".toList with
    files := files.map fun file => newFile file.2 file.1 }

def dataStorage : Directories where
  tempDir := "/data/tmp".toList
  outputDir := "/data/games".toList

def discs : List (Name × Name) :=
  [("\"disc1.iso\" yEnc (1/50)".toList, "disc1.iso".toList),
    ("\"disc2.iso\" yEnc (1/50)".toList, "disc2.iso".toList)]

theorem apart_discs :
    nzbParseFile "/data/show.nzb".toList "a3f9c1e08b47".toList (documentOf (discs.map Prod.fst)) =
      some (jobOf discs) ∧ Apart dataStorage (jobOf discs) := by
  have parsed : nzbParseFile "/data/show.nzb".toList "a3f9c1e08b47".toList
      (documentOf (discs.map Prod.fst)) = some (jobOf discs) := by
    decide +kernel
  exact ⟨parsed, (apart_iff parsed rfl dataStorage).mpr (by decide +kernel)⟩

def tracks : List (Name × Name) :=
  [("CD1 \"track.bin\" yEnc (1/50)".toList, "track.bin".toList),
    ("CD2 \"track.bin\" yEnc (1/50)".toList, "track.bin".toList)]

theorem tracks_share_path :
    nzbParseFile "/data/show.nzb".toList "a3f9c1e08b47".toList (documentOf (tracks.map Prod.fst)) =
      some (jobOf tracks) ∧
    (jobOf tracks).files.map (jobFilePath dataStorage (jobOf tracks)) =
      ["/data/tmp/a3f9c1e08b47/track.bin".toList, "/data/tmp/a3f9c1e08b47/track.bin".toList] := by
  constructor
  · decide +kernel
  · decide +kernel

def IsComponent (name : Name) : Prop :=
  name ∉ reserved ∧ '/' ∉ name

theorem isComponent_take (wide : 2 < room) (title : Name) :
    IsComponent ((pathSanitizeComponent title).take room) := by
  have sanitized : IsComponent (pathSanitizeComponent title) := by
    rw [pathSanitizeComponent_eq]
    split_ifs with replaced
    · exact ⟨by decide, by decide⟩
    refine ⟨?_, ?_⟩
    · have here : title.map flat = ['.'] ↔ title = ['.'] := map_flat_eq_iff rfl
      have above : title.map flat = ['.', '.'] ↔ title = ['.', '.'] := map_flat_eq_iff rfl
      simpa [reserved, here, above] using replaced
    · simp only [mem_map, not_exists, not_and, flat]
      intro c _
      split_ifs with separator
      · decide
      · exact fun slash => separator (.inl slash)
  refine ⟨fun special => sanitized.1 ?_, fun slash => sanitized.2 (mem_of_mem_take slash)⟩
  -- A name of at most two characters has not been cut.
  have short : ((pathSanitizeComponent title).take room).length ≤ 2 := by
    revert special
    generalize (pathSanitizeComponent title).take room = name
    revert name
    simp [reserved]
  rw [length_take] at short
  rwa [take_of_length_le (by omega)] at special

theorem path_inside (fits : dir.length + 4 < size) (title : Name) :
    ∃ name, IsComponent name ∧
      snprintf size (dir ++ '/' :: pathSanitizeComponent title) = dir ++ '/' :: name :=
  ⟨_, isComponent_take (by omega) title, snprintf_path (by omega)⟩

def outputDirOf (storage : Directories) (job : JobData) : Name :=
  if job.outputDir ≠ [] then job.outputDir else storage.outputDir

/-- Whatever the names of the job and its files are, a path is its directory and one name in
it.  Without an output directory nothing is moved. -/
theorem paths_inside (storage : Directories) (job : JobData)
    (temp : FitsIn 512 storage.tempDir) (output : FitsIn 512 (outputDirOf storage job))
    (id : FitsIn 13 job.id) :
    (∀ file ∈ job.files, ∃ name, IsComponent name ∧
        jobFilePath storage job file = storage.tempDir ++ '/' :: job.id ++ '/' :: name) ∧
      (outputDirOf storage job = [] → movedFiles storage job = []) ∧
      (outputDirOf storage job ≠ [] →
        (∃ name, IsComponent name ∧
          jobOutputDestDir storage job = outputDirOf storage job ++ '/' :: name) ∧
        ∀ file ∈ movedFiles storage job, ∃ name, IsComponent name ∧
          movedPath storage job file = jobOutputDestDir storage job ++ '/' :: name) := by
  unfold FitsIn at temp output id
  have whole : snprintf 512 (outputDirOf storage job) = outputDirOf storage job :=
    take_of_length_le (by omega)
  have dest : jobOutputDestDir storage job = if outputDirOf storage job = [] then []
      else snprintf 900 (outputDirOf storage job ++ '/' :: jobOutputSubdir job) := by
    rw [← whole]
    rfl
  refine ⟨fun file _ => ?_, fun none => ?_, fun set => ⟨?_, fun file _ => ?_⟩⟩
  · have dir : jobTempDir storage job = storage.tempDir ++ '/' :: job.id :=
      take_of_length_le (by simp; omega)
    rw [jobFilePath, dir]
    exact path_inside (by simp; omega) _
  · rw [movedFiles, dest, if_pos none, if_pos rfl]
  · rw [dest, if_neg set, snprintf_path (by omega), jobOutputSubdir, snprintf, take_take]
    exact ⟨_, isComponent_take (by omega) _, rfl⟩
  · have short := length_jobOutputDestDir storage job
    exact path_inside (by omega) _

def dotJob : JobData :=
  { jobOf [([], "..".toList)] with name := "...nzb".toList }

theorem paths_inside_dots : jobOutputDestDir dataStorage dotJob = "/data/games/unnamed".toList ∧
    ∀ file ∈ dotJob.files, ∃ name, IsComponent name ∧
      jobFilePath dataStorage dotJob file = "/data/tmp/a3f9c1e08b47/".toList ++ name := by
  refine ⟨by decide +kernel, fun file member => ?_⟩
  obtain ⟨name, component, path⟩ :=
    (paths_inside dataStorage dotJob (by decide) (by decide) (by decide)).1 file member
  exact ⟨name, component, path⟩

end NzbDownloader.Nzb
