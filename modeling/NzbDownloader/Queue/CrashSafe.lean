import Mathlib.Data.List.Forall2
import Mathlib.Order.Bounds.Defs
import NzbDownloader.Lib.Transition
import NzbDownloader.Queue.Crash

/-!
# A crash never invents progress

Every bitmap that is or will be on disk is one of an earlier state of the job in
memory, whose flags are never cleared, and the list of segments is on disk
before the header is.
-/

namespace NzbDownloader.Queue.Persist

open Lib Util Transition List FileData Writers Function JobData

def FileData.key (file : FileData) : (Name × Name) × List (Name × ℤ) :=
  ((file.filename, file.subject), file.segments.map fun segment => (segment.messageId, segment.number))

def FileData.sizes (file : FileData) : List ℤ :=
  file.segments.map (·.bytes)

def flagsOf (files : List FileData) : List Bool :=
  files.flatMap fun file => file.segments.map (·.downloaded)

theorem flagsOf_cons (file : FileData) (rest : List FileData) :
    flagsOf (file :: rest) = file.segments.map (·.downloaded) ++ flagsOf rest :=
  flatMap_cons

def ExactSizes (files : List FileData) : Prop :=
  ∀ file ∈ files, ∀ segment ∈ file.segments, ExactSize segment.bytes

structure Kept (job : JobData) (files : List FileData) : Prop where
  keys : files.map key = job.files.map key
  sizes : ExactSizes job.files → files.map sizes = job.files.map sizes

def Grows : List Bool → List Bool → Prop :=
  List.Forall₂ (· ≤ ·)

theorem Grows.refl (flags : List Bool) : Grows flags flags :=
  forall₂_refl flags

theorem Grows.shows {flags flags' : List Bool} (grows : Grows flags flags') {i : ℕ}
    (shown : flags[i]? = some true) : flags'[i]? = some true := by
  obtain ⟨inside, set⟩ := List.getElem?_eq_some_iff.mp shown
  have inside' : i < flags'.length := grows.length_eq ▸ inside
  have larger := List.Forall₂.get grows inside inside'
  rw [List.get_eq_getElem, List.get_eq_getElem, set] at larger
  exact List.getElem?_eq_some_iff.mpr ⟨inside', Bool.eq_true_of_true_le larger⟩

section Mark

variable (messageId : Name)

theorem markSegments_grows (segments : List SegmentData) :
    Grows (segments.map (·.downloaded)) ((markSegments messageId segments).map (·.downloaded)) := by
  rw [Grows, forall₂_map_left_iff, forall₂_map_right_iff]
  refine forall₂_markFirst ?_ ?_ segments
  · exact fun _ => le_rfl
  · exact fun _ => Bool.le_true _

theorem FileData.key_mark (file : FileData) : (file.mark messageId).key = file.key :=
  congrArg (Prod.mk _) (map_markFirst (by intro _; rfl) file.segments)

theorem FileData.sizes_mark (file : FileData) : (file.mark messageId).sizes = file.sizes :=
  markSegments_bytes messageId file.segments

def FileData.Grown (file file' : FileData) : Prop :=
  file'.filename = file.filename ∧
    Grows (file.segments.map (·.downloaded)) (file'.segments.map (·.downloaded))

theorem markFiles_grown (files : List FileData) :
    Forall₂ FileData.Grown files (markFiles messageId files) := by
  refine forall₂_markFirst ?_ ?_ files
  · exact fun _ => ⟨rfl, Grows.refl _⟩
  · exact fun file => ⟨rfl, markSegments_grows messageId file.segments⟩

theorem markFiles_grows (files : List FileData) :
    Grows (flagsOf files) (flagsOf (markFiles messageId files)) :=
  rel_flatMap (markFiles_grown messageId files) fun _ _ grown => grown.2

end Mark

section Reload

variable (bitmap : Bytes)

theorem reloadSegments_key (k : ℕ) (segments : List SegmentData) :
    (reloadSegments bitmap k segments).map (fun segment => (segment.messageId, segment.number)) =
      segments.map fun segment => (segment.messageId, segment.number) := by
  induction segments generalizing k with
  | nil => rfl
  | cons segment rest ih =>
    rw [reloadSegments, map_cons, ih, map_cons]
    rfl

theorem reloadSegments_bytes (k : ℕ) {segments : List SegmentData}
    (sizes : ∀ segment ∈ segments, ExactSize segment.bytes) :
    (reloadSegments bitmap k segments).map (·.bytes) = segments.map (·.bytes) := by
  induction segments generalizing k with
  | nil => rfl
  | cons segment rest ih =>
    rw [reloadSegments, map_cons,
      ih _ fun other member => sizes other (.tail _ member), map_cons,
      SegmentData.reload, toDouble_of_exactSize (sizes segment (.head _))]

theorem reloadSegments_downloaded (k : ℕ) (segments : List SegmentData) :
    (reloadSegments bitmap k segments).map (·.downloaded) =
      (range' k segments.length).map (flagAt bitmap) := by
  induction segments generalizing k with
  | nil => rfl
  | cons segment rest ih =>
    rw [reloadSegments, map_cons, ih]
    rfl

theorem reloadFiles_key (k : ℕ) (files : List FileData) :
    (reloadFiles bitmap k files).map key = files.map key := by
  induction files generalizing k with
  | nil => rfl
  | cons file rest ih =>
    rw [reloadFiles, map_cons, ih, map_cons, key, reload,
      reloadSegments_key]
    rfl

theorem reloadFiles_sizes (k : ℕ) {files : List FileData} (sizes : ExactSizes files) :
    (reloadFiles bitmap k files).map FileData.sizes = files.map FileData.sizes := by
  induction files generalizing k with
  | nil => rfl
  | cons file rest ih =>
    rw [reloadFiles, map_cons, ih _ fun other member => sizes other (.tail _ member),
      map_cons, FileData.sizes, FileData.reload,
      reloadSegments_bytes bitmap k (sizes file (.head _))]
    rfl

theorem flagsOf_reloadFiles (k : ℕ) (files : List FileData) :
    flagsOf (reloadFiles bitmap k files) =
      (range' k (flagsOf files).length).map (flagAt bitmap) := by
  induction files generalizing k with
  | nil => rfl
  | cons file rest ih =>
    rw [reloadFiles, flagsOf_cons, ih, reload, reloadSegments_downloaded, flagsOf_cons,
      length_append, length_map, ← range'_append_1, map_append]

end Reload

section Kept

variable {job : JobData} {files : List FileData}

theorem Kept.refl (job : JobData) : Kept job job.files :=
  ⟨rfl, fun _ => rfl⟩

theorem FileData.InField.congr {file file' : FileData} (inField : file.InField)
    (same : file'.key = file.key) : file'.InField := by
  simp only [key, Prod.mk.injEq] at same
  obtain ⟨⟨filename, subject⟩, segments⟩ := same
  refine ⟨filename ▸ inField.filename, subject ▸ inField.subject, fun segment member => ?_⟩
  have found := mem_map_of_mem (f := fun segment => (segment.messageId, segment.number)) member
  rw [segments] at found
  obtain ⟨original, member', equal⟩ := mem_map.mp found
  obtain ⟨messageId, number⟩ := Prod.mk.inj equal
  exact ⟨messageId ▸ (inField.segments original member').messageId,
    number ▸ (inField.segments original member').number⟩

theorem Kept.inField (kept : Kept job files) (inField : ∀ file ∈ job.files, file.InField) :
    ∀ file ∈ files, file.InField := by
  intro file member
  have found := mem_map_of_mem (f := key) member
  rw [kept.keys] at found
  obtain ⟨original, member', equal⟩ := mem_map.mp found
  exact (inField original member').congr equal.symm

theorem exactSizes_iff : ExactSizes files ↔ ∀ sizes ∈ files.map FileData.sizes, ∀ n ∈ sizes, ExactSize n := by
  simp only [ExactSizes, FileData.sizes, forall_mem_map]

theorem Kept.exactSizes (kept : Kept job files) (sizes : ExactSizes job.files) : ExactSizes files := by
  rw [exactSizes_iff, kept.sizes sizes, ← exactSizes_iff]
  exact sizes

theorem Kept.mark (kept : Kept job files) (messageId : Name) : Kept job (markFiles messageId files) where
  keys := (map_markFirst (key_mark messageId) files).trans kept.keys
  sizes sizes := (map_markFirst (sizes_mark messageId) files).trans (kept.sizes sizes)

theorem Kept.reload (kept : Kept job files) (bitmap : Bytes) (k : ℕ) :
    Kept job (reloadFiles bitmap k files) where
  keys := (reloadFiles_key bitmap k files).trans kept.keys
  sizes sizes := (reloadFiles_sizes bitmap k (kept.exactSizes sizes)).trans (kept.sizes sizes)

theorem length_flagsOf (files : List FileData) :
    (flagsOf files).length = ((files.map key).map fun key => key.2.length).sum := by
  induction files with
  | nil => rfl
  | cons file rest ih =>
    rw [flagsOf_cons, length_append, ih, length_map, map_cons, map_cons,
      sum_cons, key, length_map]

theorem Kept.length_flagsOf (kept : Kept job files) :
    (flagsOf files).length = (flagsOf job.files).length := by
  rw [Persist.length_flagsOf, kept.keys, ← Persist.length_flagsOf]

end Kept

def Within (bitmap : Bytes) (flags : List Bool) : Prop :=
  ∀ i < flags.length, flagAt bitmap i = true → flags[i]? = some true

theorem Within.mono {bitmap : Bytes} {flags flags' : List Bool} (within : Within bitmap flags)
    (grows : Grows flags flags') : Within bitmap flags' :=
  fun i inside shown => grows.shows (within i (grows.length_eq ▸ inside) shown)

theorem within_snapshot (job : JobData) : Within (jobProgressSnapshot job) job.flags := by
  intro i inside shown
  have has := hasFlags_snapshot job i inside
  rw [Nat.zero_add, shown, List.getD_eq_getElem _ _ inside] at has
  exact List.getElem?_eq_some_iff.mpr ⟨inside, has.symm⟩

theorem within_nil (flags : List Bool) : Within [] flags := by
  intro i _ shown
  rw [flagAt] at shown
  simp at shown

structure Good (job : JobData) (stem : Name) (flags : List Bool) (name : Name) (data : Document) :
    Prop where
  header : name = jobPath stem → ∃ tree, data = .json tree
  segments : name = stem ++ segmentsSuffix →
    ∃ listed : JobData, data = .json (jobSegmentsTree listed) ∧ Kept job listed.files
  progress : name = stem ++ progressSuffix → ∃ bitmap, data = .raw bitmap ∧ Within bitmap flags

section Good

variable {job : JobData} {stem name : Name} {flags flags' : List Bool} {data : Document}

theorem progress_ne_segments : stem ++ progressSuffix ≠ stem ++ segmentsSuffix := by
  intro same
  exact absurd (append_cancel_left same) (by decide)

theorem jobPath_ne_progress : jobPath stem ≠ stem ++ progressSuffix :=
  append_ne_append (by decide) (by decide) (by decide)

theorem Good.mono (good : Good job stem flags name data) (grows : Grows flags flags') :
    Good job stem flags' name data where
  header := good.header
  segments := good.segments
  progress here := by
    obtain ⟨bitmap, eq, within⟩ := good.progress here
    exact ⟨bitmap, eq, within.mono grows⟩

theorem good_header (header : JobData) :
    Good job stem flags (jobPath stem) (.json (jobHeaderTree header)) where
  header _ := ⟨_, rfl⟩
  segments here := absurd here jobPath_ne_segments
  progress here := absurd here jobPath_ne_progress

theorem good_segments {listed : JobData} (kept : Kept job listed.files) :
    Good job stem flags (stem ++ segmentsSuffix) (.json (jobSegmentsTree listed)) where
  header here := absurd here.symm jobPath_ne_segments
  segments _ := ⟨listed, rfl, kept⟩
  progress here := absurd here.symm progress_ne_segments

theorem good_progress {bitmap : Bytes} (within : Within bitmap flags) :
    Good job stem flags (stem ++ progressSuffix) (.raw bitmap) where
  header here := absurd here.symm jobPath_ne_progress
  segments here := absurd here progress_ne_segments
  progress _ := ⟨bitmap, rfl, within⟩

theorem not_tmp_of_own (own : name ∈ ownNames stem) : hasSuffix name tmpSuffix = false := by
  simp only [ownNames, mem_cons, not_mem_nil, or_false] at own
  rcases own with rfl | rfl | rfl
  all_goals exact not_hasSuffix_append (by decide) (by decide) (by decide)

theorem not_mem_range_tmpName (notTmp : hasSuffix name tmpSuffix = false) :
    name ∉ Set.range tmpName := by
  rintro ⟨path, rfl⟩
  rw [tmpName, hasSuffix_append] at notTmp
  contradiction

theorem jobPath_mem_own : jobPath stem ∈ ownNames stem :=
  .head _

theorem segments_mem_own : stem ++ segmentsSuffix ∈ ownNames stem :=
  .tail _ (.head _)

theorem progress_mem_own : stem ++ progressSuffix ∈ ownNames stem :=
  .tail _ (.tail _ (.head _))

end Good

theorem calmly_calm : calmly.Calm :=
  fun _ => rfl

theorem jobLoad_unlisted {stem : Name} {dir : Folder Name Document} {header : Tree}
    (headed : dir.files (jobPath stem) = some (.json header))
    (unlisted : dir.files (stem ++ segmentsSuffix) = none) :
    (jobLoad calmly (jobPath stem) dir).1 = some { loadHeader header with files := [] } := by
  rw [jobLoad, jobLoad_calm calmly_calm, JobFormat.loaded, headed, unlisted]
  rfl

theorem openEntry_cases (env : Faults Document) (state : List JobData × Folder Name Document)
    (entry : Name) :
    (hasSuffix entry tmpSuffix = true ∧
      openEntry env state entry = (state.1, removeFile env entry state.2)) ∨
    (hasSuffix entry jsonSuffix = false ∧ openEntry env state entry = state) ∨
    (hasSuffix entry tmpSuffix = false ∧ hasSuffix entry jsonSuffix = true ∧
      openEntry env state entry = (state.1 ++
        ((jobLoad env entry state.2).1.map requeued).toList,
          (jobLoad env entry state.2).2)) := by
  rw [openEntry, JobFormat.openEntry, ← jobLoad]
  cases tmp : hasSuffix entry tmpSuffix with
  | true => exact .inl ⟨rfl, rfl⟩
  | false =>
    cases json : hasSuffix entry jsonSuffix with
    | false => exact .inr (.inl ⟨rfl, rfl⟩)
    | true =>
      refine .inr (.inr ⟨rfl, rfl, ?_⟩)
      dsimp only [Bool.false_eq_true, if_false, Bool.not_true]
      rcases jobLoad env entry state.2 with ⟨_ | job, dir⟩
      · exact Prod.ext (append_nil _).symm rfl
      · rfl

theorem openEntry_files (env : Faults Document) (state : List JobData × Folder Name Document)
    (entry : Name) {name : Name} (notTmp : hasSuffix name tmpSuffix = false) :
    (openEntry env state entry).2.files name = state.2.files name := by
  rcases openEntry_cases env state entry with ⟨isTmp, opened⟩ | ⟨_, opened⟩ | ⟨_, _, opened⟩
  · have different : name ≠ entry := by
      rintro rfl
      exact absurd (isTmp.symm.trans notTmp) (by decide)
    rw [opened, removeFile]
    split
    · rfl
    · exact update_of_ne different _ _
  · rw [opened]
  · rw [opened]
    exact congrFun (jobLoad_files ..) name

theorem queueOpen_files (env : Faults Document) (entries : List Name)
    (files : Name → Option Document) {name : Name} (notTmp : hasSuffix name tmpSuffix = false) :
    (queueOpen env entries files).2.files name = files name := by
  suffices ∀ state, (entries.foldl (openEntry env) state).2.files name = state.2.files name from
    this ([], ⟨files, 0⟩)
  induction entries with
  | nil => exact fun _ => rfl
  | cons entry rest ih =>
    intro state
    rw [foldl_cons, ih, openEntry_files env state entry notTmp]

theorem jobLoad_congr {stem : Name} {dir dir' : Folder Name Document}
    (same : ∀ name ∈ ownNames stem, dir.files name = dir'.files name) :
    (jobLoad calmly (jobPath stem) dir).1 = (jobLoad calmly (jobPath stem) dir').1 := by
  rw [jobLoad, jobLoad_calm calmly_calm, jobLoad_calm calmly_calm, JobFormat.loaded,
    same _ jobPath_mem_own, same _ segments_mem_own, same _ progress_mem_own, ← JobFormat.loaded]

theorem mem_openEntry {env : Faults Document} {state : List JobData × Folder Name Document}
    {job : JobData} (member : job ∈ state.1) (entry : Name) :
    job ∈ (openEntry env state entry).1 := by
  rcases openEntry_cases env state entry with ⟨_, opened⟩ | ⟨_, opened⟩ | ⟨_, _, opened⟩
  · rw [opened]
    exact member
  · rw [opened]
    exact member
  · rw [opened]
    exact mem_append_left _ member

theorem mem_foldl_openEntry {env : Faults Document} {state : List JobData × Folder Name Document}
    {job : JobData} (member : job ∈ state.1) (entries : List Name) :
    job ∈ (entries.foldl (openEntry env) state).1 := by
  induction entries generalizing state with
  | nil => exact member
  | cons entry rest ih => exact ih (mem_openEntry member entry)

theorem mem_queueOpen {stem : Name} {entries : List Name} {files : Name → Option Document}
    {loaded : JobData} (entry : jobPath stem ∈ entries)
    (load : reopened files (jobPath stem) = some loaded) :
    loaded ∈ (queueOpen calmly entries files).1 := by
  suffices ∀ state : List JobData × Folder Name Document,
      (∀ name ∈ ownNames stem, state.2.files name = files name) →
        loaded ∈ (entries.foldl (openEntry calmly) state).1 from
    this ([], ⟨files, 0⟩) fun _ _ => rfl
  induction entries with
  | nil => contradiction
  | cons e rest ih =>
    intro state same
    rw [foldl_cons]
    rcases mem_cons.mp entry with rfl | later
    · refine mem_foldl_openEntry ?_ rest
      obtain ⟨job, found, rfl⟩ := Option.map_eq_some_iff.mp load
      have here := @jobLoad_congr stem _ ⟨files, 0⟩ same
      rw [found] at here
      rcases openEntry_cases calmly state (jobPath stem) with
        ⟨isTmp, _⟩ | ⟨other, _⟩ | ⟨_, _, opened⟩
      · rw [not_tmp_of_own jobPath_mem_own] at isTmp
        contradiction
      · rw [jobPath, hasSuffix_append] at other
        contradiction
      · rw [opened, here]
        exact mem_append_right _ (mem_singleton_self _)
    · refine ih later _ fun name own => ?_
      rw [openEntry_files calmly state e (not_tmp_of_own own), same name own]

theorem isSome_of_reopened {files : Name → Option Document} {path : Name} {loaded : JobData}
    (load : reopened files path = some loaded) : (files path).isSome = true := by
  have reads : calmly.Calm := fun _ => rfl
  cases there : files path with
  | some data => rfl
  | none =>
    rw [reopened, jobLoad, JobFormat.jobLoad, readFile_calm reads] at load
    simp only [there] at load
    contradiction

theorem within_reloadFiles (bitmap : Bytes) (files : List FileData) :
    Within bitmap (flagsOf (reloadFiles bitmap 0 files)) := by
  intro i inside set
  rw [flagsOf_reloadFiles] at inside ⊢
  rw [length_map, length_range'] at inside
  rw [getElem?_map, getElem?_range' inside, Option.map_some, Nat.zero_add, Nat.one_mul, set]

section Safe

variable {τ : Type} {job : JobData} {stem : Name} {s s' : CrashState τ}

def CrashEvent.leavesDisk : CrashEvent τ → Bool
  | .access _ | .write _ | .other _ _ | .restart _ _ => false
  | _ => true

/-- What an event between the calls on files may change.  A thread turns to something else only
when it has nothing to write; what it is going to save is the job as it is. -/
structure Quiet (event : CrashEvent τ) (s s' : CrashState τ) : Prop where
  disk : s'.disk = s.disk
  files : s'.memory.files = s.memory.files ∨
    ∃ messageId, s'.memory = jobMarkSegmentDownloaded s.memory messageId
  phase : ∀ t, s'.phase t = s.phase t ∨ (s.phase t ≠ .saving ∨ s.disk.todo t = []) ∧
    ∀ save, s'.phase t = .ensuring save → save = .header s'.memory ∨
      save = .progress (jobProgressSnapshot s.memory) ∧ s'.memory = s.memory
  state : s'.memory.state = .completed →
    s.memory.state = .completed ∨ ∃ t header, event = .complete t header

theorem mem_writesOf {save : Save} {write : JobWrite} (member : write ∈ s.writesOf stem save) :
    write = segmentsWrite stem s.memory ∨ write = save.write stem := by
  rw [CrashState.writesOf] at member
  split at member
  · exact .inr (mem_singleton.mp member)
  · simpa using member

theorem progress_of_writesOf {save : Save} {data : Document}
    (member : ⟨stem ++ progressSuffix, data⟩ ∈ s.writesOf stem save) :
    ∃ bitmap, save = .progress bitmap ∧ data = .raw bitmap := by
  rcases mem_writesOf member with same | same
  · exact absurd (congrArg Replacement.path same) progress_ne_segments
  · cases save with
    | header header => exact absurd (congrArg Replacement.path same).symm jobPath_ne_progress
    | progress bitmap =>
      cases same
      exact ⟨bitmap, rfl, rfl⟩

theorem named_of_own {name : Name} (own : name ∈ ownNames stem) : name ∉ Set.range tmpName :=
  not_mem_range_tmpName (not_tmp_of_own own)

theorem apart_of_foreign {name : Name}
    (foreign : ¬(name ∈ ownNames stem ∨ name ∈ (ownNames stem).map tmpName)) :
    ∀ path ∈ ownNames stem, path ≠ name ∧ tmpName path ≠ name := by
  intro path own
  constructor
  · rintro rfl
    exact foreign (.inl own)
  · rintro rfl
    exact foreign (.inr (mem_map_of_mem own))

section

variable [DecidableEq τ] {t u : τ} {event : CrashEvent τ}

theorem phase_setPhase (s : CrashState τ) (t u : τ) (phase : Phase) :
    (s.setPhase t phase).phase u = s.phase u ∨ u = t ∧ (s.setPhase t phase).phase u = phase := by
  rcases eq_or_ne u t with rfl | different
  · exact .inr ⟨rfl, update_self _ _ _⟩
  · exact .inl (update_of_ne different _ _)

theorem quiet_of_step (leaves : event.leavesDisk) (taken : crashStep stem s event = some s') :
    Quiet event s s' := by
  have turns (t : τ) (phase : Phase) (free : s.phase t ≠ .saving ∨ s.disk.todo t = [])
      {saved : Save → Prop} (saves : ∀ save, phase = .ensuring save → saved save) (u : τ) :
      (s.setPhase t phase).phase u = s.phase u ∨ (s.phase u ≠ .saving ∨ s.disk.todo u = []) ∧
        ∀ save, (s.setPhase t phase).phase u = .ensuring save → saved save := by
    rcases phase_setPhase s t u phase with same | ⟨rfl, changed⟩
    · exact .inl same
    · exact .inr ⟨free, fun save ensuring => saves save (changed.symm.trans ensuring)⟩
  cases event with
  | access | write | other | restart => contradiction
  | start =>
    obtain ⟨-, ⟨⟩⟩ := Option.ite_none_right_eq_some.mp taken
    exact ⟨rfl, .inl rfl, fun _ => .inl rfl, nofun⟩
  | change =>
    obtain ⟨other, ⟨⟩⟩ := Option.ite_none_right_eq_some.mp taken
    exact ⟨rfl, .inl rfl, fun _ => .inl rfl, fun completed => absurd completed other⟩
  | check | handOver | leave =>
    obtain ⟨-, ⟨⟩⟩ := Option.ite_none_right_eq_some.mp taken
    exact ⟨rfl, .inl rfl, fun _ => .inl rfl, .inl⟩
  | mark t messageId =>
    obtain ⟨⟨idle, -⟩, ⟨⟩⟩ := Option.ite_none_right_eq_some.mp taken
    exact ⟨rfl, .inr ⟨messageId, rfl⟩, turns t .marked (.inl (by simp [idle])) (by simp), .inl⟩
  | count t now =>
    obtain ⟨phase, taken⟩ := Option.ite_none_right_eq_some.mp taken
    have free : s.phase t ≠ .saving ∨ s.disk.todo t = [] := .inl (by simp [phase])
    split at taken
    · cases taken
      exact ⟨rfl, .inl rfl, turns t .due free (by simp), .inl⟩
    · cases taken
      exact ⟨rfl, .inl rfl, turns t .idle free (by simp), .inl⟩
  | snapshot t =>
    obtain ⟨phase, ⟨⟩⟩ := Option.ite_none_right_eq_some.mp taken
    refine ⟨rfl, .inl rfl, turns t _ (.inl (by simp [phase])) ?_, .inl⟩
    rintro save ⟨⟩
    exact .inr ⟨rfl, rfl⟩
  | save t =>
    obtain ⟨phase, ⟨⟩⟩ := Option.ite_none_right_eq_some.mp taken
    refine ⟨rfl, .inl rfl, turns t _ (.inl (by simp [phase])) ?_, .inl⟩
    rintro save ⟨⟩
    exact .inl rfl
  | complete t header =>
    obtain ⟨⟨-, phase⟩, ⟨⟩⟩ := Option.ite_none_right_eq_some.mp taken
    refine ⟨rfl, .inl rfl, turns t _ (.inl (by simp [phase])) ?_, fun _ => .inr ⟨t, header, rfl⟩⟩
    rintro save ⟨⟩
    exact .inl rfl
  | done t =>
    obtain ⟨⟨-, nothing⟩, ⟨⟩⟩ := Option.ite_none_right_eq_some.mp taken
    exact ⟨rfl, .inl rfl, turns t .idle (.inr nothing) (by simp), .inl⟩

theorem access_of_step (taken : crashStep stem s (.access t) = some s') :
    ∃ save, s.phase t = .ensuring save ∧
      s' = { s.setPhase t .saving with disk := s.disk.assign t (s.writesOf stem save) } := by
  rw [crashStep] at taken
  split at taken
  · rename_i save phase
    exact ⟨save, phase, (Option.some.inj taken).symm⟩
  · contradiction

theorem ensuring_of_saving {save : Save} (ensuring : (s.setPhase t .saving).phase u = .ensuring save) :
    s.phase u = .ensuring save := by
  rcases phase_setPhase s t u .saving with same | ⟨-, changed⟩
  · exact same.symm.trans ensuring
  · exact nomatch changed.symm.trans ensuring

end

structure Tracked (job : JobData) (stem : Name) (s : CrashState τ) : Prop where
  orderly : s.disk.Orderly tmpName {name | name ∈ ownNames stem}
  kept : Kept job s.memory.files
  good : ∀ {name data}, name ∈ ownNames stem → s.disk.Possible name data →
    Good job stem s.memory.flags name data
  ensuring : ∀ {t bitmap}, s.phase t = .ensuring (.progress bitmap) → Within bitmap s.memory.flags
  idle : ∀ {t}, s.phase t ≠ .saving → s.disk.todo t = []

structure Safe (job : JobData) (stem : Name) (s : CrashState τ) : Prop extends Tracked job stem s where
  ordered : s.disk.Ordered (stem ++ segmentsSuffix) (jobPath stem)

def ListWritten (stem : Name) (s : CrashState τ) : CrashEvent τ → Prop
  | .write (.fail t) => ∀ write rest, s.disk.todo t = write :: rest → write.path ≠ stem ++ segmentsSuffix
  | _ => True

theorem CrashState.New.tracked (new : s.New stem job) : Tracked job stem s := by
  obtain ⟨files, disk, none⟩ := new.disk
  refine ⟨?_, ?_, ?_, ?_, ?_⟩
  · rw [disk]
    exact orderly_starting files
  · rw [new.memory]
    exact Kept.refl job
  · intro name data own possible
    rw [disk] at possible
    have absent := none name own
    rw [possible_starting possible] at absent
    contradiction
  · intro t bitmap ensuring
    rw [new.phase] at ensuring
    contradiction
  · intro t _
    rw [disk]
    rfl

theorem CrashState.New.ordered (new : s.New stem job) :
    s.disk.Ordered (stem ++ segmentsSuffix) (jobPath stem) := by
  obtain ⟨files, disk, none⟩ := new.disk
  rw [disk]
  refine ordered_starting fun there => ?_
  rw [none _ jobPath_mem_own] at there
  contradiction

theorem Crash.files_mem_contents (crash : Crash) (disk : Writers Name Document τ) {name : Name}
    (notTmp : hasSuffix name tmpSuffix = false) : crash.files disk name ∈ disk.contents name := by
  rw [Crash.files, notTmp, if_neg Bool.false_ne_true]
  exact disk.crash_mem_contents crash.keep name

namespace Tracked

variable (tracked : Tracked job stem s)

include tracked

theorem quiet {event : CrashEvent τ} (quiet : Quiet event s s') : Tracked job stem s' := by
  obtain ⟨grows, kept⟩ : Grows s.memory.flags s'.memory.flags ∧ Kept job s'.memory.files := by
    rcases quiet.files with same | ⟨messageId, same⟩
    · rw [flags, flags, same]
      exact ⟨Grows.refl _, tracked.kept⟩
    · rw [same]
      exact ⟨markFiles_grows messageId _, tracked.kept.mark messageId⟩
  refine ⟨quiet.disk ▸ tracked.orderly, kept, ?_, ?_, ?_⟩
  · intro name data own possible
    exact (tracked.good own (quiet.disk ▸ possible)).mono grows
  · intro t bitmap ensuring
    rcases quiet.phase t with same | ⟨-, saves⟩
    · exact (tracked.ensuring (same ▸ ensuring)).mono grows
    · have snapshot := (saves _ ensuring).resolve_left nofun
      cases snapshot.1
      rw [snapshot.2]
      exact within_snapshot s.memory
  · intro t idle
    rw [quiet.disk]
    rcases quiet.phase t with same | ⟨free, -⟩
    · exact tracked.idle (same ▸ idle)
    · exact free.elim tracked.idle id

theorem other {name : Name} {content : Option Document}
    (apart : ∀ path ∈ ownNames stem, path ≠ name ∧ tmpName path ≠ name) :
    Tracked job stem { s with disk := s.disk.put name content } := by
  refine ⟨tracked.orderly.put apart, tracked.kept, ?_, tracked.ensuring, tracked.idle⟩
  intro other data own possible
  exact tracked.good own (possible_put (apart other own).1 possible)

theorem good_of_crash (crash : Crash) {name : Name}
    {data : Document} (own : name ∈ ownNames stem) (there : crash.files s.disk name = some data) :
    Good job stem s.memory.flags name data :=
  tracked.good own (.inl (there ▸ crash.files_mem_contents s.disk (not_tmp_of_own own)))

theorem within_bitmapIn (crash : Crash) :
    Within (bitmapIn (crash.files s.disk) stem) s.memory.flags := by
  rw [bitmapIn]
  cases written : crash.files s.disk (stem ++ progressSuffix) with
  | none => exact within_nil _
  | some data =>
    obtain ⟨bitmap, rfl, within⟩ := (tracked.good_of_crash crash progress_mem_own written).progress rfl
    exact within

theorem reopened (inField : ∀ file ∈ job.files, file.InField)
    (crash : Crash) (headed : (crash.files s.disk (jobPath stem)).isSome) :
    ∃ (header : Tree) (listed : JobData),
      crash.files s.disk (jobPath stem) = some (.json header) ∧
      (crash.files s.disk (stem ++ segmentsSuffix) = some (.json (jobSegmentsTree listed)) ∧
          Kept job listed.files ∨
        crash.files s.disk (stem ++ segmentsSuffix) = none ∧ listed.files = []) ∧
      Persist.reopened (crash.files s.disk) (jobPath stem) = some
        { loadHeader header with
          files := reloadFiles (bitmapIn (crash.files s.disk) stem) 0 listed.files }.requeued := by
  obtain ⟨data, headed⟩ := Option.isSome_iff_exists.mp headed
  obtain ⟨header, rfl⟩ := (tracked.good_of_crash crash jobPath_mem_own headed).header rfl
  cases list : crash.files s.disk (stem ++ segmentsSuffix) with
  | none =>
    refine ⟨header, .blank, headed, .inr ⟨rfl, rfl⟩, ?_⟩
    rw [Persist.reopened, jobLoad_unlisted headed list]
    rfl
  | some data =>
    obtain ⟨listed, rfl, kept⟩ := (tracked.good_of_crash crash segments_mem_own list).segments rfl
    refine ⟨header, listed, headed, .inl ⟨rfl, kept⟩, ?_⟩
    have reads : calmly.Calm := fun _ => rfl
    rw [Persist.reopened, jobLoad_eq reads (kept.inField inField) headed list]
    rfl

theorem restart {crash : Crash} {entries : List Name}
    {job' listed : JobData} (memory : s'.memory.files =
      reloadFiles (bitmapIn (crash.files s.disk) stem) 0 listed.files)
    (kept : Kept job' listed.files)
    (list : ∀ data, crash.files s.disk (stem ++ segmentsSuffix) = some data →
      data = .json (jobSegmentsTree listed))
    (disk : s'.disk = .starting (queueOpen calmly entries (crash.files s.disk)).2.files)
    (phase : ∀ t, s'.phase t = .idle) : Tracked job' stem s' := by
  have shown : Within (bitmapIn (crash.files s.disk) stem) s'.memory.flags := by
    rw [flags, memory]
    exact within_reloadFiles _ _
  refine ⟨?_, ?_, ?_, ?_, ?_⟩
  · rw [disk]
    exact orderly_starting _
  · rw [memory]
    exact kept.reload _ 0
  · intro name data own possible
    rw [disk] at possible
    have found : crash.files s.disk name = some data :=
      (queueOpen_files calmly entries _ (not_tmp_of_own own)).symm.trans
        (possible_starting possible)
    have good := tracked.good_of_crash crash own found
    refine ⟨good.header, fun here => ?_, fun here => ?_⟩
    · subst here
      exact ⟨listed, list data found, kept⟩
    · subst here
      obtain ⟨bitmap, rfl, -⟩ := good.progress rfl
      rw [bitmapIn, found] at shown
      exact ⟨bitmap, rfl, shown⟩
  · intro t bitmap ensuring
    cases (phase t).symm.trans ensuring
  · intro t _
    rw [disk]
    rfl

variable [DecidableEq τ]

theorem access {t : τ} {save : Save}
    (phase : s.phase t = .ensuring save) :
    Tracked job stem { s.setPhase t .saving with disk := s.disk.assign t (s.writesOf stem save) } := by
  have nothing : s.disk.todo t = [] := tracked.idle (by rw [phase]; nofun)
  have saved : (save.write stem).path ∈ ownNames stem ∧
      Good job stem s.memory.flags (save.write stem).path (save.write stem).data := by
    cases save with
    | header header => exact ⟨jobPath_mem_own, good_header header⟩
    | progress bitmap => exact ⟨progress_mem_own, good_progress (tracked.ensuring phase)⟩
  refine ⟨?_, tracked.kept, ?_, ?_, ?_⟩
  · refine tracked.orderly.assign nothing fun write member => ?_
    rcases mem_writesOf member with rfl | rfl
    · exact segments_mem_own
    · exact saved.1
  · intro name data own possible
    rcases possible_assign possible with before | member
    · exact tracked.good own before
    rcases mem_writesOf member with same | same
    · cases same
      exact good_segments tracked.kept
    · rw [← same] at saved
      exact saved.2
  · intro u bitmap ensuring
    exact tracked.ensuring (ensuring_of_saving ensuring)
  · intro u idle
    rcases eq_or_ne u t with rfl | different
    · exact absurd (update_self _ _ _) idle
    · have before : s.phase u ≠ .saving := by
        rwa [← show (s.setPhase t .saving).phase u = s.phase u from update_of_ne different _ _]
      exact (update_of_ne different _ _).trans (tracked.idle before)

theorem write {step : WriterStep τ}
    {disk : Writers Name Document τ} (taken : s.disk.step tmpName (.raw []) step = some disk) :
    Tracked job stem { s with disk := disk } := by
  refine ⟨tracked.orderly.step taken, tracked.kept, ?_, tracked.ensuring, ?_⟩
  · intro name data own possible
    exact tracked.good own
      (possible_of_step tracked.orderly taken (named_of_own own) possible)
  · intro t idle
    refine eq_nil_iff_forall_not_mem.mpr fun write member => ?_
    have before := mem_todo_of_step taken member
    rw [tracked.idle idle] at before
    contradiction

theorem step {event : CrashEvent τ} (running : ∀ crash entries, event ≠ .restart crash entries)
    (taken : crashStep stem s event = some s') : Tracked job stem s' := by
  cases event with
  | access t =>
    obtain ⟨save, phase, rfl⟩ := access_of_step taken
    exact tracked.access phase
  | write step =>
    obtain ⟨disk, moved, rfl⟩ := Option.map_eq_some_iff.mp taken
    exact tracked.write moved
  | other name content =>
    obtain ⟨foreign, ⟨⟩⟩ := Option.ite_none_left_eq_some.mp taken
    exact tracked.other (apart_of_foreign foreign)
  | restart crash entries => exact absurd rfl (running crash entries)
  | _ =>
    exact tracked.quiet (quiet_of_step rfl taken)

end Tracked

theorem Safe.listed (safe : Safe job stem s) (crash : Crash)
    (headed : (crash.files s.disk (jobPath stem)).isSome) :
    crash.files s.disk (stem ++ segmentsSuffix) ≠ none := by
  obtain ⟨data, headed⟩ := Option.isSome_iff_exists.mp headed
  have left {name : Name} (own : name ∈ ownNames stem) :=
    crash.files_mem_contents s.disk (not_tmp_of_own own)
  intro missing
  exact safe.ordered.durable (headed ▸ left jobPath_mem_own) (missing ▸ left segments_mem_own)

theorem Safe.restart (safe : Safe job stem s) (inField : ∀ file ∈ job.files, file.InField)
    {crash : Crash} {entries : List Name} {loaded : JobData}
    (load : Persist.reopened (crash.files s.disk) (jobPath stem) = some loaded)
    (memory : s'.memory = loaded)
    (disk : s'.disk = .starting (queueOpen calmly entries (crash.files s.disk)).2.files)
    (phase : ∀ t, s'.phase t = .idle) : Safe job stem s' := by
  have headed := isSome_of_reopened load
  obtain ⟨header, listed, -, ⟨there, kept⟩ | ⟨missing, -⟩, eq⟩ := safe.reopened inField crash headed
  · constructor
    · refine safe.toTracked.restart ?_ kept (fun data found => ?_) disk phase
      · rw [eq] at load
        cases load
        rw [memory]
        rfl
      · exact Option.some.inj (found.symm.trans there)
    · rw [disk]
      refine ordered_starting fun _ => ?_
      rw [queueOpen_files calmly entries _ (not_tmp_of_own segments_mem_own), there]
      rfl
  · exact absurd missing (safe.listed crash headed)

variable [DecidableEq τ]

theorem ordered_access (ordered : s.disk.Ordered (stem ++ segmentsSuffix) (jobPath stem)) {t : τ}
    {save : Save} :
    (s.disk.assign t (s.writesOf stem save)).Ordered (stem ++ segmentsSuffix) (jobPath stem) := by
  refine ordered.assign fun before write later split path => ?_
  rw [CrashState.writesOf] at split
  split at split
  · rename_i there
    exact .inl there
  right
  cases before with
  | nil =>
    cases split
    exact absurd path.symm jobPath_ne_segments
  | cons first rest =>
    obtain ⟨rfl, -⟩ := cons.inj split
    exact .head _

theorem Safe.write (safe : Safe job stem s) {step : WriterStep τ} {disk : Writers Name Document τ}
    (listed : ListWritten stem s (.write step)) (taken : s.disk.step tmpName (.raw []) step = some disk) :
    Safe job stem { s with disk := disk } := by
  refine ⟨safe.toTracked.write taken, ?_⟩
  refine safe.ordered.step safe.orderly taken (named_of_own segments_mem_own)
    (named_of_own jobPath_mem_own) ?_
  rintro t write rest rfl next
  exact listed write rest next

theorem Safe.step (safe : Safe job stem s) (inField : ∀ file ∈ job.files, file.InField)
    {event : CrashEvent τ} (listed : ListWritten stem s event)
    (taken : crashStep stem s event = some s') : Safe job stem s' := by
  have tracked := fun running => safe.toTracked.step running taken
  cases event with
  | access t =>
    refine ⟨tracked nofun, ?_⟩
    obtain ⟨save, -, rfl⟩ := access_of_step taken
    exact ordered_access safe.ordered
  | write step =>
    obtain ⟨disk, moved, rfl⟩ := Option.map_eq_some_iff.mp taken
    exact safe.write listed moved
  | other name content =>
    obtain ⟨foreign, ⟨⟩⟩ := Option.ite_none_left_eq_some.mp taken
    have apart := apart_of_foreign foreign
    exact ⟨tracked nofun, safe.ordered.put (apart _ segments_mem_own).1 (apart _ jobPath_mem_own).1⟩
  | restart crash entries =>
    obtain ⟨-, taken⟩ := Option.ite_none_right_eq_some.mp taken
    obtain ⟨loaded, load, rfl⟩ := Option.map_eq_some_iff.mp taken
    exact safe.restart inField load rfl rfl fun _ => rfl
  | _ =>
    exact ⟨tracked nofun, (quiet_of_step rfl taken).disk ▸ safe.ordered⟩

theorem safe_of_reachable {start : CrashState τ} (new : start.New stem job)
    (inField : ∀ file ∈ job.files, file.InField)
    (reachable : Reachable (crashStep stem) (ListWritten stem) start s) : Safe job stem s :=
  reachable.invariant ⟨new.tracked, new.ordered⟩ fun _ _ _ safe listed taken => safe.step inField listed taken

/-- A crash never invents progress: whatever it leaves, `queue_open` makes of the header a job with
the files and segments that the job had, and every segment that this job shows as downloaded was
marked in memory. -/
theorem crash_keeps_progress (job : JobData) (stem : Name) {start s : CrashState τ}
    (inField : ∀ file ∈ job.files, file.InField) (new : start.New stem job)
    (reachable : Reachable (crashStep stem) (ListWritten stem) start s) (crash : Crash)
    (headed : (crash.files s.disk (jobPath stem)).isSome = true) :
    ∃ loaded, reopened (crash.files s.disk) (jobPath stem) = some loaded ∧
      (∀ entries, jobPath stem ∈ entries →
        loaded ∈ (queueOpen calmly entries (crash.files s.disk)).1) ∧
      loaded.files.map key = s.memory.files.map key ∧
      (ExactSizes job.files →
        loaded.files.map sizes = s.memory.files.map sizes) ∧
      ∀ i : ℕ, loaded.flags[i]? = some true → s.memory.flags[i]? = some true := by
  have safe := safe_of_reachable new inField reachable
  have within := safe.within_bitmapIn crash
  obtain ⟨header, listed, -, ⟨-, kept⟩ | ⟨missing, -⟩, load⟩ := safe.reopened inField crash headed
  case inr => exact absurd missing (safe.listed crash headed)
  have restored := kept.reload (bitmapIn (crash.files s.disk) stem) 0
  refine ⟨_, load, fun entries listed => mem_queueOpen listed load, ?_, fun sizes => ?_, ?_⟩
  · exact restored.keys.trans safe.kept.keys.symm
  · exact (restored.sizes sizes).trans (safe.kept.sizes sizes).symm
  intro i shown
  change (flagsOf (reloadFiles (bitmapIn (crash.files s.disk) stem) 0 listed.files))[i]? = _ at shown
  rw [flagsOf_reloadFiles, getElem?_map] at shown
  obtain ⟨bit, here, set⟩ := Option.map_eq_some_iff.mp shown
  have inside : i < (flagsOf listed.files).length := by
    simpa using (List.getElem?_eq_some_iff.mp here).1
  rw [List.getElem?_range' inside, Nat.zero_add, Nat.one_mul] at here
  cases here
  refine within i ?_ set
  rwa [kept.length_flagsOf, ← safe.kept.length_flagsOf] at inside

end Safe

def newJob (n : ℕ) : JobData :=
  let segments : List SegmentData := (range n).map fun i => ⟨[Char.ofNat (97 + i)], 700000, i, false⟩
  { blank with
    id := ['a']
    files := [⟨['f'], ['s'], segments, totalBytes segments, rfl⟩] }

def newState (job : JobData) : CrashState ℕ :=
  ⟨job, .starting fun _ => none, fun _ => .idle, [], .resting, 0, 0⟩

theorem newState_new (job : JobData) (stem : Name) : (newState job).New stem job :=
  ⟨rfl, ⟨_, rfl, fun _ _ => rfl⟩, fun _ => rfl, rfl, rfl⟩

def writeFile : List (CrashEvent ℕ) :=
  [.write (.create 0), .write (.flush 0), .write (.rename 0), .write (.syncDir 0)]

def saveNew : List (CrashEvent ℕ) :=
  [.save 0, .access 0] ++ writeFile ++ writeFile ++ [.done 0]

def arrivals (n : ℕ) : List (CrashEvent ℕ) :=
  (range n).flatMap fun i => [.mark 0 [Char.ofNat (97 + i)], .count 0 (100 * i)]

theorem listWritten_of_calm {stem : Name} (s : CrashState ℕ) (event : CrashEvent ℕ)
    (calm : (!(event matches .write (.fail _)))) : ListWritten stem s event := by
  cases event with
  | write step =>
    cases step with
    | fail t => contradiction
    | _ => trivial
  | _ => trivial

/-- The bitmap of the first checkpoint has been renamed, and the directory not been synced: the
crash leaves the bitmap, or brings back that there was none. -/
theorem crash_keeps_progress_renamed : ∃ s : CrashState ℕ,
    s.memory.flags.count true = 25 ∧ ∀ keep : ℕ, ∃ loaded,
      reopened (Crash.files ⟨fun _ => keep, fun _ => none⟩ s.disk) (jobPath ['a']) = some loaded ∧
      ∀ i : ℕ, loaded.flags[i]? = some true → s.memory.flags[i]? = some true := by
  have inField : ∀ file ∈ (newJob 26).files, file.InField :=
    fun file member => ((by decide +kernel : ∀ file ∈ (newJob 26).files, file.Fits) file member).inField
  obtain ⟨s, reached, holds⟩ := @exists_reachable _ _ (crashStep ['a']) (ListWritten ['a'])
    (newState (newJob 26)) (fun _ event => !(event matches .write (.fail _)))
    (saveNew ++ [.start 0] ++ arrivals 25 ++
      [.snapshot 0, .access 0, .write (.create 0), .write (.flush 0), .write (.rename 0)])
    (fun s => s.memory.flags.count true = 25 ∧
      (s.disk.contents (jobPath ['a'])).all Option.isSome)
    listWritten_of_calm (by decide +kernel)
  obtain ⟨marked, headed⟩ := of_decide_eq_true holds
  refine ⟨s, marked, fun keep => ?_⟩
  have left := (Crash.files_mem_contents ⟨fun _ => keep, fun _ => none⟩ s.disk
    (not_tmp_of_own (jobPath_mem_own : jobPath ['a'] ∈ ownNames ['a'])))
  obtain ⟨loaded, load, -, -, -, shows⟩ := crash_keeps_progress (newJob 26) ['a'] inField
    (newState_new (newJob 26) ['a']) reached ⟨fun _ => keep, fun _ => none⟩
    (all_eq_true.mp headed _ left)
  exact ⟨loaded, load, shows⟩

end NzbDownloader.Queue.Persist
