import NzbDownloader.Download.Resume
import NzbDownloader.Download.Spares

/-!
# Downloaded segments are on disk

A flag that is set in memory, in a saved bitmap or in one about to be saved stands for bytes
in the file that `job_file_path` names.
-/

namespace NzbDownloader.Download

open Util Queue Storage Lib Lib.Transition List Option

variable {decoded : String → Extent} {config config' : StorageConfig}
  {disk disk' : Disk Name Bytes} {st st' : Stored}

def Holds (disk : Disk Name Bytes) (path : Path) (part : Extent) : Prop :=
  ∃ content, disk.file path = some content ∧ part.In content

def Stored.Claims (st : Stored) (f i : ℕ) : Prop :=
  arrivedAt st.record.files f i = true ∨ st.progress f i = true ∨
    ∃ flags ∈ st.checkpoints, flags f i = true

def BytesPresent (decoded : String → Extent) (config : StorageConfig) (disk : Disk Name Bytes)
    (record : JobRecord) (claimed : ℕ → ℕ → Prop) : Prop :=
  ∀ f i file messageId, record.files[f]? = some file → idAt record.files f i = some messageId →
    claimed f i → Holds disk (jobFilePath config record file) (decoded messageId)

def DownloadedPresent (decoded : String → Extent) (s : Store) (st : Stored) : Prop :=
  BytesPresent decoded s.config s.disk st.record fun f i => arrivedAt st.record.files f i = true

def Stored.Done (st : Stored) : Prop :=
  st.record.state = .completed ∧ st.savedState = .completed

def Stored.AgreesWith (decoded : String → Extent) (config : StorageConfig) (st : Stored)
    (path : Path) (part : Extent) : Prop :=
  ∀ f i file messageId, st.record.files[f]? = some file →
    idAt st.record.files f i = some messageId → st.Claims f i →
      jobFilePath config st.record file = path → (decoded messageId).Agrees part

def JobCareful (decoded : String → Extent) (config : StorageConfig) (disk : Disk Name Bytes)
    (st : Stored) : JobEvent → Prop
  -- The article goes to the file of the first segment with its message id, opened
  | .segmentDone f i => ∀ file messageId, st.record.files[f]? = some file →
      idAt st.record.files f i = some messageId →
        FirstWith st.record.files messageId f i ∧
        st.opened f = some (jobFilePath config st.record file) ∧
        (disk.file (jobFilePath config st.record file)).isSome = true ∧
        st.AgreesWith decoded config (jobFilePath config st.record file) (decoded messageId)
  | .spill f part => ∀ path, st.opened f = some path → st.AgreesWith decoded config path part
  | .repair f part => ∀ file, st.record.files[f]? = some file →
      st.AgreesWith decoded config (jobFilePath config st.record file) part
  | .truncate f length => ∀ file, st.record.files[f]? = some file →
      ∀ f' i file' messageId, st.record.files[f']? = some file' →
        idAt st.record.files f' i = some messageId → st.Claims f' i →
          jobFilePath config st.record file' = jobFilePath config st.record file →
            (decoded messageId).offset + (decoded messageId).data.length ≤ length
  | .worker _ _ => st.record.state ≠ .completed
  | _ => True

def TempDirSettled (s : Store) (tempDir : Path) : Prop :=
  tempDir = s.config.tempDir ∨ ∀ st ∈ s.jobs, st.Done ∨ ∀ f i, ¬st.Claims f i

def Careful (decoded : String → Extent) (s : Store) : StoreEvent → Prop
  | .job k event => ∀ st, s.jobs[k]? = some st → JobCareful decoded s.config s.disk st event
  -- The output goes to no job's directory, the new state is saved, and the files of
  | .finalize k env _ saved => ∀ st, s.jobs[k]? = some st → st.record.state ≠ .completed ∧
      ∀ destDir, jobOutputDestDir s.config st.record = some destDir →
        saved = true ∧ MovesTogether env s.config st.record destDir s.disk ∧
        ∀ other ∈ s.jobs, ExtractionSpares env s.config other.record ∧
          destDir ≠ jobTempDir s.config other.record
  | .configure config _ => TempDirSettled s config.tempDir
  | .restart _ => TempDirSettled s s.savedConfig.tempDir

structure SameJob (record record' : JobRecord) : Prop where
  id : record'.id = record.id
  filenames : record'.files.map (·.filename) = record.files.map (·.filename)
  ids : idAt record'.files = idAt record.files

open SameJob

theorem SameJob.refl (record : JobRecord) : SameJob record record :=
  ⟨rfl, rfl, rfl⟩

variable {file : JobFile} {permits : Path → Bool}

theorem exists_file_of_filenames {files files' : List JobFile} {f : ℕ}
    (same : files'.map (·.filename) = files.map (·.filename)) (found : files'[f]? = some file) :
    ∃ file', files[f]? = some file' ∧ file'.filename = file.filename := by
  have names : (files'.map (·.filename))[f]? = some file.filename := by
    rw [getElem?_map, found]
    rfl
  rw [same, getElem?_map, map_eq_some_iff] at names
  exact names

theorem jobFilePath_congr {record record' : JobRecord} {file' : JobFile}
    (tempDir : config'.tempDir = config.tempDir) (id : record'.id = record.id)
    (filename : file'.filename = file.filename) :
    jobFilePath config' record' file' = jobFilePath config record file := by
  rw [jobFilePath, jobTempDir, jobFilePath, jobTempDir, tempDir, id, filename]

theorem BytesPresent.carry {record record' : JobRecord} {claimed claimed' : ℕ → ℕ → Prop}
    (present : BytesPresent decoded config disk record claimed) (same : SameJob record record')
    (tempDir : config'.tempDir = config.tempDir)
    (carried : ∀ f i file messageId, record.files[f]? = some file →
      idAt record.files f i = some messageId → claimed' f i →
        (claimed f i → Holds disk (jobFilePath config record file) (decoded messageId)) →
          Holds disk' (jobFilePath config record file) (decoded messageId)) :
    BytesPresent decoded config' disk' record' claimed' := by
  intro f i file' messageId found' id' claim
  obtain ⟨file, found, filename⟩ := exists_file_of_filenames same.filenames found'
  rw [same.ids] at id'
  rw [jobFilePath_congr tempDir same.id filename.symm]
  exact carried f i file messageId found id' claim (present f i file messageId found id')

section Writes

variable {path target : Path} {part written : Extent}

section

variable (held : Holds disk path part)

include held

theorem Holds.of_file (same : disk'.file path = disk.file path) : Holds disk' path part := by
  obtain ⟨content, found, inside⟩ := held
  exact ⟨content, same.trans found, inside⟩

theorem Holds.openJobFile {dir : Path} :
    Holds (openJobFile permits dir target disk).2 path part := by
  obtain ⟨content, found, inside⟩ := held
  exact ⟨content, openJobFile_file found, inside⟩

theorem Holds.of_change (elsewhere : ∀ other, other ≠ target → disk'.file other = disk.file other)
    (here : ∀ content, path = target → disk.file target = some content → part.In content →
      Holds disk' target part) : Holds disk' path part := by
  by_cases same : path = target
  · subst same
    obtain ⟨content, found, inside⟩ := held
    exact here content rfl found inside
  · exact held.of_file (elsewhere path same)

theorem Holds.pwrite (agrees : path = target → part.Agrees written) :
    Holds (pwrite target written disk) path part :=
  held.of_change (fun _ different => pwrite_file_of_ne different) fun _ same found inside =>
    ⟨_, pwrite_file_self found, inside.writeAt (agrees same)⟩

theorem Holds.repairWrite (agrees : path = target → part.Agrees written) :
    Holds (repairWrite target written disk) path part :=
  held.of_change (fun _ different => repairWrite_file_of_ne different) fun _ same found inside =>
    ⟨_, repairWrite_file_self found, inside.writeAt (agrees same)⟩

theorem Holds.truncate {length : ℕ}
    (fits : path = target → part.offset + part.data.length ≤ length) :
    Holds (truncate target length disk) path part :=
  held.of_change (fun _ different => truncate_file_of_ne different) fun _ same found inside =>
    ⟨_, truncate_file_self found, inside.setLength (fits same)⟩

end

end Writes

def OwnPath (id : Name) (path : Path) : Prop :=
  ∃ (tempDir : Path) (name : Name), path = tempDir ++ [id] ++ [name]

theorem ownPath_jobFilePath (config : StorageConfig) (record : JobRecord) (file : JobFile) :
    OwnPath record.id (jobFilePath config record file) :=
  ⟨config.tempDir, pathSanitizeComponent file.filename, rfl⟩

theorem OwnPath.ne {id id' : Name} {path path' : Path} (own : OwnPath id path)
    (own' : OwnPath id' path') (different : id ≠ id') : path ≠ path' := by
  rintro rfl
  obtain ⟨tempDir, name, rfl⟩ := own
  obtain ⟨tempDir', name', same⟩ := own'
  exact different (singleton_inj.mp
    (append_inj_right' (append_inj_left' same rfl) rfl))

def Stored.Held (decoded : String → Extent) (config : StorageConfig) (disk : Disk Name Bytes)
    (st : Stored) : Prop :=
  BytesPresent decoded config disk st.record st.Claims

def Stored.OpensOwn (st : Stored) : Prop :=
  ∀ f path, st.opened f = some path → OwnPath st.record.id path

structure Kept (decoded : String → Extent) (config : StorageConfig) (disk : Disk Name Bytes)
    (st st' : Stored) (disk' : Disk Name Bytes) : Prop where
  same : SameJob st.record st'.record
  opensOwn : st.OpensOwn → st'.OpensOwn
  done : st.Done → st'.Done
  held : st.Held decoded config disk → st'.Held decoded config disk'
  frame : ∀ id path part, id ≠ st.record.id → OwnPath id path → Holds disk path part →
    Holds disk' path part

theorem Kept.of_holds (same : SameJob st.record st'.record) (opensOwn : st.OpensOwn → st'.OpensOwn)
    (done : st.Done → st'.Done) (covered : ∀ f i, st'.Claims f i → st.Claims f i)
    (holds : ∀ path part, Holds disk path part → Holds disk' path part) :
    Kept decoded config disk st st' disk' where
  same := same
  opensOwn := opensOwn
  done := done
  held := fun held => held.carry same rfl fun f i _ _ _ _ claim before =>
    holds _ _ (before (covered f i claim))
  frame := fun _ path part _ _ there => holds path part there

theorem Kept.of_memory (same : SameJob st.record st'.record) (opened : st'.opened = st.opened)
    (done : st.Done → st'.Done) (covered : ∀ f i, st'.Claims f i → st.Claims f i) :
    Kept decoded config disk st st' disk :=
  .of_holds same (fun own f path isOpen => by
    rw [same.id]
    exact own f path (by rwa [opened] at isOpen)) done covered fun _ _ there => there

theorem Kept.of_write {target : Path} (own : OwnPath st.record.id target)
    (elsewhere : ∀ path, path ≠ target → disk'.file path = disk.file path)
    (inPlace : ∀ f i file messageId, st.record.files[f]? = some file →
      idAt st.record.files f i = some messageId → st.Claims f i →
        Holds disk (jobFilePath config st.record file) (decoded messageId) →
          Holds disk' (jobFilePath config st.record file) (decoded messageId)) :
    Kept decoded config disk st st disk' where
  same := refl st.record
  opensOwn := fun own => own
  done := fun done => done
  held := fun held => held.carry (refl st.record) rfl
    fun f i file messageId found id claim before =>
      inPlace f i file messageId found id claim (before claim)
  frame := fun _ _ _ different own' there => there.of_file (elsewhere _ (own'.ne own different))

section Events

variable {f i : ℕ} {path : Path} {messageId : String}

theorem kept_openFile {dir : Path} {opened : ℕ → Option Path} {ok : Bool}
    (tried : openJobFile permits dir path disk = (ok, disk'))
    (own : st.OpensOwn → ({ st with opened } : Stored).OpensOwn) :
    Kept decoded config disk st { st with opened } disk' := by
  refine .of_holds (refl st.record) own (fun done => done) (fun _ _ claim => claim) ?_
  intro other part there
  have kept : Holds (openJobFile permits dir path disk).2 other part := there.openJobFile
  rwa [tried] at kept

theorem opensOwn_update (own : st.OpensOwn) {opened : Option Path}
    (ownNew : ∀ path, opened = some path → OwnPath st.record.id path) :
    ({ st with opened := Function.update st.opened f opened } : Stored).OpensOwn := by
  intro f' path isOpen
  by_cases same : f' = f
  · subst same
    exact ownNew path (by simpa using isOpen)
  · exact own f' path (by simpa [Function.update_of_ne same] using isOpen)

theorem exists_file_of_idAt {files : List JobFile} (id : idAt files f i = some messageId) :
    ∃ file, files[f]? = some file := by
  obtain ⟨segment, found, _⟩ := idAt_eq_some.mp id
  obtain ⟨file, isFile, _⟩ := bind_eq_some_iff.mp found
  exact ⟨file, isFile⟩

theorem kept_segmentDone (found : st.record.files[f]? = some file)
    (first : FirstWith st.record.files messageId f i)
    (exists' : (disk.file (jobFilePath config st.record file)).isSome)
    (agrees : st.AgreesWith decoded config (jobFilePath config st.record file)
      (decoded messageId)) :
    Kept decoded config disk st
      { st with record := { st.record with
        toJob := st.record.toJob.markSegmentDownloaded messageId } }
      (pwrite (jobFilePath config st.record file) (decoded messageId) disk) where
  same := ⟨rfl, markFiles_filename _ _, idAt_markFiles _ _⟩
  opensOwn := fun own => own
  done := fun done => done
  frame := fun _ _ _ different own' there => there.of_file
    (pwrite_file_of_ne (own'.ne (ownPath_jobFilePath config st.record file) different))
  held := by
    intro held
    refine held.carry ⟨rfl, markFiles_filename _ _, idAt_markFiles _ _⟩ rfl ?_
    intro f' i' file' messageId' found' id' claim before
    by_cases claimed : st.Claims f' i'
    · exact (before claimed).pwrite (agrees f' i' file' messageId' found' id' claimed)
    have marked : arrivedAt (Job.markFiles messageId st.record.files) f' i' = true :=
      claim.resolve_right fun saved => claimed (.inr saved)
    have first' := (arrivedAt_markFiles.mp marked).resolve_left fun arrived =>
      claimed (.inl arrived)
    obtain ⟨rfl, rfl⟩ := first'.unique first
    cases found.symm.trans found'
    cases first'.here.symm.trans id'
    obtain ⟨content, there⟩ := isSome_iff_exists.mp exists'
    exact ⟨_, pwrite_file_self there, Extent.in_writeAt_self _ _⟩

theorem kept_saveProgress {n : ℕ} {progress : ℕ → ℕ → Bool}
    (taken : st.checkpoints[n]? = some progress) :
    Kept decoded config disk st
      { st with progress, checkpoints := st.checkpoints.eraseIdx n } disk := by
  refine .of_memory (refl st.record) rfl (fun done => done) ?_
  rintro f i (arrived | saved | ⟨flags, member, set⟩)
  · exact .inl arrived
  · exact .inr (.inr ⟨progress, mem_of_getElem? taken, saved⟩)
  · exact .inr (.inr ⟨flags, mem_of_mem_eraseIdx member, set⟩)

theorem kept_checkpoint : Kept decoded config disk st
    { st with checkpoints := arrivedAt st.record.files :: st.checkpoints } disk := by
  refine .of_memory (refl st.record) rfl (fun done => done) ?_
  rintro f i (arrived | saved | ⟨flags, member, set⟩)
  · exact .inl arrived
  · exact .inr (.inl saved)
  · rcases mem_cons.mp member with rfl | earlier
    · exact .inl set
    · exact .inr (.inr ⟨flags, earlier, set⟩)

theorem kept_request {request : Request} {saved : Bool} {job : Job}
    (admitted : request.apply st.record.toJob = some job) :
    Kept decoded config disk st
      { st with
        record := { st.record with toJob := job }
        savedState := if saved then job.state else st.savedState } disk := by
  have files := Request.files_of_apply admitted
  refine .of_memory ⟨rfl, congrArg _ files, congrArg _ files⟩ rfl ?_ ?_
  · intro done
    rw [Request.apply_completed request done.1] at admitted
    contradiction
  · intro f i claim
    rw [Stored.Claims, files] at claim
    exact claim

end Events

theorem jobStep_kept {event : JobEvent} (careful : JobCareful decoded config disk st event)
    (own : st.OpensOwn)
    (does : jobStep decoded config disk st event = some (st', disk')) :
    Kept decoded config disk st st' disk' := by
  cases event with
  | openFile f permits =>
    simp only [jobStep, bind_eq_bind, bind_eq_some_iff] at does
    obtain ⟨file, found, does⟩ := does
    split at does
    · split at does
      · rename_i failed
        cases does
        exact kept_openFile failed fun own => own
      · rename_i succeeded
        cases does
        refine kept_openFile succeeded fun own => opensOwn_update own ?_
        rintro _ ⟨⟩
        exact ownPath_jobFilePath config st.record file
    · contradiction
  | segmentDone f i =>
    simp only [jobStep, bind_eq_bind, bind_eq_some_iff] at does
    obtain ⟨messageId, id, path, isOpen, does⟩ := does
    cases does
    obtain ⟨file, found⟩ := exists_file_of_idAt id
    obtain ⟨first, current, exists', agrees⟩ := careful file messageId found id
    cases isOpen.symm.trans current
    exact kept_segmentDone found first exists' agrees
  | spill f part =>
    simp only [jobStep, bind_eq_bind, bind_eq_some_iff] at does
    obtain ⟨path, isOpen, does⟩ := does
    cases does
    exact .of_write (own f path isOpen) (fun _ different => pwrite_file_of_ne different)
      fun f' i' file messageId found id claim there =>
        there.pwrite (careful path isOpen f' i' file messageId found id claim)
  | closeFile f =>
    cases does
    refine .of_holds (refl st.record) (fun own => ?_) (fun done => done)
      (fun _ _ claim => claim) fun _ _ there => there
    exact opensOwn_update own fun _ isOpen => nomatch isOpen
  | checkpoint =>
    cases does
    exact kept_checkpoint
  | saveProgress n =>
    simp only [jobStep, bind_eq_bind, bind_eq_some_iff] at does
    obtain ⟨progress, taken, does⟩ := does
    cases does
    exact kept_saveProgress taken
  | repair f part =>
    simp only [jobStep, bind_eq_bind, bind_eq_some_iff] at does
    obtain ⟨file, found, does⟩ := does
    cases does
    exact .of_write (ownPath_jobFilePath config st.record file)
      (fun _ different => repairWrite_file_of_ne different)
      fun f' i' file' messageId found' id claim there =>
        there.repairWrite (careful file found f' i' file' messageId found' id claim)
  | truncate f length =>
    simp only [jobStep, bind_eq_bind, bind_eq_some_iff] at does
    obtain ⟨file, found, does⟩ := does
    cases does
    exact .of_write (ownPath_jobFilePath config st.record file)
      (fun _ different => truncate_file_of_ne different)
      fun f' i' file' messageId found' id claim there =>
        there.truncate (careful file found f' i' file' messageId found' id claim)
  | request request saved =>
    simp only [jobStep, bind_eq_bind, bind_eq_some_iff] at does
    obtain ⟨job, admitted, does⟩ := does
    cases does
    exact kept_request admitted
  | worker state saved =>
    simp only [jobStep, ite_none_left_eq_some] at does
    cases does.2
    exact .of_memory ⟨rfl, rfl, rfl⟩ rfl (fun done => absurd done.1 careful)
      fun _ _ claim => claim

def DistinctIds (jobs : List Stored) : Prop :=
  ∀ {k k' : ℕ} {st st' : Stored}, jobs[k]? = some st → jobs[k']? = some st' →
    st.record.id = st'.record.id → k = k'

/-- The jobs have ids of their own and no file open elsewhere; what is claimed for
a job that is not over is on disk. -/
structure StoreSound (decoded : String → Extent) (s : Store) : Prop where
  distinct : DistinctIds s.jobs
  own : ∀ {k : ℕ} {st : Stored}, s.jobs[k]? = some st → st.OpensOwn
  held : ∀ {k : ℕ} {st : Stored}, s.jobs[k]? = some st →
    st.Done ∨ st.Held decoded s.config s.disk

structure Fresh (s : Store) : Prop where
  distinct : DistinctIds s.jobs
  closed : ∀ st ∈ s.jobs, ∀ f, st.opened f = none
  unclaimed : ∀ st ∈ s.jobs, ∀ f i, ¬st.Claims f i

theorem Fresh.sound {s : Store} (fresh : Fresh s) : StoreSound decoded s where
  distinct := fresh.distinct
  own := by
    intro k st found f path isOpen
    rw [fresh.closed st (mem_of_getElem? found) f] at isOpen
    contradiction
  held := fun found => .inr fun f i _ _ _ _ claim =>
    absurd claim (fresh.unclaimed _ (mem_of_getElem? found) f i)

section Step

variable {s : Store} {k : ℕ}

theorem SparesFiles.held (spares : SparesFiles config st.record disk disk')
    (same : SameJob st.record st'.record) (claims : st'.Claims = st.Claims)
    (held : st.Held decoded config disk) : st'.Held decoded config disk' := by
  refine held.carry same rfl fun f i file messageId _ _ claim before => ?_
  exact (before (by rwa [claims] at claim)).of_file (spares _)

theorem StoreSound.set (sound : StoreSound decoded s) (found : s.jobs[k]? = some st)
    (id : st'.record.id = st.record.id) (own : st'.OpensOwn)
    (held : st'.Done ∨ st'.Held decoded s.config disk')
    (others : ∀ k' other, k' ≠ k → s.jobs[k']? = some other →
      other.Held decoded s.config s.disk → other.Held decoded s.config disk') :
    StoreSound decoded { s with jobs := s.jobs.set k st', disk := disk' } := by
  have split : ∀ {j : ℕ} {new : Stored}, (s.jobs.set k st')[j]? = some new →
      (j = k ∧ new = st') ∨ (j ≠ k ∧ s.jobs[j]? = some new) := by
    intro j new there
    by_cases here : j = k
    · subst here
      rw [List.getElem?_set_self (List.getElem?_eq_some_iff.mp found).1] at there
      exact .inl ⟨rfl, (Option.some.inj there).symm⟩
    · rw [List.getElem?_set_ne (Ne.symm here)] at there
      exact .inr ⟨here, there⟩
  constructor
  · intro j j' new new' there there' same
    rcases split there with ⟨rfl, rfl⟩ | ⟨_, before⟩ <;>
      rcases split there' with ⟨rfl, rfl⟩ | ⟨_, before'⟩
    · rfl
    · exact sound.distinct found before' (id.symm.trans same)
    · exact sound.distinct before found (same.trans id)
    · exact sound.distinct before before' same
  · intro j new there
    rcases split there with ⟨_, rfl⟩ | ⟨_, before⟩
    · exact own
    · exact sound.own before
  · intro j new there
    rcases split there with ⟨_, rfl⟩ | ⟨elsewhere, before⟩
    · exact held
    · exact (sound.held before).imp_right (others j new elsewhere before)

theorem StoreSound.job {event : JobEvent} (sound : StoreSound decoded s)
    (found : s.jobs[k]? = some st) (careful : JobCareful decoded s.config s.disk st event)
    (does : jobStep decoded s.config s.disk st event = some (st', disk')) :
    StoreSound decoded { s with jobs := s.jobs.set k st', disk := disk' } := by
  have kept := jobStep_kept careful (sound.own found) does
  refine sound.set found kept.same.id (kept.opensOwn (sound.own found))
    ((sound.held found).imp kept.done kept.held) ?_
  intro k' other elsewhere found' held
  have different : other.record.id ≠ st.record.id :=
    fun same => elsewhere (sound.distinct found' found same)
  exact held.carry (refl other.record) rfl fun f i file messageId _ _ claim before =>
    kept.frame _ _ _ different (ownPath_jobFilePath _ _ _) (before claim)

theorem StoreSound.finalize {env : FinalizeEnv} {cancelled saved : Bool}
    (sound : StoreSound decoded s) (found : s.jobs[k]? = some st)
    (careful : Careful decoded s (.finalize k env cancelled saved)) :
    let result := finalizeJob env s.config st.record s.disk
    let state := if result.1 then .completed else if cancelled then .cancelled else .failed
    StoreSound decoded
      { s with jobs := s.jobs.set k (st.setState state saved), disk := result.2 } := by
  intro result state
  obtain ⟨unfinished, output⟩ := careful st found
  have own : st.OpensOwn := sound.own found
  have held := (sound.held found).resolve_left fun done => unfinished done.1
  cases configured : jobOutputDestDir s.config st.record with
  | none =>
    have untouched : result = (true, s.disk) := by
      simp only [result, finalizeJob, configured]
    refine sound.set found rfl own (.inr ?_) ?_
    · rw [untouched]
      exact held
    · rw [untouched]
      exact fun _ _ _ _ there => there
  | some destDir =>
    obtain ⟨isSaved, together, apart⟩ := output destDir configured
    refine sound.set found rfl own ?_ ?_
    · obtain ⟨spares, elsewhere⟩ := apart st (mem_of_getElem? found)
      by_cases ok : result.1 = true
      · left
        simp only [Stored.Done, Stored.setState, isSaved, state, ok, if_true, and_self]
      · right
        have failed : result = (false, result.2) := Prod.ext (Bool.eq_false_iff.mpr ok) rfl
        exact (finalizeJob_failed_spares configured spares elsewhere together failed).held
          ⟨rfl, rfl, rfl⟩ rfl held
    · intro k' other notSame found' held'
      obtain ⟨spares, elsewhere⟩ := apart other (mem_of_getElem? found')
      have different : other.record.id ≠ st.record.id :=
        fun same => notSame (sound.distinct found' found same)
      exact (finalizeJob_spares_other configured different spares elsewhere).held
        (refl _) rfl held'

theorem StoreSound.resettle (sound : StoreSound decoded s) (settled : TempDirSettled s config.tempDir)
    (found : s.jobs[k]? = some st) : st.Done ∨ st.Held decoded config s.disk := by
  rcases settled with same | unclaimed
  · refine (sound.held found).imp_right fun held => ?_
    exact held.carry (refl _) same fun _ _ _ _ _ _ claim before => before claim
  · refine (unclaimed st (mem_of_getElem? found)).imp_right fun none => ?_
    exact fun f i _ _ _ _ claim => absurd claim (none f i)

theorem StoreSound.restart {entries : List Name} (sound : StoreSound decoded s)
    (settled : TempDirSettled s s.savedConfig.tempDir) :
    StoreSound decoded { s with
      config := s.savedConfig
      jobs := s.jobs.map Stored.queueOpen
      disk := sweepOrphanedTempDirs s.savedConfig.tempDir (s.jobs.map (·.record.id)) entries
        s.disk } := by
  have source : ∀ {j : ℕ} {new : Stored}, (s.jobs.map Stored.queueOpen)[j]? = some new →
      ∃ old, s.jobs[j]? = some old ∧ old.queueOpen = new := by
    intro j new there
    rwa [getElem?_map, map_eq_some_iff] at there
  constructor
  · intro j j' new new' there there' same
    obtain ⟨old, before, rfl⟩ := source there
    obtain ⟨old', before', rfl⟩ := source there'
    exact sound.distinct before before' same
  · intro j new there f path isOpen
    obtain ⟨old, _, rfl⟩ := source there
    contradiction
  · intro j new there
    obtain ⟨old, before, rfl⟩ := source there
    rcases sound.resettle settled before with done | held
    · simp [Stored.Done, Stored.queueOpen, done.2, JobState.active]
    right
    have known : old.record.id ∈ s.jobs.map (·.record.id) :=
      mem_map_of_mem (mem_of_getElem? before)
    refine held.carry ⟨rfl, restoreFlags_filename, idAt_restoreFlags⟩ rfl ?_
    intro f i file messageId _ _ claim there
    have claimed : old.Claims f i := by
      rcases claim with arrived | saved | ⟨flags, member, _⟩
      · exact .inr (.inl (flag_of_arrivedAt_restoreFlags arrived))
      · exact .inr (.inl saved)
      · cases member
    exact (there claimed).of_file (sweepOrphanedTempDirs_file known entries s.disk)

end Step

theorem StoreSound.step {s s' : Store} {event : StoreEvent} (sound : StoreSound decoded s)
    (careful : Careful decoded s event) (does : storeStep decoded s event = some s') :
    StoreSound decoded s' := by
  cases event with
  | job k event =>
    simp only [storeStep, bind_eq_bind, bind_eq_some_iff] at does
    obtain ⟨st, found, ⟨st', disk'⟩, does, after⟩ := does
    cases after
    exact sound.job found (careful st found) does
  | finalize k env cancelled saved =>
    simp only [storeStep, bind_eq_bind, bind_eq_some_iff] at does
    obtain ⟨st, found, does⟩ := does
    cases does
    exact sound.finalize found careful
  | configure config saved =>
    cases does
    exact ⟨sound.distinct, sound.own, fun found => sound.resettle careful found⟩
  | restart entries =>
    cases does
    exact sound.restart careful

/-- As long as every step is careful, a segment flagged as downloaded in a job that
is not completed is on disk. -/
theorem downloaded_present {start s : Store} (fresh : Fresh start)
    (run : Reachable (storeStep decoded) (Careful decoded) start s) (member : st ∈ s.jobs)
    (unfinished : st.record.state ≠ .completed) : DownloadedPresent decoded s st := by
  have sound : StoreSound decoded s := run.invariant fresh.sound
    fun _ _ _ sound careful does => sound.step careful does
  obtain ⟨k, found⟩ := mem_iff_getElem?.mp member
  have held := (sound.held found).resolve_left fun done => unfinished done.1
  exact held.carry (refl _) rfl fun _ _ _ _ _ _ arrived before => before (.inl arrived)

section Examples

def filmStore : Store where
  config := showConfig
  savedConfig := showConfig
  jobs := [{
    record := {
      state := .downloading
      busy := false
      retriesUsed := 0
      files := [⟨"film.mkv".toList, [⟨"part1@news", false⟩]⟩]
      id := "j1".toList
      name := "film.nzb".toList
      outputDir := none }
    savedState := .downloading
    progress := fun _ _ => false
    checkpoints := []
    opened := fun _ => none }]
  disk := Disk.blank

def filmArticle (_ : String) : Extent :=
  ⟨0, [7, 9]⟩

theorem filmStore_fresh : Fresh filmStore where
  distinct := by
    intro k k' st st' found found' _
    have first := (List.getElem?_eq_some_iff.mp found).1
    have second := (List.getElem?_eq_some_iff.mp found').1
    simp only [filmStore, List.length_singleton] at first second
    omega
  closed := by
    intro st member f
    cases mem_singleton.mp member
    rfl
  unclaimed := by
    intro st member f i claim
    cases mem_singleton.mp member
    rcases claim with arrived | saved | ⟨flags, none, _⟩
    · exact not_arrivedAt (by decide) arrived
    · cases saved
    · cases none

def lacksFile (s : Store) (st : Stored) (f i : ℕ) : Bool :=
  arrivedAt st.record.files f i ∧ (st.record.files[f]?).all fun file =>
    s.disk.file (jobFilePath s.config st.record file) = none

theorem not_downloadedPresent {s : Store} {f i : ℕ} (lacks : lacksFile s st f i) :
    ¬DownloadedPresent decoded s st := by
  intro present
  simp only [lacksFile, Bool.decide_and, Bool.decide_eq_true, Bool.and_eq_true] at lacks
  obtain ⟨arrived, absent⟩ := lacks
  obtain ⟨segment, isSegment, _⟩ := (any_eq_true _ _).mp arrived
  have id : idAt st.record.files f i = some segment.messageId :=
    idAt_eq_some.mpr ⟨segment, isSegment, rfl⟩
  obtain ⟨file, found⟩ := exists_file_of_idAt id
  obtain ⟨content, there, _⟩ := present f i file segment.messageId found id arrived
  simp [found, there] at absent

/-- The user pauses the download, sets another `temp_dir` and resumes.  The segment
that has arrived is skipped, but it is not in the file the job now writes to. -/
theorem configure_loses_segment : ∃ (decoded : String → Extent) (start s : Store) (st : Stored),
    Fresh start ∧ Reachable (storeStep decoded) Anything start s ∧ st ∈ s.jobs ∧
    st.record.state = .queued ∧ ¬DownloadedPresent decoded s st := by
  let other : StorageConfig := { showConfig with tempDir := ["usb".toList] }
  let property : Store → Bool := fun s =>
    s.jobs.any fun st => st.record.state = .queued ∧ lacksFile s st 0 0
  have runs : (replay (storeStep filmArticle) (fun _ _ => true) filmStore
      [.job 0 (.openFile 0 fun _ => true), .job 0 (.segmentDone 0 0), .job 0 (.closeFile 0),
        .job 0 (.request .pause true), .configure other true,
        .job 0 (.request .resume true)]).any property = true := by
    decide +kernel
  obtain ⟨s, run, lost⟩ : ∃ s, Reachable (storeStep filmArticle) Anything filmStore s ∧
      property s = true := exists_reachable (fun _ _ _ => trivial) runs
  obtain ⟨st, member, lost⟩ := any_eq_true.mp lost
  simp only [Bool.decide_and, Bool.decide_eq_true, Bool.and_eq_true, decide_eq_true_eq] at lost
  exact ⟨filmArticle, filmStore, s, st, filmStore_fresh, run, member, lost.1,
    not_downloadedPresent lost.2⟩

def filmTest (s : Store) : StoreEvent → Bool
  | .job _ (.openFile _ _) | .job _ .checkpoint | .job _ (.saveProgress _) => true
  | .job k (.segmentDone 0 0) => (s.jobs[k]?).all fun st => (st.record.files[0]?).all fun file =>
      st.opened 0 = some (jobFilePath s.config st.record file) ∧
        (s.disk.file (jobFilePath s.config st.record file)).isSome
  | .restart _ => s.savedConfig.tempDir = s.config.tempDir
  | _ => false

theorem filmTest_careful (s : Store) (event : StoreEvent) (passed : filmTest s event) :
    Careful filmArticle s event := by
  unfold filmTest at passed
  split at passed
  · exact fun _ _ => trivial
  · exact fun _ _ => trivial
  · exact fun _ _ => trivial
  · intro st found file messageId isFile id
    simp only [found, isFile, all_some, Bool.decide_and, Bool.decide_eq_true,
      Bool.and_eq_true, decide_eq_true_eq] at passed
    refine ⟨⟨id, fun f' i' _ => by omega⟩, passed.1, passed.2, ?_⟩
    intro f' i' file' messageId' _ _ _ _ pos _ _ _
    simp only [filmArticle, Nat.zero_add, Nat.sub_zero]
  · exact .inl (of_decide_eq_true passed)
  · contradiction

theorem downloaded_present_restarted : ∃ s st,
    Reachable (storeStep filmArticle) (Careful filmArticle) filmStore s ∧ st ∈ s.jobs ∧
    st.record.state = .queued ∧ arrivedAt st.record.files 0 0 = true ∧
    DownloadedPresent filmArticle s st := by
  let property : Store → Bool := fun s =>
    s.jobs.any fun st => st.record.state = .queued ∧ arrivedAt st.record.files 0 0
  have runs : (replay (storeStep filmArticle) filmTest filmStore
      [.job 0 (.openFile 0 fun _ => true), .job 0 (.segmentDone 0 0), .job 0 .checkpoint,
        .job 0 (.saveProgress 0), .restart ["j1".toList, "old".toList]]).any property = true := by
    decide +kernel
  obtain ⟨s, run, resumed⟩ := exists_reachable filmTest_careful runs
  obtain ⟨st, member, resumed⟩ := any_eq_true.mp resumed
  simp only [Bool.decide_and, Bool.decide_eq_true, Bool.and_eq_true, decide_eq_true_eq] at resumed
  refine ⟨s, st, run, member, resumed.1, resumed.2, ?_⟩
  exact downloaded_present filmStore_fresh run member (by rw [resumed.1]; decide)

end Examples

end NzbDownloader.Download
