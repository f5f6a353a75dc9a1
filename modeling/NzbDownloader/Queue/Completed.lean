import NzbDownloader.Queue.CrashSafe

/-!
# Completed jobs after a restart

In memory a job is completed only after its content was found complete, but the flags on
disk are those of the last checkpoint, which `finalizer_main` does not bring up to date.
-/

namespace NzbDownloader.Queue.Persist

open Lib Util Transition List FileData Writers

def Covers (bitmap : Bytes) (files : List FileData) : Prop :=
  contentComplete (reloadFiles bitmap 0 files) = true

def FileData.shown (file : FileData) : Name × List Bool :=
  (file.filename, file.segments.map (·.downloaded))

theorem contentComplete_eq (files : List FileData) :
    contentComplete files =
      (files.map shown).all fun shown => jobFileIsPar2Volume shown.1 || shown.2.all id := by
  rw [contentComplete, all_map]
  simp only [Function.comp_def, shown, all_map, id]

variable {files files' : List FileData} {bitmap : Bytes} {job : JobData} {stem : Name}

theorem contentComplete_congr (same : files.map shown = files'.map shown) :
    contentComplete files = contentComplete files' := by
  rw [contentComplete_eq, same, ← contentComplete_eq]

theorem all_of_grows {flags flags' : List Bool} (grows : Grows flags flags')
    (all : flags.all id) : flags'.all id = true := by
  induction grows with
  | nil => rfl
  | cons larger _ ih =>
    rw [all_cons, Bool.and_eq_true] at all ⊢
    exact ⟨Bool.eq_true_of_true_le (all.1 ▸ larger), ih all.2⟩

theorem contentComplete_markFiles (complete : contentComplete files) (messageId : Name) :
    contentComplete (markFiles messageId files) = true := by
  rw [contentComplete_eq] at complete ⊢
  have grown := markFiles_grown messageId files
  generalize markFiles messageId files = marked at grown ⊢
  induction grown with
  | nil => rfl
  | cons here _ ih =>
    rw [map_cons, all_cons, Bool.and_eq_true, Bool.or_eq_true] at complete ⊢
    refine ⟨complete.1.imp ?_ (all_of_grows here.2), ih complete.2⟩
    rw [shown, shown, here.1]
    exact id

theorem FileData.shown_reload (file : FileData) (bitmap : Bytes) (k : ℕ) :
    (file.reload bitmap k).shown =
      (file.filename, (List.range' k file.segments.length).map (flagAt bitmap)) := by
  rw [shown, reload, reloadSegments_downloaded]

theorem reloadFiles_shown_congr (keys : files.map key = files'.map key)
    (bitmap : Bytes) (k : ℕ) :
    (reloadFiles bitmap k files).map shown =
      (reloadFiles bitmap k files').map shown := by
  induction files generalizing files' k with
  | nil =>
    rw [map_nil, eq_comm, map_eq_nil_iff] at keys
    rw [keys]
  | cons file rest ih =>
    cases files' with
    | nil => contradiction
    | cons file' rest' =>
      rw [map_cons, map_cons, List.cons.injEq] at keys
      have filename : file.filename = file'.filename := congrArg (·.1.1) keys.1
      have length : file.segments.length = file'.segments.length := by
        simpa [key] using congrArg (·.2.length) keys.1
      rw [reloadFiles, reloadFiles, map_cons, map_cons, shown_reload,
        shown_reload, filename, length, ih keys.2]

theorem Covers.congr (covers : Covers bitmap files)
    (keys : files'.map key = files.map key) : Covers bitmap files' := by
  rw [Covers, contentComplete_congr (reloadFiles_shown_congr keys bitmap 0)]
  exact covers

theorem map_flagAt_range' {k : ℕ} {flags : List Bool} (has : HasFlags bitmap k flags) :
    (List.range' k flags.length).map (flagAt bitmap) = flags := by
  refine ext_getElem (by simp) fun i _ inside => ?_
  rw [getElem_map, getElem_range', Nat.one_mul, has i inside,
    getD_eq_getElem _ _ inside]

theorem reloadFiles_shown {k : ℕ} (has : HasFlags bitmap k (flagsOf files)) :
    (reloadFiles bitmap k files).map shown = files.map shown := by
  induction files generalizing k with
  | nil => rfl
  | cons file rest ih =>
    rw [flagsOf_cons] at has
    obtain ⟨here, later⟩ := has.append
    have flags := map_flagAt_range' here
    rw [length_map] at later flags
    rw [reloadFiles, map_cons, shown_reload, flags, ih later, map_cons]
    rfl

theorem covers_snapshot (complete : contentComplete job.files) :
    Covers (jobProgressSnapshot job) job.files := by
  rw [Covers, contentComplete_congr (reloadFiles_shown (hasFlags_snapshot job))]
  exact complete

section Paced

variable {τ : Type} [DecidableEq τ] {s s' : CrashState τ}

def Phase.works : Phase → Bool
  | .marked | .due | .ensuring (.progress _) => true
  | _ => false

def CrashState.Works (s : CrashState τ) (stem : Name) (t : τ) : Prop :=
  (s.phase t).works = true ∨ ∃ write ∈ s.disk.todo t, write.path = stem ++ progressSuffix

structure Paced (stem : Name) (s : CrashState τ) : Prop where
  checked : s.course = .recovering ∨ s.course = .handed → contentComplete s.memory.files = true
  quiet : s.course = .resting ∨ s.course = .handed → s.pending = []
  working : ∀ {t}, s.Works stem t → t ∈ s.pending

variable {t : τ}

theorem works_of_setPhase {u : τ} {phase : Phase} (works : (s.setPhase t phase).Works stem u) :
    u = t ∧ phase.works ∨ s.Works stem u := by
  rcases works with works | writes
  · rcases phase_setPhase s t u phase with same | ⟨rfl, changed⟩
    · exact .inr (.inl (same ▸ works))
    · exact .inl ⟨rfl, changed ▸ works⟩
  · exact .inr (.inr writes)

theorem works_of_finish {u : τ} (nothing : s.disk.todo t = []) (works : (s.finish t).Works stem u) :
    u ≠ t ∧ s.Works stem u := by
  have before : u = t ∧ Phase.idle.works ∨ s.Works stem u := works_of_setPhase works
  refine ⟨?_, before.resolve_left nofun⟩
  rintro rfl
  rcases works with works | ⟨write, member, -⟩
  · rw [show (s.finish u).phase u = .idle from Function.update_self _ _ _] at works
    contradiction
  · rw [show (s.finish u).disk.todo u = [] from nothing] at member
    contradiction

omit [DecidableEq τ] in
theorem Paced.congr (paced : Paced stem s)
    (checked : s'.course = .recovering ∨ s'.course = .handed → contentComplete s'.memory.files)
    (quiet : s'.course = .resting ∨ s'.course = .handed → s.pending = [])
    (pending : s'.pending = s.pending) (working : ∀ t, s'.Works stem t → s.Works stem t) :
    Paced stem s' where
  checked := checked
  quiet course := pending.trans (quiet course)
  working works := pending ▸ paced.working (working _ works)

theorem Paced.finish (paced : Paced stem s) (nothing : s.disk.todo t = []) :
    Paced stem (s.finish t) where
  checked := paced.checked
  quiet course := by
    change s.pending.filter _ = []
    rw [paced.quiet course, filter_nil]
  working works := by
    obtain ⟨different, before⟩ := works_of_finish nothing works
    exact mem_filter.mpr ⟨paced.working before, decide_eq_true different⟩

omit [DecidableEq τ] in
theorem works_of_writesOf {save : Save} {write : JobWrite} (phase : s.phase t = .ensuring save)
    (member : write ∈ s.writesOf stem save) (path : write.path = stem ++ progressSuffix) :
    s.Works stem t := by
  obtain ⟨path', data⟩ := write
  subst path
  obtain ⟨bitmap, rfl, -⟩ := progress_of_writesOf member
  exact .inl (by rw [phase]; rfl)

theorem Paced.step (paced : Paced stem s) (tracked : Tracked job stem s) {event : CrashEvent τ}
    (taken : crashStep stem s event = some s') : Paced stem s' := by
  have free {t : τ} {phase : Phase} (here : s.phase t = phase) (other : phase ≠ .saving) :
      s.disk.todo t = [] := tracked.idle (here ▸ other)
  cases event with
  | start now =>
    obtain ⟨-, ⟨⟩⟩ := Option.ite_none_right_eq_some.mp taken
    exact paced.congr (by simp) (by simp) rfl fun _ => id
  | mark t messageId =>
    obtain ⟨⟨-, course⟩, ⟨⟩⟩ := Option.ite_none_right_eq_some.mp taken
    refine ⟨fun now => contentComplete_markFiles (paced.checked now) messageId, fun now => ?_, ?_⟩
    · change s.course = .resting ∨ s.course = .handed at now
      rcases course with here | here <;> rw [here] at now <;> exact absurd now (by decide)
    · intro u works
      rcases works_of_setPhase works with ⟨rfl, -⟩ | before
      · exact .head _
      · exact .tail _ (paced.working before)
  | count t now =>
    obtain ⟨phase, taken⟩ := Option.ite_none_right_eq_some.mp taken
    have here : s.Works stem t := .inl (by rw [phase]; rfl)
    split at taken
    · cases taken
      refine paced.congr paced.checked paced.quiet rfl fun u works => ?_
      rcases works_of_setPhase works with ⟨rfl, -⟩ | before
      · exact here
      · exact before
    · cases taken
      exact ⟨(paced.finish (free phase (by simp))).checked, (paced.finish (free phase (by simp))).quiet,
        (paced.finish (free phase (by simp))).working⟩
  | snapshot t =>
    obtain ⟨phase, ⟨⟩⟩ := Option.ite_none_right_eq_some.mp taken
    refine paced.congr paced.checked paced.quiet rfl fun u works => ?_
    rcases works_of_setPhase works with ⟨rfl, -⟩ | before
    · exact .inl (by rw [phase]; rfl)
    · exact before
  | change header =>
    obtain ⟨-, ⟨⟩⟩ := Option.ite_none_right_eq_some.mp taken
    exact paced.congr paced.checked paced.quiet rfl fun _ => id
  | save t =>
    obtain ⟨phase, ⟨⟩⟩ := Option.ite_none_right_eq_some.mp taken
    exact paced.congr paced.checked paced.quiet rfl fun u works =>
      (works_of_setPhase works).resolve_left (by simp [Phase.works])
  | check =>
    obtain ⟨⟨-, -, complete⟩, ⟨⟩⟩ := Option.ite_none_right_eq_some.mp taken
    exact paced.congr (fun _ => complete) (by simp) rfl fun _ => id
  | handOver =>
    obtain ⟨⟨course, pending⟩, ⟨⟩⟩ := Option.ite_none_right_eq_some.mp taken
    exact paced.congr (fun _ => paced.checked (.inl course)) (fun _ => pending) rfl fun _ => id
  | complete t header =>
    obtain ⟨⟨course, phase⟩, ⟨⟩⟩ := Option.ite_none_right_eq_some.mp taken
    refine paced.congr (by simp) (fun _ => paced.quiet (.inr course)) rfl fun u works => ?_
    exact (works_of_setPhase works).resolve_left (by simp [Phase.works])
  | leave =>
    obtain ⟨pending, ⟨⟩⟩ := Option.ite_none_right_eq_some.mp taken
    exact paced.congr (by simp) (fun _ => pending) rfl fun _ => id
  | access t =>
    obtain ⟨save, phase, rfl⟩ := access_of_step taken
    refine paced.congr paced.checked paced.quiet rfl ?_
    rintro u (works | ⟨write, member, path⟩)
    · have before : u = t ∧ Phase.saving.works ∨ s.Works stem u :=
        works_of_setPhase (.inl works)
      exact before.resolve_left (by simp [Phase.works])
    · rcases mem_todo_assign member with ⟨rfl, new⟩ | old
      · exact works_of_writesOf phase new path
      · exact .inr ⟨write, old, path⟩
  | write step =>
    obtain ⟨disk, moved, rfl⟩ := Option.map_eq_some_iff.mp taken
    refine paced.congr paced.checked paced.quiet rfl fun u works => works.imp_right ?_
    rintro ⟨write, member, path⟩
    exact ⟨write, mem_todo_of_step moved member, path⟩
  | done t =>
    obtain ⟨⟨-, nothing⟩, ⟨⟩⟩ := Option.ite_none_right_eq_some.mp taken
    exact paced.finish nothing
  | other name content =>
    obtain ⟨foreign, ⟨⟩⟩ := Option.ite_none_left_eq_some.mp taken
    exact paced.congr paced.checked paced.quiet rfl fun _ => id
  | restart crash entries =>
    obtain ⟨-, taken⟩ := Option.ite_none_right_eq_some.mp taken
    obtain ⟨loaded, load, rfl⟩ := Option.map_eq_some_iff.mp taken
    refine ⟨(by simp), fun _ => rfl, ?_⟩
    rintro t (works | ⟨_, member, -⟩) <;> contradiction

end Paced

section Covered

variable {τ : Type} [DecidableEq τ] {s s' : CrashState τ}

def Announces (stem : Name) (s : CrashState τ) : Prop :=
  s.memory.state = .completed ∨
    (∃ t header, s.phase t = .ensuring (.header header) ∧ header.state = .completed) ∨
    ∃ tree, s.disk.Possible (jobPath stem) (.json tree) ∧ (loadHeader tree).state = .completed

structure Covered (stem : Name) (s : CrashState τ) : Prop where
  memory : contentComplete s.memory.files = true
  possible : ∀ {data}, s.disk.Possible (stem ++ progressSuffix) data →
    ∃ bitmap, data = .raw bitmap ∧ Covers bitmap s.memory.files
  there : none ∉ s.disk.contents (stem ++ progressSuffix)
  ensuring : ∀ {t bitmap}, s.phase t = .ensuring (.progress bitmap) → Covers bitmap s.memory.files

def FinalCheckpoint (stem : Name) (s : CrashState τ) : CrashEvent τ → Prop
  | .complete _ _ => ∀ content ∈ s.disk.contents (stem ++ progressSuffix),
      ∃ bitmap, content = some (.raw bitmap) ∧ Covers bitmap s.memory.files
  | _ => True

variable {event : CrashEvent τ}

omit [DecidableEq τ] in
theorem covered_quiet (covered : Announces stem s → Covered stem s) (quiet : Quiet event s s')
    (uncompleted : ∀ t header, event ≠ .complete t header) :
    Announces stem s' → Covered stem s' := by
  intro announces
  have state (completed : s'.memory.state = .completed) : s.memory.state = .completed :=
    (quiet.state completed).resolve_right fun ⟨t, header, same⟩ => uncompleted t header same
  have before : Announces stem s := by
    rcases announces with completed | ⟨t, header, ensuring, completed⟩ | found
    · exact .inl (state completed)
    · rcases quiet.phase t with same | ⟨-, saves⟩
      · exact .inr (.inl ⟨t, header, same ▸ ensuring, completed⟩)
      · cases (saves _ ensuring).resolve_right nofun
        exact .inl (state completed)
    · exact .inr (.inr (quiet.disk ▸ found))
  have old := covered before
  obtain ⟨keys, complete⟩ : s'.memory.files.map key = s.memory.files.map key ∧
      contentComplete s'.memory.files = true := by
    rcases quiet.files with same | ⟨messageId, same⟩
    · rw [same]
      exact ⟨rfl, old.memory⟩
    · rw [same]
      exact ⟨map_markFirst (key_mark messageId) _,
        contentComplete_markFiles old.memory messageId⟩
  refine ⟨complete, fun possible => ?_, quiet.disk ▸ old.there, fun {t bitmap} ensuring => ?_⟩
  · obtain ⟨bitmap, rfl, covers⟩ := old.possible (quiet.disk ▸ possible)
    exact ⟨bitmap, rfl, covers.congr keys⟩
  · rcases quiet.phase t with same | ⟨-, saves⟩
    · exact (old.ensuring (same ▸ ensuring)).congr keys
    · have snapshot := (saves _ ensuring).resolve_left nofun
      cases snapshot.1
      rw [snapshot.2]
      exact covers_snapshot old.memory

theorem loadHeader_state (job : JobData) : (loadHeader (jobHeaderTree job)).state = job.state := by
  have state : (jobHeaderTree job).get? "state" = some (.string (jobStateName job.state).toList) :=
    @Json.get?_object _ _ _ _ 2 (headerMembers_names job) rfl
  rw [loadHeader, state, Option.bind_some, Json.string?, Option.map_some, jobStateFromName_text]
  rfl

omit [DecidableEq τ] in
theorem covered_complete (paced : Paced stem s) (course : s.course = .handed)
    (final : ∀ content ∈ s.disk.contents (stem ++ progressSuffix),
      ∃ bitmap, content = some (.raw bitmap) ∧ Covers bitmap s.memory.files)
    (disk : s'.disk = s.disk) (files : s'.memory.files = s.memory.files)
    (phase : ∀ t bitmap, s'.phase t = .ensuring (.progress bitmap) →
      s.phase t = .ensuring (.progress bitmap)) : Covered stem s' := by
  have resting (t : τ) : ¬s.Works stem t := by
    intro works
    have member := paced.working works
    rw [paced.quiet (.inr course)] at member
    contradiction
  refine ⟨files ▸ paced.checked (.inr course), ?_, ?_, ?_⟩
  · rintro data (found | ⟨t, member⟩)
    · obtain ⟨bitmap, eq, covers⟩ := final _ (disk ▸ found)
      exact ⟨bitmap, Option.some.inj eq, files ▸ covers⟩
    · exact absurd (.inr ⟨_, disk ▸ member, rfl⟩) (resting t)
  · intro missing
    obtain ⟨bitmap, eq, -⟩ := final _ (disk ▸ missing)
    contradiction
  · intro t bitmap ensuring
    refine absurd (.inl ?_) (resting t)
    rw [phase t bitmap ensuring]
    rfl

theorem covered_access (covered : Announces stem s → Covered stem s) {t : τ} {save : Save}
    (phase : s.phase t = .ensuring save) :
    let s' := { s.setPhase t .saving with disk := s.disk.assign t (s.writesOf stem save) }
    Announces stem s' → Covered stem s' := by
  intro s' announces
  have before : Announces stem s := by
    rcases announces with completed | ⟨u, header, ensuring, completed⟩ | ⟨tree, possible, completed⟩
    · exact .inl completed
    · exact .inr (.inl ⟨u, header, ensuring_of_saving ensuring, completed⟩)
    rcases possible_assign possible with old | new
    · exact .inr (.inr ⟨tree, old, completed⟩)
    · rcases mem_writesOf new with same | same
      · exact absurd (congrArg Replacement.path same) jobPath_ne_segments
      · cases save with
        | progress bitmap => exact absurd (congrArg Replacement.path same) jobPath_ne_progress
        | header header =>
          cases same
          exact .inr (.inl ⟨t, header, phase, (loadHeader_state header).symm.trans completed⟩)
  have old := covered before
  refine ⟨old.memory, fun possible => ?_, old.there,
    fun ensuring => old.ensuring (ensuring_of_saving ensuring)⟩
  rcases possible_assign possible with found | new
  · exact old.possible found
  · obtain ⟨bitmap, rfl, rfl⟩ := progress_of_writesOf new
    exact ⟨bitmap, rfl, old.ensuring phase⟩

omit [DecidableEq τ] in
/-- Calls on files that bring nothing new to the files of the job. -/
theorem covered_disk (covered : Announces stem s → Covered stem s)
    {disk : Writers Name Document τ}
    (shrinks : ∀ {name data}, name ∈ ownNames stem → disk.Possible name data →
      s.disk.Possible name data)
    (there : none ∈ disk.contents (stem ++ progressSuffix) →
      none ∈ s.disk.contents (stem ++ progressSuffix)) :
    Announces stem { s with disk := disk } → Covered stem { s with disk := disk } := by
  intro announces
  have old : Covered stem s := by
    refine covered ?_
    rcases announces with completed | ensuring | ⟨tree, possible, completed⟩
    · exact .inl completed
    · exact .inr (.inl ensuring)
    · exact .inr (.inr ⟨tree, shrinks jobPath_mem_own possible, completed⟩)
  exact ⟨old.memory, fun possible => old.possible (shrinks progress_mem_own possible),
    fun missing => old.there (there missing), old.ensuring⟩

omit [DecidableEq τ] in
theorem covered_restart (covered : Announces stem s → Covered stem s) (tracked : Tracked job stem s)
    {crash : Crash} {entries : List Name} {header : Tree} {listed : JobData}
    (headed : crash.files s.disk (jobPath stem) = some (.json header))
    (list : Kept job listed.files ∨ listed.files = [])
    (memory : s'.memory = { loadHeader header with
      files := reloadFiles (bitmapIn (crash.files s.disk) stem) 0 listed.files }.requeued)
    (disk : s'.disk = .starting (queueOpen calmly entries (crash.files s.disk)).2.files)
    (phase : ∀ t, s'.phase t = .idle) : Announces stem s' → Covered stem s' := by
  intro announces
  have files {name : Name} {data : Document} (own : name ∈ ownNames stem)
      (possible : s'.disk.Possible name data) : crash.files s.disk name = some data := by
    rw [disk] at possible
    exact (queueOpen_files calmly entries _ (not_tmp_of_own own)).symm.trans
      (possible_starting possible)
  have left {name : Name} (own : name ∈ ownNames stem) :=
    crash.files_mem_contents s.disk (not_tmp_of_own own)
  have completed : (loadHeader header).state = .completed := by
    rcases announces with completed | ⟨t, other, ensuring, -⟩ | ⟨tree, possible, completed⟩
    · rw [memory, JobData.requeued] at completed
      split at completed
      · contradiction
      · exact completed
    · cases (phase t).symm.trans ensuring
    · cases headed.symm.trans (files jobPath_mem_own possible)
      exact completed
  have old := covered (.inr (.inr ⟨header, .inl (headed ▸ left jobPath_mem_own), completed⟩))
  obtain ⟨data, found⟩ : ∃ data, crash.files s.disk (stem ++ progressSuffix) = some data := by
    refine Option.ne_none_iff_exists'.mp fun missing => ?_
    exact old.there (missing ▸ left progress_mem_own)
  obtain ⟨bitmap, rfl, covers⟩ := old.possible (.inl (found ▸ left progress_mem_own))
  have bits : bitmapIn (crash.files s.disk) stem = bitmap := by
    rw [bitmapIn, found]
    rfl
  have shown : Covers bitmap listed.files := by
    rcases list with kept | nothing
    · exact covers.congr (kept.keys.trans tracked.kept.keys.symm)
    · rw [nothing]
      rfl
  have files_eq : s'.memory.files = reloadFiles bitmap 0 listed.files := by
    rw [memory, bits]
    rfl
  refine ⟨files_eq ▸ shown, fun possible => ?_, fun missing => ?_, fun {t _} ensuring => ?_⟩
  · cases found.symm.trans (files progress_mem_own possible)
    refine ⟨bitmap, rfl, shown.congr ?_⟩
    rw [files_eq, reloadFiles_key]
  · rw [disk] at missing
    have absent : (queueOpen calmly entries (crash.files s.disk)).2.files (stem ++ progressSuffix) =
      none := (mem_singleton.mp missing).symm
    rw [queueOpen_files calmly entries _ (not_tmp_of_own progress_mem_own), found] at absent
    contradiction
  · cases (phase t).symm.trans ensuring

structure Settled (stem : Name) (s : CrashState τ) : Prop where
  tracked : ∃ job : JobData, (∀ file ∈ job.files, file.InField) ∧ Tracked job stem s
  paced : Paced stem s
  covered : Announces stem s → Covered stem s

omit [DecidableEq τ] in
theorem CrashState.New.settled (new : s.New stem job) (inField : ∀ file ∈ job.files, file.InField)
    (queued : job.state = .queued) : Settled stem s := by
  have tracked := new.tracked
  have nothing (t : τ) : s.disk.todo t = [] := tracked.idle (by rw [new.phase]; nofun)
  refine ⟨⟨job, inField, tracked⟩, ⟨?_, fun _ => new.pending, ?_⟩, ?_⟩
  · rw [new.course]
    nofun
  · rintro t (works | ⟨write, member, -⟩)
    · rw [new.phase] at works
      contradiction
    · rw [nothing] at member
      contradiction
  · rintro (completed | ⟨t, header, ensuring, -⟩ | ⟨tree, possible, -⟩)
    · rw [new.memory, queued] at completed
      contradiction
    · rw [new.phase] at ensuring
      contradiction
    · obtain ⟨files, disk, none⟩ := new.disk
      rw [disk] at possible
      have absent := none _ jobPath_mem_own
      rw [possible_starting possible] at absent
      contradiction

theorem covered_step (settled : Settled stem s) (tracked : Tracked job stem s)
    (final : FinalCheckpoint stem s event)
    (running : ∀ crash entries, event ≠ .restart crash entries)
    (taken : crashStep stem s event = some s') : Announces stem s' → Covered stem s' := by
  have covered := settled.covered
  cases event with
  | complete t header =>
    obtain ⟨⟨course, -⟩, ⟨⟩⟩ := Option.ite_none_right_eq_some.mp taken
    refine fun _ => covered_complete settled.paced course final rfl rfl fun u bitmap ensuring => ?_
    rcases phase_setPhase s t u (.ensuring (.header (s.memory.withHeader
      { header with state := .completed }))) with same | ⟨-, changed⟩
    · exact same.symm.trans ensuring
    · exact nomatch changed.symm.trans ensuring
  | access t =>
    obtain ⟨save, phase, rfl⟩ := access_of_step taken
    exact covered_access covered phase
  | write step =>
    obtain ⟨disk, moved, rfl⟩ := Option.map_eq_some_iff.mp taken
    refine covered_disk covered
      (fun own => possible_of_step tracked.orderly moved (named_of_own own)) fun missing => ?_
    rcases mem_contents_of_step tracked.orderly moved (named_of_own progress_mem_own) missing
      with before | ⟨_, _, _, -, -, -, ⟨⟩⟩
    exact before
  | other name content =>
    obtain ⟨foreign, ⟨⟩⟩ := Option.ite_none_left_eq_some.mp taken
    have apart := apart_of_foreign foreign
    refine covered_disk covered (fun own => possible_put (apart _ own).1) fun missing => ?_
    exact put_contents (apart _ progress_mem_own).1 ▸ missing
  | restart crash entries => exact absurd rfl (running crash entries)
  | _ =>
    exact covered_quiet covered (quiet_of_step rfl taken) (by simp)

theorem Settled.restart (settled : Settled stem s) {crash : Crash} {entries : List Name}
    (taken : crashStep stem s (.restart crash entries) = some s') : Settled stem s' := by
  obtain ⟨job, inField, tracked⟩ := settled.tracked
  have paced := settled.paced.step tracked taken
  obtain ⟨-, taken⟩ := Option.ite_none_right_eq_some.mp taken
  obtain ⟨loaded, load, rfl⟩ := Option.map_eq_some_iff.mp taken
  obtain ⟨header, listed, headed, list, eq⟩ :=
    tracked.reopened inField crash (isSome_of_reopened load)
  have same := Option.some.inj (load.symm.trans eq)
  refine ⟨?_, paced, covered_restart settled.covered tracked headed ?_ same rfl fun _ => rfl⟩
  · have memory := congrArg JobData.files same
    rcases list with ⟨there, kept⟩ | ⟨missing, nothing⟩
    · refine ⟨job, inField, tracked.restart memory kept (fun data found => ?_) rfl fun _ => rfl⟩
      exact Option.some.inj (found.symm.trans there)
    · -- Without its list the job goes on without files.
      refine ⟨listed, by rw [nothing]; nofun, tracked.restart memory (Kept.refl listed) ?_ rfl fun _ => rfl⟩
      intro data found
      exact nomatch missing.symm.trans found
  · exact list.imp And.right And.right

theorem Settled.step (settled : Settled stem s) (final : FinalCheckpoint stem s event)
    (taken : crashStep stem s event = some s') : Settled stem s' := by
  by_cases restarts : ∃ crash entries, event = .restart crash entries
  · obtain ⟨crash, entries, rfl⟩ := restarts
    exact settled.restart taken
  have running : ∀ crash entries, event ≠ .restart crash entries :=
    fun crash entries same => restarts ⟨crash, entries, same⟩
  obtain ⟨job, inField, tracked⟩ := settled.tracked
  exact ⟨⟨job, inField, tracked.step running taken⟩, settled.paced.step tracked taken,
    covered_step settled tracked final running taken⟩

/-- If at each completion the bitmap on disk has all of the content, then in every state of the run a
completed job has every segment of its content, also after restarts. -/
theorem completed_stays_complete (job : JobData) (stem : Name) {start s : CrashState τ}
    (inField : ∀ file ∈ job.files, file.InField) (queued : job.state = .queued)
    (new : start.New stem job)
    (reachable : Reachable (crashStep stem) (FinalCheckpoint stem) start s)
    (completed : s.memory.state = .completed) :
    ∀ file ∈ s.memory.files, jobFileIsPar2Volume file.filename = false →
      ∀ segment ∈ file.segments, segment.downloaded = true := by
  have settled := reachable.invariant (new.settled inField queued)
    fun _ _ _ settled final taken => Settled.step settled final taken
  have complete := (settled.covered (.inl completed)).memory
  intro file member content segment inside
  have all := all_eq_true.mp complete file member
  rw [content, Bool.false_or] at all
  exact all_eq_true.mp all segment inside

end Covered

def completeAndRestart (job : JobData) : List (CrashEvent ℕ) :=
  [.check, .handOver, .complete 0 job, .access 0] ++ writeFile ++
    [.done 0, .restart ⟨fun _ => 0, fun _ => none⟩ [jobPath job.id]]

/-- A job with a single segment never reaches a checkpoint: after a restart it is completed, and
none of its segments is there. -/
theorem completed_loses_progress : ∃ s : CrashState ℕ,
    Reachable (crashStep ['a']) Anything (newState (newJob 1)) s ∧ s.memory.state = .completed ∧
      jobSegmentProgress s.memory.files = (1, 0) ∧
      ∃ file ∈ s.memory.files, jobFileIsPar2Volume file.filename = false ∧
        ∃ segment ∈ file.segments, segment.downloaded = false := by
  obtain ⟨s, reached, holds⟩ := @exists_reachable _ _ (crashStep ['a']) Anything (newState (newJob 1))
    (fun _ _ => true) (saveNew ++ [.start 0] ++ arrivals 1 ++ completeAndRestart (newJob 1))
    (fun s => s.memory.state = .completed ∧ jobSegmentProgress s.memory.files = (1, 0) ∧
      ∃ file ∈ s.memory.files, jobFileIsPar2Volume file.filename = false ∧
        ∃ segment ∈ file.segments, segment.downloaded = false)
    (fun _ _ _ => trivial) (by decide +kernel)
  exact ⟨s, reached, of_decide_eq_true holds⟩

def covering (s : CrashState ℕ) (stem : Name) : Bool :=
  (s.disk.contents (stem ++ progressSuffix)).all fun
    | some (.raw bitmap) => contentComplete (reloadFiles bitmap 0 s.memory.files)
    | _ => false

theorem finalCheckpoint_of_covering (s : CrashState ℕ) (event : CrashEvent ℕ)
    (passed : (!(event matches .complete _ _) || covering s stem) = true) :
    FinalCheckpoint stem s event := by
  cases event with
  | complete t header =>
    intro content member
    have shown := all_eq_true.mp passed content member
    split at shown
    · exact ⟨_, rfl, shown⟩
    · contradiction
  | _ => trivial

theorem completed_stays_complete_checkpoint : ∃ s : CrashState ℕ,
    s.memory.state = .completed ∧ (∃ file ∈ s.memory.files, file.segments.length = 25) ∧
      ∀ file ∈ s.memory.files, jobFileIsPar2Volume file.filename = false →
        ∀ segment ∈ file.segments, segment.downloaded = true := by
  have inField : ∀ file ∈ (newJob 25).files, file.InField := fun file member =>
    ((by decide +kernel : ∀ file ∈ (newJob 25).files, file.Fits) file member).inField
  obtain ⟨s, reached, holds⟩ := @exists_reachable _ _ (crashStep ['a']) (FinalCheckpoint ['a'])
    (newState (newJob 25)) (fun s event => !(event matches .complete _ _) || covering s ['a'])
    (saveNew ++ [.start 0] ++ arrivals 25 ++ [.snapshot 0, .access 0] ++ writeFile ++ [.done 0] ++
      completeAndRestart (newJob 25))
    (fun s => s.memory.state = .completed ∧ ∃ file ∈ s.memory.files, file.segments.length = 25)
    finalCheckpoint_of_covering (by decide +kernel)
  obtain ⟨completed, long⟩ := of_decide_eq_true holds
  exact ⟨s, completed, long, completed_stays_complete (newJob 25) ['a'] inField rfl
    (newState_new (newJob 25) ['a']) reached completed⟩

end NzbDownloader.Queue.Persist
