import NzbDownloader.Queue.CrashSafe

/-!
# Temporary directories at the start

`sweep_orphaned_temp_dirs` of `queue/queue.c`, which `queue_open` calls with the jobs it has
loaded.
-/

namespace NzbDownloader.Queue.Persist

open Lib Util List

def sweepOrphanedTempDirs (jobs : List JobData) (temp : List (Name × Bool)) : List Name :=
  (temp.filter fun (name, isDir) =>
    name.head? ≠ some '.' && isDir && !jobs.any (·.id = name)).map (·.1)

def headerId (files : Name → Option Document) (entry : Name) : Option Name :=
  ((files entry).bind Document.tree?).map fun tree => (loadHeader tree).id

section Loaded

variable (env : Faults Document) (files : Name → Option Document)

theorem id_jobLoadSegmentsAndProgress (path : Name) (job : JobData) (dir : Folder Name Document) :
    (treeFormat.jobLoadSegmentsAndProgress env path job dir).1.id = job.id := by
  rw [JobFormat.jobLoadSegmentsAndProgress]
  rcases readFile env (jobSidecarPath path segmentsSuffix) dir with ⟨_ | _ | _, dir⟩ <;> rfl

theorem jobLoad_id (entry : Name) (dir : Folder Name Document) :
    (jobLoad env entry dir).1.map (·.id) =
      if env.fails dir.clock then none else headerId dir.files entry := by
  rw [jobLoad, JobFormat.jobLoad, readFile, headerId]
  cases env.fails dir.clock with
  | true => rfl
  | false =>
    rcases dir.files entry with _ | tree | bytes
    · rfl
    · exact congrArg some (id_jobLoadSegmentsAndProgress env entry (loadHeader tree) _)
    · rfl

theorem ids_openEntry (state : List JobData × Folder Name Document) (entry : Name)
    (same : hasSuffix entry tmpSuffix = false → state.2.files entry = files entry) :
    (openEntry env state entry).1.map (·.id) = state.1.map (·.id) ++
      if hasSuffix entry jsonSuffix = true ∧ env.fails state.2.clock = false then
        (headerId files entry).toList
      else [] := by
  rcases openEntry_cases env state entry with ⟨isTmp, opened⟩ | ⟨other, opened⟩ | ⟨notTmp, json, opened⟩
  · have other : hasSuffix entry jsonSuffix = false := by
      obtain ⟨stem, rfl⟩ := isSuffixOf_iff_suffix.mp isTmp
      exact not_hasSuffix_append (by decide) (by decide) (by decide)
    simp [opened, other]
  · simp [opened, other]
  · have loaded := jobLoad_id env entry state.2
    rw [headerId, same notTmp, ← headerId] at loaded
    have read : ((jobLoad env entry state.2).1.map JobData.requeued).toList.map (·.id) =
        ((jobLoad env entry state.2).1.map (·.id)).toList := by
      cases (jobLoad env entry state.2).1 <;> rfl
    rw [opened, map_append, read, loaded]
    cases env.fails state.2.clock <;> simp [json]

theorem mem_ids_queueOpen (entries : List Name) (id : Name) :
    id ∈ (queueOpen env entries files).1.map (·.id) ↔
      ∃ before entry after, entries = before ++ entry :: after ∧
        hasSuffix entry jsonSuffix = true ∧
        env.fails (queueOpen env before files).2.clock = false ∧ headerId files entry = some id := by
  induction entries using reverseRecOn with
  | nil => simp [queueOpen]
  | append_singleton entries last ih =>
    have read := ids_openEntry env files (queueOpen env entries files) last
      fun notTmp => queueOpen_files env entries files notTmp
    rw [queueOpen, foldl_concat, ← queueOpen, read, mem_append, ih]
    constructor
    · rintro (⟨before, entry, after, rfl, found⟩ | here)
      · exact ⟨before, entry, after ++ [last], by simp, found⟩
      · split_ifs at here with loads
        · exact ⟨entries, last, [], rfl, loads.1, loads.2, Option.mem_toList.mp here⟩
        · contradiction
    · rintro ⟨before, entry, after, split, json, reads, found⟩
      induction after using reverseRecOn with
      | nil =>
        obtain ⟨rfl, ⟨⟩⟩ := append_inj' split rfl
        rw [if_pos ⟨json, reads⟩]
        exact .inr (Option.mem_toList.mpr found)
      | append_singleton after x _ =>
        rw [← cons_append, ← append_assoc] at split
        obtain ⟨rfl, -⟩ := append_inj' split rfl
        exact .inl ⟨before, entry, after, rfl, json, reads, found⟩

end Loaded

/-- The start keeps the temporary directory of every job with a header in the queue
directory, if and only if each such directory is named by a header that is read. -/
theorem sweep_keeps_jobs_iff (env : Faults Document) (entries : List Name)
    (files : Name → Option Document) (temp : List (Name × Bool)) :
    (∀ id, jobPath id ∈ entries →
        id ∉ sweepOrphanedTempDirs (queueOpen env entries files).1 temp) ↔
      ∀ id, jobPath id ∈ entries → (id, true) ∈ temp → id.head? ≠ some '.' →
        ∃ before entry after, entries = before ++ entry :: after ∧
          hasSuffix entry jsonSuffix = true ∧
          env.fails (queueOpen env before files).2.clock = false ∧
          headerId files entry = some id := by
  simp only [← mem_ids_queueOpen]
  refine forall₂_congr fun id _ => ?_
  simp [sweepOrphanedTempDirs]

theorem sweep_removes_job :
    jobPath "a".toList ∈ ["a.json".toList] ∧ "a".toList ∈ sweepOrphanedTempDirs
      (queueOpen calmly ["a.json".toList] fun _ => some (.raw [])).1 [("a".toList, true)] := by
  decide

end NzbDownloader.Queue.Persist
