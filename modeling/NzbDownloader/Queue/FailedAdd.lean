import Mathlib.Tactic.MkIffOfInductiveProp
import NzbDownloader.Queue.Store

/-!
# What an add that fails leaves

`queue_add_job` writes two files, each under a temporary name, and then grows an
array.  When it fails it frees the job, and the files stay.
-/

namespace NzbDownloader.Queue

open Lib Util

@[mk_iff]
structure NoFileOf (id : Name) (dir : QueueDir) : Prop where
  segmentsTmp : dir.files (id ++ segmentsSuffix ++ tmpSuffix) = none
  segments : dir.files (id ++ segmentsSuffix) = none
  headerTmp : dir.files (jobPath id ++ tmpSuffix) = none
  header : dir.files (jobPath id) = none

section Add

variable {env : QueueEnv} {job : QueueJob} {q : JobQueue} {dir : QueueDir} {id : Name}

theorem noFileOf_congr {dir' : QueueDir} (files : dir'.files = dir.files) :
    NoFileOf id dir' ↔ NoFileOf id dir := by
  rw [noFileOf_iff, noFileOf_iff, files]

theorem NoFileOf.jobLoad_eq_none (clean : NoFileOf id dir) (env : QueueEnv) :
    (jobLoad env (jobPath id) dir).1 = none := by
  have unread : readFile env (jobPath id) dir = (none, ⟨dir.files, dir.clock + 1⟩) := by
    rw [readFile, clean.header, ite_self]
  rw [jobLoad, JobFormat.jobLoad, unread]
  rfl

theorem ensureCapacity_files (env : QueueEnv) (q : JobQueue) (dir : QueueDir) :
    (ensureCapacity env q dir).2.files = dir.files := by
  unfold ensureCapacity
  split <;> rfl

theorem queueAddJob_fails (failed : (queueAddJob env job q dir).1 = false) :
    (queueAddJob env job q dir).2.1 = q ∧ (queueAddJob env job q dir).2.2.files =
      (queueSaveJob env { job with priority := q.nextPriority } dir).2.files := by
  unfold queueAddJob at failed ⊢
  dsimp only at failed ⊢
  split at failed
  · rename_i after saved
    rw [saved]
    exact ⟨rfl, rfl⟩
  · rename_i after saved
    have files := ensureCapacity_files env q after
    split at failed
    · rename_i later full
      rw [full] at files
      simp only [saved]
      exact ⟨trivial, files⟩
    · contradiction

theorem names_apart (id : Name) :
    id ++ segmentsSuffix ≠ jobPath id ∧ id ++ segmentsSuffix ≠ jobPath id ++ tmpSuffix ∧
      id ++ segmentsSuffix ++ tmpSuffix ≠ jobPath id ∧
      id ++ segmentsSuffix ++ tmpSuffix ≠ jobPath id ++ tmpSuffix := by
  refine ⟨jobPath_ne_segments.symm, ?_, ?_, ?_⟩
  · exact append_ne_append (by decide) (by decide) (by decide)
  · exact append_ne_append (by decide) (by decide) (by decide)
  · intro same
    exact jobPath_ne_segments (List.append_cancel_right same).symm

theorem noFileOf_header_iff (data : DirFile) :
    NoFileOf id (jobWriteFile env (jobPath id) data dir).2 ↔
      NoFileOf id dir ∧ env.fails dir.clock = true := by
  obtain ⟨apart, apartTmp, tmpApart, tmpApartTmp⟩ := names_apart id
  rw [noFileOf_iff, noFileOf_iff, jobWriteFile, replaceFile_of_ne tmpApartTmp tmpApart,
    replaceFile_of_ne apartTmp apart, replaceFile_absent_iff, and_assoc, and_assoc, and_assoc,
    and_assoc]

theorem noFileOf_segments_iff (data : DirFile) :
    NoFileOf id (jobWriteFile env (id ++ segmentsSuffix) data dir).2 ↔
      NoFileOf id dir ∧ env.fails dir.clock = true := by
  obtain ⟨apart, apartTmp, tmpApart, tmpApartTmp⟩ := names_apart id
  rw [noFileOf_iff, noFileOf_iff, jobWriteFile,
    replaceFile_of_ne tmpApartTmp.symm apartTmp.symm,
    replaceFile_of_ne tmpApart.symm apart.symm, ← and_assoc, replaceFile_absent_iff]
  constructor
  · rintro ⟨⟨⟨segmentsTmp, segments⟩, opening⟩, header⟩
    exact ⟨⟨segmentsTmp, segments, header⟩, opening⟩
  · rintro ⟨⟨segmentsTmp, segments, header⟩, opening⟩
    exact ⟨⟨⟨segmentsTmp, segments⟩, opening⟩, header⟩

theorem noFileOf_queueSaveJob_iff : NoFileOf job.id (queueSaveJob env job dir).2 ↔
    NoFileOf job.id dir ∧ env.fails dir.clock = true ∧ env.fails (dir.clock + 1) = true := by
  rw [queueSaveJob, jobSave, JobFormat.jobSave, noFileOf_header_iff,
    JobFormat.jobEnsureSegmentsSaved, jobSidecarPath_jobPath]
  split
  · rename_i there
    have listed : ¬NoFileOf job.id dir := by
      intro none
      rw [none.segments] at there
      contradiction
    exact iff_of_false (fun clean => listed clean.1) (fun clean => listed clean.1)
  · rw [noFileOf_segments_iff, and_assoc]
    refine and_congr_right fun _ => and_congr_right fun opening => ?_
    rw [jobWriteFile, replaceFile_of_not_opened opening]

/-- An add that fails leaves the queue as it was.  It leaves no file of the job, and
nothing that a restart would load, exactly if there was none before and neither of
the two temporary files could be opened. -/
theorem failed_add_leaves_nothing_iff (failed : (queueAddJob env job q dir).1 = false) :
    (queueAddJob env job q dir).2.1 = q ∧
      (NoFileOf job.id (queueAddJob env job q dir).2.2 ∧
          (∀ later, (jobLoad later (jobPath job.id) (queueAddJob env job q dir).2.2).1 = none) ↔
        NoFileOf job.id dir ∧ env.fails dir.clock = true ∧ env.fails (dir.clock + 1) = true) := by
  obtain ⟨queue, files⟩ := queueAddJob_fails failed
  refine ⟨queue, ?_⟩
  rw [and_iff_left_of_imp NoFileOf.jobLoad_eq_none, noFileOf_congr files]
  exact @noFileOf_queueSaveJob_iff env { job with priority := q.nextPriority } dir

end Add

def failingAt (calls : List ℕ) : QueueEnv :=
  ⟨fun n => calls.contains n, .garbage⟩

def firstJob : QueueJob :=
  NewJob.create ⟨"a".toList, "b".toList, none, [("c".toList, ["d"])]⟩

def firstAdd (calls : List ℕ) : Bool × JobQueue × QueueDir :=
  queueAddJob (failingAt calls) firstJob ⟨[], 0⟩ ⟨fun _ => none, 0⟩

theorem failed_add_leaves_nothing_read_only :
    (firstAdd [0, 1]).1 = false ∧ NoFileOf firstJob.id (firstAdd [0, 1]).2.2 := by
  have failed : (firstAdd [0, 1]).1 = false := by decide
  have clean : NoFileOf firstJob.id ⟨fun _ => none, 0⟩ := ⟨rfl, rfl, rfl, rfl⟩
  exact ⟨failed, ((failed_add_leaves_nothing_iff failed).2.mpr ⟨clean, rfl, rfl⟩).1⟩

/-- The array cannot grow: the add fails, and the next start loads the job.  The disk
is full while the header is written: the list of segments and a part of the header
stay. -/
theorem failed_add_reappears :
    ((firstAdd [6]).1 = false ∧
      ((queueOpen (failingAt []) (fun _ jobs => jobs) [jobPath firstJob.id]
        (firstAdd [6]).2.2).1.map (·.jobs)) = some [firstJob]) ∧
    (firstAdd [4]).1 = false ∧
      (firstAdd [4]).2.2.files (firstJob.id ++ segmentsSuffix) =
        some (.segments [("c".toList, ["d"])]) ∧
      (firstAdd [4]).2.2.files (jobPath firstJob.id ++ tmpSuffix) = some .garbage := by
  decide +kernel

end NzbDownloader.Queue
