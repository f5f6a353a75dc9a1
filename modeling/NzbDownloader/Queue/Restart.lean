import NzbDownloader.Queue.Store
import NzbDownloader.Lib.Sorting
import Mathlib.Data.List.Dedup

/-!
# A restart preserves the queue

In memory the order of the jobs is that of a list, on disk it is the number in each header.
-/

namespace NzbDownloader.Queue

open Lib Util Storage List Function QueueState

section Slots

variable {α : Type} {l : List α}

theorem exists_around {i : ℕ} {a : α} (found : l[i]? = some a) :
    ∃ before after, l = before ++ a :: after ∧ before.length = i := by
  obtain ⟨inside, rfl⟩ := List.getElem?_eq_some_iff.mp found
  refine ⟨l.take i, l.drop (i + 1), ?_, List.length_take_of_le inside.le⟩
  rw [List.getElem_cons_drop, List.take_append_drop]

variable {before after : List α} {a : α}

theorem memmove_down :
    memmove (before ++ a :: after) before.length (before.length + 1)
        ((before ++ a :: after).length - before.length - 1) =
      before ++ after ++ (a :: after).drop after.length := by
  have count : (before ++ a :: after).length - before.length - 1 = after.length := by
    simp
  have rest : (before ++ a :: after).drop (before.length + 1) = after := by
    rw [← drop_drop, drop_left, drop_one, tail_cons]
  rw [memmove, count, take_left, rest, take_length, ← drop_drop, drop_left]

theorem memmove_up {slots : List α} {last : α} {index : ℕ} (inside : index ≤ slots.length) :
    (memmove (slots ++ [last]) (index + 1) index ((slots ++ [last]).length - index - 1)).set index a =
      slots.take index ++ a :: slots.drop index := by
  have count : (slots ++ [last]).length - index - 1 = slots.length - index := by
    rw [length_append, length_singleton]
    omega
  have moved : ((slots ++ [last]).drop index).take (slots.length - index) = slots.drop index := by
    rw [drop_append_of_le_length inside, ← length_drop, take_left]
  have none : (slots ++ [last]).drop (index + 1 + (slots.length - index)) = [] := by
    apply drop_of_length_le
    rw [length_append, length_singleton]
    omega
  have bound : index < (slots ++ [last]).length := by
    rw [length_append, length_singleton]
    omega
  have front : ((slots ++ [last]).take index).length = index := List.length_take_of_le bound.le
  rw [memmove, count, moved, none, append_nil, take_succ_eq_append_getElem bound,
    append_assoc, set_append_right _ _ front.le, front, Nat.sub_self,
    take_append_of_le_length inside]
  rfl

theorem take_memmove_down :
    (memmove (before ++ a :: after) before.length (before.length + 1)
        ((before ++ a :: after).length - before.length - 1)).take
      ((before ++ a :: after).length - 1) = before ++ after := by
  rw [memmove_down]
  apply take_left'
  simp only [length_append, length_cons]
  omega

end Slots

theorem moveJob_eq {before after : List QueueJob} {job : QueueJob} {newIndex : ℕ}
    (inside : newIndex < (before ++ job :: after).length) :
    moveJob (before ++ job :: after) job before.length newIndex =
      (before ++ after).take newIndex ++ job :: (before ++ after).drop newIndex := by
  obtain ⟨last, single⟩ : ∃ last, (job :: after).drop after.length = [last] := by
    apply length_eq_one_iff.mp
    rw [length_drop, length_cons]
    omega
  rw [length_append, length_cons] at inside
  rw [moveJob, memmove_down, single]
  apply memmove_up
  rw [length_append]
  omega

theorem moveJob_perm {before after : List QueueJob} {job : QueueJob} {newIndex : ℕ}
    (inside : newIndex < (before ++ job :: after).length) :
    (moveJob (before ++ job :: after) job before.length newIndex).Perm
      (before ++ job :: after) := by
  rw [moveJob_eq inside]
  have out : ((before ++ after).take newIndex ++ job :: (before ++ after).drop newIndex).Perm
      (job :: ((before ++ after).take newIndex ++ (before ++ after).drop newIndex)) :=
    perm_middle
  rw [List.take_append_drop] at out
  exact out.trans perm_middle.symm

def QueueJob.Holds (job : QueueJob) (name : Name) (file : DirFile) : Prop :=
  name = jobPath job.id ∧ file = .header job.header ∨
    name = job.id ++ segmentsSuffix ∧ file = .segments (job.files.map (·.outline))

def Mirrors (dir : QueueDir) (jobs : Set QueueJob) : Prop :=
  ∀ name file, dir.files name = some file ↔ ∃ job ∈ jobs, job.Holds name file

theorem QueueJob.Holds.belongsTo {job : QueueJob} {name : Name} {file : DirFile}
    (holds : job.Holds name file) : BelongsTo name job.id :=
  holds.imp And.left And.left

section Mirror

variable {env : QueueEnv} {dir : QueueDir} {jobs : Set QueueJob} {job : QueueJob} {name : Name}

theorem Mirrors.eq_none (mirrors : Mirrors dir jobs) (foreign : ∀ id, ¬BelongsTo name id) :
    dir.files name = none := by
  apply Option.eq_none_iff_forall_ne_some.mpr
  intro file found
  obtain ⟨job, _, holds⟩ := (mirrors name file).mp found
  exact foreign job.id holds.belongsTo

theorem Mirrors.tmp (mirrors : Mirrors dir jobs) (stem : Name) :
    dir.files (stem ++ tmpSuffix) = none := by
  apply mirrors.eq_none
  intro id belongs
  have none := belongs.not_tmp
  rw [hasSuffix_append] at none
  contradiction

theorem Mirrors.progress (mirrors : Mirrors dir jobs) (stem : Name) :
    dir.files (stem ++ progressSuffix) = none :=
  mirrors.eq_none fun _ belongs => belongs.ne_progress rfl

theorem jobWriteFile_calm (calm : env.Calm) (path : Name) (data : DirFile)
    (none : dir.files (path ++ tmpSuffix) = none) :
    jobWriteFile env path data dir =
      (true, ⟨Function.update dir.files path (some data), dir.clock + 3⟩) :=
  replaceFile_calm calm none

theorem Mirrors.saved (mirrors : Mirrors dir jobs) (calm : env.Calm)
    (same : ∀ j ∈ jobs, j.id = job.id → j.files = job.files) :
    (queueSaveJob env job dir).1 = true ∧ ∀ name, (queueSaveJob env job dir).2.files name =
      if name = jobPath job.id then some (.header job.header)
      else if name = job.id ++ segmentsSuffix then some (.segments (job.files.map (·.outline)))
      else dir.files name := by
  obtain ⟨ensured, equal, segments⟩ : ∃ ensured,
      outlineFormat.jobEnsureSegmentsSaved env job (jobPath job.id) dir = ensured ∧
        ensured.files = Function.update dir.files (job.id ++ segmentsSuffix)
          (some (.segments (job.files.map (·.outline)))) := by
    refine ⟨_, rfl, ?_⟩
    rw [JobFormat.jobEnsureSegmentsSaved, jobSidecarPath_jobPath]
    split
    · rename_i there
      obtain ⟨file, found⟩ := Option.isSome_iff_exists.mp there
      obtain ⟨j, member, holds⟩ := (mirrors _ file).mp found
      rcases holds with ⟨header, _⟩ | ⟨segments, rfl⟩
      · exact absurd header.symm jobPath_ne_segments
      · rw [same j member (append_cancel_right segments).symm] at found
        rw [← found, update_eq_self]
    · rw [jobWriteFile_calm calm _ _ (mirrors.tmp _)]
      rfl
  have none : ensured.files (jobPath job.id ++ tmpSuffix) = none := by
    rw [segments, update_of_ne, mirrors.tmp]
    intro impossible
    have suffixed := hasSuffix_append (jobPath job.id) tmpSuffix
    rw [impossible, @BelongsTo.not_tmp job.id _ (.inr rfl)] at suffixed
    contradiction
  rw [queueSaveJob, jobSave, JobFormat.jobSave, equal, jobWriteFile_calm calm _ _ none]
  refine ⟨rfl, fun name => ?_⟩
  dsimp only
  rw [update_apply, segments, update_apply]
  rfl

theorem Mirrors.save (mirrors : Mirrors dir jobs) (calm : env.Calm)
    (same : ∀ j ∈ jobs, j.id = job.id → j.files = job.files) :
    (queueSaveJob env job dir).1 = true ∧
      Mirrors (queueSaveJob env job dir).2 (insert job {j ∈ jobs | j.id ≠ job.id}) := by
  obtain ⟨succeeds, files⟩ := mirrors.saved calm same
  refine ⟨succeeds, fun name file => ?_⟩
  have own : BelongsTo name job.id →
      ((queueSaveJob env job dir).2.files name = some file ↔ job.Holds name file) := by
    rw [files]
    rintro (rfl | rfl)
    · rw [if_pos rfl]
      constructor
      · intro found
        exact .inl ⟨rfl, (Option.some.inj found).symm⟩
      · rintro (⟨_, rfl⟩ | ⟨impossible, _⟩)
        · rfl
        · exact absurd impossible jobPath_ne_segments
    · rw [if_neg jobPath_ne_segments.symm, if_pos rfl]
      constructor
      · intro found
        exact .inr ⟨rfl, (Option.some.inj found).symm⟩
      · rintro (⟨impossible, _⟩ | ⟨_, rfl⟩)
        · exact absurd impossible.symm jobPath_ne_segments
        · rfl
  have other : ¬BelongsTo name job.id →
      (queueSaveJob env job dir).2.files name = dir.files name := by
    intro foreign
    rw [files, if_neg fun header => foreign (.inl header),
      if_neg fun segments => foreign (.inr segments)]
  constructor
  · intro found
    by_cases belongs : BelongsTo name job.id
    · exact ⟨job, .inl rfl, (own belongs).mp found⟩
    · rw [other belongs] at found
      obtain ⟨j, member, holds⟩ := (mirrors name file).mp found
      exact ⟨j, .inr ⟨member, fun equal => belongs (equal ▸ holds.belongsTo)⟩, holds⟩
  · rintro ⟨j, rfl | ⟨member, different⟩, holds⟩
    · exact (own holds.belongsTo).mpr holds
    · rw [other fun belongs => different (holds.belongsTo.unique belongs)]
      exact (mirrors name file).mpr ⟨j, member, holds⟩

theorem Mirrors.saveAll (calm : env.Calm) {saved : List QueueJob} (mirrors : Mirrors dir jobs)
    (ids : (saved.map (·.id)).Nodup)
    (same : ∀ job ∈ saved, ∀ j ∈ jobs, j.id = job.id → j.files = job.files) :
    Mirrors (saved.foldl (fun dir job => (queueSaveJob env job dir).2) dir)
      {j | j ∈ saved ∨ j ∈ jobs ∧ j.id ∉ saved.map (·.id)} := by
  induction saved generalizing dir jobs with
  | nil => simpa using mirrors
  | cons job rest ih =>
    rw [map_cons, nodup_cons] at ids
    have first := (mirrors.save calm (same job (.head _))).2
    have later := ih first ids.2 ?_
    · rw [foldl_cons]
      convert later using 1
      ext j
      simp only [Set.mem_ofPred_eq, Set.mem_insert_iff, mem_cons, map_cons, not_or]
      constructor
      · rintro ((rfl | member) | ⟨member, different, absent⟩)
        · exact .inr ⟨.inl rfl, ids.1⟩
        · exact .inl member
        · exact .inr ⟨.inr ⟨member, different⟩, absent⟩
      · rintro (member | ⟨rfl | ⟨member, different⟩, absent⟩)
        · exact .inl (.inr member)
        · exact .inl (.inl rfl)
        · exact .inr ⟨member, different, absent⟩
    · rintro next inRest j (rfl | ⟨member, _⟩) equal
      · rw [equal] at ids
        exact absurd (mem_map_of_mem inRest) ids.1
      · exact same next (.tail _ inRest) j member equal

theorem Mirrors.remove (mirrors : Mirrors dir jobs) (calm : env.Calm) (id : Name) :
    Mirrors (removeFile env (jobSidecarPath (jobPath id) progressSuffix)
      (removeFile env (jobSidecarPath (jobPath id) segmentsSuffix)
        (removeFile env (jobPath id) dir))) {j ∈ jobs | j.id ≠ id} := by
  intro name file
  rw [removeFile_calm calm, removeFile_calm calm, removeFile_calm calm, jobSidecarPath_jobPath,
    jobSidecarPath_jobPath, update_apply, update_apply, update_apply]
  constructor
  · intro found
    split_ifs at found with progress segments header
    obtain ⟨j, member, holds⟩ := (mirrors name file).mp found
    refine ⟨j, ⟨member, ?_⟩, holds⟩
    rintro rfl
    exact holds.belongsTo.elim header segments
  · rintro ⟨j, ⟨member, different⟩, holds⟩
    rw [if_neg holds.belongsTo.ne_progress,
      if_neg fun segments => different (holds.belongsTo.unique (.inr segments)),
      if_neg fun header => different (holds.belongsTo.unique (.inl header))]
    exact (mirrors name file).mpr ⟨j, member, holds⟩

end Mirror

def QueueJob.Unmarked (job : QueueJob) : Prop :=
  job.files = filesFrom [] 0 (job.files.map (·.outline))

structure Sound (s : QueueState) : Prop where
  increasing : s.queue.jobs.Pairwise fun a b => a.priority < b.priority
  bounded : ∀ job ∈ s.queue.jobs, 0 ≤ job.priority ∧ job.priority < s.added
  count : s.queue.jobs.length ≤ s.added
  few : s.added < 2 ^ 31
  ids : (s.queue.jobs.map (·.id)).Nodup
  unmarked : ∀ job ∈ s.queue.jobs, job.Unmarked
  mirrors : Mirrors s.dir {job | job ∈ s.queue.jobs}

theorem outline_filesFrom (bitmap : List Bool) (k : ℕ) (files : Outline) :
    (filesFrom bitmap k files).map (·.outline) = files := by
  induction files generalizing k with
  | nil => rfl
  | cons file rest ih =>
    obtain ⟨filename, ids⟩ := file
    have kept : (ids.mapIdx fun i id => (⟨id, bitmap.getD (k + i) false⟩ : Segment)).map
        (·.messageId) = ids := by
      apply ext_getElem?
      intro i
      rw [getElem?_map, getElem?_mapIdx, Option.map_map]
      exact Option.map_id_apply
    rw [filesFrom, map_cons, ih, JobFile.outline, kept]

theorem NewJob.unmarked_create (new : NewJob) : new.create.Unmarked := by
  change filesFrom [] 0 new.files = filesFrom [] 0 ((filesFrom [] 0 new.files).map (·.outline))
  rw [outline_filesFrom]

theorem wrapInt_of_lt {n : ℤ} (low : -2 ^ 31 ≤ n) (high : n < 2 ^ 31) : wrapInt n = n := by
  unfold wrapInt
  rw [Int.bmod_eq_of_le] <;> omega

section Steps

variable {env : QueueEnv} {s s' : QueueState}

theorem ensureCapacity_calm (calm : env.Calm) (q : JobQueue) (dir : QueueDir) :
    ∃ q' dir', ensureCapacity env q dir = (some q', dir') ∧ q'.jobs = q.jobs ∧
      dir'.files = dir.files := by
  unfold ensureCapacity
  split
  · exact ⟨q, dir, rfl, rfl, rfl⟩
  · rw [calm, if_neg Bool.false_ne_true]
    exact ⟨_, _, rfl, rfl, rfl⟩

theorem Sound.next (sound : Sound s) : ∃ p : ℤ, s.queue.nextPriority = p ∧
    0 ≤ p ∧ p ≤ s.added ∧ ∀ job ∈ s.queue.jobs, job.priority < p := by
  have few := sound.few
  unfold JobQueue.nextPriority
  cases last : s.queue.jobs.getLast? with
  | none =>
    rw [getLast?_eq_none_iff.mp last]
    exact ⟨0, rfl, le_rfl, Int.natCast_nonneg _, nofun⟩
  | some final =>
    have split := dropLast_append_getLast? final last
    obtain ⟨low, high⟩ := sound.bounded final (mem_of_getLast? last)
    refine ⟨final.priority + 1, wrapInt_of_lt (by omega) (by omega), by omega, by omega, ?_⟩
    intro job member
    have increasing := sound.increasing
    rw [← split] at member increasing
    rcases mem_append.mp member with earlier | here
    · have less := increasing.rel_of_mem_append earlier (mem_singleton_self final)
      omega
    · rw [mem_singleton.mp here]
      omega

theorem queueAddJob_calm (calm : env.Calm) {job : QueueJob} {q : JobQueue} {dir : QueueDir} {p : ℤ}
    (priority : q.nextPriority = p)
    (saved : (queueSaveJob env { job with priority := p } dir).1 = true) :
    ∃ q' dir', queueAddJob env job q dir = (true, q', dir') ∧
      q'.jobs = q.jobs ++ [{ job with priority := p }] ∧
      dir'.files = (queueSaveJob env { job with priority := p } dir).2.files := by
  obtain ⟨q', dir', grown, jobs, files⟩ := ensureCapacity_calm calm q
    (queueSaveJob env { job with priority := p } dir).2
  refine ⟨{ q' with jobs := q'.jobs ++ [{ job with priority := p }] }, dir', ?_, by rw [jobs], files⟩
  have outcome : queueSaveJob env { job with priority := p } dir =
      (true, (queueSaveJob env { job with priority := p } dir).2) :=
    Prod.ext saved rfl
  rw [queueAddJob, priority, outcome]
  dsimp only
  rw [grown]

theorem Mirrors.congr {dir dir' : QueueDir} {jobs jobs' : Set QueueJob} (mirrors : Mirrors dir jobs)
    (files : dir'.files = dir.files) (same : ∀ job, job ∈ jobs' ↔ job ∈ jobs) :
    Mirrors dir' jobs' := by
  rw [Set.ext same]
  intro name file
  rw [files]
  exact mirrors name file

theorem Sound.add (sound : Sound s) (calm : env.Calm) {new : NewJob}
    (admitted : Admitted s (.add new)) (step : queueStep env s (.add new) = some s') : Sound s' := by
  obtain ⟨distinct, few⟩ := admitted
  obtain ⟨p, priority, low, high, larger⟩ := sound.next
  obtain ⟨job, created⟩ : ∃ job : QueueJob, job = { new.create with priority := p } := ⟨_, rfl⟩
  have id : job.id = new.id := by rw [created]; rfl
  have own : job.priority = p := by rw [created]
  have fresh : job.Unmarked := by
    rw [created]
    exact new.unmarked_create
  obtain ⟨succeeds, mirrors⟩ := @Mirrors.save env s.dir _ job sound.mirrors calm fun j member same =>
    absurd (same.trans id) (distinct j member)
  rw [created] at succeeds
  obtain ⟨q', dir', added, jobs, files⟩ := queueAddJob_calm calm priority succeeds
  rw [← created] at jobs files
  rw [queueStep, added] at step
  cases step
  have members : ∀ j, j ∈ q'.jobs ↔ j ∈ s.queue.jobs ∨ j = job := by
    intro j
    rw [jobs, mem_append, mem_singleton]
  constructor
  · change q'.jobs.Pairwise _
    rw [jobs]
    refine pairwise_append.mpr ⟨sound.increasing, pairwise_singleton _ _, ?_⟩
    intro j member j' last
    rw [mem_singleton.mp last, own]
    exact larger j member
  · intro j member
    change 0 ≤ j.priority ∧ j.priority < ((s.added + 1 : ℕ) : ℤ)
    rcases (members j).mp member with earlier | rfl
    · have before := sound.bounded j earlier
      omega
    · omega
  · change q'.jobs.length ≤ s.added + 1
    rw [jobs, length_append]
    exact Nat.add_le_add_right sound.count 1
  · exact few
  · change (q'.jobs.map (·.id)).Nodup
    rw [jobs, map_append, map_singleton, id]
    refine nodup_append.mpr ⟨sound.ids, nodup_singleton _, ?_⟩
    intro _ member _ last
    obtain ⟨j, inQueue, rfl⟩ := mem_map.mp member
    rw [mem_singleton.mp last]
    exact distinct j inQueue
  · intro j member
    rcases (members j).mp member with earlier | rfl
    · exact sound.unmarked j earlier
    · exact fresh
  · refine mirrors.congr files fun j => (members j).trans ?_
    constructor
    · rintro (earlier | rfl)
      · exact .inr ⟨earlier, id ▸ distinct j earlier⟩
      · exact .inl rfl
    · rintro (rfl | ⟨earlier, _⟩)
      · exact .inr rfl
      · exact .inl earlier

theorem indexOf_found {q : JobQueue} {id : Name} {job : QueueJob}
    (found : q.jobs[q.indexOf id]? = some job) : ∃ before after,
      q.jobs = before ++ job :: after ∧ before.length = q.indexOf id ∧ job.id = id := by
  obtain ⟨before, after, around, length⟩ := exists_around found
  obtain ⟨inside, same⟩ := List.getElem?_eq_some_iff.mp found
  have matched : decide (q.jobs[q.indexOf id].id = id) = true :=
    @List.findIdx_getElem _ (fun job : QueueJob => decide (job.id = id)) q.jobs inside
  rw [same] at matched
  exact ⟨before, after, around, length, of_decide_eq_true matched⟩

theorem Sound.others (sound : Sound s) {before after : List QueueJob} {job : QueueJob}
    (around : s.queue.jobs = before ++ job :: after) (j : QueueJob) :
    j ∈ before ++ after ↔ j ∈ s.queue.jobs ∧ j.id ≠ job.id := by
  have ids := sound.ids
  rw [around, map_append, map_cons, nodup_middle, nodup_cons,
    ← map_append] at ids
  rw [around]
  constructor
  · intro member
    refine ⟨?_, fun same => ids.1 (same ▸ mem_map_of_mem member)⟩
    rw [mem_append, mem_cons]
    exact (mem_append.mp member).imp_right .inr
  · rintro ⟨member, different⟩
    rw [mem_append, mem_cons] at member
    rcases member with left | rfl | right
    · exact mem_append_left _ left
    · exact absurd rfl different
    · exact mem_append_right _ right

theorem Sound.change (sound : Sound s) (calm : env.Calm) {id : Name} {job changed : QueueJob}
    (found : s.queue.jobs[s.queue.indexOf id]? = some job) (sameId : changed.id = job.id)
    (samePriority : changed.priority = job.priority) (sameFiles : changed.files = job.files) :
    Sound (s.after (changeAndSave env (s.queue.indexOf id) changed s.queue s.dir)) := by
  obtain ⟨before, after, around, length, _⟩ := indexOf_found found
  have inQueue : job ∈ s.queue.jobs := by
    rw [around]
    exact mem_append_right _ (.head _)
  have jobs : s.queue.jobs.set (s.queue.indexOf id) changed = before ++ changed :: after := by
    rw [around, ← length, set_append_right _ _ le_rfl, Nat.sub_self, set_cons_zero]
  have members : ∀ j, j ∈ before ++ changed :: after ↔
      j = changed ∨ j ∈ s.queue.jobs ∧ j.id ≠ changed.id := by
    intro j
    rw [sameId, ← sound.others around, mem_append, mem_append, mem_cons]
    exact or_left_comm
  have mirrors := (@Mirrors.save env s.dir _ changed sound.mirrors calm fun j member same => by
    rw [inj_on_of_nodup_map sound.ids member inQueue (same.trans sameId), sameFiles]).2
  have increasing := sound.increasing
  have ids := sound.ids
  have count := sound.count
  rw [around] at increasing ids count
  change Sound ⟨{ s.queue with jobs := s.queue.jobs.set (s.queue.indexOf id) changed },
    (queueSaveJob env changed s.dir).2, s.added⟩
  rw [jobs]
  constructor
  · rw [← pairwise_map (f := QueueJob.priority)] at increasing ⊢
    rw [map_append, map_cons] at increasing ⊢
    rwa [samePriority]
  · intro j member
    rcases (members j).mp member with rfl | ⟨earlier, _⟩
    · rw [samePriority]
      exact sound.bounded job inQueue
    · exact sound.bounded j earlier
  · rw [length_append, length_cons] at count ⊢
    exact count
  · exact sound.few
  · rw [map_append, map_cons] at ids ⊢
    rwa [sameId]
  · intro j member
    rcases (members j).mp member with rfl | ⟨earlier, _⟩
    · rw [QueueJob.Unmarked, sameFiles]
      exact sound.unmarked job inQueue
    · exact sound.unmarked j earlier
  · exact mirrors.congr rfl members

theorem Request.keeps {job changed : QueueJob} {request : Request}
    (admitted : job.request request = some changed) :
    changed.id = job.id ∧ changed.priority = job.priority ∧ changed.files = job.files := by
  obtain ⟨core, applied, rfl⟩ := Option.map_eq_some_iff.mp admitted
  exact ⟨rfl, rfl, Request.files_of_apply applied⟩

theorem Sound.request (sound : Sound s) (calm : env.Calm) {id : Name} {request : Request}
    (step : queueStep env s (.request id request) = some s') : Sound s' := by
  cases step
  rw [queueRequestJob]
  split
  · exact sound
  rename_i job found
  split
  · exact sound
  · rename_i changed admitted
    obtain ⟨sameId, samePriority, sameFiles⟩ := Request.keeps admitted
    exact sound.change calm found sameId samePriority sameFiles

theorem Sound.worker (sound : Sound s) (calm : env.Calm) {id : Name} {state : JobState} {busy : Bool}
    {retriesUsed : ℕ} {lastError : Name}
    (step : queueStep env s (.worker id state busy retriesUsed lastError) = some s') : Sound s' := by
  obtain ⟨job, found, rfl⟩ := Option.map_eq_some_iff.mp step
  exact sound.change calm found rfl rfl rfl

theorem Sound.remove (sound : Sound s) (calm : env.Calm) {id : Name}
    (step : queueStep env s (.remove id) = some s') : Sound s' := by
  cases step
  rw [queueRemoveJob]
  split
  · exact sound
  rename_i job found
  split
  · exact sound
  obtain ⟨before, after, around, length, rfl⟩ := indexOf_found found
  have mirrors := sound.mirrors.remove calm job.id
  have shorter : (before ++ after).Sublist s.queue.jobs := by
    rw [around]
    exact (List.Sublist.refl before).append (sublist_cons_self job after)
  have jobs : (memmove s.queue.jobs (s.queue.indexOf job.id) (s.queue.indexOf job.id + 1)
      (s.queue.jobs.length - s.queue.indexOf job.id - 1)).take (s.queue.jobs.length - 1) =
        before ++ after := by
    rw [← length, around]
    exact take_memmove_down
  rw [jobs]
  exact ⟨sound.increasing.sublist shorter, fun j member => sound.bounded j (shorter.subset member),
    shorter.length_le.trans sound.count, sound.few, sound.ids.sublist (shorter.map _),
    fun j member => sound.unmarked j (shorter.subset member),
    mirrors.congr rfl (sound.others around)⟩

theorem renumberPriorities_getElem? (jobs : List QueueJob) (i : ℕ) :
    (renumberPriorities jobs)[i]? = jobs[i]?.map fun job => { job with priority := wrapInt i } :=
  getElem?_mapIdx

theorem exists_of_mem_renumberPriorities {jobs : List QueueJob} {job : QueueJob}
    (member : job ∈ renumberPriorities jobs) : ∃ (i : ℕ) (old : QueueJob), jobs[i]? = some old ∧
      job = { old with priority := wrapInt i } := by
  obtain ⟨i, found⟩ := mem_iff_getElem?.mp member
  rw [renumberPriorities_getElem?] at found
  obtain ⟨old, inJobs, same⟩ := Option.map_eq_some_iff.mp found
  exact ⟨i, old, inJobs, same.symm⟩

theorem length_renumberPriorities (jobs : List QueueJob) :
    (renumberPriorities jobs).length = jobs.length :=
  length_mapIdx

theorem ids_renumberPriorities (jobs : List QueueJob) :
    (renumberPriorities jobs).map (·.id) = jobs.map (·.id) := by
  apply ext_getElem?
  intro i
  rw [getElem?_map, renumberPriorities_getElem?, getElem?_map, Option.map_map]
  rfl

theorem increasing_renumberPriorities {jobs : List QueueJob} (few : jobs.length < 2 ^ 31) :
    (renumberPriorities jobs).Pairwise fun a b => a.priority < b.priority := by
  rw [pairwise_iff_getElem]
  intro i j hi hj less
  have inside : j < jobs.length := length_renumberPriorities jobs ▸ hj
  have number (k : ℕ) (hk : k < (renumberPriorities jobs).length) :
      (renumberPriorities jobs)[k].priority = wrapInt k := by
    simp [renumberPriorities]
  rw [number i hi, number j hj, wrapInt_of_lt (by omega) (by omega),
    wrapInt_of_lt (by omega) (by omega)]
  exact Int.ofNat_lt.mpr less

theorem Sound.reorder (sound : Sound s) (calm : env.Calm) {id : Name} {newIndex : ℕ}
    (step : queueStep env s (.reorder id newIndex) = some s') : Sound s' := by
  cases step
  rw [queueReorderJob]
  split
  · exact sound
  rename_i job found
  split
  · exact sound
  obtain ⟨before, after, around, length, rfl⟩ := indexOf_found found
  have perm : (moveJob s.queue.jobs job (s.queue.indexOf job.id) newIndex).Perm s.queue.jobs := by
    rw [← length, around]
    exact moveJob_perm (by rw [← around]; omega)
  generalize moveJob s.queue.jobs job (s.queue.indexOf job.id) newIndex = moved at perm
  have few := sound.few
  have count : moved.length ≤ s.added := perm.length_eq ▸ sound.count
  have ids : ((renumberPriorities moved).map (·.id)).Nodup := by
    rw [ids_renumberPriorities]
    exact (perm.map _).nodup_iff.mpr sound.ids
  have known : ∀ j ∈ renumberPriorities moved, ∃ old ∈ s.queue.jobs, j.id = old.id ∧
      j.files = old.files ∧ 0 ≤ j.priority ∧ j.priority < s.added := by
    intro j member
    obtain ⟨i, old, there, rfl⟩ := exists_of_mem_renumberPriorities member
    have bound := (List.getElem?_eq_some_iff.mp there).1
    refine ⟨old, perm.mem_iff.mp (List.mem_of_getElem? there), rfl, rfl, ?_⟩
    dsimp only
    rw [wrapInt_of_lt (by omega) (by omega)]
    omega
  have mirrors := sound.mirrors.saveAll calm ids fun j member old inQueue same => by
    obtain ⟨own, inQueue', sameId, sameFiles, _⟩ := known j member
    rw [sameFiles, inj_on_of_nodup_map sound.ids inQueue inQueue' (same.trans sameId)]
  refine ⟨increasing_renumberPriorities (by omega), fun j member => ?_,
    (length_renumberPriorities moved).trans_le count, few, ids, fun j member => ?_,
    mirrors.congr rfl fun j => ?_⟩
  · obtain ⟨_, _, _, _, bounded⟩ := known j member
    exact bounded
  · obtain ⟨old, inQueue, _, sameFiles, _⟩ := known j member
    rw [QueueJob.Unmarked, sameFiles]
    exact sound.unmarked old inQueue
  · -- Every job was saved again, so none is left as it was.
    rw [ids_renumberPriorities]
    constructor
    · exact .inl
    · rintro (member | ⟨inQueue, absent⟩)
      · exact member
      · exact absurd (mem_map_of_mem (perm.mem_iff.mpr inQueue)) absent

theorem sound_start : Sound start :=
  ⟨List.Pairwise.nil, nofun, le_rfl, by decide, nodup_nil, nofun, fun _ _ =>
    iff_of_false nofun fun ⟨_, member, _⟩ => not_mem_nil member⟩

theorem sound_of_reachable (calm : env.Calm)
    (reached : Transition.Reachable (queueStep env) Admitted start s) : Sound s := by
  refine reached.invariant sound_start ?_
  intro t op t' sound admitted step
  cases op with
  | add new => exact sound.add calm admitted step
  | remove id => exact sound.remove calm step
  | reorder id newIndex => exact sound.reorder calm step
  | request id request => exact sound.request calm step
  | worker id state busy retriesUsed lastError => exact sound.worker calm step

end Steps

structure Lists (entries : List Name) (dir : QueueDir) : Prop where
  nodup : entries.Nodup
  complete : ∀ name, (dir.files name).isSome → name ∈ entries
  present : ∀ name ∈ entries, name = ".".toList ∨ name = "..".toList ∨ (dir.files name).isSome

def QueueJob.restarted (job : QueueJob) : QueueJob :=
  { job.requeued with busy := false }

def loadedFrom (jobs : List QueueJob) (entry : Name) : Option QueueJob :=
  (jobs.find? fun job => jobPath job.id = entry).map (·.restarted)

theorem jobStateFromName_jobStateName (state : JobState) :
    jobStateFromName (jobStateName state) = state := by
  cases state <;> decide

section Open

variable {env : QueueEnv} {jobs : List QueueJob} {dir : QueueDir}

theorem Mirrors.jobLoad_eq (mirrors : Mirrors dir {job | job ∈ jobs}) (calm : env.Calm)
    {job : QueueJob} (member : job ∈ jobs) (unmarked : job.Unmarked) :
    ∃ dir', outlineFormat.jobLoad env (jobPath job.id) dir =
      (some { job with busy := false }, dir') ∧ dir'.files = dir.files := by
  have header : dir.files (jobPath job.id) = some (.header job.header) :=
    (mirrors _ _).mpr ⟨job, member, .inl ⟨rfl, rfl⟩⟩
  have segments : dir.files (job.id ++ segmentsSuffix) =
      some (.segments (job.files.map (·.outline))) :=
    (mirrors _ _).mpr ⟨job, member, .inr ⟨rfl, rfl⟩⟩
  have loaded : outlineFormat.loaded dir.files job.id = some { job with busy := false } := by
    rw [JobFormat.loaded, header, segments, mirrors.progress]
    change some (⟨⟨⟨jobStateFromName (jobStateName job.state), false, job.retriesUsed,
      filesFrom [] 0 (job.files.map (·.outline))⟩, job.id, job.name, job.outputDir⟩, job.priority,
      job.lastError⟩ : QueueJob) = _
    rw [jobStateFromName_jobStateName, ← unmarked]
  exact ⟨_, Prod.ext ((jobLoad_calm calm).trans loaded) rfl, jobLoad_files _ _ _ _⟩

variable (mirrors : Mirrors dir {job | job ∈ jobs}) (ids : (jobs.map (·.id)).Nodup)

include ids in
theorem loadedFrom_jobPath {job : QueueJob} (member : job ∈ jobs) :
    loadedFrom jobs (jobPath job.id) = some job.restarted := by
  have found : jobs.find? (fun j => jobPath j.id = jobPath job.id) = some job := by
    cases search : jobs.find? (fun j => jobPath j.id = jobPath job.id) with
    | none =>
      have missed := find?_eq_none.mp search job member
      simp at missed
    | some other =>
      have same := find?_some search
      have equal : other.id = job.id := append_cancel_right (of_decide_eq_true same)
      rw [inj_on_of_nodup_map ids (mem_of_find?_eq_some search) member equal]
  rw [loadedFrom, found, Option.map_some]

theorem loadedFrom_eq_some {entry : Name} {job : QueueJob}
    (loaded : loadedFrom jobs entry = some job) :
    entry = jobPath job.id ∧ ∃ old ∈ jobs, job = old.restarted := by
  obtain ⟨old, search, rfl⟩ := Option.map_eq_some_iff.mp loaded
  have same := find?_some search
  exact ⟨(of_decide_eq_true same).symm, old, mem_of_find?_eq_some search, rfl⟩

theorem loadedFrom_eq_none {entry : Name} (other : hasSuffix entry jsonSuffix = false) :
    loadedFrom jobs entry = none := by
  apply Option.eq_none_iff_forall_ne_some.mpr
  intro job loaded
  rw [(loadedFrom_eq_some loaded).1, jobPath, hasSuffix_append] at other
  contradiction

include mirrors ids in
theorem loadEntries_calm (calm : env.Calm) (unmarked : ∀ job ∈ jobs, job.Unmarked)
    {entries : List Name} (present : ∀ name ∈ entries,
      name = ".".toList ∨ name = "..".toList ∨ (dir.files name).isSome)
    (q : JobQueue) (clock : ℕ) :
    ∃ q' clock', loadEntries env entries q ⟨dir.files, clock⟩ = (q', ⟨dir.files, clock'⟩) ∧
      q'.jobs = q.jobs ++ entries.filterMap (loadedFrom jobs) := by
  induction entries generalizing q clock with
  | nil => exact ⟨q, clock, rfl, (append_nil _).symm⟩
  | cons entry rest ih =>
    have later := ih fun name member => present name (.tail _ member)
    have skipped (notTmp : hasSuffix entry tmpSuffix = false)
        (other : hasSuffix entry jsonSuffix = false) :
        ∃ q' clock', loadEntries env (entry :: rest) q ⟨dir.files, clock⟩ =
          (q', ⟨dir.files, clock'⟩) ∧
            q'.jobs = q.jobs ++ (entry :: rest).filterMap (loadedFrom jobs) := by
      rw [loadEntries, foldl_cons, JobFormat.openEntry, notTmp, other, if_neg Bool.false_ne_true,
        if_pos (by rfl), filterMap_cons_none (loadedFrom_eq_none other)]
      exact later q clock
    rcases present entry (.head _) with rfl | rfl | there
    · exact skipped (by decide) (by decide)
    · exact skipped (by decide) (by decide)
    obtain ⟨file, found⟩ := Option.isSome_iff_exists.mp there
    obtain ⟨job, member, holds⟩ := (mirrors entry file).mp found
    have notTmp := holds.belongsTo.not_tmp
    cases json : hasSuffix entry jsonSuffix with
    | false => exact skipped notTmp json
    | true =>
      obtain rfl := holds.belongsTo.eq_jobPath json
      obtain ⟨q', dir', grown, kept, files⟩ := ensureCapacity_calm calm q ⟨dir.files, clock⟩
      obtain ⟨after, loaded, files'⟩ :=
        (mirrors.congr files fun _ => Iff.rfl).jobLoad_eq calm member (unmarked job member)
      rw [loadEntries, foldl_cons, JobFormat.openEntry, notTmp, json, if_neg Bool.false_ne_true,
        if_neg (by decide), filterMap_cons_some (loadedFrom_jobPath ids member)]
      dsimp only
      rw [grown]
      dsimp only
      rw [loaded]
      obtain ⟨q'', clock', result, jobs'⟩ :=
        later { q' with jobs := q'.jobs ++ [job.restarted] } after.clock
      rw [← files, ← files'] at result
      refine ⟨q'', clock', result.trans (by rw [files', files]), ?_⟩
      rw [jobs', kept, append_assoc, singleton_append]

include mirrors ids in
theorem loaded_perm {entries : List Name} (lists : Lists entries dir) :
    (entries.filterMap (loadedFrom jobs)).Perm (jobs.map (·.restarted)) := by
  have sameIds : (jobs.map (·.restarted)).map (·.id) = jobs.map (·.id) := by
    rw [map_map]
    rfl
  have once : (entries.filterMap (loadedFrom jobs)).Nodup := by
    refine List.Nodup.filterMap ?_ lists.nodup
    intro entry entry' job loaded loaded'
    rw [(loadedFrom_eq_some loaded).1, (loadedFrom_eq_some loaded').1]
  have distinct : (jobs.map (·.restarted)).Nodup := .of_map (·.id) (sameIds ▸ ids)
  rw [perm_ext_iff_of_nodup once distinct]
  intro job
  rw [mem_filterMap, mem_map]
  constructor
  · rintro ⟨entry, _, loaded⟩
    obtain ⟨_, old, member, rfl⟩ := loadedFrom_eq_some loaded
    exact ⟨old, member, rfl⟩
  · rintro ⟨old, member, rfl⟩
    refine ⟨jobPath old.id, lists.complete _ ?_, loadedFrom_jobPath ids member⟩
    rw [(mirrors _ _).mpr ⟨old, member, .inl ⟨rfl, rfl⟩⟩]
    rfl

end Open

theorem strcmp_self (name : Name) : strcmp name name = 0 := by
  induction name with
  | nil => rfl
  | cons c rest ih => rw [strcmp, if_pos rfl, ih]

theorem Sound.increasing_restarted {s : QueueState} (sound : Sound s) :
    Increasing jobPriorityCmp (s.queue.jobs.map (·.restarted)) where
  pairwise := by
    have few := sound.few
    rw [pairwise_map]
    refine List.Pairwise.imp_of_mem ?_ sound.increasing
    intro a b inA inB less
    have boundA := sound.bounded a inA
    have boundB := sound.bounded b inB
    change (if a.priority ≠ b.priority then wrapInt (a.priority - b.priority)
        else strcmp a.id b.id) < 0 ∧ 0 < if b.priority ≠ a.priority
          then wrapInt (b.priority - a.priority) else strcmp b.id a.id
    rw [if_pos less.ne, if_pos less.ne', wrapInt_of_lt (by omega) (by omega),
      wrapInt_of_lt (by omega) (by omega)]
    omega
  self job _ := by
    rw [jobPriorityCmp, if_neg (not_not.mpr rfl), strcmp_self]

theorem Mirrors.exists_lists {dir : QueueDir} {jobs : List QueueJob}
    (mirrors : Mirrors dir {job | job ∈ jobs}) : ∃ entries, Lists entries dir := by
  refine ⟨(jobs.flatMap fun job => [jobPath job.id, job.id ++ segmentsSuffix]).dedup,
    nodup_dedup _, fun name there => ?_, fun name member => .inr (.inr ?_)⟩
  · obtain ⟨file, found⟩ := Option.isSome_iff_exists.mp there
    obtain ⟨job, member, holds⟩ := (mirrors name file).mp found
    refine mem_dedup.mpr (mem_flatMap.mpr ⟨job, member, ?_⟩)
    rcases holds.belongsTo with rfl | rfl
    · exact .head _
    · exact .tail _ (.head _)
  · obtain ⟨job, inJobs, named⟩ := mem_flatMap.mp (mem_dedup.mp member)
    rw [mem_pair] at named
    rcases named with rfl | rfl
    · rw [(mirrors _ _).mpr ⟨job, inJobs, .inl ⟨rfl, rfl⟩⟩]
      rfl
    · rw [(mirrors _ _).mpr ⟨job, inJobs, .inr ⟨rfl, rfl⟩⟩]
      rfl

/-- In every state reached the numbers increase along the queue, and a restart
finds the same jobs in the same order, whatever order `readdir` returns the files
in. -/
theorem restart_preserves_queue {env : QueueEnv}
    {qsort : (QueueJob → QueueJob → ℤ) → List QueueJob → List QueueJob} (sorts : SortsWith qsort)
    (calm : env.Calm) {s : QueueState}
    (reached : Transition.Reachable (queueStep env) Admitted start s) :
    s.queue.jobs.Pairwise (fun a b => a.priority < b.priority) ∧
      ∀ entries, Lists entries s.dir → ∃ q dir, queueOpen env qsort entries s.dir = (some q, dir) ∧
        q.jobs = s.queue.jobs.map (·.restarted) := by
  have sound := sound_of_reachable calm reached
  refine ⟨sound.increasing, fun entries lists => ?_⟩
  obtain ⟨q, clock, loaded, jobs⟩ := loadEntries_calm sound.mirrors sound.ids calm sound.unmarked
    lists.present ⟨[], 0⟩ (s.dir.clock + 1)
  rw [queueOpen, calm, if_neg Bool.false_ne_true, loaded]
  refine ⟨_, _, rfl, ?_⟩
  rw [jobs]
  exact sorts.eq_of_perm sound.increasing_restarted (loaded_perm sound.mirrors sound.ids lists)

def sampleOps : List QueueOp :=
  [.add ⟨['a'], ['a'], none, [(['f'], ["<1@x>"])]⟩, .add ⟨['b'], ['b'], none, []⟩,
    .add ⟨['c'], ['c'], none, []⟩, .reorder ['c'] 0, .worker ['a'] .verifying true 1 [],
    .request ['b'] .cancel, .remove ['b']]

theorem restart_preserves_queue_sample : ∃ s : QueueState, ∃ entries, Lists entries s.dir ∧
    s.queue.jobs.map (fun job => (job.id, job.priority, job.state)) =
      [(['c'], 0, .queued), (['a'], 1, .verifying)] ∧
    ∃ q dir, queueOpen ⟨fun _ => false, .garbage⟩ mergeSortWith entries s.dir = (some q, dir) ∧
      q.jobs.map (fun job => (job.id, job.state)) = [(['c'], .queued), (['a'], .queued)] := by
  have calm : (⟨fun _ => false, .garbage⟩ : QueueEnv).Calm := fun _ => rfl
  obtain ⟨s, reached, holds⟩ := @Transition.exists_reachable _ _
    (queueStep ⟨fun _ => false, .garbage⟩) Admitted start (fun s op => decide (Admitted s op))
    sampleOps (fun s => decide (s.queue.jobs.map (fun job => (job.id, job.priority, job.state)) =
      [(['c'], 0, .queued), (['a'], 1, .verifying)])) (fun _ _ => of_decide_eq_true)
    (by decide +kernel)
  have jobs := of_decide_eq_true holds
  obtain ⟨entries, lists⟩ := (sound_of_reachable calm reached).mirrors.exists_lists
  obtain ⟨q, dir, opened, same⟩ :=
    (restart_preserves_queue sortsWith_mergeSortWith calm reached).2 entries lists
  refine ⟨s, entries, lists, jobs, q, dir, opened, ?_⟩
  have states := congrArg (List.map fun job : Name × ℤ × JobState =>
    (job.1, if job.2.2.active then JobState.queued else job.2.2)) jobs
  rw [map_map] at states
  rw [same, map_map]
  exact states

end NzbDownloader.Queue
