import NzbDownloader.Par2.RepairSteps

/-!
# Repairing what is whole

A repair in which no call fails and every file of the set is whole finds all
blocks present and returns without touching the disk.
-/

namespace NzbDownloader.Par2

open Lib Lib.Effect List

structure Whole (env : Env) (blockSize : ℕ) (pf : Par2File) (content : Bytes) : Prop where
  block : ∀ md5s, pf.blockMd5 = some md5s → ∀ bi < pf.blockCount,
    blockBad env pf md5s bi (paddedBlock blockSize content bi) = false
  file : pf.blockMd5 = none ∨ pf.blockCount = 0 → env.md5 content = pf.hashFull

variable {pf : Par2File} {path : String} {content : Bytes} {present : ℕ → Bool}

section Smooth

variable {env : Env} {set : Par2Set} {files : List RepairFile} {disk : String → Option Bytes}

variable (smooth : ∀ n, env.fails n = false)
include smooth

omit smooth in
theorem assignBlocks_congr {value value' : ℕ → Bool}
    (agree : ∀ bi < pf.blockCount, value bi = value' bi) :
    assignBlocks present pf value = assignBlocks present pf value' := by
  funext g
  unfold assignBlocks
  split
  · exact agree _ (by omega)
  · rfl

theorem answers_scanFile (found : disk path = some content)
    (whole : Whole env set.blockSize.toNat pf content) (present : ℕ → Bool) :
    Answers (fun w => w.disk = disk) (scanFile env set present (pf, path))
      (assignBlocks present pf fun _ => true) := by
  unfold scanFile
  dsimp only
  split
  · rename_i md5s entries _
    apply (answers_allocate smooth).bind
    have scanned := @answers_withFile env disk smooth _ path
      (some (replicate pf.blockCount true)) none fun content =>
        some ((range pf.blockCount).map fun bi =>
          blockBad env pf md5s bi (paddedBlock set.blockSize.toNat content bi))
    rw [found] at scanned
    apply scanned.bind
    have good : assignBlocks present pf (fun bi => !((range pf.blockCount).map fun bi =>
        blockBad env pf md5s bi (paddedBlock set.blockSize.toNat content bi)).getD bi true) =
          assignBlocks present pf fun _ => true := by
      apply assignBlocks_congr
      intro bi inside
      simp [getD_eq_getElem?_getD, inside, whole.block md5s entries bi inside]
    rw [← good]
    exact answers_pure _
  · rename_i unchecked
    have hashed : env.md5 content = pf.hashFull := by
      apply whole.file
      cases entries : pf.blockMd5 with
      | none => exact .inl rfl
      | some md5s =>
        refine .inr (Nat.eq_zero_of_not_pos fun counted => ?_)
        exact unchecked md5s entries (decide_eq_true counted)
    have hashed' := @answers_withFile env disk smooth _ path none none fun content =>
      some (env.md5 content)
    rw [found] at hashed'
    apply hashed'.bind
    have good : (fun _ : ℕ => decide (some (env.md5 content) = some pf.hashFull)) =
        fun _ => true := by
      funext
      simp [hashed]
    rw [← good]
    exact answers_pure _

omit smooth in
theorem foldl_assignBlocks {entries : List (Par2File × String)} {g : ℕ}
    (marked : present g ∨ ∃ entry ∈ entries, entry.1.Owns g) :
    entries.foldl (fun present entry => assignBlocks present entry.1 fun _ => true) present g =
      true := by
  induction entries generalizing present with
  | nil =>
    rcases marked with here | ⟨_, none, _⟩
    · exact here
    · contradiction
  | cons entry rest ih =>
    apply ih
    by_cases owns : entry.1.Owns g
    · exact .inl (if_pos owns)
    rcases marked with here | ⟨other, member, owned⟩
    · exact .inl ((if_neg owns).trans here)
    · rcases mem_cons.mp member with rfl | later
      · exact absurd owned owns
      · exact .inr ⟨other, later, owned⟩

/-- The entries `par2_repair_set` works on, if the job has a file for each of them. -/
def resolvedFiles (set : Par2Set) (files : List RepairFile) : List (Par2File × String) :=
  (recoveryFiles set).map fun pf => (pf, (pathOf files pf).getD "")

/-- The scan of a job that has every file of the set, from what it finds in each of them. -/
theorem answers_findDamage {scan : (ℕ → Bool) → Par2File × String → ℕ → Bool}
    (sized : 0 < set.blockSize) (counted : 0 < set.sourceBlockCount)
    (named : ∀ pf ∈ recoveryFiles set, (pathOf files pf).isSome = true)
    (each : ∀ present, ∀ entry ∈ resolvedFiles set files,
      Answers (fun w => w.disk = disk) (scanFile env set present entry) (scan present entry)) :
    Answers (fun w => w.disk = disk) (findDamage env set files)
      (resolvedFiles set files, (resolvedFiles set files).foldl scan fun _ => false) := by
  rw [findDamage, if_neg (by omega)]
  apply (answers_allocate smooth).bind
  refine Answers.bind (a := resolvedFiles set files) (answers_mapM fun pf member => ?_)
    ((answers_allocate smooth).bind ((answers_foldlM each).bind (answers_pure _)))
  obtain ⟨path, known⟩ := Option.isSome_iff_exists.mp (named pf member)
  obtain ⟨file, found, rfl⟩ := Option.map_eq_some_iff.mp known
  rw [resolvePath, found, known]
  exact (answers_allocate smooth).bind (answers_pure _)

def AllWhole (env : Env) (set : Par2Set) (files : List RepairFile)
    (disk : String → Option Bytes) : Prop :=
  ∀ pf ∈ recoveryFiles set, ∃ file content, files.find? (·.name = pf.name) = some file ∧
    disk file.path = some content ∧ Whole env set.blockSize.toNat pf content

theorem AllWhole.answers_findDamage (whole : AllWhole env set files disk)
    (sized : 0 < set.blockSize) (counted : 0 < set.sourceBlockCount) :
    ∃ resolved present, Answers (fun w => w.disk = disk) (findDamage env set files)
      (resolved, present) ∧ ∀ pf ∈ recoveryFiles set, ∀ g, pf.Owns g → present g = true := by
  have answers : Answers (fun w => w.disk = disk) (findDamage env set files)
      (resolvedFiles set files, (resolvedFiles set files).foldl
        (fun present entry => assignBlocks present entry.1 fun _ => true) fun _ => false) := by
    apply Par2.answers_findDamage smooth sized counted
    · intro pf member
      obtain ⟨file, _, found, _⟩ := whole pf member
      rw [pathOf, found]
      rfl
    · intro flags entry member
      obtain ⟨pf, inSet, rfl⟩ := mem_map.mp member
      obtain ⟨file, content, found, stored, good⟩ := whole pf inSet
      apply answers_scanFile smooth _ good
      simpa only [pathOf, found, Option.map_some, Option.getD_some] using stored
  exact ⟨_, _, answers, fun pf member g owns =>
    foldl_assignBlocks (.inr ⟨_, mem_map_of_mem member, owns⟩)⟩

theorem answers_planRepair (few : set.sourceBlockCount ≤ 32768)
    (all : ∀ g : ℕ, (g : ℤ) < set.sourceBlockCount → present g) :
    Answers (fun w => w.disk = disk) (planRepair env set present) none := by
  obtain ⟨database, assigned⟩ :=
    @exists_assignBases set.sourceBlockCount.toNat 0 (by rw [Nat.count_zero]; omega)
  have missing : ((range set.sourceBlockCount.toNat).filter fun i => !present i) = [] := by
    rw [filter_eq_nil_iff]
    intro g member
    rw [all g (by have := mem_range.mp member; omega)]
    simp
  unfold planRepair
  apply (answers_allocate smooth).bind
  rw [assigned]
  apply (answers_allocate smooth).bind
  apply (answers_allocate smooth).bind
  simp only [missing, length_nil, if_true]
  exact answers_pure none

theorem answers_par2RepairSet (whole : AllWhole env set files disk) (sized : 0 < set.blockSize)
    (counted : 0 < set.sourceBlockCount) (few : set.sourceBlockCount ≤ 32768)
    (owned : ∀ g : ℕ, (g : ℤ) < set.sourceBlockCount → ∃ pf ∈ recoveryFiles set, pf.Owns g) :
    Answers (fun w => w.disk = disk) (par2RepairSet env set files) () := by
  obtain ⟨resolved, present, found, marked⟩ := whole.answers_findDamage smooth sized counted
  apply found.bind
  apply (answers_planRepair smooth few _).bind
  · exact answers_pure ()
  · intro g inside
    obtain ⟨pf, member, owns⟩ := owned g inside
    exact marked pf member g owns

end Smooth

end NzbDownloader.Par2
