import Mathlib.Data.List.Basic

/-!
# A directory of files that are replaced as a whole

A file is written under a temporary name and then renamed, so that a call that
fails leaves the file as it was.  Which calls fail is given by their number.
-/

namespace NzbDownloader.Lib

open Function

universe u v

variable {ν : Type u} {α : Type v}

structure Folder (ν : Type u) (α : Type v) where
  files : ν → Option α
  clock : ℕ

structure Faults (α : Type v) where
  fails : ℕ → Bool
  torn : α

def Faults.Calm (env : Faults α) : Prop :=
  ∀ n, env.fails n = false

section Calls

variable [DecidableEq ν] (env : Faults α)

def replaceFile (tmp path : ν) (data : α) (dir : Folder ν α) : Bool × Folder ν α :=
  -- The content is built and the temporary file opened.
  if env.fails dir.clock then (false, ⟨dir.files, dir.clock + 1⟩)
  else if env.fails (dir.clock + 1) then
    (false, ⟨update dir.files tmp (some env.torn), dir.clock + 2⟩)
  else if env.fails (dir.clock + 2) then
    (false, ⟨update dir.files tmp (some data), dir.clock + 3⟩)
  else
    (true, ⟨update (update dir.files tmp none) path (some data), dir.clock + 3⟩)

def removeFile (path : ν) (dir : Folder ν α) : Folder ν α :=
  ⟨if env.fails dir.clock then dir.files else update dir.files path none, dir.clock + 1⟩

def readFile (path : ν) (dir : Folder ν α) : Option α × Folder ν α :=
  (if env.fails dir.clock then none else dir.files path, ⟨dir.files, dir.clock + 1⟩)

variable {env} {tmp path name : ν} {data : α} {dir : Folder ν α}

theorem replaceFile_succeeds (succeeds : (replaceFile env tmp path data dir).1) :
    (replaceFile env tmp path data dir).2.files =
      update (update dir.files tmp none) path (some data) := by
  unfold replaceFile at succeeds ⊢
  split_ifs at succeeds ⊢
  rfl

theorem replaceFile_of_ne (notTmp : name ≠ tmp) (notPath : name ≠ path) :
    (replaceFile env tmp path data dir).2.files name = dir.files name := by
  unfold replaceFile
  split_ifs
  · rfl
  · exact update_of_ne notTmp _ _
  · exact update_of_ne notTmp _ _
  · exact (update_of_ne notPath _ _).trans (update_of_ne notTmp _ _)

theorem replaceFile_path (different : path ≠ tmp) :
    (replaceFile env tmp path data dir).2.files path = dir.files path ∨
      (replaceFile env tmp path data dir).2.files path = some data := by
  unfold replaceFile
  split_ifs
  · exact .inl rfl
  · exact .inl (update_of_ne different _ _)
  · exact .inl (update_of_ne different _ _)
  · exact .inr (update_self _ _ _)

theorem replaceFile_absent_iff :
    (replaceFile env tmp path data dir).2.files tmp = none ∧
        (replaceFile env tmp path data dir).2.files path = none ↔
      (dir.files tmp = none ∧ dir.files path = none) ∧ env.fails dir.clock = true := by
  unfold replaceFile
  split_ifs with opening
  · simp [opening]
  · simp [opening]
  · simp [opening]
  · simp [opening]

theorem replaceFile_of_not_opened (opening : env.fails dir.clock) :
    replaceFile env tmp path data dir = (false, ⟨dir.files, dir.clock + 1⟩) := by
  rw [replaceFile, if_pos opening]

theorem replaceFile_calm (calm : env.Calm) (none : dir.files tmp = none) :
    replaceFile env tmp path data dir =
      (true, ⟨update dir.files path (some data), dir.clock + 3⟩) := by
  have kept : update dir.files tmp .none = dir.files := by
    rw [← none, update_eq_self]
  simp only [replaceFile, calm _, Bool.false_eq_true, if_false, kept]

theorem removeFile_calm (calm : env.Calm) (path : ν) (dir : Folder ν α) :
    (removeFile env path dir).files = update dir.files path none := by
  rw [removeFile, calm, if_neg Bool.false_ne_true]

omit [DecidableEq ν] in
theorem readFile_calm (calm : env.Calm) (path : ν) (dir : Folder ν α) :
    readFile env path dir = (dir.files path, ⟨dir.files, dir.clock + 1⟩) := by
  rw [readFile, calm, if_neg Bool.false_ne_true]

end Calls

end NzbDownloader.Lib
