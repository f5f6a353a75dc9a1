import Mathlib.Data.List.Infix
import Mathlib.Logic.Function.Basic

/-!
# A disk of files and directories

Regular files and directories by path, over arbitrary names and contents.  A
file lies in a directory and is not one itself; every operation keeps that, and
fails where the system call would.
-/

namespace NzbDownloader.Lib

universe u v

structure Disk (ν : Type u) (β : Type v) where
  file : List ν → Option β
  dir : List ν → Bool
  parent : ∀ {path content}, file path = some content → dir path.dropLast = true
  apart : ∀ {path content}, file path = some content → dir path = false

namespace Disk

variable {ν : Type u} {β : Type v} [DecidableEq ν]

def mkdir (disk : Disk ν β) (path : List ν) : Bool × Disk ν β :=
  if h : disk.dir path = true ∨ (disk.file path).isSome = true then (true, disk)
  else if disk.dir path.dropLast then
    (true, { disk with
      dir := Function.update disk.dir path true
      parent := by
        intro other content found
        by_cases same : other.dropLast = path
        · simp [same]
        · rw [Function.update_of_ne same]
          exact disk.parent found
      apart := by
        intro other content found
        have different : other ≠ path := by
          rintro rfl
          exact h (.inr (by simp [found]))
        rw [Function.update_of_ne different]
        exact disk.apart found })
  else (false, disk)

def mkdirAll (permits : List ν → Bool) : List (List ν) → Disk ν β → Bool × Disk ν β
  | [], disk => (true, disk)
  | path :: rest, disk =>
      match permits path, disk.mkdir path with
      | true, (true, disk) => mkdirAll permits rest disk
      | _, _ => (false, disk)

def mkdirP (permits : List ν → Bool) (disk : Disk ν β) (path : List ν) : Bool × Disk ν β :=
  disk.mkdirAll permits path.inits.tail

def write (disk : Disk ν β) (path : List ν) (content : β) : Option (Disk ν β) :=
  if h : disk.dir path.dropLast = true ∧ disk.dir path = false then
    some { disk with
      file := Function.update disk.file path (some content)
      parent := by
        intro other content' found
        by_cases same : other = path
        · rw [same]
          exact h.1
        · rw [Function.update_of_ne same] at found
          exact disk.parent found
      apart := by
        intro other content' found
        by_cases same : other = path
        · rw [same]
          exact h.2
        · rw [Function.update_of_ne same] at found
          exact disk.apart found }
  else none

/-- The file is written if it can be. -/
def put (disk : Disk ν β) (path : List ν) (content : β) : Disk ν β :=
  (disk.write path content).getD disk

def filter (disk : Disk ν β) (keep : List ν → Bool) : Disk ν β :=
  { disk with
    file := fun path => if keep path then disk.file path else none
    parent := by
      intro path content found
      split at found
      · exact disk.parent found
      · contradiction
    apart := by
      intro path content found
      split at found
      · exact disk.apart found
      · contradiction }

def erase (disk : Disk ν β) (path : List ν) : Disk ν β :=
  disk.filter (· ≠ path)

def rename (disk : Disk ν β) (src dst : List ν) : Option (Disk ν β) :=
  match disk.file src with
  | none => none
  | some content => if src = dst then some disk else (disk.erase src).write dst content

def removeTree (disk : Disk ν β) (path : List ν) : Disk ν β :=
  if disk.dir path then
    { disk.filter (¬path <+: ·) with
      dir := fun other => !decide (path <+: other) && disk.dir other
      parent := by
        intro other content found
        simp only [filter, decide_not, Bool.not_eq_true', decide_eq_false_iff_not] at found
        split at found
        · rename_i outside
          have above : ¬path <+: other.dropLast :=
            fun below => outside (below.trans (List.dropLast_prefix other))
          simp [above, disk.parent found]
        · contradiction
      apart := by
        intro other content found
        simp only [filter, decide_not, Bool.not_eq_true', decide_eq_false_iff_not] at found
        split at found
        · simp [disk.apart found]
        · contradiction }
  else disk

def blank : Disk ν β where
  file := fun _ => none
  dir := fun path => path.isEmpty
  parent := fun found => nomatch found
  apart := fun found => nomatch found

def ofFiles : List (List ν × β) → Disk ν β
  | [] => blank
  | (path, content) :: rest =>
      ((ofFiles rest).mkdirP (fun _ => true) path.dropLast).2.put path content

variable {disk disk' : Disk ν β} {path src dst : List ν} {content : β}

@[simp]
theorem mkdir_file (disk : Disk ν β) (path : List ν) : (disk.mkdir path).2.file = disk.file := by
  unfold mkdir
  split
  · rfl
  · split <;> rfl

variable {other : List ν}

theorem mkdir_dir_of_ne (different : other ≠ path) (disk : Disk ν β) :
    (disk.mkdir path).2.dir other = disk.dir other := by
  unfold mkdir
  split
  · rfl
  · split
    · exact Function.update_of_ne different _ _
    · rfl

theorem mkdir_dir_mono (isDir : disk.dir other) (path : List ν) :
    (disk.mkdir path).2.dir other = true := by
  unfold mkdir
  split
  · exact isDir
  split
  · by_cases same : other = path
    · simp [same]
    · exact (Function.update_of_ne same _ _).trans isDir
  · exact isDir

theorem mkdir_isDir (vacant : disk.file path = none) (made : (disk.mkdir path).1) :
    (disk.mkdir path).2.dir path = true := by
  unfold mkdir at made ⊢
  split at made
  · rename_i taken
    rw [dif_pos taken]
    exact taken.resolve_right (by simp [vacant])
  · rename_i untaken
    rw [dif_neg untaken]
    split at made
    · rename_i parent
      rw [if_pos parent]
      exact Function.update_self _ _ _
    · contradiction

section MkdirAll

variable (permits : List ν → Bool) (paths : List (List ν))

theorem mkdirAll_file (disk : Disk ν β) : (disk.mkdirAll permits paths).2.file = disk.file := by
  induction paths generalizing disk with
  | nil => rfl
  | cons path rest ih =>
    unfold mkdirAll
    split
    · rename_i made
      rw [ih, ← mkdir_file disk path, made]
    · rfl

theorem mkdirAll_dir_of_not_mem (outside : other ∉ paths) (disk : Disk ν β) :
    (disk.mkdirAll permits paths).2.dir other = disk.dir other := by
  induction paths generalizing disk with
  | nil => rfl
  | cons path rest ih =>
    rw [List.mem_cons, not_or] at outside
    unfold mkdirAll
    split
    · rename_i made
      rw [ih outside.2, ← mkdir_dir_of_ne outside.1 disk, made]
    · rfl

theorem mkdirAll_dir_mono (isDir : disk.dir other) :
    (disk.mkdirAll permits paths).2.dir other = true := by
  induction paths generalizing disk with
  | nil => exact isDir
  | cons path rest ih =>
    unfold mkdirAll
    split
    · rename_i made
      refine ih ?_
      have kept := mkdir_dir_mono isDir path
      rwa [made] at kept
    · exact isDir

theorem mkdirAll_isDir (member : other ∈ paths) (vacant : disk.file other = none)
    (made : disk.mkdirAll permits paths = (true, disk')) : disk'.dir other = true := by
  induction paths generalizing disk with
  | nil => cases member
  | cons path rest ih =>
    unfold mkdirAll at made
    split at made
    · rename_i disk₁ _ created
      have files := mkdir_file disk path
      rw [created] at files
      rcases List.mem_cons.mp member with rfl | later
      · have here := mkdir_isDir vacant (by rw [created])
        have kept := mkdirAll_dir_mono permits rest here
        rwa [created, made] at kept
      · exact ih later (by rw [files, vacant]) made
    · cases made

theorem mkdirAll_of_made (permitted : permits path)
    (made : disk.mkdir path = (true, disk')) :
    disk.mkdirAll permits (path :: paths) = disk'.mkdirAll permits paths := by
  simp only [mkdirAll, permitted, made]

theorem mkdirAll_of_failed (failed : ¬(permits path = true ∧ (disk.mkdir path).1)) :
    disk.mkdirAll permits (path :: paths) = (false, disk) := by
  rw [mkdirAll]
  split
  · rename_i permitted made
    exact absurd ⟨permitted, congrArg Prod.fst made⟩ failed
  · rfl

theorem mkdirAll_congr (dirs : disk'.dir = disk.dir)
    (files : ∀ path ∈ paths, (disk'.file path).isSome = (disk.file path).isSome) :
    (disk'.mkdirAll permits paths).1 = (disk.mkdirAll permits paths).1 ∧
      (disk'.mkdirAll permits paths).2.dir = (disk.mkdirAll permits paths).2.dir := by
  induction paths generalizing disk disk' with
  | nil => exact ⟨rfl, dirs⟩
  | cons path rest ih =>
    have here := files path (.head _)
    have made : (disk'.mkdir path).1 = (disk.mkdir path).1 ∧
        (disk'.mkdir path).2.dir = (disk.mkdir path).2.dir := by
      unfold mkdir
      simp only [dirs, here]
      split_ifs <;> exact ⟨rfl, by simp [dirs]⟩
    rw [mkdirAll, mkdirAll]
    rcases first : disk.mkdir path with ⟨ok, disk₁⟩
    rcases second : disk'.mkdir path with ⟨ok', disk₁'⟩
    have files₁ := mkdir_file disk path
    have files₁' := mkdir_file disk' path
    rw [first, second] at made
    rw [first] at files₁
    rw [second] at files₁'
    obtain ⟨rfl, dirs₁⟩ := made
    cases permits path <;> cases ok'
    all_goals dsimp only at dirs₁ ⊢
    · exact ⟨rfl, dirs⟩
    · exact ⟨rfl, dirs⟩
    · exact ⟨rfl, dirs⟩
    · refine ih dirs₁ fun other member => ?_
      rw [files₁, files₁']
      exact files other (.tail _ member)

theorem mkdir_again (taken : disk.dir path ∨ (disk.file path).isSome) :
    disk.mkdir path = (true, disk) := by
  rw [mkdir, dif_pos taken]

theorem mkdir_taken (made : disk.mkdir path = (true, disk')) :
    disk'.dir path = true ∨ (disk'.file path).isSome = true := by
  by_cases taken : disk.dir path = true ∨ (disk.file path).isSome = true
  · rw [mkdir_again taken] at made
    cases made
    exact taken
  · rw [mkdir, dif_neg taken] at made
    split at made
    · cases made
      exact .inl (Function.update_self _ _ _)
    · cases made

theorem mkdirAll_mkdirAll (disk : Disk ν β) :
    (disk.mkdirAll permits paths).2.mkdirAll (fun _ => true) paths =
      disk.mkdirAll (fun _ => true) paths := by
  induction paths generalizing disk with
  | nil => rfl
  | cons path rest ih =>
    by_cases first : permits path = true ∧ (disk.mkdir path).1 = true
    · have made : disk.mkdir path = (true, (disk.mkdir path).2) := Prod.ext first.2 rfl
      generalize (disk.mkdir path).2 = disk₁ at made
      have taken : (disk₁.mkdirAll permits rest).2.dir path ∨
          ((disk₁.mkdirAll permits rest).2.file path).isSome = true := by
        rw [mkdirAll_file]
        exact (mkdir_taken made).imp_left (mkdirAll_dir_mono permits rest)
      rw [mkdirAll_of_made permits rest first.1 made, mkdirAll_of_made _ rest rfl made,
        mkdirAll_of_made _ rest rfl (mkdir_again taken), ih]
    · rw [mkdirAll_of_failed permits rest first]

end MkdirAll

theorem write_spec (written : disk.write path content = some disk') :
    disk'.file = Function.update disk.file path (some content) ∧ disk'.dir = disk.dir := by
  unfold write at written
  split at written
  · cases written
    exact ⟨rfl, rfl⟩
  · contradiction

theorem write_isSome_iff : (disk.write path content).isSome ↔
    disk.dir path.dropLast = true ∧ disk.dir path = false := by
  rw [write]
  split
  · rename_i possible
    exact iff_of_true rfl possible
  · rename_i impossible
    exact iff_of_false nofun impossible

theorem put_file_of_ne (different : other ≠ path) (content : β) :
    (disk.put path content).file other = disk.file other := by
  rw [put]
  cases written : disk.write path content with
  | none => rfl
  | some disk' =>
    rw [Option.getD_some, (write_spec written).1, Function.update_of_ne different]

theorem put_dir (disk : Disk ν β) (path : List ν) (content : β) :
    (disk.put path content).dir = disk.dir := by
  rw [put]
  cases written : disk.write path content with
  | none => rfl
  | some disk' => rw [Option.getD_some, (write_spec written).2]

theorem put_file_self (isDir : disk.dir path.dropLast) (free : disk.dir path = false)
    (content : β) : (disk.put path content).file path = some content := by
  simp [put, write, isDir, free]

@[simp]
theorem erase_file_self (disk : Disk ν β) (path : List ν) : (disk.erase path).file path = none := by
  simp [erase, filter]

theorem erase_file_of_ne (different : other ≠ path) (disk : Disk ν β) :
    (disk.erase path).file other = disk.file other := by
  simp [erase, filter, different]

theorem rename_spec (different : src ≠ dst) (renamed : disk.rename src dst = some disk') :
    ∃ content, disk.file src = some content ∧
      disk'.file = Function.update (disk.erase src).file dst (some content) ∧
      disk'.dir = disk.dir := by
  unfold rename at renamed
  split at renamed
  · contradiction
  · rename_i content found
    rw [if_neg different] at renamed
    exact ⟨content, found, write_spec renamed⟩

theorem rename_frame (renamed : disk.rename src dst = some disk') :
    disk'.dir = disk.dir ∧ ∀ path, path ≠ src → path ≠ dst → disk'.file path = disk.file path := by
  by_cases same : src = dst
  · unfold rename at renamed
    split at renamed
    · contradiction
    · rw [if_pos same] at renamed
      cases renamed
      exact ⟨rfl, fun _ _ _ => rfl⟩
  · obtain ⟨content, _, files, dirs⟩ := rename_spec same renamed
    refine ⟨dirs, fun path notSrc notDst => ?_⟩
    rw [files, Function.update_of_ne notDst, erase_file_of_ne notSrc]

theorem rename_isSome_iff : (disk.rename src dst).isSome ↔
    (disk.file src).isSome = true ∧
      (src = dst ∨ disk.dir dst.dropLast ∧ disk.dir dst = false) := by
  rw [rename]
  cases disk.file src with
  | none => exact iff_of_false nofun (fun both => nomatch both.1)
  | some content =>
    by_cases same : src = dst
    · simp [same]
    · simp only [same, false_or, Option.isSome_some, true_and]
      exact write_isSome_iff

theorem mkdirP_file (permits : List ν → Bool) (disk : Disk ν β) (path : List ν) :
    (disk.mkdirP permits path).2.file = disk.file :=
  mkdirAll_file permits _ disk

theorem mkdirP_dir_mono (permits : List ν → Bool) (path : List ν) (isDir : disk.dir other) :
    (disk.mkdirP permits path).2.dir other = true :=
  mkdirAll_dir_mono permits _ isDir

theorem mkdirP_dir_below (permits : List ν → Bool) (disk : Disk ν β) (path : List ν) (name : ν) :
    (disk.mkdirP permits path).2.dir (path ++ [name]) = disk.dir (path ++ [name]) := by
  refine mkdirAll_dir_of_not_mem permits _ (fun member => ?_) disk
  have shorter := ((List.mem_inits _ _).mp (List.mem_of_mem_tail member)).length_le
  rw [List.length_append, List.length_singleton] at shorter
  omega

theorem mkdirP_isDir {permits : List ν → Bool} (proper : path ≠ [])
    (vacant : disk.file path = none) (made : disk.mkdirP permits path = (true, disk')) :
    disk'.dir path = true := by
  refine mkdirAll_isDir permits _ ?_ vacant made
  obtain ⟨first, rest, rfl⟩ := List.exists_cons_of_ne_nil proper
  simp [List.inits]

theorem removeTree_file_of_not_below (outside : ¬path <+: other) (disk : Disk ν β) :
    (disk.removeTree path).file other = disk.file other := by
  unfold removeTree
  split
  · simp [filter, outside]
  · rfl

theorem removeTree_file_cases (disk : Disk ν β) (path other : List ν) :
    (disk.removeTree path).file other = disk.file other ∨
      path <+: other ∧ (disk.removeTree path).file other = none := by
  unfold removeTree
  split
  · by_cases below : path <+: other
    · exact .inr ⟨below, by simp [filter, below]⟩
    · exact .inl (by simp [filter, below])
  · exact .inl rfl

theorem removeTree_file_below (isDir : disk.dir path) (below : path <+: other) :
    (disk.removeTree path).file other = none := by
  simp [removeTree, isDir, filter, below]

end Disk

end NzbDownloader.Lib
