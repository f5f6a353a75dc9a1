import NzbDownloader.Download.System
import NzbDownloader.Par2.Collect
import NzbDownloader.Par2.Verify
import NzbDownloader.Storage.Layout

/-!
# Verification inside a download

`par2_verify_job` and `par2_repair_job` of `download/download.c`, and
`download_job` with the temp directory it works on.  The control flow is that of
`dlStep`; here the outcome of a scan, a verification or a repair is what the
modelled call gives on the bytes on disk.
-/

namespace NzbDownloader.Download

open Lib Lib.Effect Util Par2 Queue Storage List Function String

def tempPath (dir : String) (name : Name) : String :=
  par2Path dir (ofList (pathSanitizeComponent name))

def par2FindFile (set : Par2Set) (name : Name) : Option Par2File :=
  set.files.find? (·.name = ofList name)

def trimFile (env : Env) (pf : Par2File) (path : String) : RepairM Unit :=
  modify fun w =>
    match w.disk path with
    | some content =>
        if env.statFails path = false ∧ pf.length > 0 ∧ (content.length : ℤ) > pf.length ∧
            env.truncateFails path = false then
          { w with disk := update w.disk path (some (content.take pf.length.toNat)) }
        else w
    | none => w

def verifyError (name : Name) (report : VerifyReport) : String :=
  if report.result = .damaged then
    "PAR2 verify: " ++ ofList name ++ ": " ++ toString report.badBlocks ++ " of " ++
      toString report.blockCount ++ " blocks corrupt/missing"
  else
    "PAR2 verify: " ++ ofList name ++
      ": content does not match (no block-level detail available)"

/-- The loop of `par2_verify_job`: the error text if a file failed, and the files
that verified, in addition to those in `passed`. -/
def verifyFiles (env : Env) (set : Par2Set) (dir : String) :
    List Name → List Name → RepairM (Option String × List Name)
  | [], passed => return (none, passed)
  | name :: rest, passed =>
      match par2FindFile set name with
      | none => verifyFiles env set dir rest passed
      | some pf => do
          trimFile env pf (tempPath dir name)
          match ← par2VerifyFile env set pf (tempPath dir name) with
          | none => return (some ("PAR2 verify: could not read " ++ ofList name), passed)
          | some report =>
              if report.result = .ok then verifyFiles env set dir rest (name :: passed)
              else return (some (verifyError name report), passed)

section Verify

variable {env : Env} {set : Par2Set} {dir path : String}

theorem keeps_trimFile {pf : Par2File} {own : String} (other : path ≠ own) :
    Keeps (fun w => w.disk path) (trimFile env pf own) := by
  apply leads_modify
  intro w
  split
  · split
    · exact update_of_ne other _ _
    · rfl
  · rfl

theorem keeps_verifyFiles {names : List Name} {passed : List Name}
    (other : ∀ name ∈ names, ∀ pf, par2FindFile set name = some pf → path ≠ tempPath dir name) :
    Keeps (fun w => w.disk path) (verifyFiles env set dir names passed) := by
  induction names generalizing passed with
  | nil => exact leads_pure
  | cons name rest ih =>
    have later (passed : List Name) := @ih passed fun next member =>
      other next (.tail _ member)
    rw [verifyFiles]
    split
    · exact later passed
    rename_i pf found
    apply leads_bind (keeps_trimFile (other name (.head _) pf found))
    intro _
    apply leads_bind (Keeps.comp quiet_par2VerifyFile (· path))
    intro outcome
    cases outcome with
    | none => exact leads_pure
    | some report =>
      dsimp only
      split
      · exact later (name :: passed)
      · exact leads_pure

theorem verifyFiles_passed {names passed passed' : List Name} {w w' : World}
    (returns : Returns (verifyFiles env set dir names passed) w (none, passed') w') :
    (∀ name ∈ passed, name ∈ passed') ∧
      ∀ name ∈ names, (par2FindFile set name).isSome → name ∈ passed' := by
  induction names generalizing passed w with
  | nil =>
    obtain ⟨same, _⟩ := returns_pure.mp returns
    cases same
    exact ⟨fun _ member => member, nofun⟩
  | cons name rest ih =>
    rw [verifyFiles] at returns
    split at returns
    · rename_i uncovered
      obtain ⟨kept, covered⟩ := ih returns
      refine ⟨kept, fun other member found => ?_⟩
      rcases mem_cons.mp member with rfl | later
      · simp [uncovered] at found
      · exact covered other later found
    · obtain ⟨_, t, _, checked⟩ := returns_bind.mp returns
      obtain ⟨outcome, t', _, judged⟩ := returns_bind.mp checked
      cases outcome with
      | none =>
        obtain ⟨impossible, _⟩ := returns_pure.mp judged
        cases impossible
      | some report =>
        dsimp only at judged
        split at judged
        · obtain ⟨kept, covered⟩ := ih judged
          refine ⟨fun other member => kept other (.tail _ member),
            fun other member found => ?_⟩
          rcases mem_cons.mp member with rfl | later
          · exact kept _ (.head _)
          · exact covered other later found
        · obtain ⟨impossible, _⟩ := returns_pure.mp judged
          cases impossible

end Verify

def repairFiles (dir : String) (names : List Name) : List RepairFile :=
  names.map fun name => ⟨ofList name, tempPath dir name⟩

structure Checked where
  job : Job
  point : Option DlPoint
  handed : Bool
  world : World
  set : ScanSet
  /-- History: the files for which `par2_verify_file` returned `PAR2_VERIFY_OK`
  in the last `par2_verify_job`. -/
  passed : List Name

def Checked.names (s : Checked) : List Name :=
  s.job.files.map (·.filename)

def Checked.setDisk (s : Checked) (disk : String → Option Bytes) : Checked :=
  { s with world := { s.world with disk := disk } }

structure Choice where
  /-- The outcome of a call that is not modelled here; at a scan, whether there is
  memory. -/
  ok : Bool
  quiet : Bool
  rounds : ℕ
  entries : Option (List String)
  volumes : Name → Option Bytes

inductive CheckedAct where
  | go (choice : Choice)
  | other (job : Job)

variable {bytes : Name → Option Bytes}

section Run

variable (env : Env) (qsort : List Par2Slice → List Par2Slice) (dir : String)
  (content : Name → Bytes) (maxRetries : ℕ)

def storeFiles (names : List Name) (bytes : Name → Option Bytes) (disk : String → Option Bytes) :
    String → Option Bytes :=
  names.foldl (fun disk name => update disk (tempPath dir name) (bytes name)) disk

variable {dir} in
theorem storeFiles_of_ne {path : String} {names : List Name}
    (other : ∀ name ∈ names, path ≠ tempPath dir name) (disk : String → Option Bytes) :
    storeFiles dir names bytes disk path = disk path := by
  induction names generalizing disk with
  | nil => rfl
  | cons name rest ih =>
    rw [storeFiles, foldl_cons, ← storeFiles,
      ih (fun next member => other next (.tail _ member)),
      update_of_ne (other name (.head _))]

variable {dir} in
theorem storeFiles_of_mem {names : List Name} {name : Name} (member : name ∈ names)
    (paths : ∀ other ∈ names, tempPath dir name = tempPath dir other → name = other)
    (disk : String → Option Bytes) :
    storeFiles dir names bytes disk (tempPath dir name) = bytes name := by
  induction names using List.reverseRecOn with
  | nil => contradiction
  | append_singleton front last ih =>
    rw [storeFiles, foldl_append, foldl_cons, foldl_nil, ← storeFiles]
    by_cases same : tempPath dir name = tempPath dir last
    · rw [same, update_self, paths last (by simp) same]
    rw [update_of_ne same]
    have inFront : name ∈ front := by
      rcases mem_append.mp member with earlier | here
      · exact earlier
      · rw [mem_singleton.mp here] at same
        contradiction
    exact ih inFront fun other inFront => paths other (mem_append_left _ inFront)

/-- The call at a point: its outcome and what it changes.  Every article is there,
so that all content has arrived when the completeness check succeeds. -/
def perform (choice : Choice) (s : Checked) : DlPoint → Option (Bool × Checked)
  | .opening _ | .segFetch .. => some (true, s)
  | .waiting .volumes =>
      some (choice.ok, s.setDisk
        (storeFiles dir (s.names.filter jobFileIsPar2Volume) choice.volumes s.world.disk))
  | .counting =>
      if s.job.contentComplete then
        some (choice.ok, s.setDisk
          (storeFiles dir (s.names.filter fun name => !jobFileIsPar2Volume name)
            (fun name => some (content name)) s.world.disk))
      else some (choice.ok, s)
  | .scanning _ =>
      if choice.ok then do
        let set ← par2ScanDir choice.rounds env.md5 qsort s.world.disk dir choice.entries
        return (set.files.length ≠ 0, { s with set := set, passed := [] })
      else some (false, { s with passed := [] })
  | .verifying _ =>
      match verifyFiles env s.set.toPar2Set dir s.names [] s.world with
      | .ok (err, passed) world => some (err.isNone, { s with world := world, passed := passed })
      | .error _ _ => none
  | .repairPrep => do
      let set ← par2ScanDir choice.rounds env.md5 qsort s.world.disk dir choice.entries
      return (decide (set.files.length ≠ 0) && choice.ok, { s with set := set })
  | .repairing =>
      match par2RepairSet env s.set.toPar2Set (repairFiles dir s.names) s.world with
      | .ok _ world => some (true, { s with world := world })
      | .error _ world => some (false, { s with world := world })
  | _ => some (choice.ok, s)

def checkedStep (s : Checked) : CheckedAct → Option Checked
  | .other job =>
      if job.files.map (·.filename) = s.names then some { s with job := job } else none
  | .go choice => do
      let point ← s.point
      let (ok, t) ← perform env qsort dir content choice s point
      let effect ← dlStep maxRetries choice.quiet t.job ok point
      return { t with job := effect.job, point := effect.next, handed := effect.enqueued }

end Run

end NzbDownloader.Download
