import NzbDownloader.Lib.Effect
import NzbDownloader.Par2.Accumulate
import NzbDownloader.Par2.Bases
import NzbDownloader.Par2.Solve
import NzbDownloader.Util.Crc32

/-!
# Repairing a recovery set

`par2_repair_set` of `par2/par2.c` and the functions it calls.  A program step is
a computation over the disk; ending with an error text is the return value `-1`
with that text in `err`, and keeps what was written before.  What the operating
system decides is read from an `Env`: which allocations, opens, reads and writes
fail, whether the progress callback aborts, and the MD5 of a byte string.
-/

namespace NzbDownloader.Par2

open Lib

abbrev Digest := BitVec 128

structure Par2File where
  name : String
  hashFull : Digest
  length : ℤ
  blockMd5 : Option (List Digest)
  blockCrc32 : List (BitVec 32)
  blockCount : ℕ
  inRecoverySet : Bool
  globalBlockStart : ℤ
  deriving DecidableEq

structure Par2Slice where
  path : String
  dataOffset : ℕ
  dataLen : ℤ
  exponent : BitVec 32
  hash : Digest
  headerTail : Bytes
  deriving DecidableEq

structure Par2Set where
  blockSize : ℤ
  files : List Par2File
  slices : List Par2Slice
  sourceBlockCount : ℤ
  deriving DecidableEq

structure RepairFile where
  name : String
  path : String

structure AcceptedSlice where
  path : String
  dataOffset : ℕ
  exponent : BitVec 16

structure Env where
  md5 : Bytes → Digest
  fails : ℕ → Bool
  stored : ℕ → ℕ
  statFails : String → Bool
  truncateFails : String → Bool

def withoutFailure (md5 : Bytes → Digest) : Env where
  md5 := md5
  fails _ := false
  stored _ := 0
  statFails _ := false
  truncateFails _ := false

structure World where
  disk : String → Option Bytes
  clock : ℕ

abbrev RepairM := EStateM String World

section Calls

variable (env : Env)

def attempt : RepairM Bool := fun w =>
  .ok (!env.fails w.clock) { w with clock := w.clock + 1 }

def require (message : String) : RepairM Unit := do
  if ← attempt env then pure () else throw message

def allocate : RepairM Unit :=
  require env "PAR2 repair: out of memory"

def fopen (path : String) : RepairM (Option Bytes) := do
  if ← attempt env then return (← get).disk path else return none

/-- Opens a file and answers from its content, or with `failed` if a call after `fopen`
fails. -/
def withFile {α : Type} (path : String) (missing failed : α) (answer : Bytes → α) :
    RepairM α := do
  match ← fopen env path with
  | none => return missing
  | some content => if ← attempt env then return answer content else return failed

def freadExactly (path : String) (off n : ℕ) (message : String) : RepairM Bytes := do
  match ← fopen env path with
  | none => throw message
  | some content =>
      require env message
      if (readAt content off n).length = n then return readAt content off n
      else throw message

def World.store (w : World) (path : String) (off : ℕ) (data : Bytes) : World :=
  { w with disk := Function.update w.disk path (some (writeAt ((w.disk path).getD []) off data)) }

/-- `open(path, O_WRONLY | O_CREAT)` followed by `pwrite`; a failing write may
have stored some of the data. -/
def pwriteExactly (path : String) (off : ℕ) (data : Bytes) (message : String) :
    RepairM Unit := do
  require env message
  let stored := env.stored (← get).clock
  if ← attempt env then modify fun w => w.store path off data
  else
    modify fun w => w.store path off (data.take stored)
    throw message

end Calls

def blockBad (env : Env) (pf : Par2File) (md5s : List Digest) (bi : ℕ) (block : Bytes) : Bool :=
  Util.crc32 block ≠ pf.blockCrc32.getD bi 0 ∨ env.md5 block ≠ md5s.getD bi 0

/-- `scan_block_damage`; `none` is the return value `-1`.  Reading block after
block from the start is reading block `bi` at its offset. -/
def scanBlockDamage (env : Env) (set : Par2Set) (pf : Par2File) (md5s : List Digest)
    (path : String) : RepairM (Option (List Bool)) :=
  let blockSize := set.blockSize.toNat
  withFile env path (some (List.replicate pf.blockCount true)) none fun content =>
    some ((List.range pf.blockCount).map fun bi =>
      blockBad env pf md5s bi (padTo blockSize (readAt content (bi * blockSize) blockSize)))

def hashFileMd5 (env : Env) (path : String) : RepairM (Option Digest) :=
  withFile env path none none fun content => some (env.md5 content)

def sliceHashOk (env : Env) (s : Par2Slice) : RepairM Bool :=
  withFile env s.path false false fun content =>
    let remaining := (4 + s.dataLen).toNat
    let body := readAt content (s.dataOffset - 4) remaining
    body.length = remaining ∧ env.md5 (s.headerTail ++ body) = s.hash

def recoveryFiles (set : Par2Set) : List Par2File :=
  set.files.filter (·.inRecoverySet)

def resolvePath (env : Env) (files : List RepairFile) (pf : Par2File) :
    RepairM (Par2File × String) := do
  match files.find? (·.name = pf.name) with
  | some file =>
      allocate env
      return (pf, file.path)
  | none => throw ("PAR2 repair: " ++ pf.name ++
      ": not part of this job - recovery set references a file this job doesn't have")

def assignBlocks (present : ℕ → Bool) (pf : Par2File) (value : ℕ → Bool) : ℕ → Bool := fun g =>
  if pf.globalBlockStart ≤ g ∧ g < pf.globalBlockStart + pf.blockCount then
    value (g - pf.globalBlockStart).toNat
  else present g

def scanFile (env : Env) (set : Par2Set) (present : ℕ → Bool) (entry : Par2File × String) :
    RepairM (ℕ → Bool) := do
  let (pf, path) := entry
  match pf.blockMd5, decide (pf.blockCount > 0) with
  | some md5s, true =>
      allocate env
      match ← scanBlockDamage env set pf md5s path with
      | none => throw ("PAR2 repair: could not read " ++ pf.name)
      | some bad => return assignBlocks present pf fun bi => !bad.getD bi true
  | _, _ =>
      let ok := (← hashFileMd5 env path) = some pf.hashFull
      return assignBlocks present pf fun _ => ok

def findDamage (env : Env) (set : Par2Set) (files : List RepairFile) :
    RepairM (List (Par2File × String) × (ℕ → Bool)) := do
  if set.blockSize ≤ 0 ∨ set.sourceBlockCount ≤ 0 then
    throw "PAR2 repair: no usable PAR2 layout (Main packet missing or invalid)"
  else
    allocate env
    let resolved ← (recoveryFiles set).mapM (resolvePath env files)
    allocate env
    let present ← resolved.foldlM (scanFile env set) fun _ => false
    return (resolved, present)

def assignBases : ℕ → ℕ → Option (List Gf16)
  | 0, _ => some []
  | n + 1, baseState => do
      let (base, next) ← gf16NextBase baseState
      let rest ← assignBases n next
      return base :: rest

/-- The loop that collects `need` usable slices; `prev` is `prev_exp` when
`have_prev` is set. -/
def selectSlices (env : Env) (set : Par2Set) (need : ℕ) :
    List Par2Slice → Option (BitVec 32) → List AcceptedSlice → RepairM (List AcceptedSlice)
  | [], _, accepted => pure accepted
  | s :: rest, prev, accepted =>
      if accepted.length < need then
        if prev = some s.exponent then selectSlices env set need rest prev accepted
        else if s.dataLen ≠ set.blockSize then
          selectSlices env set need rest (some s.exponent) accepted
        else do
          if ← sliceHashOk env s then
            selectSlices env set need rest (some s.exponent)
              (accepted ++ [⟨s.path, s.dataOffset, s.exponent.setWidth 16⟩])
          else selectSlices env set need rest (some s.exponent) accepted
      else pure accepted

/-- The columns of the matrix: `datapresentindex`, `datamissingindex`, the
accepted slices, and `coeffs`. -/
structure Plan where
  presentIndex : List ℕ
  missingIndex : List ℕ
  accepted : List AcceptedSlice
  coeffs : ℕ → ℕ → Gf16

/-- The middle of `par2_repair_set`, from the base values to the solved matrix;
`none` when no block is missing. -/
def planRepair (env : Env) (set : Par2Set) (present : ℕ → Bool) : RepairM (Option Plan) := do
  let total := set.sourceBlockCount.toNat
  allocate env
  match assignBases total 0 with
  | none => throw ("PAR2 repair: too many blocks in recovery set for GF(2^16) (" ++
      toString total ++ ")")
  | some database =>
      allocate env
      allocate env
      let presentIndex := (List.range total).filter fun i => present i
      let missingIndex := (List.range total).filter fun i => !present i
      if missingIndex.length = 0 then return none
      else
        allocate env
        let accepted ← selectSlices env set missingIndex.length set.slices none []
        if accepted.length < missingIndex.length then
          throw ("PAR2 repair: need " ++ toString (missingIndex.length - accepted.length) ++
            " more recovery block(s) (have " ++ toString accepted.length ++
            " usable, need " ++ toString missingIndex.length ++ ")")
        else
          allocate env
          allocate env
          allocate env
          allocate env
          match gf16Solve (← attempt env) (presentIndex.map fun i => database.getD i 0)
              (missingIndex.map fun i => database.getD i 0) (accepted.map (·.exponent)) with
          | none =>
              throw "PAR2 repair: internal Reed-Solomon computation error (singular matrix)"
          | some coeffs => return some ⟨presentIndex, missingIndex, accepted, coeffs⟩

def repairMemoryBudget : ℕ := 32 * 1024 * 1024

def chunkSize (blockSize datamissing : ℕ) : ℕ :=
  if datamissing * blockSize > repairMemoryBudget then
    max 4 (repairMemoryBudget / datamissing / 2 * 2)
  else blockSize

def llClamp (value lo hi : ℤ) : ℤ :=
  if value < lo then lo else if value > hi then hi else value

def locateBlock (set : Par2Set) (resolved : List (Par2File × String)) (globalIdx : ℕ) :
    Option (Par2File × String × ℤ) :=
  match resolved.find? fun entry => entry.1.globalBlockStart ≤ (globalIdx : ℤ) ∧
      (globalIdx : ℤ) < entry.1.globalBlockStart + entry.1.blockCount with
  | some (pf, path) => some (pf, path, (globalIdx - pf.globalBlockStart) * set.blockSize)
  | none => none

section Chunk

variable (env : Env) (set : Par2Set) (resolved : List (Par2File × String)) (plan : Plan)

def readColumn (chunkOff len col : ℕ) : RepairM Bytes :=
  if col < plan.presentIndex.length then
    let gi := plan.presentIndex.getD col 0
    match locateBlock set resolved gi with
    | none => throw ("PAR2 repair: internal error: could not locate block " ++ toString gi)
    | some (pf, path, blockBase) =>
        let valid := llClamp (pf.length - blockBase - chunkOff) 0 len
        if valid > 0 then do
          let bytes ← freadExactly env path (blockBase + chunkOff).toNat valid.toNat
            ("PAR2 repair: I/O error reading " ++ pf.name)
          return padTo len bytes
        else return padTo len []
  else
    let slice := plan.accepted.getD (col - plan.presentIndex.length) ⟨"", 0, 0⟩
    freadExactly env slice.path (slice.dataOffset + chunkOff) len
      ("PAR2 repair: I/O error reading recovery data (exponent " ++
        toString slice.exponent.toNat ++ ")")

def addColumn (chunkOff len : ℕ) (outbufs : ℕ → Bytes) (col : ℕ) : RepairM (ℕ → Bytes) := do
  let inbuf ← readColumn env set resolved plan chunkOff len col
  require env "PAR2 repair: aborted"
  return fun row =>
    let factor := plan.coeffs row col
    if factor ≠ 0 then gf16MulAcc (outbufs row) inbuf factor else outbufs row

def writeRow (chunkOff len : ℕ) (outbufs : ℕ → Bytes) (row : ℕ) : RepairM Unit :=
  let gi := plan.missingIndex.getD row 0
  match locateBlock set resolved gi with
  | none => throw ("PAR2 repair: internal error: could not locate block " ++ toString gi)
  | some (pf, path, blockBase) =>
      let writeLen := llClamp (pf.length - blockBase - chunkOff) 0 len
      if writeLen ≤ 0 then pure ()
      else pwriteExactly env path (blockBase + chunkOff).toNat
        ((outbufs row).take writeLen.toNat) ("PAR2 repair: I/O error writing " ++ pf.name)

def repairChunk (chunksize chunkOff : ℕ) : RepairM Unit := do
  let remain := set.blockSize.toNat - chunkOff
  let len := if remain < chunksize then remain else chunksize
  let outbufs ← (List.range (plan.presentIndex.length + plan.missingIndex.length)).foldlM
    (addColumn env set resolved plan chunkOff len) fun _ => List.replicate len 0
  (List.range plan.missingIndex.length).forM
    (writeRow env set resolved plan chunkOff len outbufs)

def reconstruct : RepairM Unit := do
  let blockSize := set.blockSize.toNat
  let chunksize := chunkSize blockSize plan.missingIndex.length
  allocate env
  allocate env
  (List.range plan.missingIndex.length).forM fun _ => allocate env
  (List.range ((blockSize + chunksize - 1) / chunksize)).forM fun k =>
    repairChunk env set resolved plan chunksize (k * chunksize)

end Chunk

def truncateFile (env : Env) (entry : Par2File × String) : RepairM Unit :=
  modify fun w =>
    let (pf, path) := entry
    match w.disk path with
    | some content =>
        if env.statFails path ∨ (content.length : ℤ) = pf.length then w
        else if env.truncateFails path ∨ pf.length < 0 then w
        else
          { w with disk := Function.update w.disk path (some (setLength content pf.length.toNat)) }
    | none => w

def par2RepairSet (env : Env) (set : Par2Set) (files : List RepairFile) : RepairM Unit := do
  let (resolved, present) ← findDamage env set files
  match ← planRepair env set present with
  | none => return ()
  | some plan =>
      reconstruct env set resolved plan
      resolved.forM (truncateFile env)

end NzbDownloader.Par2
