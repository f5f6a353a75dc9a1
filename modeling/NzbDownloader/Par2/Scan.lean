import NzbDownloader.Par2.Packet

/-!
# Collecting a recovery set

The packet handlers, `finalize_layout` and `par2_scan_dir` of `par2/par2.c`.  The
packets of all files go into one set: the first Main packet counts, the last File
Description and checksum packet of a file id, and every recovery slice.

The fields `listedBy`, `describedBy`, `checkedBy`, `blockSizeBy` and `layoutBy`
are not in the source and no function reads them: they record the set id of the
packet that wrote the fields next to them.
-/

namespace NzbDownloader.Par2

open Lib Util

structure ScannedFile extends Par2File where
  fileid : Digest
  hash16k : Digest
  listedBy : Bytes
  describedBy : Option Bytes
  checkedBy : Option Bytes

open ScannedFile

structure ScanSet where
  blockSize : ℤ
  files : List ScannedFile
  slices : List Par2Slice
  sourceBlockCount : ℤ
  mainFileids : Option (List Digest × ℕ)
  blockSizeBy : Option Bytes
  layoutBy : Option Bytes

def ScanSet.empty : ScanSet where
  blockSize := 0
  files := []
  slices := []
  sourceBlockCount := 0
  mainFileids := none
  blockSizeBy := none
  layoutBy := none

def ScanSet.toPar2Set (set : ScanSet) : Par2Set where
  blockSize := set.blockSize
  files := set.files.map toPar2File
  slices := set.slices
  sourceBlockCount := set.sourceBlockCount

def findFileById (files : List ScannedFile) (fileid : Digest) : Option ScannedFile :=
  files.find? (·.fileid = fileid)

def newFile (fileid : Digest) (setId : Bytes) : ScannedFile where
  name := ""
  hashFull := 0
  length := 0
  blockMd5 := none
  blockCrc32 := []
  blockCount := 0
  inRecoverySet := false
  globalBlockStart := 0
  fileid := fileid
  hash16k := 0
  listedBy := setId
  describedBy := none
  checkedBy := none

def setFindOrAddFile (files : List ScannedFile) (fileid : Digest) (setId : Bytes) :
    List ScannedFile :=
  if (findFileById files fileid).isSome then files else files ++ [newFile fileid setId]

def modifyFile (fileid : Digest) (change : ScannedFile → ScannedFile) :
    List ScannedFile → List ScannedFile
  | [] => []
  | file :: rest =>
      if file.fileid = fileid then change file :: rest else file :: modifyFile fileid change rest

def handleMainPacket (set : ScanSet) (setId body : Bytes) : ScanSet :=
  if body.length < 12 then set
  else
    let bs := signed64 (ofLe (readAt body 0 8))
    let set :=
      if set.blockSize = 0 ∧ bs > 0 ∧ bs % 4 = 0 then
        { set with blockSize := bs, blockSizeBy := some setId }
      else set
    if set.mainFileids.isSome then set
    else
      let recoverable := ofLe (readAt body 8 4)
      let total := (body.length - 12) / 16
      if recoverable > total then set
      else
        let ids := (List.range total).map fun i => digestOf (readAt body (12 + i * 16) 16)
        { set with mainFileids := some (ids, recoverable), layoutBy := some setId }

def fileName (bytes : Bytes) : String :=
  String.ofList ((cString (bytes.take 511)).map fun b => Char.ofNat b.toNat)

def fileidOf (body : Bytes) : Digest :=
  digestOf (readAt body 0 16)

def ScannedFile.describe (setId body : Bytes) (pf : ScannedFile) : ScannedFile :=
  { pf with
    hashFull := digestOf (readAt body 16 16)
    hash16k := digestOf (readAt body 32 16)
    length := signed64 (ofLe (readAt body 48 8))
    name := fileName (body.drop 56)
    describedBy := some setId }

def handleFiledescPacket (set : ScanSet) (setId body : Bytes) : ScanSet :=
  if body.length < 56 then set
  else
    { set with
      files := modifyFile (fileidOf body) (describe setId body)
        (setFindOrAddFile set.files (fileidOf body) setId) }

def entryCount (body : Bytes) : ℕ :=
  (body.length - 16) / 20

def ScannedFile.check (setId body : Bytes) (pf : ScannedFile) : ScannedFile :=
  { pf with
    blockMd5 := some ((List.range (entryCount body)).map fun i =>
      digestOf (readAt body (16 + i * 20) 16))
    blockCrc32 := (List.range (entryCount body)).map fun i =>
      BitVec.ofNat 32 (ofLe (readAt body (16 + i * 20 + 16) 4))
    blockCount := entryCount body
    checkedBy := some setId }

def handleIfscPacket (set : ScanSet) (setId body : Bytes) : ScanSet :=
  if body.length < 16 then set
  else if entryCount body = 0 then set
  else
    { set with
      files := modifyFile (fileidOf body) (check setId body)
        (setFindOrAddFile set.files (fileidOf body) setId) }

def appendSlice (set : ScanSet) (slice : Par2Slice) : ScanSet :=
  { set with slices := set.slices ++ [slice] }

def handlePacket (set : ScanSet) : Parsed → ScanSet
  | .main setId body => handleMainPacket set setId body
  | .filedesc setId body => handleFiledescPacket set setId body
  | .ifsc setId body => handleIfscPacket set setId body
  | .recovery slice => appendSlice set slice

def collect (packets : List Parsed) : ScanSet :=
  packets.foldl handlePacket .empty

def layoutBlocks (blockSize : ℤ) (pf : ScannedFile) : ℤ :=
  if pf.blockCount ≤ 0 then (pf.length + blockSize - 1).tdiv blockSize else pf.blockCount

def ScannedFile.place (blockSize running : ℤ) (pf : ScannedFile) : ScannedFile :=
  { pf with
    inRecoverySet := true
    globalBlockStart := running
    blockCount :=
      if pf.blockCount = 0 then (layoutBlocks blockSize pf).toNat else pf.blockCount }

def placeFile (blockSize : ℤ) (state : List ScannedFile × ℤ) (fileid : Digest) :
    List ScannedFile × ℤ :=
  match findFileById state.1 fileid with
  | none => state
  | some pf =>
      let bc := layoutBlocks blockSize pf
      if bc ≤ 0 then state
      else (modifyFile fileid (place blockSize state.2) state.1, state.2 + bc)

def finalizeLayout (set : ScanSet) : ScanSet :=
  match set.mainFileids with
  | none => set
  | some (ids, recoverable) =>
      if set.blockSize > 0 then
        let state := (ids.take recoverable).foldl (placeFile set.blockSize) (set.files, 0)
        { set with files := state.1, sourceBlockCount := state.2, mainFileids := none }
      else { set with mainFileids := none }

def isPar2Name (name : String) : Bool :=
  hasSuffixCi name.toList ['.', 'p', 'a', 'r', '2']

def par2Path (dir name : String) : String :=
  String.ofList ((dir ++ "/" ++ name).toList.take 899)

section Directory

variable (rounds : ℕ) (md5 : Bytes → Digest) (qsort : List Par2Slice → List Par2Slice)
  (disk : String → Option Bytes) (dir : String)

def parsePar2File (set : ScanSet) (path : String) : Option ScanSet :=
  match disk path with
  | none => some set
  | some content =>
      (parsePackets md5 path content rounds 0).map fun packets => packets.foldl handlePacket set

def sortSlices (set : ScanSet) : ScanSet :=
  if set.slices.length > 1 then { set with slices := qsort set.slices } else set

/-- `par2_scan_dir`, the directory entries being listed in the order of
`readdir`; `none` stands for a failing `opendir`. -/
def par2ScanDir (entries : Option (List String)) : Option ScanSet :=
  match entries with
  | none => some .empty
  | some names => do
      let set ← names.foldlM (fun set name =>
        if isPar2Name name then parsePar2File rounds md5 disk set (par2Path dir name)
        else some set) ScanSet.empty
      return sortSlices qsort (finalizeLayout set)

end Directory

end NzbDownloader.Par2
