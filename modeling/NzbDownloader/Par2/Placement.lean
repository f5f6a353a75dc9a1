import NzbDownloader.Lib.Offsets
import NzbDownloader.Par2.Collect

/-!
# The placement of the files

The layout loop gives each listed file the running number of blocks.
-/

namespace NzbDownloader.Par2

open Lib Option ScannedFile

namespace ScannedFile

variable (blockSize : ℤ) (pf : ScannedFile)

theorem blockCount_place (running : ℤ) :
    (pf.place blockSize running).blockCount = (layoutBlocks blockSize pf).toNat := by
  simp only [place, layoutBlocks]
  split
  · rfl
  · rw [if_neg (by omega), Int.toNat_natCast]

@[simp]
theorem layoutBlocks_place (running : ℤ) :
    layoutBlocks blockSize (pf.place blockSize running) = layoutBlocks blockSize pf := by
  have count := pf.blockCount_place blockSize running
  have length : (pf.place blockSize running).length = pf.length := rfl
  rw [layoutBlocks, count, length]
  split
  · rename_i empty
    rw [layoutBlocks] at empty ⊢
    split
    · rfl
    · rename_i checked
      rw [if_neg checked, Int.toNat_natCast] at empty
      contradiction
  · omega

@[simp]
theorem place_place (first second : ℤ) :
    (pf.place blockSize first).place blockSize second = pf.place blockSize second := by
  have counts : ((pf.place blockSize first).place blockSize second).blockCount =
      (pf.place blockSize second).blockCount := by
    rw [blockCount_place, layoutBlocks_place, blockCount_place]
  calc (pf.place blockSize first).place blockSize second
      = { pf.place blockSize second with
          blockCount := ((pf.place blockSize first).place blockSize second).blockCount } := rfl
    _ = pf.place blockSize second := by rw [counts]

def settle (offset : Option ℕ) : ScannedFile :=
  if layoutBlocks blockSize pf ≤ 0 then pf else offset.elim pf fun t => pf.place blockSize t

@[simp]
theorem settle_none : pf.settle blockSize none = pf := by
  simp [settle]

@[simp]
theorem layoutBlocks_settle (offset : Option ℕ) :
    layoutBlocks blockSize (pf.settle blockSize offset) = layoutBlocks blockSize pf := by
  unfold settle
  split
  · rfl
  · cases offset with
    | none => rfl
    | some t => exact pf.layoutBlocks_place blockSize t

theorem settle_settle (earlier later : Option ℕ) :
    (pf.settle blockSize earlier).settle blockSize later =
      pf.settle blockSize (later.or earlier) := by
  cases later with
  | none => rw [settle_none, none_or]
  | some t =>
    rw [some_or, settle, layoutBlocks_settle]
    split
    · rename_i empty
      rw [settle, settle, if_pos empty, if_pos empty]
    rename_i holds
    rw [settle, settle, if_neg holds, if_neg holds]
    cases earlier with
    | none => rfl
    | some t' => exact pf.place_place blockSize t' t

end ScannedFile

def blocksOf (blockSize : ℤ) (files : List ScannedFile) (fileid : Digest) : ℕ :=
  ((findFileById files fileid).elim 0 (layoutBlocks blockSize)).toNat

section Loop

variable {blockSize : ℤ} {files : List ScannedFile}

theorem blocksOf_some {fileid : Digest} {pf : ScannedFile}
    (found : findFileById files fileid = some pf) :
    blocksOf blockSize files fileid = (layoutBlocks blockSize pf).toNat := by
  rw [blocksOf, found, elim_some]

theorem blocksOf_none {fileid : Digest} (unknown : findFileById files fileid = none) :
    blocksOf blockSize files fileid = 0 := by
  rw [blocksOf, unknown, elim_none, Int.toNat_zero]

theorem placeFile_running (start : ℕ) (fileid : Digest) :
    (placeFile blockSize (files, start) fileid).2 = start + blocksOf blockSize files fileid := by
  rw [placeFile]
  split
  · rename_i unknown
    rw [blocksOf_none unknown, Nat.cast_zero, add_zero]
  rename_i pf found
  rw [blocksOf_some found]
  dsimp only
  split
  · rename_i empty
    rw [Int.toNat_of_nonpos empty, Nat.cast_zero, add_zero]
  · rw [Int.toNat_of_nonneg (by omega)]

theorem findFileById_placeFile (start : ℕ) (fileid other : Digest) :
    findFileById (placeFile blockSize (files, start) fileid).1 other =
      (findFileById files other).map fun pf =>
        pf.settle blockSize (if fileid = other then some start else none) := by
  rw [placeFile]
  split
  · rename_i unknown
    by_cases same : fileid = other
    · rw [← same, unknown, map_none]
    · simp [same]
  · rename_i pf found
    dsimp only
    split
    · rename_i empty
      by_cases same : fileid = other
      · rw [← same, found, map_some, settle, if_pos empty]
      · simp [same]
    · rename_i holds
      rw [findFileById_modifyFile (place_fileid blockSize start)]
      by_cases same : fileid = other
      · rw [if_pos same.symm, ← same, found, map_some, map_some, if_pos rfl,
          settle, if_neg holds, elim_some]
      · rw [if_neg fun h => same h.symm]
        simp [same]

theorem blocksOf_placeFile (start : ℕ) (fileid : Digest) :
    blocksOf blockSize (placeFile blockSize (files, start) fileid).1 =
      blocksOf blockSize files := by
  funext other
  rw [blocksOf, findFileById_placeFile, blocksOf]
  cases findFileById files other with
  | none => rfl
  | some pf => rw [map_some, elim_some, elim_some, pf.layoutBlocks_settle]

theorem eq_placeFile (start : ℕ) (fileid : Digest) :
    placeFile blockSize (files, start) fileid =
      ((placeFile blockSize (files, start) fileid).1,
        ((start + blocksOf blockSize files fileid : ℕ) : ℤ)) := by
  rw [Nat.cast_add, ← placeFile_running]

theorem foldl_placeFile_running (ids : List Digest) (start : ℕ) :
    (ids.foldl (placeFile blockSize) (files, start)).2 =
      start + span (blocksOf blockSize files) ids := by
  induction ids generalizing files start with
  | nil => simp
  | cons fileid rest ih =>
    rw [List.foldl_cons, eq_placeFile, ih, blocksOf_placeFile, span_cons, Nat.cast_add,
      Nat.cast_add, add_assoc]

theorem findFileById_foldl_placeFile (ids : List Digest) (start : ℕ) (other : Digest) :
    findFileById (ids.foldl (placeFile blockSize) (files, start)).1 other =
      (findFileById files other).map fun pf =>
        pf.settle blockSize (lastOffset (blocksOf blockSize files) ids start other) := by
  induction ids generalizing files start with
  | nil => simp [lastOffset]
  | cons fileid rest ih =>
    rw [List.foldl_cons, eq_placeFile, ih, blocksOf_placeFile, findFileById_placeFile,
      map_map]
    congr 1
    funext pf
    exact pf.settle_settle blockSize _ _

end Loop

namespace ScanSet

def listed (set : ScanSet) : List Digest :=
  match set.mainFileids with
  | none => []
  | some (ids, recoverable) => if set.blockSize > 0 then ids.take recoverable else []

def blocks (set : ScanSet) : Digest → ℕ :=
  blocksOf set.blockSize set.files

def offset (set : ScanSet) : Digest → Option ℕ :=
  lastOffset set.blocks set.listed 0

end ScanSet

section Finalize

variable (set : ScanSet)

@[simp]
theorem finalizeLayout_blockSize : (finalizeLayout set).blockSize = set.blockSize := by
  rw [finalizeLayout]
  split
  · rfl
  · split <;> rfl

theorem finalizeLayout_eq_foldl (fresh : set.sourceBlockCount = 0) :
    ((finalizeLayout set).files, (finalizeLayout set).sourceBlockCount) =
      set.listed.foldl (placeFile set.blockSize) (set.files, 0) := by
  rw [finalizeLayout, ScanSet.listed]
  cases set.mainFileids with
  | none => simp only [List.foldl_nil, fresh]
  | some main =>
    dsimp only
    split
    · rfl
    · simp only [List.foldl_nil, fresh]

theorem findFileById_finalizeLayout (fresh : set.sourceBlockCount = 0) (fileid : Digest) :
    findFileById (finalizeLayout set).files fileid =
      (findFileById set.files fileid).map fun pf =>
        pf.settle set.blockSize (set.offset fileid) := by
  have loop := @findFileById_foldl_placeFile set.blockSize set.files set.listed 0 fileid
  rw [Nat.cast_zero, ← finalizeLayout_eq_foldl set fresh] at loop
  exact loop

theorem finalizeLayout_sourceBlockCount (fresh : set.sourceBlockCount = 0) :
    (finalizeLayout set).sourceBlockCount = span set.blocks set.listed := by
  have loop := @foldl_placeFile_running set.blockSize set.files set.listed 0
  rw [Nat.cast_zero, ← finalizeLayout_eq_foldl set fresh, zero_add] at loop
  exact loop

theorem fileids_finalizeLayout :
    (finalizeLayout set).files.map fileid = set.files.map fileid :=
  finalizeLayout_map fileid (fun _ _ _ => rfl) set

end Finalize

/-- What the handlers leave: no file is placed yet, and every id has one entry
with a length that is a signed 64-bit number. -/
structure Unplaced (set : ScanSet) : Prop where
  sourceBlockCount : set.sourceBlockCount = 0
  distinct : (set.files.map fileid).Nodup
  unplaced : ∀ pf ∈ set.files, pf.inRecoverySet = false
  length_ge : ∀ pf ∈ set.files, -2 ^ 63 ≤ pf.length

theorem neg_le_signed64 (n : ℕ) : -2 ^ 63 ≤ signed64 n := by
  have low : -2 ^ 64 ≤ 2 * (BitVec.ofNat 64 n).toInt := BitVec.le_two_mul_toInt
  rw [signed64]
  omega

theorem CollectedFrom.forall_files {read : List Parsed} {set : ScanSet}
    (collected : CollectedFrom read set) {P : ScannedFile → Prop}
    (new : ∀ fileid setId, P (newFile fileid setId))
    (kept : ∀ (packet : Parsed) pf, P pf → P (packet.write pf)) :
    ∀ pf ∈ set.files, P pf := by
  intro pf member
  have found := (mem_iff_findFileById collected.distinct pf).mp member
  rw [collected.file, map_eq_some_iff] at found
  obtain ⟨first, -, made⟩ := found
  rw [← made, entryFrom]
  have described : P ((descriptionSource read pf.fileid).elim id Parsed.write
      (newFile pf.fileid first.setId)) := by
    cases descriptionSource read pf.fileid with
    | none => exact new _ _
    | some packet => exact kept packet _ (new _ _)
  cases checksumSource read pf.fileid with
  | none => exact described
  | some packet => exact kept packet _ described

theorem unplaced_collect (read : List Parsed) : Unplaced (collect read) where
  sourceBlockCount := (collectedFrom_collect read).sourceBlockCount
  distinct := (collectedFrom_collect read).distinct
  unplaced := by
    apply (collectedFrom_collect read).forall_files (P := fun pf => pf.inRecoverySet = false)
    · exact fun _ _ => rfl
    · intro packet pf unplaced
      cases packet <;> exact unplaced
  length_ge := by
    apply (collectedFrom_collect read).forall_files (P := fun pf => -2 ^ 63 ≤ pf.length)
    · intro fileid setId
      show (-2 ^ 63 : ℤ) ≤ 0
      norm_num
    · intro packet pf low
      cases packet with
      | filedesc setId body => exact neg_le_signed64 _
      | main | ifsc | recovery => exact low

section Placed

variable {set : ScanSet}

theorem Unplaced.placed_iff (fresh : Unplaced set) {pf : ScannedFile} :
    pf ∈ (finalizeLayout set).files ∧ pf.inRecoverySet = true ↔
      ∃ known t, findFileById set.files pf.fileid = some known ∧
        set.offset pf.fileid = some t ∧ 0 < set.blocks pf.fileid ∧
          pf = known.place set.blockSize t := by
  have distinct : ((finalizeLayout set).files.map fileid).Nodup := by
    rw [fileids_finalizeLayout]
    exact fresh.distinct
  rw [mem_iff_findFileById distinct, findFileById_finalizeLayout set fresh.sourceBlockCount,
    map_eq_some_iff]
  constructor
  · rintro ⟨⟨known, found, settled⟩, placed⟩
    have unplaced := fresh.unplaced known (List.mem_of_find?_eq_some found)
    rw [settle] at settled
    split at settled
    · rw [← settled, unplaced] at placed
      cases placed
    cases offset : set.offset pf.fileid with
    | none =>
      rw [offset, elim_none] at settled
      rw [← settled, unplaced] at placed
      cases placed
    | some t =>
      rw [offset, elim_some] at settled
      refine ⟨known, t, found, rfl, ?_, settled.symm⟩
      rw [ScanSet.blocks, blocksOf_some found]
      omega
  · rintro ⟨known, t, found, offset, positive, made⟩
    rw [ScanSet.blocks, blocksOf_some found] at positive
    refine ⟨⟨known, found, ?_⟩, ?_⟩
    · rw [offset, settle, if_neg (by omega), elim_some, ← made]
    · rw [made]
      rfl

end Placed

end NzbDownloader.Par2
