import NzbDownloader.Par2.Placement
import NzbDownloader.Par2.Repair
import Mathlib.Data.Int.ConditionallyCompleteOrder

/-!
# Tiling

The block ranges of the files tile the numbering exactly when no file that contributes
blocks is listed twice.
-/

namespace NzbDownloader.Par2

open Lib Option ScannedFile ScanSet

def Par2File.range (pf : Par2File) : Set ℤ :=
  Set.Ico pf.globalBlockStart (pf.globalBlockStart + pf.blockCount)

structure Tiled (set : ScanSet) : Prop where
  disjoint : set.files.Pairwise fun a b =>
    a.inRecoverySet = true → b.inRecoverySet = true → ∀ g ∈ a.range, g ∉ b.range
  union : {g | ∃ pf ∈ set.files, pf.inRecoverySet = true ∧ g ∈ pf.range} =
    Set.Ico 0 set.sourceBlockCount

variable {set : ScanSet} {pf : ScannedFile} {fileid : Digest}

theorem mem_recoveryFiles_iff {pf : Par2File} :
    pf ∈ recoveryFiles set.toPar2Set ↔
      ∃ entry ∈ set.files, entry.inRecoverySet ∧ entry.toPar2File = pf := by
  simp only [recoveryFiles, toPar2Set, List.mem_filter, List.mem_map]
  constructor
  · rintro ⟨⟨entry, member, rfl⟩, placed⟩
    exact ⟨entry, member, placed, rfl⟩
  · rintro ⟨entry, member, placed, rfl⟩
    exact ⟨⟨entry, member, rfl⟩, placed⟩

/-- What `par2_repair_set` relies on: its writes to `present` stay inside the
array, and `locate_block` finds the file of every block. -/
structure Addressed (set : ScanSet) : Prop where
  present : ∀ pf ∈ set.files, pf.inRecoverySet = true → ∀ bi < pf.blockCount,
    0 ≤ pf.globalBlockStart + bi ∧ pf.globalBlockStart + bi < set.sourceBlockCount
  located : ∀ resolved, resolved.map Prod.fst = recoveryFiles set.toPar2Set →
    ∀ g : ℕ, (g : ℤ) < set.sourceBlockCount → locateBlock set.toPar2Set resolved g ≠ none

theorem Tiled.addressed (tiled : Tiled set) : Addressed set where
  present := by
    intro pf member placed bi inside
    have owned : pf.globalBlockStart + bi ∈ Set.Ico 0 set.sourceBlockCount := by
      rw [← tiled.union]
      refine ⟨pf, member, placed, ?_⟩
      rw [Par2File.range, Set.mem_Ico]
      omega
    exact owned
  located := by
    intro resolved paths g inside
    have covered : (g : ℤ) ∈ Set.Ico 0 set.sourceBlockCount := ⟨Int.natCast_nonneg g, inside⟩
    rw [← tiled.union] at covered
    obtain ⟨pf, member, placed, low, high⟩ := covered
    have recovered : pf.toPar2File ∈ recoveryFiles set.toPar2Set :=
      mem_recoveryFiles_iff.mpr ⟨pf, member, placed, rfl⟩
    rw [← paths, List.mem_map] at recovered
    obtain ⟨entry, inResolved, same⟩ := recovered
    have found : (resolved.find? fun entry => entry.1.globalBlockStart ≤ (g : ℤ) ∧
        (g : ℤ) < entry.1.globalBlockStart + entry.1.blockCount).isSome = true := by
      rw [List.find?_isSome]
      refine ⟨entry, inResolved, ?_⟩
      rw [same, decide_eq_true_iff]
      exact ⟨low, high⟩
    obtain ⟨owner, found⟩ := isSome_iff_exists.mp found
    rw [locateBlock, found]
    simp

section Tiling

theorem Unplaced.mem_range_iff (fresh : Unplaced set) (member : pf ∈ (finalizeLayout set).files)
    (placed : pf.inRecoverySet) {g : ℤ} :
    g ∈ pf.range ↔ 0 ≤ g ∧ g.toNat ∈ occupied set.blocks set.listed pf.fileid := by
  obtain ⟨known, t, found, offset, -, made⟩ := fresh.placed_iff.mp ⟨member, placed⟩
  have start : pf.globalBlockStart = t := by rw [made]; rfl
  have count : pf.blockCount = set.blocks pf.fileid := by
    rw [ScanSet.blocks, blocksOf_some found, made, blockCount_place]
  have taken : g.toNat ∈ occupied set.blocks set.listed pf.fileid ↔
      t ≤ g.toNat ∧ g.toNat < t + set.blocks pf.fileid := by
    rw [ScanSet.offset] at offset
    simp [occupied, offset]
  rw [taken, Par2File.range, Set.mem_Ico, start, count]
  omega

theorem Unplaced.exists_placed (fresh : Unplaced set) {g : ℕ}
    (member : g ∈ occupied set.blocks set.listed fileid) :
    ∃ pf ∈ (finalizeLayout set).files, pf.inRecoverySet ∧ pf.fileid = fileid := by
  obtain ⟨t, offset, low, high⟩ := member
  cases found : findFileById set.files fileid with
  | none =>
    rw [blocks, blocksOf_none found] at high
    omega
  | some known =>
    have same : known.fileid = fileid := by simpa using List.find?_some found
    have placed := @Unplaced.placed_iff set fresh (known.place set.blockSize t)
    rw [place_fileid, same] at placed
    obtain ⟨inFiles, taken⟩ := placed.mpr ⟨known, t, found, offset, by omega, rfl⟩
    exact ⟨_, inFiles, taken, same⟩

theorem Unplaced.tiled_iff (fresh : Unplaced set) :
    Tiled (finalizeLayout set) ↔ (set.listed.filter fun fileid => 0 < set.blocks fileid).Nodup := by
  have total := finalizeLayout_sourceBlockCount set fresh.sourceBlockCount
  rw [← forall_occupied_iff]
  constructor
  · intro tiled g inside
    have covered : (g : ℤ) ∈ Set.Ico 0 (finalizeLayout set).sourceBlockCount := by
      rw [total, Set.mem_Ico]
      omega
    rw [← tiled.union] at covered
    obtain ⟨pf, member, placed, inRange⟩ := covered
    exact ⟨pf.fileid, ((fresh.mem_range_iff member placed).mp inRange).2⟩
  · intro covered
    constructor
    · have distinct : ((finalizeLayout set).files.map fileid).Nodup := by
        rw [fileids_finalizeLayout]
        exact fresh.distinct
      rw [List.Nodup, List.pairwise_map] at distinct
      refine distinct.imp_of_mem fun {a b} memberA memberB differ placedA placedB g inA inB => ?_
      exact not_mem_occupied differ ((fresh.mem_range_iff memberA placedA).mp inA).2
        ((fresh.mem_range_iff memberB placedB).mp inB).2
    · ext g
      rw [total, Set.mem_Ico]
      constructor
      · rintro ⟨pf, member, placed, inRange⟩
        obtain ⟨nonneg, taken⟩ := (fresh.mem_range_iff member placed).mp inRange
        have := lt_span_of_mem_occupied taken
        omega
      · rintro ⟨nonneg, inside⟩
        obtain ⟨fileid, taken⟩ := covered g.toNat (by omega)
        obtain ⟨pf, member, placed, rfl⟩ := fresh.exists_placed taken
        exact ⟨pf, member, placed, (fresh.mem_range_iff member placed).mpr ⟨nonneg, taken⟩⟩

end Tiling

def int64 (value : ℤ) : Option ℤ :=
  if -2 ^ 63 ≤ value ∧ value < 2 ^ 63 then some value else none

theorem int64_eq_some_iff {value result : ℤ} :
    int64 value = some result ↔ (-2 ^ 63 ≤ value ∧ value < 2 ^ 63) ∧ value = result := by
  rw [int64, ite_none_right_eq_some, some_inj]

def layoutBlocks64 (blockSize : ℤ) (pf : ScannedFile) : Option ℤ :=
  if pf.blockCount ≤ 0 then do
    let sum ← int64 (pf.length + blockSize)
    let sum ← int64 (sum - 1)
    return sum.tdiv blockSize
  else some pf.blockCount

def placeFile64 (blockSize : ℤ) (state : List ScannedFile × ℤ) (fileid : Digest) :
    Option (List ScannedFile × ℤ) :=
  match findFileById state.1 fileid with
  | none => some state
  | some pf => do
      let bc ← layoutBlocks64 blockSize pf
      if bc ≤ 0 then return state
      else
        let running ← int64 (state.2 + bc)
        return (modifyFile fileid (place blockSize state.2) state.1, running)

def finalizeLayout64 (set : ScanSet) : Option ScanSet :=
  match set.mainFileids with
  | none => some set
  | some (ids, recoverable) =>
      if set.blockSize > 0 then do
        let state ← (ids.take recoverable).foldlM (placeFile64 set.blockSize) (set.files, 0)
        return { set with files := state.1, sourceBlockCount := state.2, mainFileids := none }
      else some { set with mainFileids := none }

def RoundsUp (blockSize : ℤ) (files : List ScannedFile) (fileid : Digest) : Prop :=
  ∀ pf, findFileById files fileid = some pf → pf.blockCount = 0 → pf.length + blockSize < 2 ^ 63

section Checked

variable {blockSize : ℤ} {files : List ScannedFile}

theorem layoutBlocks64_eq_some_iff (positive : 0 < blockSize) (low : -2 ^ 63 ≤ pf.length) {bc : ℤ} :
    layoutBlocks64 blockSize pf = some bc ↔
      (pf.blockCount = 0 → pf.length + blockSize < 2 ^ 63) ∧ layoutBlocks blockSize pf = bc := by
  rw [layoutBlocks64, layoutBlocks]
  split
  · have none : pf.blockCount = 0 := by omega
    simp only [bind_eq_bind, bind_eq_some_iff, int64_eq_some_iff, pure_def,
      some_inj]
    constructor
    · rintro ⟨sum, ⟨⟨-, high⟩, rfl⟩, _, ⟨-, rfl⟩, rfl⟩
      exact ⟨fun _ => high, rfl⟩
    · rintro ⟨high, rfl⟩
      have := high none
      exact ⟨_, ⟨⟨by omega, this⟩, rfl⟩, _, ⟨⟨by omega, by omega⟩, rfl⟩, rfl⟩
  · rename_i checked
    rw [some_inj]
    exact ⟨fun same => ⟨fun none => absurd none.le checked, same⟩, And.right⟩

theorem length_settle (pf : ScannedFile) (offset : Option ℕ) :
    (pf.settle blockSize offset).length = pf.length := by
  unfold settle
  split
  · rfl
  · cases offset <;> rfl

theorem blockCount_of_settle {offset : Option ℕ}
    (none : (pf.settle blockSize offset).blockCount = 0) : pf.blockCount = 0 := by
  unfold settle at none
  split at none
  · exact none
  cases offset with
  | none => exact none
  | some t =>
    by_contra checked
    simp [place, checked] at none

theorem roundsUp_placeFile {start : ℕ} {other : Digest} (here : RoundsUp blockSize files fileid) :
    RoundsUp blockSize (placeFile blockSize (files, start) fileid).1 other ↔
      RoundsUp blockSize files other := by
  constructor
  · intro later pf found unchecked
    by_cases same : fileid = other
    · exact here pf (same ▸ found) unchecked
    · apply later pf _ unchecked
      rw [findFileById_placeFile, found, if_neg same, map_some, settle_none]
  · intro before pf found unchecked
    rw [findFileById_placeFile, map_eq_some_iff] at found
    obtain ⟨known, found, rfl⟩ := found
    rw [length_settle]
    exact before known found (blockCount_of_settle unchecked)

theorem placeFile64_eq_some_iff (positive : 0 < blockSize) {start : ℕ}
    (low : ∀ pf, findFileById files fileid = some pf → -2 ^ 63 ≤ pf.length)
    (small : (start : ℤ) < 2 ^ 63) {state : List ScannedFile × ℤ} :
    placeFile64 blockSize (files, start) fileid = some state ↔
      RoundsUp blockSize files fileid ∧ (start : ℤ) + blocksOf blockSize files fileid < 2 ^ 63 ∧
        placeFile blockSize (files, start) fileid = state := by
  rw [placeFile64, placeFile]
  cases found : findFileById files fileid with
  | none =>
    have vacuous : RoundsUp blockSize files fileid := fun pf here => by
      rw [found] at here
      cases here
    simp only [some_inj, vacuous, blocksOf_none found, Nat.cast_zero, add_zero, small,
      true_and]
  | some pf =>
    have rounds : RoundsUp blockSize files fileid ↔
        (pf.blockCount = 0 → pf.length + blockSize < 2 ^ 63) := by
      simp [RoundsUp, found]
    simp only [bind_eq_bind, bind_eq_some_iff,
      layoutBlocks64_eq_some_iff positive (low pf found), rounds, blocksOf_some found]
    constructor
    · rintro ⟨bc, ⟨fits, rfl⟩, placed⟩
      refine ⟨fits, ?_⟩
      split at placed
      · rename_i empty
        rw [Int.toNat_of_nonpos empty, if_pos empty]
        exact ⟨by simpa using small, Option.some.inj placed⟩
      · rename_i holds
        simp only [bind_eq_some_iff, int64_eq_some_iff, pure_def,
          some_inj] at placed
        obtain ⟨_, ⟨⟨-, high⟩, rfl⟩, rfl⟩ := placed
        rw [Int.toNat_of_nonneg (by omega), if_neg holds]
        exact ⟨high, rfl⟩
    · rintro ⟨fits, high, placed⟩
      refine ⟨_, ⟨fits, rfl⟩, ?_⟩
      split
      · rename_i empty
        rw [if_pos empty] at placed
        exact congrArg some placed
      · rename_i holds
        rw [if_neg holds] at placed
        rw [Int.toNat_of_nonneg (by omega)] at high
        simp only [bind_eq_some_iff, int64_eq_some_iff, pure_def,
          some_inj]
        exact ⟨_, ⟨⟨by omega, high⟩, rfl⟩, placed⟩

theorem foldlM_placeFile64_eq_some_iff (positive : 0 < blockSize) {ids : List Digest} {start : ℕ}
    (low : ∀ fileid pf, findFileById files fileid = some pf → -2 ^ 63 ≤ pf.length)
    (small : (start : ℤ) < 2 ^ 63) {state : List ScannedFile × ℤ} :
    ids.foldlM (placeFile64 blockSize) (files, (start : ℤ)) = some state ↔
      (∀ fileid ∈ ids, RoundsUp blockSize files fileid) ∧
        (start : ℤ) + span (blocksOf blockSize files) ids < 2 ^ 63 ∧
          ids.foldl (placeFile blockSize) (files, (start : ℤ)) = state := by
  induction ids generalizing files start with
  | nil =>
    rw [List.foldlM_nil, pure_def, some_inj, span_nil, Nat.cast_zero, add_zero]
    exact ⟨fun same => ⟨List.forall_mem_nil _, small, same⟩, fun all => all.2.2⟩
  | cons fileid rest ih =>
    have counted := @eq_placeFile blockSize files start fileid
    have lowLater : ∀ other pf,
        findFileById (placeFile blockSize (files, start) fileid).1 other = some pf →
          -2 ^ 63 ≤ pf.length := by
      intro other pf found
      rw [findFileById_placeFile, map_eq_some_iff] at found
      obtain ⟨known, found, rfl⟩ := found
      rw [length_settle]
      exact low other known found
    rw [List.foldlM_cons, bind_eq_bind, bind_eq_some_iff, List.foldl_cons,
      List.forall_mem_cons, span_cons, Nat.cast_add]
    simp only [placeFile64_eq_some_iff positive (low fileid) small]
    constructor
    · rintro ⟨_, ⟨here, fits, rfl⟩, later⟩
      rw [counted, ih lowLater (by push_cast; exact fits), blocksOf_placeFile] at later
      obtain ⟨rounds, total, run⟩ := later
      refine ⟨⟨here, fun other member => (roundsUp_placeFile here).mp (rounds other member)⟩,
        ?_, counted ▸ run⟩
      omega
    · rintro ⟨⟨here, rounds⟩, total, run⟩
      have fits : (start : ℤ) + blocksOf blockSize files fileid < 2 ^ 63 := by omega
      refine ⟨_, ⟨here, fits, rfl⟩, ?_⟩
      rw [counted, ih lowLater (by push_cast; exact fits), blocksOf_placeFile]
      refine ⟨fun other member => (roundsUp_placeFile here).mpr (rounds other member),
        ?_, counted ▸ run⟩
      omega

end Checked

structure Fits (set : ScanSet) : Prop where
  roundsUp : ∀ fileid ∈ set.listed, RoundsUp set.blockSize set.files fileid
  total : (span set.blocks set.listed : ℤ) < 2 ^ 63

theorem Unplaced.finalizeLayout64_eq_some_iff (fresh : Unplaced set) {final : ScanSet} :
    finalizeLayout64 set = some final ↔ Fits set ∧ finalizeLayout set = final := by
  have low : ∀ fileid pf, findFileById set.files fileid = some pf → -2 ^ 63 ≤ pf.length :=
    fun fileid pf found => fresh.length_ge pf (List.mem_of_find?_eq_some found)
  have idle : set.listed = [] → Fits set := by
    intro none
    constructor
    · simp [none]
    · simp [none]
  rw [finalizeLayout64, finalizeLayout]
  cases main : set.mainFileids with
  | none =>
    have none : set.listed = [] := by rw [listed, main]
    simp [idle none]
  | some listing =>
    obtain ⟨ids, recoverable⟩ := listing
    dsimp only
    split
    · rename_i positive
      have listed : set.listed = ids.take recoverable := by
        rw [listed, main]
        simp [positive]
      have loop := @foldlM_placeFile64_eq_some_iff set.blockSize set.files positive
        (ids.take recoverable) 0 low (by norm_num)
      rw [Nat.cast_zero] at loop
      rw [bind_eq_bind, bind_eq_some_iff]
      simp only [loop, zero_add, pure_def, some_inj]
      constructor
      · rintro ⟨_, ⟨rounds, total, rfl⟩, rfl⟩
        exact ⟨⟨listed ▸ rounds, by rw [listed]; exact total⟩, rfl⟩
      rintro ⟨fits, rfl⟩
      refine ⟨_, ⟨listed ▸ fits.roundsUp, ?_, rfl⟩, rfl⟩
      have total := fits.total
      rw [listed] at total
      exact total
    · rename_i unsized
      have none : set.listed = [] := by
        rw [listed, main]
        simp [unsized]
      simp [idle none]

/-- Whatever packets were read: the layout is computed without overflow, its
ranges tile the numbering, and the repair stays inside `present` and finds the
file of every block, exactly when no file that contributes blocks is listed twice
and the listed lengths and their blocks fit 64-bit counters. -/
theorem layout_tiles_iff (read : List Parsed) :
    (∃ set, finalizeLayout64 (collect read) = some set ∧ Tiled set ∧ Addressed set) ↔
      ((collect read).listed.filter fun fileid => 0 < (collect read).blocks fileid).Nodup ∧
        Fits (collect read) := by
  have fresh := unplaced_collect read
  rw [← fresh.tiled_iff]
  constructor
  · rintro ⟨set, run, tiled, -⟩
    obtain ⟨fits, rfl⟩ := fresh.finalizeLayout64_eq_some_iff.mp run
    exact ⟨tiled, fits⟩
  · rintro ⟨tiled, fits⟩
    exact ⟨_, fresh.finalizeLayout64_eq_some_iff.mpr ⟨fits, rfl⟩, tiled, tiled.addressed⟩

def listedTwice : List Parsed :=
  [.main [] (toLe 8 4 ++ toLe 4 2 ++ smallA.id ++ smallA.id),
    .filedesc [] (smallA.id ++ smallA.sum ++ smallA.sum ++ toLe 8 4 ++ [97, 0, 0, 0])]

theorem listedTwice_leaves_gap :
    ∃ set, finalizeLayout64 (collect listedTwice) = some set ∧ set.sourceBlockCount = 2 ∧
      set.files.map (fun pf => (pf.inRecoverySet, pf.globalBlockStart, pf.blockCount)) =
        [(true, 1, 1)] ∧
      ¬ Tiled set ∧ ¬ Addressed set := by
  have lost : ¬ Addressed (finalizeLayout (collect listedTwice)) := by
    intro addressed
    have located := addressed.located ((recoveryFiles
      (finalizeLayout (collect listedTwice)).toPar2Set).map fun pf => (pf, "a"))
      (by simp [Function.comp_def]) 0 (by decide +kernel)
    exact located (by decide +kernel)
  refine ⟨finalizeLayout (collect listedTwice), ?_, by decide +kernel, by decide +kernel,
    fun tiled => lost tiled.addressed, lost⟩
  rfl

end NzbDownloader.Par2
