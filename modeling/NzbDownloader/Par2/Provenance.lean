import NzbDownloader.Par2.Collect

/-!
# Which recovery set a scan collects

`par2_scan_dir` does not compare set ids.  What it collects belongs to one
recovery set exactly when the packets that decide its fields carry one set id.
-/

namespace NzbDownloader.Par2

open Lib List Option ScanSet

def ScannedFile.origins (pf : ScannedFile) : List Bytes :=
  pf.listedBy :: (pf.describedBy.toList ++ pf.checkedBy.toList)

def ScanSet.origins (set : ScanSet) : List Bytes :=
  set.blockSizeBy.toList ++ (set.layoutBy.toList ++
    (set.files.flatMap ScannedFile.origins ++ set.slices.map Par2Slice.setId))

def ScanSet.OneSet (set : ScanSet) : Prop :=
  ∃ setId, ∀ origin ∈ set.origins, origin = setId

/-- The packet is the first to give a block size or a file list, the first to name
a file, the last to describe a file or to give its checksums, or a recovery
packet. -/
def Decides (packets : List Parsed) (packet : Parsed) : Prop :=
  sizeSource packets = some packet ∨ layoutSource packets = some packet ∨
    (∃ fileid, entrySource packets fileid = some packet ∨
      descriptionSource packets fileid = some packet ∨
        checksumSource packets fileid = some packet) ∨
    (packet ∈ packets ∧ packet.slice?.isSome)

theorem Decides.mem {packets : List Parsed} {packet : Parsed} (decides : Decides packets packet) :
    packet ∈ packets := by
  rcases decides with first | first | ⟨_, first | last | last⟩ | ⟨member, _⟩
  · exact mem_of_find?_eq_some first
  · exact mem_of_find?_eq_some first
  · exact mem_of_find?_eq_some first
  · exact mem_reverse.mp (mem_of_find?_eq_some last)
  · exact mem_reverse.mp (mem_of_find?_eq_some last)
  · exact member

theorem finalizeLayout_slices (set : ScanSet) : (finalizeLayout set).slices = set.slices := by
  rw [finalizeLayout]
  split
  · rfl
  · split <;> rfl

theorem finalizeLayout_origins (set : ScanSet) : (finalizeLayout set).origins = set.origins := by
  have files := finalizeLayout_map ScannedFile.origins (fun _ _ _ => rfl) set
  have by' : (finalizeLayout set).blockSizeBy = set.blockSizeBy ∧
      (finalizeLayout set).layoutBy = set.layoutBy := by
    rw [finalizeLayout]
    split
    · exact ⟨rfl, rfl⟩
    · split <;> exact ⟨rfl, rfl⟩
  simp only [origins, by', finalizeLayout_slices, flatMap_def, files]

theorem mem_origins_sortSlices {qsort : List Par2Slice → List Par2Slice}
    (permutes : ∀ slices, (qsort slices).Perm slices) (set : ScanSet) (origin : Bytes) :
    origin ∈ (sortSlices qsort set).origins ↔ origin ∈ set.origins := by
  rw [sortSlices]
  split
  · simp only [origins, mem_append, ((permutes set.slices).map _).mem_iff]
  · rfl

theorem entryFrom_origins {fileid : Digest} {first : Parsed} {description checksums : Option Parsed}
    (described : ∀ p ∈ description, p.describes fileid = true)
    (checked : ∀ p ∈ checksums, p.checks fileid = true) :
    (entryFrom fileid first description checksums).origins =
      first.setId :: ((description.map Parsed.setId).toList ++
        (checksums.map Parsed.setId).toList) := by
  rcases description with _ | (_ | _ | _ | _) <;> rcases checksums with _ | (_ | _ | _ | _) <;>
    first | rfl | simp [Parsed.describes, Parsed.checks] at described checked

section Origins

variable {packets : List Parsed} {set : ScanSet}

theorem mem_entryFrom_origins (fileid : Digest) (first : Parsed) (origin : Bytes) :
    origin ∈ (entryFrom fileid first (descriptionSource packets fileid)
      (checksumSource packets fileid)).origins ↔
        ∃ packet, (packet = first ∨ descriptionSource packets fileid = some packet ∨
          checksumSource packets fileid = some packet) ∧ packet.setId = origin := by
  rw [entryFrom_origins describes_of_source checks_of_source]
  simp only [mem_cons, mem_append, mem_toList, map_eq_some_iff,
    or_and_right, exists_or, exists_eq_left, eq_comm (a := origin)]

theorem CollectedFrom.mem_file_origins (collected : CollectedFrom packets set) (origin : Bytes) :
    origin ∈ set.files.flatMap ScannedFile.origins ↔
      ∃ packet, (∃ fileid, entrySource packets fileid = some packet ∨
        descriptionSource packets fileid = some packet ∨
          checksumSource packets fileid = some packet) ∧ packet.setId = origin := by
  rw [mem_flatMap]
  constructor
  · rintro ⟨pf, member, inOrigins⟩
    have found := (mem_iff_findFileById collected.distinct pf).mp member
    rw [collected.file, map_eq_some_iff] at found
    obtain ⟨first, entry, made⟩ := found
    rw [← made, mem_entryFrom_origins] at inOrigins
    obtain ⟨packet, rfl | chosen, same⟩ := inOrigins
    · exact ⟨packet, ⟨pf.fileid, .inl entry⟩, same⟩
    · exact ⟨packet, ⟨pf.fileid, .inr chosen⟩, same⟩
  · rintro ⟨packet, ⟨fileid, chosen⟩, same⟩
    cases entry : entrySource packets fileid with
    | none =>
      obtain ⟨noDescription, noChecksums⟩ := sources_of_entrySource_none entry
      simp [entry, noDescription, noChecksums] at chosen
    | some first =>
      have found := collected.file fileid
      rw [entry, map_some] at found
      refine ⟨_, mem_of_find?_eq_some found, (mem_entryFrom_origins ..).mpr ⟨packet, ?_, same⟩⟩
      rcases chosen with isFirst | later
      · rw [entry, some.injEq] at isFirst
        exact .inl isFirst.symm
      · exact .inr later

theorem CollectedFrom.mem_origins (collected : CollectedFrom packets set) (origin : Bytes) :
    origin ∈ set.origins ↔ ∃ packet, Decides packets packet ∧ packet.setId = origin := by
  have slices : origin ∈ set.slices.map Par2Slice.setId ↔
      ∃ packet, (packet ∈ packets ∧ packet.slice?.isSome) ∧ packet.setId = origin := by
    rw [collected.slices]
    constructor
    · intro member
      obtain ⟨slice, inSlices, same⟩ := mem_map.mp member
      obtain ⟨packet, inPackets, records⟩ := mem_filterMap.mp inSlices
      cases packet with
      | recovery recorded =>
        cases records
        exact ⟨.recovery slice, ⟨inPackets, rfl⟩, same⟩
      | main | filedesc | ifsc => contradiction
    · rintro ⟨packet, ⟨inPackets, records⟩, same⟩
      cases packet with
      | recovery slice =>
        exact mem_map.mpr ⟨slice, mem_filterMap.mpr ⟨_, inPackets, rfl⟩, same⟩
      | main | filedesc | ifsc => contradiction
  simp only [origins, mem_append, collected.blockSizeBy, collected.layoutBy,
    collected.mem_file_origins, slices, Decides, mem_toList, map_eq_some_iff,
    or_and_right, exists_or]

end Origins

/-- What a scan of intact packets collects comes from one recovery set exactly
when the packets that decide it carry one set id. -/
theorem par2ScanDir_oneSet_iff {rounds : ℕ} {md5 : Bytes → Digest}
    {qsort : List Par2Slice → List Par2Slice} {disk : String → Option Bytes} {dir : String}
    {packets : String → List Packet} {names : List String}
    (permutes : ∀ slices, (qsort slices).Perm slices)
    (stored : Stored md5 disk dir packets names) (enough : roundsFor packets names ≤ rounds) :
    ∃ set, par2ScanDir rounds md5 qsort disk dir (some names) = some set ∧
      (set.OneSet ↔
        ∃ setId, ∀ packet, Decides (packetsRead md5 dir packets names) packet →
          packet.setId = setId) := by
  refine ⟨_, par2ScanDir_eq stored enough qsort, ?_⟩
  have origins := (collectedFrom_collect (packetsRead md5 dir packets names)).mem_origins
  simp only [ScanSet.OneSet, mem_origins_sortSlices permutes, finalizeLayout_origins, origins,
    forall_exists_index, and_imp, forall_apply_eq_imp_iff₂]

/-! ## Two sets in one directory

The directory holds the critical packets of two recovery sets and a recovery
slice of the second only. -/

def smallB : SmallSet where
  name := 98
  content := [0, 0, 0, 0]
  hash := 0x6272e5c41df22d863277294384ffd3f1
  fileid := 0xca327a8fb944032275ae0ee47cad4d26
  setId := 0x7e0a7f09a5e6cb5b811f96c18603eb2b
  crc := 0x2144df1c
  digests := [0x7abef12322b0d4636c75e00c1a8c57d4, 0xb489e2a0c0da889ec0c40d0f204ed053,
    0xe6b34ea8d71e12acee671ddfc2c6d66f, 0xba88690c7b0f1743d1859c27cf088711]

def mixedMd5 : Bytes → Digest :=
  SmallSet.md5 [smallA, smallB]

def mixedPackets (name : String) : List Packet :=
  if name = "a.par2" then smallA.critical else smallB.critical ++ [smallB.slice]

def mixedDisk (path : String) : Option Bytes :=
  if path = "d/a.par2" then some ((mixedPackets "a.par2").flatMap (Packet.encode mixedMd5))
  else if path = "d/b.par2" then some ((mixedPackets "b.par2").flatMap (Packet.encode mixedMd5))
  else if path = "d/a" then some [9, 9, 9, 9]
  else none

def mixedEnv : Env :=
  withoutFailure mixedMd5

def mixedRepair (set : ScanSet) : Option Bytes :=
  match par2RepairSet mixedEnv set.toPar2Set [⟨"a", "d/a"⟩] ⟨mixedDisk, 0⟩ with
  | .ok _ w => w.disk "d/a"
  | .error _ _ => none

/-- Block size and layout come from the first set, the slice from the second.  A
repair then returns `0`, and the file of the first set holds that slice. -/
theorem par2ScanDir_mixes_sets : ∃ set,
    par2ScanDir 8 mixedMd5 (fun slices => slices) mixedDisk "d" (some ["a.par2", "b.par2"]) =
      some set ∧ ¬ set.OneSet ∧ mixedRepair set = some smallB.content := by
  have run : (par2ScanDir 8 mixedMd5 (fun slices => slices) mixedDisk "d"
      (some ["a.par2", "b.par2"])).any (fun set =>
        set.blockSizeBy = some (toLe 16 smallA.setId.toNat) ∧
          set.slices.map Par2Slice.setId = [toLe 16 smallB.setId.toNat] ∧
            mixedRepair set = some smallB.content) = true := by
    decide +kernel
  obtain ⟨set, scanned, facts⟩ := (any_eq_true _ _).mp run
  obtain ⟨size, slices, repaired⟩ := of_decide_eq_true facts
  refine ⟨set, scanned, ?_, repaired⟩
  rintro ⟨setId, same⟩
  have fromA := same (toLe 16 smallA.setId.toNat) (by simp [origins, size])
  have fromB := same (toLe 16 smallB.setId.toNat) (by simp [origins, slices])
  exact absurd (fromA.trans fromB.symm) (by decide)

theorem stored_mixed : Stored mixedMd5 mixedDisk "d" mixedPackets ["b.par2"] := by
  intro name member _
  rw [mem_singleton.mp member]
  constructor <;> decide +kernel

theorem par2ScanDir_oneSet_alone : ∃ set,
    par2ScanDir 8 mixedMd5 (fun slices => slices) mixedDisk "d" (some ["b.par2"]) = some set ∧
      set.OneSet := by
  obtain ⟨set, scanned, iff⟩ := par2ScanDir_oneSet_iff (fun slices => List.Perm.refl slices)
    stored_mixed (by decide : roundsFor mixedPackets ["b.par2"] ≤ 8)
  refine ⟨set, scanned, iff.mpr ⟨toLe 16 smallB.setId.toNat, fun packet decides => ?_⟩⟩
  have all : (packetsRead mixedMd5 "d" mixedPackets ["b.par2"]).all
      (fun packet => packet.setId = toLe 16 smallB.setId.toNat) = true := by
    decide +kernel
  exact of_decide_eq_true (all_eq_true.mp all packet decides.mem)

end NzbDownloader.Par2
