import NzbDownloader.Par2.Intact
import NzbDownloader.Par2.Survivors
import NzbDownloader.Par2.Tiling

/-!
# The block numbers of a set with lost packets

The layout loop passes over a file that no packet tells of, so a lost file moves
every file after it.  Only the loss of a description alone is noticed, since the
file is then left without a name.
-/

namespace NzbDownloader.Par2

open Lib Lib.Effect List

/-- Every file that takes part in the repair starts at the number of blocks of all
recoverable files before it in the set as it was created. -/
def SourceSet.Numbered (source : SourceSet) (set : ScanSet) : Prop :=
  ∀ pf ∈ set.files, pf.inRecoverySet = true →
    ∃ before f after, source.recoverable = before ++ f :: after ∧ pf.fileid = f.fileid ∧
      pf.globalBlockStart = span (SourceFile.blocks source.blockSize) before

def SourceSet.Unshifted (source : SourceSet) (read : List Parsed) : Prop :=
  ∀ before f after, source.recoverable = before ++ f :: after → Known read f →
    0 < f.blocks source.blockSize → ∀ g ∈ before, 0 < g.blocks source.blockSize → Known read g

def SourceSet.Nameless (source : SourceSet) (read : List Parsed) : Prop :=
  ∃ f ∈ source.recoverable, Checked read f ∧ ¬ Described read f

def Refused (md5 : Bytes → Digest) (set : ScanSet) : Prop :=
  ∀ env files w, env.md5 = md5 → (∀ file ∈ files, file.name ≠ "") →
    ∃ message w', Fails (par2RepairSet env set.toPar2Set files) w message w'

variable {f : SourceFile}

namespace LeftOf

variable {source : SourceSet} {md5 : Bytes → Digest} {read : List Parsed}
  (left : LeftOf source md5 read)
include left

theorem numbered_iff : source.Numbered (finalizeLayout (collect read)) ↔ source.Unshifted read := by
  have counted : ∀ before f after, source.recoverable = before ++ f :: after →
      (Lib.span (fun g => (collect read).blocks g.fileid) before =
          Lib.span (SourceFile.blocks source.blockSize) before ↔
        ∀ g ∈ before, 0 < g.blocks source.blockSize → Known read g) := by
    intro before f after whole
    have inSet : ∀ g ∈ before, g ∈ source.recoverable := fun g member => by simp [whole, member]
    rw [span_eq_span_iff fun g member => left.blocks_le (inSet g member)]
    exact forall₂_congr fun g member => left.blocks_eq_iff (inSet g member)
  constructor
  · intro numbered before f after whole told positive
    have member : f ∈ source.recoverable := by simp [whole]
    rcases left.entry member with ⟨-, unknown⟩ | ⟨known, found, -⟩
    · exact absurd told unknown
    obtain ⟨inFiles, placed⟩ := left.placed_iff.mpr
      ⟨before, f, after, known, whole, found, positive, rfl⟩
    obtain ⟨before', f', after', whole', same, start⟩ := numbered _ inFiles placed
    have here : known.fileid = f.fileid := by simpa using find?_some found
    obtain rfl := source.split_unique whole whole' (here.symm.trans same)
    exact (counted before f after whole).mp (Nat.cast_injective (R := ℤ) start)
  · rintro unshifted pf member placed
    obtain ⟨before, f, after, known, whole, found, positive, rfl⟩ :=
      left.placed_iff.mp ⟨member, placed⟩
    have inSet : f ∈ source.recoverable := by simp [whole]
    refine ⟨before, f, after, whole, ?_, ?_⟩
    · rw [ScannedFile.place_fileid]
      simpa using find?_some found
    · exact congrArg Nat.cast ((counted before f after whole).mpr
        (unshifted before f after whole (left.mirrors inSet found).1 positive))

theorem refused_of_nameless (nameless : source.Nameless read)
    (qsort : List Par2Slice → List Par2Slice) :
    Refused md5 (sortSlices qsort (finalizeLayout (collect read))) := by
  obtain ⟨f, member, checked, undescribed⟩ := nameless
  obtain ⟨before, after, whole⟩ := append_of_mem member
  rcases left.entry member with ⟨-, unknown⟩ | ⟨known, found, -, mirrors⟩
  · exact absurd (.inr checked) unknown
  obtain ⟨inFiles, placed⟩ := left.placed_iff.mpr
    ⟨before, f, after, known, whole, found, (mirrors.checked checked).1, rfl⟩
  intro env files w _ named
  rcases returns_or_fails (par2RepairSet env
    (sortSlices qsort (finalizeLayout (collect read))).toPar2Set files) w with ⟨_, w', returns⟩ | fails
  · obtain ⟨⟨resolved, present⟩, t, damage, -⟩ := returns_bind.mp returns
    obtain ⟨_, _, found, _⟩ := findDamage_cases damage
    have paths := found.resolved
    rw [← sortSlices_files qsort] at inFiles
    have recovered := mem_recoveryFiles_iff.mpr ⟨_, inFiles, placed, rfl⟩
    rw [← paths.map_fst, mem_map] at recovered
    obtain ⟨entry, inResolved, same⟩ := recovered
    obtain ⟨-, file, inJob, name, -⟩ := paths.mem inResolved
    rw [same] at name
    exact absurd (name.trans (mirrors.undescribed undescribed)) (named file inJob)
  · exact fails

theorem whole_place (member : f ∈ source.recoverable) {known : ScannedFile}
    (found : findFileById (collect read).files f.fileid = some known) (described : Described read f)
    {env : Env} (hashes : env.md5 = md5) (running : ℤ) :
    Whole env source.blockSize (known.place source.blockSize running).toPar2File f.content := by
  obtain ⟨-, mirrors⟩ := left.mirrors member found
  constructor
  · intro md5s entries bi inside
    by_cases checked : Checked read f
    · obtain ⟨filled, count, sums, crcs⟩ := mirrors.checked checked
      have here : known.blockMd5 = some md5s := entries
      rw [sums, Option.some_inj] at here
      have bound : bi < f.blocks source.blockSize := by
        have kept : (known.place source.blockSize running).blockCount = known.blockCount :=
          if_neg (by omega)
        rw [← count, ← kept]
        exact inside
      have crc : (known.place source.blockSize running).blockCrc32 = known.blockCrc32 := rfl
      simp [blockBad, crc, crcs, ← here, hashes, getD_eq_getElem?_getD, bound]
    · have none : known.blockMd5 = some md5s := entries
      rw [(mirrors.unchecked checked).1] at none
      cases none
  · intro _
    rw [hashes]
    exact (mirrors.described described).2.1.symm

end LeftOf

namespace SourceSet

variable (source : SourceSet)

def job : List RepairFile :=
  source.recoverable.map fun f => ⟨f.name, f.name⟩

def stored (path : String) : Option Bytes :=
  (source.recoverable.find? (·.name = path)).map SourceFile.content

theorem find_name (member : f ∈ source.recoverable) :
    source.recoverable.find? (·.name = f.name) = some f := by
  obtain ⟨g, found⟩ : ∃ g, source.recoverable.find? (·.name = f.name) = some g := by
    apply Option.isSome_iff_exists.mp
    rw [find?_isSome]
    exact ⟨f, member, by simp⟩
  have same : g.name = f.name := by simpa using find?_some found
  rw [found, inj_on_of_nodup_map source.names (mem_of_find?_eq_some found) member same]

theorem find_job (member : f ∈ source.recoverable) :
    source.job.find? (·.name = f.name) = some ⟨f.name, f.name⟩ := by
  have found := source.find_name member
  rw [job, find?_map]
  simp only [Function.comp_def, found, Option.map_some]

end SourceSet

namespace LeftOf

variable {source : SourceSet} {md5 : Bytes → Digest} {read : List Parsed}
  (left : LeftOf source md5 read)
include left

theorem sourceBlockCount : (finalizeLayout (collect read)).sourceBlockCount =
    Lib.span (fun f => (collect read).blocks f.fileid) source.recoverable := by
  rw [finalizeLayout_sourceBlockCount _ (unplaced_collect read).sourceBlockCount, left.listed,
    span_map]

theorem exists_owner {g : ℕ} (inside : (g : ℤ) < (finalizeLayout (collect read)).sourceBlockCount) :
    ∃ pf ∈ (finalizeLayout (collect read)).files, pf.inRecoverySet = true ∧
      pf.toPar2File.Owns g := by
  have distinct := source.fileids
  rw [map_append] at distinct
  have tiled := (unplaced_collect read).tiled_iff.mpr
    (List.Nodup.filter _ (left.listed ▸ distinct.of_append_left))
  have covered : (g : ℤ) ∈ Set.Ico 0 (finalizeLayout (collect read)).sourceBlockCount :=
    ⟨Int.natCast_nonneg g, inside⟩
  rw [← tiled.union] at covered
  exact covered

theorem allWhole (named : ¬ source.Nameless read) (qsort : List Par2Slice → List Par2Slice) :
    AllWhole (withoutFailure md5) (sortSlices qsort (finalizeLayout (collect read))).toPar2Set
      source.job source.stored := by
  intro pf inSet
  obtain ⟨entry, inFiles, placed, rfl⟩ := mem_recoveryFiles_iff.mp inSet
  rw [sortSlices_files] at inFiles
  obtain ⟨before, f, after, known, whole, found, -, rfl⟩ := left.placed_iff.mp ⟨inFiles, placed⟩
  have member : f ∈ source.recoverable := by simp [whole]
  obtain ⟨told, mirrors⟩ := left.mirrors member found
  have described : Described read f := by
    by_contra lost
    exact named ⟨f, member, told.resolve_left lost, lost⟩
  refine ⟨⟨f.name, f.name⟩, f.content, ?_, ?_, ?_⟩
  · have name : (known.place source.blockSize
        (span (fun g => (collect read).blocks g.fileid) before)).name = f.name :=
      (mirrors.described described).1
    rw [name]
    exact source.find_job member
  · rw [SourceSet.stored, source.find_name member, Option.map_some]
  · have size : (sortSlices qsort (finalizeLayout (collect read))).toPar2Set.blockSize.toNat =
        source.blockSize := by
      simp only [ScanSet.toPar2Set, sortSlices_blockSize, finalizeLayout_blockSize, left.blockSize,
        Int.toNat_natCast]
    rw [size]
    exact left.whole_place member found described rfl _

theorem not_refused (named : ¬ source.Nameless read) (member : f ∈ source.recoverable)
    (told : Known read f) (positive : 0 < f.blocks source.blockSize)
    (qsort : List Par2Slice → List Par2Slice) :
    ¬ Refused md5 (sortSlices qsort (finalizeLayout (collect read))) := by
  intro refused
  have size : (sortSlices qsort (finalizeLayout (collect read))).toPar2Set.blockSize =
      source.blockSize := by
    simp only [ScanSet.toPar2Set, sortSlices_blockSize, finalizeLayout_blockSize, left.blockSize]
  have total : (sortSlices qsort (finalizeLayout (collect read))).toPar2Set.sourceBlockCount =
      (finalizeLayout (collect read)).sourceBlockCount :=
    sortSlices_sourceBlockCount qsort _
  have few : Lib.span (fun f => (collect read).blocks f.fileid) source.recoverable ≤ 32768 :=
    (span_le_span fun f member => left.blocks_le member).trans source.few
  have some : 0 < Lib.span (fun f => (collect read).blocks f.fileid) source.recoverable := by
    obtain ⟨before, after, whole⟩ := append_of_mem member
    rw [whole, span_append, span_cons, left.blocks_known member told]
    omega
  have answers := @answers_par2RepairSet (withoutFailure md5) _ _ _ (fun _ => rfl)
    (left.allWhole named qsort)
    (by rw [size]; exact Int.natCast_pos.mpr source.blockSize_pos)
    (by rw [total, left.sourceBlockCount]; exact Int.natCast_pos.mpr some)
    (by rw [total, left.sourceBlockCount]; exact Int.ofNat_le.mpr few)
    (fun g inside => by
      obtain ⟨entry, inFiles, placed, owns⟩ := left.exists_owner (total ▸ inside)
      rw [← sortSlices_files qsort] at inFiles
      exact ⟨_, mem_recoveryFiles_iff.mpr ⟨entry, inFiles, placed, rfl⟩, owns⟩)
  obtain ⟨w', returns, -⟩ := answers ⟨source.stored, 0⟩ rfl
  obtain ⟨message, w'', fails⟩ := refused (withoutFailure md5) source.job ⟨source.stored, 0⟩ rfl (by
    intro file inJob
    obtain ⟨f, member, rfl⟩ := mem_map.mp inJob
    exact source.named f member)
  exact returns.not_fails fails

theorem numbered_or_refused_iff (qsort : List Par2Slice → List Par2Slice) :
    source.Numbered (finalizeLayout (collect read)) ∨
        Refused md5 (sortSlices qsort (finalizeLayout (collect read))) ↔
      source.Unshifted read ∨ source.Nameless read := by
  rw [left.numbered_iff]
  constructor
  · rintro (unshifted | refused)
    · exact .inl unshifted
    · by_contra neither
      obtain ⟨shifted, named⟩ := not_or.mp neither
      apply shifted
      intro before f after whole told positive
      exact absurd refused (left.not_refused named (by simp [whole]) told positive qsort)
  · exact Or.imp_right fun nameless => left.refused_of_nameless nameless qsort

theorem congr {read' : List Parsed} (same : ∀ p, p ∈ read ↔ p ∈ read') :
    LeftOf source md5 read' where
  issued p member := left.issued p ((same p).mpr member)
  main := by
    obtain ⟨setId, body, member⟩ := left.main
    exact ⟨setId, body, (same _).mp member⟩

end LeftOf

section Scan

variable {rounds : ℕ} {md5 : Bytes → Digest} {qsort : List Par2Slice → List Par2Slice}
  {disk : String → Option Bytes} {dir : String} {names : List String} {set : ScanSet}
  {source : SourceSet} {read : List Parsed}

theorem ReadFrom.mem_of_mem {read' : List Parsed}
    (readFrom : ReadFrom rounds md5 disk dir names read)
    (readFrom' : ReadFrom rounds md5 disk dir names read') {p : Parsed} (member : p ∈ read) :
    p ∈ read' := by
  obtain ⟨name, inNames, par2, content, found, stored, parsed, inFound⟩ := readFrom.only p member
  obtain ⟨found', parsed', inRead⟩ := readFrom'.all name inNames par2 content stored
  rw [parsed, Option.some_inj] at parsed'
  exact inRead p (parsed' ▸ inFound)

/-- Whatever packets of a recovery set are left on the disk, its Main packet among
them: each file that a scan lets take part in the repair starts at the number of
blocks of all recoverable files before it, or else every repair ends with an error,
exactly when no file that is lost altogether stands before one that is not, or when
the checksums of some recoverable file are left without its description. -/
theorem numbering_right_or_refused_iff
    (scanned : par2ScanDir rounds md5 qsort disk dir (some names) = some set)
    (readFrom : ReadFrom rounds md5 disk dir names read) (left : LeftOf source md5 read) :
    source.Numbered set ∨ Refused md5 set ↔ source.Unshifted read ∨ source.Nameless read := by
  obtain ⟨read', readFrom', rfl⟩ := exists_readFrom scanned
  have same : ∀ p, p ∈ read ↔ p ∈ read' := fun p =>
    ⟨readFrom.mem_of_mem readFrom', readFrom'.mem_of_mem readFrom⟩
  have numbered : source.Numbered (sortSlices qsort (finalizeLayout (collect read'))) ↔
      source.Numbered (finalizeLayout (collect read')) := by
    rw [SourceSet.Numbered, sortSlices_files, SourceSet.Numbered]
  rw [numbered, (left.congr same).numbered_or_refused_iff]
  simp only [SourceSet.Unshifted, SourceSet.Nameless, Known, Described, Checked, same]

end Scan

/-! ## Two files

A set of two files of one block each, both with the same bytes, so that the slice
of exponent zero, the sum of the blocks, has only zeros.  The digests are those MD5
has for the byte strings of the set. -/

def pairFirst : SourceFile where
  fileid := 0x3ab4972085c0e6c1ee244a586159c6c3
  name := "b"
  content := smallA.content

def pairSecond : SourceFile where
  fileid := smallA.fileid
  name := "a"
  content := smallA.content

def pairSet : SourceSet where
  blockSize := 4
  recoverable := [pairFirst, pairSecond]
  others := []
  blockSize_pos := by decide
  fileids := by decide
  named := by
    intro f member
    rcases List.mem_cons.mp member with rfl | last
    · decide
    · rw [List.mem_singleton.mp last]
      decide
  names := by decide
  few := by decide

def pairPacket (type body : Bytes) (typeLength : type.length = 16) : Packet where
  setId := toLe 16 0x6d5869e16e3c5f01731b30220249fcf7
  type := type
  body := body
  setId_length := length_toLe _ _
  type_length := typeLength

def pairMain : Packet :=
  pairPacket typeMain
    (toLe 8 4 ++ toLe 4 2 ++ toLe 16 pairFirst.fileid.toNat ++ toLe 16 pairSecond.fileid.toNat)
    length_typeMain

def pairDescription (f : SourceFile) (letter : Byte) : Packet :=
  pairPacket typeFiledesc
    (toLe 16 f.fileid.toNat ++ smallA.sum ++ smallA.sum ++ toLe 8 4 ++ [letter, 0, 0, 0])
    length_typeFiledesc

def pairSlice : Packet :=
  pairPacket typeRecovery (toLe 4 0 ++ [0, 0, 0, 0]) length_typeRecovery

def pairMd5 (data : Bytes) : Digest :=
  let hashed (packet : Packet) : Bytes := packet.setId ++ packet.type ++ packet.body
  if data = smallA.content then smallA.hash
  else if data = hashed pairMain then 0xa598ec640bcf51215f2eab604e606896
  else if data = hashed (pairDescription pairFirst 98) then 0x5bedb9c1833806e6af388bac7558ef86
  else if data = hashed (pairDescription pairSecond 97) then 0xcf8bf72da043915a54aacfe0486aab58
  else if data = hashed pairSlice then 0x4699dda05dd91ef9788685dcbffa65dc
  else 0

def pairPackets (name : String) : List Packet :=
  if name = "all.par2" then [pairMain, pairDescription pairFirst 98, pairDescription pairSecond 97]
  else [pairMain, pairDescription pairSecond 97, pairSlice]

def pairDisk (path : String) : Option Bytes :=
  if path = "d/all.par2" then some ((pairPackets "all.par2").flatMap (Packet.encode pairMd5))
  else if path = "d/lost.par2" then
    some ((pairPackets "lost.par2").flatMap (Packet.encode pairMd5))
  else if path = "d/b" then some pairFirst.content
  else if path = "d/a" then some [9, 9, 9, 9]
  else none

def pairRead (name : String) : List Parsed :=
  packetsRead pairMd5 "d" pairPackets [name]

theorem pairRead_all : pairRead "all.par2" =
    [.main pairMain.setId pairMain.body,
      .filedesc pairMain.setId (pairDescription pairFirst 98).body,
      .filedesc pairMain.setId (pairDescription pairSecond 97).body] := by
  rfl

theorem pairRead_lost : ∃ slice, pairRead "lost.par2" =
    [.main pairMain.setId pairMain.body,
      .filedesc pairMain.setId (pairDescription pairSecond 97).body, .recovery slice] := by
  exact ⟨_, rfl⟩

theorem stored_pair {name : String} (known : name = "all.par2" ∨ name = "lost.par2") :
    Stored pairMd5 pairDisk "d" pairPackets [name] := by
  intro other member _
  rw [mem_singleton.mp member]
  rcases known with rfl | rfl
  · constructor <;> decide +kernel
  · constructor <;> decide +kernel

theorem issued_pairMain :
    pairSet.Issued pairMd5 (.main pairMain.setId pairMain.body) := by
  constructor <;> decide +kernel

theorem describes_pairSecond :
    pairSecond.Describes pairMd5 (pairDescription pairSecond 97).body := by
  constructor <;> decide +kernel

theorem describes_pairFirst : pairFirst.Describes pairMd5 (pairDescription pairFirst 98).body := by
  constructor <;> decide +kernel

theorem leftOf_all : LeftOf pairSet pairMd5 (pairRead "all.par2") where
  issued := by
    rw [pairRead_all]
    intro p member
    simp only [mem_cons, not_mem_nil, or_false] at member
    rcases member with rfl | rfl | rfl
    · exact issued_pairMain
    · exact ⟨pairFirst, mem_cons_self, describes_pairFirst⟩
    · exact ⟨pairSecond, .tail _ (.head _), describes_pairSecond⟩
  main := by
    rw [pairRead_all]
    exact ⟨_, _, .head _⟩

theorem leftOf_lost : LeftOf pairSet pairMd5 (pairRead "lost.par2") := by
  obtain ⟨slice, packets⟩ := pairRead_lost
  rw [packets]
  constructor
  · intro p member
    simp only [mem_cons, not_mem_nil, or_false] at member
    rcases member with rfl | rfl | rfl
    · exact issued_pairMain
    · exact ⟨pairSecond, .tail _ (.head _), describes_pairSecond⟩
    · trivial
  · exact ⟨_, _, .head _⟩

theorem numbering_right_or_refused_all : ∃ set,
    par2ScanDir 9 pairMd5 id pairDisk "d" (some ["all.par2"]) = some set ∧
      (pairSet.Numbered set ∨ Refused pairMd5 set) := by
  have stored := stored_pair (.inl rfl)
  have enough : roundsFor pairPackets ["all.par2"] ≤ 9 := by decide
  have readFrom : ReadFrom 9 pairMd5 pairDisk "d" ["all.par2"] (pairRead "all.par2") :=
    stored.readFrom enough
  obtain ⟨set, scanned⟩ : ∃ set,
      par2ScanDir 9 pairMd5 id pairDisk "d" (some ["all.par2"]) = some set :=
    ⟨_, par2ScanDir_eq stored enough id⟩
  refine ⟨set, scanned, (numbering_right_or_refused_iff scanned readFrom leftOf_all).mpr (.inl ?_)⟩
  have knownFirst : Known (pairRead "all.par2") pairFirst := by
    rw [pairRead_all]
    exact .inl ⟨_, .tail _ (.head _), by decide +kernel⟩
  have knownSecond : Known (pairRead "all.par2") pairSecond := by
    rw [pairRead_all]
    exact .inl ⟨_, .tail _ (.tail _ (.head _)),
      by decide +kernel⟩
  intro before f after whole _ _ g member _
  have inSet : g ∈ pairSet.recoverable := by simp [whole, member]
  rcases mem_cons.mp inSet with rfl | last
  · exact knownFirst
  · rw [mem_singleton.mp last]
    exact knownSecond

def pairRepair (set : ScanSet) : Option Bytes :=
  match par2RepairSet (withoutFailure pairMd5) set.toPar2Set [⟨"a", "d/a"⟩, ⟨"b", "d/b"⟩]
      ⟨pairDisk, 0⟩ with
  | .ok _ w => w.disk "d/a"
  | .error _ _ => none

/-- Without the packet of the first file the second one starts at block 0 instead
of block 1.  A repair then takes the sum of both blocks for the second block,
writes it and returns `0`. -/
theorem lost_description_shifts_next : ∃ set,
    par2ScanDir 9 pairMd5 id pairDisk "d" (some ["lost.par2"]) = some set ∧
      LeftOf pairSet pairMd5 (pairRead "lost.par2") ∧
      set.files.map (fun pf => (pf.fileid, pf.name, pf.inRecoverySet, pf.globalBlockStart)) =
        [(pairSecond.fileid, "a", true, 0)] ∧
      ¬ pairSet.Numbered set ∧ pairRepair set = some [0, 0, 0, 0] := by
  have run : (par2ScanDir 9 pairMd5 id pairDisk "d" (some ["lost.par2"])).any (fun set =>
      set.files.map (fun pf => (pf.fileid, pf.name, pf.inRecoverySet, pf.globalBlockStart)) =
        [(pairSecond.fileid, "a", true, 0)] ∧ pairRepair set = some [0, 0, 0, 0]) = true := by
    decide +kernel
  obtain ⟨set, scanned, facts⟩ := (Option.any_eq_true _ _).mp run
  obtain ⟨files, repaired⟩ := of_decide_eq_true facts
  refine ⟨set, scanned, leftOf_lost, files, ?_, repaired⟩
  intro numbered
  obtain ⟨pf, single, fields⟩ := map_eq_singleton_iff.mp files
  obtain ⟨fileid, -, placed, start⟩ := by simpa only [Prod.mk.injEq] using fields
  obtain ⟨before, f, after, whole, same, right⟩ := numbered pf (by simp [single]) placed
  have split : pairSet.recoverable = [pairFirst] ++ pairSecond :: [] := rfl
  have first : [pairFirst] = before := pairSet.split_unique split whole (fileid.symm.trans same)
  rw [start, ← first] at right
  exact absurd right (by decide)

end NzbDownloader.Par2
