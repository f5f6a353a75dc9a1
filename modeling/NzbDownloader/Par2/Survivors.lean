import NzbDownloader.Par2.Layout
import NzbDownloader.Par2.Placement

/-!
# What is left of a recovery set

A recovery set as it was created, and what a scan makes of those of its packets
that are left: which files have an entry, what the entry holds, and where the
layout loop puts it.
-/

namespace NzbDownloader.Par2

open Lib List Option

structure SourceFile where
  fileid : Digest
  name : String
  content : Bytes

open SourceFile

namespace SourceFile

def blocks (blockSize : ℕ) (f : SourceFile) : ℕ :=
  (f.content.length + blockSize - 1) / blockSize

variable (md5 : Bytes → Digest) (blockSize : ℕ) (f : SourceFile)

structure Describes (body : Bytes) : Prop where
  long : 56 ≤ body.length
  fileid : fileidOf body = f.fileid
  hash : digestOf (readAt body 16 16) = md5 f.content
  length : signed64 (ofLe (readAt body 48 8)) = f.content.length
  name : nameIn body = f.name

structure Checks (body : Bytes) : Prop where
  long : 16 ≤ body.length
  fileid : fileidOf body = f.fileid
  count : entryCount body = f.blocks blockSize
  hash : ∀ i < f.blocks blockSize,
    digestOf (readAt body (16 + i * 20) 16) = md5 (paddedBlock blockSize f.content i)
  crc : ∀ i < f.blocks blockSize,
    BitVec.ofNat 32 (ofLe (readAt body (16 + i * 20 + 16) 4)) =
      Util.crc32 (paddedBlock blockSize f.content i)

variable {md5 blockSize f}

theorem Checks.entries {body : Bytes} (sums : f.Checks md5 blockSize body)
    (filled : entryCount body ≠ 0) :
    0 < f.blocks blockSize ∧ entryCount body = f.blocks blockSize ∧
      some ((List.range (entryCount body)).map fun i =>
        digestOf (readAt body (16 + i * 20) 16)) =
          some ((List.range (f.blocks blockSize)).map fun i =>
            md5 (paddedBlock blockSize f.content i)) ∧
      ((List.range (entryCount body)).map fun i =>
        BitVec.ofNat 32 (ofLe (readAt body (16 + i * 20 + 16) 4))) =
          (List.range (f.blocks blockSize)).map fun i =>
            Util.crc32 (paddedBlock blockSize f.content i) := by
  refine ⟨by have := sums.count; omega, sums.count, ?_, ?_⟩
  · rw [sums.count]
    congr 1
    exact map_congr_left fun i member => sums.hash i (mem_range.mp member)
  · rw [sums.count]
    exact map_congr_left fun i member => sums.crc i (mem_range.mp member)

end SourceFile

/-- A recovery set: the files it can recover in the order of the Main packet, and
the others it lists.  The format allows 32768 blocks. -/
structure SourceSet where
  blockSize : ℕ
  recoverable : List SourceFile
  others : List SourceFile
  blockSize_pos : 0 < blockSize
  fileids : ((recoverable ++ others).map fileid).Nodup
  named : ∀ f ∈ recoverable, f.name ≠ ""
  names : (recoverable.map name).Nodup
  few : span (blocks blockSize) recoverable ≤ 32768

namespace SourceSet

variable (source : SourceSet) (md5 : Bytes → Digest)

def Issued : Parsed → Prop
  | .main setId body =>
      (Parsed.main setId body).blockSize? = some (source.blockSize : ℤ) ∧
        (Parsed.main setId body).fileids? =
          some ((source.recoverable ++ source.others).map fileid,
            source.recoverable.length)
  | .filedesc _ body => ∃ f ∈ source.recoverable ++ source.others, f.Describes md5 body
  | .ifsc _ body => ∃ f ∈ source.recoverable ++ source.others, f.Checks md5 source.blockSize body
  | .recovery _ => True

theorem eq_of_fileid {f g : SourceFile} (inF : f ∈ source.recoverable ++ source.others)
    (inG : g ∈ source.recoverable ++ source.others) (same : f.fileid = g.fileid) : f = g :=
  inj_on_of_nodup_map source.fileids inF inG same

theorem split_unique {before before' after after' : List SourceFile} {f f' : SourceFile}
    (split : source.recoverable = before ++ f :: after)
    (split' : source.recoverable = before' ++ f' :: after') (same : f.fileid = f'.fileid) :
    before = before' := by
  have inF : f ∈ source.recoverable ++ source.others := by simp [split]
  have inF' : f' ∈ source.recoverable ++ source.others := by simp [split']
  obtain rfl := source.eq_of_fileid inF inF' same
  have distinct : source.recoverable.Nodup :=
    (List.Nodup.of_map _ source.fileids).of_append_left
  have notBefore : f ∉ before := by
    rw [split] at distinct
    exact fun earlier => (nodup_append.mp distinct).2.2 f earlier f (.head _) rfl
  have notAfter : f ∉ after := by
    rw [split] at distinct
    exact (nodup_cons.mp distinct.of_append_right).1
  exact ((append_cons_inj_of_notMem notBefore notAfter).mp (split.symm.trans split')).1

end SourceSet

section Left

variable (read : List Parsed) (f : SourceFile)

def Described : Prop :=
  ∃ p ∈ read, p.describes f.fileid = true

def Checked : Prop :=
  ∃ p ∈ read, p.checks f.fileid = true

def Known : Prop :=
  Described read f ∨ Checked read f

end Left

structure LeftOf (source : SourceSet) (md5 : Bytes → Digest) (read : List Parsed) : Prop where
  issued : ∀ p ∈ read, source.Issued md5 p
  main : ∃ setId body, .main setId body ∈ read

structure Mirrors (source : SourceSet) (md5 : Bytes → Digest) (read : List Parsed)
    (f : SourceFile) (pf : ScannedFile) : Prop where
  described : Described read f →
    pf.name = f.name ∧ pf.hashFull = md5 f.content ∧ pf.length = f.content.length
  undescribed : ¬ Described read f → pf.name = ""
  checked : Checked read f → 0 < f.blocks source.blockSize ∧
    pf.blockCount = f.blocks source.blockSize ∧
    pf.blockMd5 = some ((List.range (f.blocks source.blockSize)).map fun i =>
      md5 (paddedBlock source.blockSize f.content i)) ∧
    pf.blockCrc32 = (List.range (f.blocks source.blockSize)).map fun i =>
      Util.crc32 (paddedBlock source.blockSize f.content i)
  unchecked : ¬ Checked read f → pf.blockMd5 = none ∧ pf.blockCount = 0

namespace LeftOf

variable {source : SourceSet} {md5 : Bytes → Digest} {read : List Parsed} {f : SourceFile}

section Sources

variable (left : LeftOf source md5 read)
include left

theorem exists_main {q : Parsed → Bool}
    (mains : ∀ p, q p → ∃ setId body, p = .main setId body)
    (meets : ∀ setId body, source.Issued md5 (.main setId body) → q (.main setId body)) :
    ∃ setId body, read.find? q = some (.main setId body) ∧
      source.Issued md5 (.main setId body) := by
  obtain ⟨setId, body, member⟩ := left.main
  obtain ⟨p, found⟩ : ∃ p, read.find? q = some p := by
    apply isSome_iff_exists.mp
    rw [find?_isSome]
    exact ⟨_, member, meets setId body (left.issued _ member)⟩
  obtain ⟨setId', body', rfl⟩ := mains p (find?_some found)
  exact ⟨setId', body', found, left.issued _ (mem_of_find?_eq_some found)⟩

theorem blockSize : (collect read).blockSize = source.blockSize := by
  have mains : ∀ p : Parsed, p.blockSize?.isSome → ∃ setId body, p = .main setId body := by
    rintro (⟨setId, body⟩ | _ | _ | _) sized
    · exact ⟨setId, body, rfl⟩
    · cases sized
    · cases sized
    · cases sized
  obtain ⟨setId, body, found, issued⟩ :=
    left.exists_main mains fun setId body issued => by rw [issued.1]; rfl
  rw [(collectedFrom_collect read).blockSize, sizeSource, found, bind_some, issued.1,
    getD_some]

theorem mainFileids : (collect read).mainFileids =
    some ((source.recoverable ++ source.others).map fileid,
      source.recoverable.length) := by
  have mains : ∀ p : Parsed, p.fileids?.isSome → ∃ setId body, p = .main setId body := by
    rintro (⟨setId, body⟩ | _ | _ | _) lists
    · exact ⟨setId, body, rfl⟩
    · cases lists
    · cases lists
    · cases lists
  obtain ⟨setId, body, found, issued⟩ :=
    left.exists_main mains fun setId body issued => by rw [issued.2]; rfl
  rw [(collectedFrom_collect read).mainFileids, layoutSource, found, bind_some, issued.2]

theorem listed : (collect read).listed = source.recoverable.map fileid := by
  have positive : (collect read).blockSize > 0 := by
    rw [left.blockSize]
    exact Int.natCast_pos.mpr source.blockSize_pos
  rw [ScanSet.listed, left.mainFileids]
  simp only [positive, if_true]
  rw [map_append]
  exact take_left' (length_map _)

omit left in
theorem last_cases (q : Parsed → Bool) : read.reverse.find? q = none ∧ ¬ (∃ p ∈ read, q p) ∨
      ∃ p ∈ read, read.reverse.find? q = some p ∧ q p = true := by
  cases found : read.reverse.find? q with
  | none =>
    refine .inl ⟨rfl, ?_⟩
    rintro ⟨p, member, tells⟩
    exact find?_eq_none.mp found p (mem_reverse.mpr member) tells
  | some p =>
    exact .inr ⟨p, mem_reverse.mp (mem_of_find?_eq_some found), rfl,
      find?_some found⟩

section Member

variable (member : f ∈ source.recoverable)
include member

theorem description : descriptionSource read f.fileid = none ∧ ¬ Described read f ∨
      ∃ setId body, descriptionSource read f.fileid = some (.filedesc setId body) ∧
        f.Describes md5 body ∧ Described read f := by
  rcases @last_cases read (Parsed.describes f.fileid) with none | ⟨p, inRead, found, describes⟩
  · exact .inl none
  have issued := left.issued p inRead
  cases p with
  | filedesc setId body =>
    obtain ⟨g, inSet, tells⟩ := issued
    have same : g = f := source.eq_of_fileid inSet (mem_append_left _ member)
      (tells.fileid.symm.trans (of_decide_eq_true describes).2)
    exact .inr ⟨setId, body, found, same ▸ tells, _, inRead, describes⟩
  | main | ifsc | recovery => cases describes

theorem checksums : checksumSource read f.fileid = none ∧ ¬ Checked read f ∨
      ∃ setId body, checksumSource read f.fileid = some (.ifsc setId body) ∧
        f.Checks md5 source.blockSize body ∧ entryCount body ≠ 0 ∧ Checked read f := by
  rcases @last_cases read (Parsed.checks f.fileid) with none | ⟨p, inRead, found, checks⟩
  · exact .inl none
  have issued := left.issued p inRead
  cases p with
  | ifsc setId body =>
    obtain ⟨g, inSet, tells⟩ := issued
    obtain ⟨-, filled, fileid⟩ := of_decide_eq_true checks
    have same : g = f := source.eq_of_fileid inSet (mem_append_left _ member)
      (tells.fileid.symm.trans fileid)
    exact .inr ⟨setId, body, found, same ▸ tells, filled, _, inRead, checks⟩
  | main | filedesc | recovery => cases checks

theorem mirrors_entryFrom (first : Parsed) :
    Mirrors source md5 read f (entryFrom f.fileid first (descriptionSource read f.fileid)
      (checksumSource read f.fileid)) := by
  rcases left.description member with
      ⟨description, lost⟩ | ⟨setId, body, description, tells, kept⟩ <;>
    rcases left.checksums member with
      ⟨checksums, lostSums⟩ | ⟨setId', body', checksums, sums, filled, keptSums⟩ <;>
    rw [description, checksums]
  · exact ⟨fun h => absurd h lost, fun _ => rfl, fun h => absurd h lostSums, fun _ => ⟨rfl, rfl⟩⟩
  · exact ⟨fun h => absurd h lost, fun _ => rfl, fun _ => sums.entries filled,
      fun h => absurd keptSums h⟩
  · exact ⟨fun _ => ⟨tells.name, tells.hash, tells.length⟩, fun h => absurd kept h,
      fun h => absurd h lostSums, fun _ => ⟨rfl, rfl⟩⟩
  · exact ⟨fun _ => ⟨tells.name, tells.hash, tells.length⟩, fun h => absurd kept h,
      fun _ => sums.entries filled, fun h => absurd keptSums h⟩

theorem entry : findFileById (collect read).files f.fileid = none ∧ ¬ Known read f ∨
      ∃ pf, findFileById (collect read).files f.fileid = some pf ∧ Known read f ∧
        Mirrors source md5 read f pf := by
  have found := (collectedFrom_collect read).file f.fileid
  cases made : entrySource read f.fileid with
  | none =>
    rw [made, map_none] at found
    refine .inl ⟨found, ?_⟩
    have unlisted := find?_eq_none.mp made
    rintro (⟨p, inRead, describes⟩ | ⟨p, inRead, checks⟩)
    · exact unlisted p inRead (by rw [Parsed.lists, describes, Bool.true_or])
    · exact unlisted p inRead (by rw [Parsed.lists, checks, Bool.or_true])
  | some first =>
    rw [made, map_some] at found
    have inRead := mem_of_find?_eq_some made
    have lists := find?_some (p := Parsed.lists f.fileid) made
    rw [Parsed.lists, Bool.or_eq_true] at lists
    have known : Known read f :=
      lists.imp (fun h => ⟨first, inRead, h⟩) fun h => ⟨first, inRead, h⟩
    refine .inr ⟨_, found, known, ?_⟩
    exact left.mirrors_entryFrom member first

theorem blocks_known (known : Known read f) :
    (collect read).blocks f.fileid = f.blocks source.blockSize := by
  have positive := source.blockSize_pos
  rcases left.entry member with ⟨-, unknown⟩ | ⟨pf, found, -, mirrors⟩
  · exact absurd known unknown
  rw [ScanSet.blocks, blocksOf_some found, left.blockSize, layoutBlocks]
  by_cases checked : Checked read f
  · obtain ⟨filled, count, -⟩ := mirrors.checked checked
    rw [count, if_neg (by omega), Int.toNat_natCast]
  have described : Described read f := known.resolve_right checked
  rw [if_pos (mirrors.unchecked checked).2.le, (mirrors.described described).2.2,
    blocks, Int.tdiv_eq_ediv_of_nonneg (by omega)]
  have cast : (f.content.length : ℤ) + source.blockSize - 1 =
      ((f.content.length + source.blockSize - 1 : ℕ) : ℤ) := by omega
  rw [cast, ← Int.natCast_ediv, Int.toNat_natCast]

theorem blocks_unknown (unknown : ¬ Known read f) : (collect read).blocks f.fileid = 0 := by
  rcases left.entry member with ⟨none, -⟩ | ⟨pf, -, known, -⟩
  · exact blocksOf_none none
  · exact absurd known unknown

theorem blocks_le : (collect read).blocks f.fileid ≤ f.blocks source.blockSize := by
  by_cases known : Known read f
  · exact (left.blocks_known member known).le
  · rw [left.blocks_unknown member known]
    exact Nat.zero_le _

theorem blocks_eq_iff : (collect read).blocks f.fileid = f.blocks source.blockSize ↔
      (0 < f.blocks source.blockSize → Known read f) := by
  by_cases known : Known read f
  · simp [left.blocks_known member known, known]
  · rw [left.blocks_unknown member known]
    simp only [known, imp_false]
    omega

theorem mirrors {pf : ScannedFile} (found : findFileById (collect read).files f.fileid = some pf) :
    Known read f ∧ Mirrors source md5 read f pf := by
  rcases left.entry member with ⟨none, -⟩ | ⟨pf', found', told⟩
  · rw [none] at found
    cases found
  · rw [found] at found'
    cases found'
    exact told

end Member

theorem placed_iff {pf : ScannedFile} :
    pf ∈ (finalizeLayout (collect read)).files ∧ pf.inRecoverySet ↔
      ∃ before f after known, source.recoverable = before ++ f :: after ∧
        findFileById (collect read).files f.fileid = some known ∧
        0 < f.blocks source.blockSize ∧ pf = known.place source.blockSize
          (span (fun g => (collect read).blocks g.fileid) before) := by
  rw [(unplaced_collect read).placed_iff, left.blockSize]
  constructor
  · rintro ⟨known, t, found, offset, positive, made⟩
    rw [ScanSet.offset, left.listed, lastOffset_eq_some_iff] at offset
    obtain ⟨ids, ids', split, -, rfl⟩ := offset
    obtain ⟨before, tail, whole, rfl, rest⟩ := map_eq_append_iff.mp split
    obtain ⟨f, after, rfl, same, rfl⟩ := map_eq_cons_iff.mp rest
    have member : f ∈ source.recoverable := by simp [whole]
    rw [← same] at found positive
    rw [left.blocks_known member (left.mirrors member found).1] at positive
    refine ⟨before, f, after, known, whole, found, positive, ?_⟩
    rw [made, Nat.zero_add, span_map]
  · rintro ⟨before, f, after, known, whole, found, positive, made⟩
    have member : f ∈ source.recoverable := by simp [whole]
    have same : pf.fileid = f.fileid := by
      rw [made, ScannedFile.place_fileid]
      simpa using find?_some found
    refine ⟨known, _, ?_, ?_, ?_, made⟩
    · rw [same, found]
    · have distinct := source.fileids
      rw [map_append, whole, map_append, map_cons] at distinct
      have last : f.fileid ∉ after.map fileid :=
        (nodup_cons.mp (distinct.of_append_left.of_append_right)).1
      rw [ScanSet.offset, left.listed, same, lastOffset_eq_some_iff]
      refine ⟨before.map fileid, after.map fileid, ?_, last, ?_⟩
      · rw [whole, map_append, map_cons]
      · rw [Nat.zero_add, span_map]
    · rw [same, left.blocks_known member (left.mirrors member found).1]
      exact positive

end Sources

end LeftOf

end NzbDownloader.Par2
