import NzbDownloader.Par2.Scan
import Mathlib.Algebra.Order.BigOperators.Group.List

/-!
# What a scan collects

Every field of the collected set as the choice of one packet among those read:
the first Main packet with a block size, the first with a file list, the last
description and the last checksums of a file id.
-/

namespace NzbDownloader.Par2

open Lib Util List Option Parsed

namespace Parsed

def blockSize? : Parsed → Option ℤ
  | .main _ body =>
      let bs := signed64 (ofLe (readAt body 0 8))
      if 12 ≤ body.length ∧ bs > 0 ∧ bs % 4 = 0 then some bs else none
  | _ => none

def fileids? : Parsed → Option (List Digest × ℕ)
  | .main _ body =>
      let total := (body.length - 12) / 16
      if 12 ≤ body.length ∧ ofLe (readAt body 8 4) ≤ total then
        some ((List.range total).map fun i => digestOf (readAt body (12 + i * 16) 16),
          ofLe (readAt body 8 4))
      else none
  | _ => none

def describes (fileid : Digest) : Parsed → Bool
  | .filedesc _ body => 56 ≤ body.length ∧ fileidOf body = fileid
  | _ => false

def checks (fileid : Digest) : Parsed → Bool
  | .ifsc _ body => 16 ≤ body.length ∧ entryCount body ≠ 0 ∧ fileidOf body = fileid
  | _ => false

def lists (fileid : Digest) (packet : Parsed) : Bool :=
  packet.describes fileid || packet.checks fileid

def write : Parsed → ScannedFile → ScannedFile
  | .filedesc setId body, pf => pf.describe setId body
  | .ifsc setId body, pf => pf.check setId body
  | _, pf => pf

def slice? : Parsed → Option Par2Slice
  | .recovery slice => some slice
  | _ => none

end Parsed

@[simp]
theorem ScannedFile.describe_fileid (setId body : Bytes) (pf : ScannedFile) :
    (pf.describe setId body).fileid = pf.fileid :=
  rfl

@[simp]
theorem ScannedFile.check_fileid (setId body : Bytes) (pf : ScannedFile) :
    (pf.check setId body).fileid = pf.fileid :=
  rfl

@[simp]
theorem ScannedFile.place_fileid (blockSize running : ℤ) (pf : ScannedFile) :
    (pf.place blockSize running).fileid = pf.fileid :=
  rfl

variable {files : List ScannedFile} {change : ScannedFile → ScannedFile} {fileid : Digest}
  {description checksums : Option Parsed} {set : ScanSet} {rounds : ℕ} {names : List String}
  {qsort : List Par2Slice → List Par2Slice}

section Table

theorem findFileById_modifyFile (keeps : ∀ pf, (change pf).fileid = pf.fileid) (other : Digest) :
    findFileById (modifyFile fileid change files) other =
      if other = fileid then (findFileById files fileid).map change
      else findFileById files other := by
  induction files with
  | nil => simp [findFileById, modifyFile]
  | cons file rest ih =>
    simp only [findFileById] at ih ⊢
    by_cases found : file.fileid = fileid
    · by_cases same : other = fileid
      · simp [modifyFile, found, same, keeps]
      · have differs : ¬ fileid = other := fun h => same h.symm
        simp [modifyFile, found, same, keeps, differs]
    · by_cases same : other = fileid
      · subst same
        simpa [modifyFile, found] using ih
      · simp only [modifyFile, found, if_false, same, find?_cons] at ih ⊢
        rw [ih]

theorem findFileById_setFindOrAddFile (setId : Bytes) (other : Digest) :
    findFileById (setFindOrAddFile files fileid setId) other =
      if other = fileid then some ((findFileById files fileid).getD (newFile fileid setId))
      else findFileById files other := by
  rw [setFindOrAddFile]
  split
  · rename_i known
    obtain ⟨pf, found⟩ := isSome_iff_exists.mp known
    split
    · rename_i same
      rw [same, found, getD_some]
    · rfl
  · rename_i unknown
    have absent : findFileById files fileid = none := by simpa using unknown
    simp only [findFileById] at absent ⊢
    rw [find?_append]
    split
    · rename_i same
      rw [same, absent]
      simp [newFile]
    · rename_i differs
      have : ¬ fileid = other := fun h => differs h.symm
      simp [newFile, this]

theorem map_modifyFile {β : Type} {view : ScannedFile → β}
    (keeps : ∀ pf, view (change pf) = view pf) :
    (modifyFile fileid change files).map view = files.map view := by
  induction files with
  | nil => rfl
  | cons file rest ih =>
    rw [modifyFile]
    split
    · rw [map_cons, map_cons, keeps]
    · rw [map_cons, map_cons, ih]

theorem mem_iff_findFileById (distinct : (files.map ScannedFile.fileid).Nodup) (pf : ScannedFile) :
    pf ∈ files ↔ findFileById files pf.fileid = some pf := by
  constructor
  · intro member
    induction files with
    | nil => contradiction
    | cons file rest ih =>
      rw [map_cons, nodup_cons] at distinct
      rcases mem_cons.mp member with rfl | inRest
      · simp [findFileById]
      · have differs : ¬ file.fileid = pf.fileid := fun same =>
          distinct.1 (same ▸ mem_map_of_mem inRest)
        simpa [findFileById, differs] using ih distinct.2 inRest
  · exact mem_of_find?_eq_some

end Table

section Step

variable (set : ScanSet) (packet : Parsed)

theorem handlePacket_cases :
    (∃ files, handlePacket set packet = { set with files := files } ∧ packet.blockSize? = none ∧
      packet.fileids? = none ∧ packet.slice? = none) ∨
    (∃ setId body, packet = .main setId body) ∨ ∃ slice, packet = .recovery slice := by
  cases packet with
  | main setId body => exact .inr (.inl ⟨setId, body, rfl⟩)
  | filedesc setId body =>
    refine .inl ?_
    rw [handlePacket, handleFiledescPacket]
    split
    · exact ⟨set.files, rfl, rfl, rfl, rfl⟩
    · exact ⟨_, rfl, rfl, rfl, rfl⟩
  | ifsc setId body =>
    refine .inl ?_
    rw [handlePacket, handleIfscPacket]
    split
    · exact ⟨set.files, rfl, rfl, rfl, rfl⟩
    · split
      · exact ⟨set.files, rfl, rfl, rfl, rfl⟩
      · exact ⟨_, rfl, rfl, rfl, rfl⟩
  | recovery slice => exact .inr (.inr ⟨slice, rfl⟩)

theorem handlePacket_blockSize :
    ((handlePacket set packet).blockSize, (handlePacket set packet).blockSizeBy) =
      match packet.blockSize? with
      | some bs => if set.blockSize = 0 then (bs, some packet.setId)
          else (set.blockSize, set.blockSizeBy)
      | none => (set.blockSize, set.blockSizeBy) := by
  rcases handlePacket_cases set packet with
    ⟨files, same, size, _⟩ | ⟨setId, body, rfl⟩ | ⟨slice, rfl⟩
  · rw [same, size]
  · simp only [handlePacket, handleMainPacket, Parsed.blockSize?, Parsed.setId]
    split_ifs <;> first | rfl | omega
  · rfl

theorem handlePacket_fileids :
    ((handlePacket set packet).mainFileids, (handlePacket set packet).layoutBy) =
      match packet.fileids? with
      | some list => if set.mainFileids.isSome then (set.mainFileids, set.layoutBy)
          else (some list, some packet.setId)
      | none => (set.mainFileids, set.layoutBy) := by
  rcases handlePacket_cases set packet with
    ⟨files, same, _, list, _⟩ | ⟨setId, body, rfl⟩ | ⟨slice, rfl⟩
  · rw [same, list]
  · simp only [handlePacket, handleMainPacket, Parsed.fileids?, Parsed.setId]
    split_ifs <;> first | rfl | omega
  · rfl

theorem handlePacket_slices :
    (handlePacket set packet).slices = set.slices ++ packet.slice?.toList := by
  rcases handlePacket_cases set packet with
    ⟨files, same, _, _, slice⟩ | ⟨setId, body, rfl⟩ | ⟨slice, rfl⟩
  · rw [same, slice]
    exact (append_nil _).symm
  · simp only [handlePacket, handleMainPacket, Parsed.slice?]
    split_ifs <;> simp
  · rfl

theorem handlePacket_sourceBlockCount :
    (handlePacket set packet).sourceBlockCount = set.sourceBlockCount := by
  rcases handlePacket_cases set packet with ⟨files, same, _⟩ | ⟨setId, body, rfl⟩ | ⟨slice, rfl⟩
  · rw [same]
  · simp only [handlePacket, handleMainPacket]
    split_ifs <;> rfl
  · rfl

theorem findFileById_written (keeps : ∀ pf, (change pf).fileid = pf.fileid) (written : Digest)
    (setId : Bytes) (fileid : Digest) :
    findFileById (modifyFile written change (setFindOrAddFile files written setId)) fileid =
      if written = fileid then
        some (change ((findFileById files fileid).getD (newFile fileid setId)))
      else findFileById files fileid := by
  rw [findFileById_modifyFile keeps, findFileById_setFindOrAddFile, findFileById_setFindOrAddFile,
    if_pos rfl]
  by_cases same : written = fileid
  · subst same
    simp
  · have differs : ¬ fileid = written := fun h => same h.symm
    rw [if_neg differs, if_neg differs, if_neg same]

theorem handlePacket_file (fileid : Digest) : findFileById (handlePacket set packet).files fileid =
      if packet.lists fileid then
        some (packet.write ((findFileById set.files fileid).getD (newFile fileid packet.setId)))
      else findFileById set.files fileid := by
  cases packet with
  | main setId body =>
    simp only [handlePacket, handleMainPacket, Parsed.lists, Parsed.describes, Parsed.checks]
    split_ifs <;> rfl
  | filedesc setId body =>
    simp only [handlePacket, handleFiledescPacket, Parsed.lists, Parsed.describes, Parsed.checks]
    by_cases short : body.length < 56
    · simp [short, Nat.not_le.mpr short]
    · rw [if_neg short, findFileById_written (ScannedFile.describe_fileid setId body)]
      simp [Nat.not_lt.mp short, Parsed.write, Parsed.setId]
  | ifsc setId body =>
    simp only [handlePacket, handleIfscPacket, Parsed.lists, Parsed.describes, Parsed.checks]
    by_cases short : body.length < 16
    · simp [short, Nat.not_le.mpr short]
    · by_cases none : entryCount body = 0
      · simp [none]
      · rw [if_neg short, if_neg none, findFileById_written (ScannedFile.check_fileid setId body)]
        simp [Nat.not_lt.mp short, none, Parsed.write, Parsed.setId]
  | recovery slice => rfl

theorem distinct_written (keeps : ∀ pf, (change pf).fileid = pf.fileid) (written : Digest)
    (setId : Bytes) (distinct : (files.map ScannedFile.fileid).Nodup) :
    ((modifyFile written change (setFindOrAddFile files written setId)).map
      ScannedFile.fileid).Nodup := by
  rw [map_modifyFile keeps, setFindOrAddFile]
  split
  · exact distinct
  rename_i unknown
  have absent : ∀ pf ∈ files, ¬ pf.fileid = written := by
    simpa [findFileById] using unknown
  rw [map_append, nodup_append]
  refine ⟨distinct, nodup_singleton _, ?_⟩
  rintro fileid listed _ added rfl
  obtain ⟨pf, member, rfl⟩ := mem_map.mp listed
  exact absent pf member (mem_singleton.mp added)

theorem handlePacket_distinct (distinct : (set.files.map ScannedFile.fileid).Nodup) :
    ((handlePacket set packet).files.map ScannedFile.fileid).Nodup := by
  cases packet with
  | main setId body =>
    simp only [handlePacket, handleMainPacket]
    split_ifs <;> exact distinct
  | filedesc setId body =>
    simp only [handlePacket, handleFiledescPacket]
    split_ifs
    · exact distinct
    · exact distinct_written (ScannedFile.describe_fileid setId body) _ _ distinct
  | ifsc setId body =>
    simp only [handlePacket, handleIfscPacket]
    split_ifs
    · exact distinct
    · exact distinct
    · exact distinct_written (ScannedFile.check_fileid setId body) _ _ distinct
  | recovery slice => exact distinct

end Step

section Sources

variable (packets : List Parsed)

def sizeSource : Option Parsed :=
  packets.find? (·.blockSize?.isSome)

def layoutSource : Option Parsed :=
  packets.find? (·.fileids?.isSome)

def entrySource (fileid : Digest) : Option Parsed :=
  packets.find? (·.lists fileid)

def descriptionSource (fileid : Digest) : Option Parsed :=
  packets.reverse.find? (·.describes fileid)

def checksumSource (fileid : Digest) : Option Parsed :=
  packets.reverse.find? (·.checks fileid)

def entryFrom (fileid : Digest) (first : Parsed) (description checksums : Option Parsed) :
    ScannedFile :=
  checksums.elim id write (description.elim id write (newFile fileid first.setId))

structure CollectedFrom (set : ScanSet) : Prop where
  blockSize : set.blockSize = ((sizeSource packets).bind blockSize?).getD 0
  blockSizeBy : set.blockSizeBy = (sizeSource packets).map setId
  mainFileids : set.mainFileids = (layoutSource packets).bind fileids?
  layoutBy : set.layoutBy = (layoutSource packets).map setId
  slices : set.slices = packets.filterMap slice?
  sourceBlockCount : set.sourceBlockCount = 0
  distinct : (set.files.map ScannedFile.fileid).Nodup
  file : ∀ fileid, findFileById set.files fileid = (entrySource packets fileid).map fun first =>
    entryFrom fileid first (descriptionSource packets fileid) (checksumSource packets fileid)

end Sources

theorem write_entryFrom_describes {packet first : Parsed}
    (describes : packet.describes fileid)
    (described : ∀ p ∈ description, p.describes fileid)
    (checked : ∀ p ∈ checksums, p.checks fileid) :
    packet.write (entryFrom fileid first description checksums) =
      entryFrom fileid first (some packet) checksums := by
  cases packet with
  | filedesc setId body =>
    rcases description with _ | (_ | _ | _ | _) <;> rcases checksums with _ | (_ | _ | _ | _) <;>
      first | rfl | simp [Parsed.describes, Parsed.checks] at described checked
  | main | ifsc | recovery => simp [Parsed.describes] at describes

theorem write_entryFrom_checks {packet first : Parsed} (checks : packet.checks fileid)
    (checked : ∀ p ∈ checksums, p.checks fileid) :
    packet.write (entryFrom fileid first description checksums) =
      entryFrom fileid first description (some packet) := by
  cases packet with
  | ifsc setId body =>
    rcases checksums with _ | (_ | _ | _ | _) <;>
      first | rfl | simp [Parsed.checks] at checked
  | main | filedesc | recovery => simp [Parsed.checks] at checks

section Run

variable {packets : List Parsed} (packet : Parsed)

theorem find?_concat {α : Type} (test : α → Bool) (l : List α) (a : α) :
    (l ++ [a]).find? test = (l.find? test).or (if test a then some a else none) := by
  rw [find?_append, find?_singleton]

theorem find?_reverse_concat {α : Type} (test : α → Bool) (l : List α) (a : α) :
    (l ++ [a]).reverse.find? test = if test a then some a else l.reverse.find? test := by
  cases passes : test a <;> simp [passes]

theorem describes_of_source {fileid : Digest} :
    ∀ p ∈ descriptionSource packets fileid, p.describes fileid = true :=
  fun _ found => find?_some (p := describes fileid) found

theorem checks_of_source {fileid : Digest} :
    ∀ p ∈ checksumSource packets fileid, p.checks fileid = true :=
  fun _ found => find?_some (p := checks fileid) found

theorem sources_of_entrySource_none {fileid : Digest}
    (unlisted : entrySource packets fileid = none) :
    descriptionSource packets fileid = none ∧ checksumSource packets fileid = none := by
  simp only [entrySource, descriptionSource, checksumSource, find?_eq_none, mem_reverse,
    lists, Bool.or_eq_true, not_or] at unlisted ⊢
  exact ⟨fun p member => (unlisted p member).1, fun p member => (unlisted p member).2⟩

theorem blockSize_pos_of_source {packet : Parsed} {bs : ℤ} (gives : packet.blockSize? = some bs) :
    0 < bs := by
  cases packet with
  | main setId body =>
    simp only [blockSize?, ite_none_right_eq_some, Option.some.injEq] at gives
    omega
  | filedesc | ifsc | recovery => contradiction

section Next

variable (collected : CollectedFrom packets set)
include collected

theorem CollectedFrom.blockSize_eq_zero_iff : set.blockSize = 0 ↔ sizeSource packets = none := by
  rw [collected.blockSize]
  cases source : sizeSource packets with
  | none => simp
  | some first =>
    obtain ⟨bs, gives⟩ := isSome_iff_exists.mp
      (find?_some (p := fun packet : Parsed => packet.blockSize?.isSome) source)
    have := blockSize_pos_of_source gives
    simp [gives]
    omega

theorem CollectedFrom.isSome_mainFileids :
    set.mainFileids.isSome = (layoutSource packets).isSome := by
  rw [collected.mainFileids]
  cases source : layoutSource packets with
  | none => rfl
  | some first =>
    have gives := find?_some (p := fun packet : Parsed => packet.fileids?.isSome) source
    simpa using gives

theorem CollectedFrom.size :
    ((handlePacket set packet).blockSize, (handlePacket set packet).blockSizeBy) =
      (((sizeSource (packets ++ [packet])).bind blockSize?).getD 0,
        (sizeSource (packets ++ [packet])).map setId) := by
  have before := collected.blockSize_eq_zero_iff
  rw [handlePacket_blockSize, sizeSource, find?_concat, ← sizeSource]
  cases source : sizeSource packets with
  | some first =>
    have chosen : ¬ set.blockSize = 0 := by simp [before, source]
    cases packet.blockSize? <;> simp only [if_neg chosen] <;>
      simp [collected.blockSize, collected.blockSizeBy, source]
  | none =>
    have unset : set.blockSize = 0 := before.mpr source
    cases gives : packet.blockSize? <;>
      simp [unset, gives, collected.blockSizeBy, source]

theorem CollectedFrom.layout :
    ((handlePacket set packet).mainFileids, (handlePacket set packet).layoutBy) =
      ((layoutSource (packets ++ [packet])).bind fileids?,
        (layoutSource (packets ++ [packet])).map setId) := by
  have before := collected.isSome_mainFileids
  rw [handlePacket_fileids, layoutSource, find?_concat, ← layoutSource, before]
  cases source : layoutSource packets with
  | some first =>
    cases packet.fileids? <;> simp [collected.mainFileids, collected.layoutBy, source]
  | none =>
    cases gives : packet.fileids? <;>
      simp [gives, collected.mainFileids, collected.layoutBy, source]

theorem CollectedFrom.entry (fileid : Digest) :
    findFileById (handlePacket set packet).files fileid =
      (entrySource (packets ++ [packet]) fileid).map fun first =>
        entryFrom fileid first (descriptionSource (packets ++ [packet]) fileid)
          (checksumSource (packets ++ [packet]) fileid) := by
  rw [handlePacket_file, entrySource, find?_concat, ← entrySource, descriptionSource,
    find?_reverse_concat, ← descriptionSource, checksumSource, find?_reverse_concat,
    ← checksumSource, collected.file]
  have none_of_unlisted := @sources_of_entrySource_none packets fileid
  by_cases describes : packet.describes fileid = true
  · have notChecks : packet.checks fileid = false := by
      cases packet <;> simp_all [Parsed.describes, Parsed.checks]
    cases source : entrySource packets fileid with
    | some first =>
      simp [Parsed.lists, describes, notChecks,
        write_entryFrom_describes describes describes_of_source checks_of_source]
    | none =>
      obtain ⟨noDescription, noChecksums⟩ := none_of_unlisted source
      simp [Parsed.lists, describes, notChecks, noDescription, noChecksums, entryFrom]
  · by_cases checks : packet.checks fileid = true
    · cases source : entrySource packets fileid with
      | some first =>
        simp [Parsed.lists, describes, checks, write_entryFrom_checks checks checks_of_source]
      | none =>
        obtain ⟨noDescription, noChecksums⟩ := none_of_unlisted source
        simp [Parsed.lists, describes, checks, noDescription, noChecksums, entryFrom]
    · simp [Parsed.lists, describes, checks]

theorem CollectedFrom.handlePacket :
    CollectedFrom (packets ++ [packet]) (handlePacket set packet) where
  blockSize := congrArg Prod.fst (collected.size packet)
  blockSizeBy := congrArg Prod.snd (collected.size packet)
  mainFileids := congrArg Prod.fst (collected.layout packet)
  layoutBy := congrArg Prod.snd (collected.layout packet)
  slices := by
    rw [handlePacket_slices, collected.slices, filterMap_append]
    cases packet <;> rfl
  sourceBlockCount := (handlePacket_sourceBlockCount set packet).trans collected.sourceBlockCount
  distinct := handlePacket_distinct set packet collected.distinct
  file := collected.entry packet

end Next

theorem collectedFrom_collect (packets : List Parsed) : CollectedFrom packets (collect packets) := by
  induction packets using List.reverseRecOn with
  | nil => exact ⟨rfl, rfl, rfl, rfl, rfl, rfl, nodup_nil, fun _ => rfl⟩
  | append_singleton packets packet ih =>
    rw [collect, foldl_append]
    exact ih.handlePacket packet

end Run

section Directory

variable (md5 : Bytes → Digest) (disk : String → Option Bytes) (dir : String)
  (packets : String → List Packet)

def Stored (names : List String) : Prop :=
  ∀ name ∈ names, isPar2Name name = true →
    disk (par2Path dir name) = some ((packets name).flatMap (Packet.encode md5)) ∧
      ((packets name).flatMap (Packet.encode md5)).length < 2 ^ 63

def packetsOf (name : String) : List Parsed :=
  if isPar2Name name then parsedPackets md5 (par2Path dir name) 0 (packets name) else []

def packetsRead (names : List String) : List Parsed :=
  names.flatMap (packetsOf md5 dir packets)

def roundsFor (names : List String) : ℕ :=
  (names.map fun name => (packets name).length).sum + 1

variable {md5 disk dir packets}

theorem foldlM_parsePar2File (stored : Stored md5 disk dir packets names)
    (enough : ∀ name ∈ names, (packets name).length < rounds) (set : ScanSet) :
    names.foldlM (fun set name =>
      if isPar2Name name then parsePar2File rounds md5 disk set (par2Path dir name)
      else some set) set =
        some ((packetsRead md5 dir packets names).foldl handlePacket set) := by
  induction names generalizing set with
  | nil => rfl
  | cons name rest ih =>
    have tail := ih (fun other member => stored other (.tail _ member))
      (fun other member => enough other (.tail _ member))
    rw [foldlM_cons, packetsRead, flatMap_cons, foldl_append]
    cases par2 : isPar2Name name with
    | false =>
      simp only [packetsOf, par2, Bool.false_eq_true, if_false, bind_eq_bind,
        bind_some, foldl_nil]
      exact tail set
    | true =>
      obtain ⟨content, small⟩ := stored name (.head _) par2
      have parsed := parsePackets_encode md5 (par2Path dir name) [] (packets name)
        (enough name (.head _)) small
      simp only [nil_append, length_nil] at parsed
      simp only [packetsOf, par2, if_true, parsePar2File, content, parsed, map_some,
        bind_eq_bind, bind_some]
      exact tail _

theorem enough_of_mem {name : String} (enough : roundsFor packets names ≤ rounds)
    (member : name ∈ names) : (packets name).length < rounds := by
  have := le_sum_of_mem (mem_map_of_mem (f := fun name => (packets name).length) member)
  rw [roundsFor] at enough
  omega

theorem par2ScanDir_eq (stored : Stored md5 disk dir packets names)
    (enough : roundsFor packets names ≤ rounds) (qsort : List Par2Slice → List Par2Slice) :
    par2ScanDir rounds md5 qsort disk dir (some names) =
      some (sortSlices qsort (finalizeLayout (collect (packetsRead md5 dir packets names)))) := by
  rw [par2ScanDir, foldlM_parsePar2File stored fun name => enough_of_mem enough]
  rfl

structure ReadFrom (rounds : ℕ) (md5 : Bytes → Digest) (disk : String → Option Bytes)
    (dir : String) (names : List String) (read : List Parsed) : Prop where
  all : ∀ name ∈ names, isPar2Name name = true → ∀ content,
    disk (par2Path dir name) = some content → ∃ found,
      parsePackets md5 (par2Path dir name) content rounds 0 = some found ∧ ∀ p ∈ found, p ∈ read
  only : ∀ p ∈ read, ∃ name ∈ names, isPar2Name name = true ∧ ∃ content found,
    disk (par2Path dir name) = some content ∧
      parsePackets md5 (par2Path dir name) content rounds 0 = some found ∧ p ∈ found

theorem ReadFrom.cons {rounds : ℕ} {name : String} {names : List String} {read : List Parsed}
    (found : List Parsed) (rest : ReadFrom rounds md5 disk dir names read)
    (all : isPar2Name name → ∀ content, disk (par2Path dir name) = some content →
      parsePackets md5 (par2Path dir name) content rounds 0 = some found)
    (only : found ≠ [] → isPar2Name name ∧ ∃ content,
      disk (par2Path dir name) = some content ∧
        parsePackets md5 (par2Path dir name) content rounds 0 = some found) :
    ReadFrom rounds md5 disk dir (name :: names) (found ++ read) where
  all := by
    intro other member par2 content stored
    rcases mem_cons.mp member with rfl | later
    · exact ⟨found, all par2 content stored, fun p inFound => mem_append_left _ inFound⟩
    · obtain ⟨found', parsed, inRead⟩ := rest.all other later par2 content stored
      exact ⟨found', parsed, fun p inFound => mem_append_right _ (inRead p inFound)⟩
  only := by
    intro p member
    rcases mem_append.mp member with here | later
    · obtain ⟨par2, content, stored, parsed⟩ := only (ne_nil_of_mem here)
      exact ⟨name, mem_cons_self, par2, content, found, stored, parsed, here⟩
    · obtain ⟨other, inNames, rest⟩ := rest.only p later
      exact ⟨other, .tail _ inNames, rest⟩

theorem Stored.readFrom (stored : Stored md5 disk dir packets names)
    (enough : roundsFor packets names ≤ rounds) :
    ReadFrom rounds md5 disk dir names (packetsRead md5 dir packets names) := by
  have parsed : ∀ name ∈ names, isPar2Name name → ∀ content,
      disk (par2Path dir name) = some content →
        parsePackets md5 (par2Path dir name) content rounds 0 =
          some (packetsOf md5 dir packets name) := by
    intro name member par2 content found
    obtain ⟨content', small⟩ := stored name member par2
    rw [found, some_inj] at content'
    have loop := parsePackets_encode md5 (par2Path dir name) [] (packets name)
      (enough_of_mem enough member) small
    rw [packetsOf, if_pos par2, content']
    exact loop
  constructor
  · intro name member par2 content found
    exact ⟨_, parsed name member par2 content found, fun p inFound =>
      mem_flatMap.mpr ⟨name, member, inFound⟩⟩
  · intro p member
    obtain ⟨name, inNames, inFound⟩ := mem_flatMap.mp member
    have par2 : isPar2Name name = true := by
      by_contra other
      rw [packetsOf, if_neg other] at inFound
      exact absurd inFound not_mem_nil
    obtain ⟨content, small⟩ := stored name inNames par2
    exact ⟨name, inNames, par2, _, _, content, parsed name inNames par2 _ content, inFound⟩

theorem exists_readFrom_of_foldlM {result : ScanSet} (scanned : names.foldlM (fun set name =>
      if isPar2Name name then parsePar2File rounds md5 disk set (par2Path dir name)
      else some set) set = some result) :
    ∃ read, ReadFrom rounds md5 disk dir names read ∧ result = read.foldl handlePacket set := by
  induction names generalizing set with
  | nil =>
    cases scanned
    exact ⟨[], ⟨nofun, nofun⟩, rfl⟩
  | cons name rest ih =>
    rw [foldlM_cons, bind_eq_bind, bind_eq_some_iff] at scanned
    obtain ⟨middle, first, later⟩ := scanned
    obtain ⟨read, readRest, rfl⟩ := ih later
    cases par2 : isPar2Name name with
    | false =>
      rw [par2, if_neg Bool.false_ne_true] at first
      cases first
      exact ⟨read, readRest.cons [] (fun contra => by simp [par2] at contra) nofun,
        rfl⟩
    | true =>
      rw [par2, if_pos rfl, parsePar2File] at first
      split at first
      · rename_i absent
        cases first
        refine ⟨read, readRest.cons [] (fun _ content stored => ?_) nofun, rfl⟩
        rw [absent] at stored
        contradiction
      · rename_i content stored
        rw [map_eq_some_iff] at first
        obtain ⟨found, parsed, rfl⟩ := first
        refine ⟨found ++ read, readRest.cons found (fun _ other stored' => ?_)
          (fun _ => ⟨par2, content, stored, parsed⟩), by rw [foldl_append]⟩
        rw [stored, Option.some.injEq] at stored'
        rw [← stored', parsed]

theorem exists_readFrom (scanned : par2ScanDir rounds md5 qsort disk dir (some names) = some set) :
    ∃ read, ReadFrom rounds md5 disk dir names read ∧
      set = sortSlices qsort (finalizeLayout (collect read)) := by
  rw [par2ScanDir, bind_eq_bind, bind_eq_some_iff] at scanned
  obtain ⟨collected, folded, sorted⟩ := scanned
  obtain ⟨read, readFrom, rfl⟩ := exists_readFrom_of_foldlM folded
  cases sorted
  exact ⟨read, readFrom, rfl⟩

end Directory

theorem foldl_placeFile_map {β : Type} {view : ScannedFile → β} {blockSize : ℤ}
    (keeps : ∀ running pf, view (pf.place blockSize running) = view pf) (ids : List Digest)
    (state : List ScannedFile × ℤ) :
    ((ids.foldl (placeFile blockSize) state).1).map view = state.1.map view := by
  induction ids generalizing state with
  | nil => rfl
  | cons fileid rest ih =>
    rw [foldl_cons, ih, placeFile]
    split
    · rfl
    · dsimp only
      split
      · rfl
      · exact map_modifyFile (keeps state.2)

theorem finalizeLayout_map {β : Type} (view : ScannedFile → β)
    (keeps : ∀ blockSize running pf, view (ScannedFile.place blockSize running pf) = view pf)
    (set : ScanSet) : (finalizeLayout set).files.map view = set.files.map view := by
  rw [finalizeLayout]
  split
  · rfl
  · split
    · exact foldl_placeFile_map (keeps set.blockSize) _ _
    · rfl

@[simp]
theorem sortSlices_files (qsort : List Par2Slice → List Par2Slice) (set : ScanSet) :
    (sortSlices qsort set).files = set.files := by
  unfold sortSlices
  split <;> rfl

@[simp]
theorem sortSlices_blockSize (qsort : List Par2Slice → List Par2Slice) (set : ScanSet) :
    (sortSlices qsort set).blockSize = set.blockSize := by
  unfold sortSlices
  split <;> rfl

@[simp]
theorem sortSlices_sourceBlockCount (qsort : List Par2Slice → List Par2Slice) (set : ScanSet) :
    (sortSlices qsort set).sourceBlockCount = set.sourceBlockCount := by
  unfold sortSlices
  split <;> rfl

def nameIn (body : Bytes) : String :=
  fileName (body.drop 56)

theorem names_finalizeLayout (set : ScanSet) :
    (finalizeLayout set).files.map (·.name) = set.files.map (·.name) :=
  finalizeLayout_map (·.name) (fun _ _ _ => rfl) set

section Names

variable {packets : List Parsed}

theorem name_entryFrom (fileid : Digest) (first : Parsed) :
    (entryFrom fileid first (descriptionSource packets fileid)
      (checksumSource packets fileid)).name =
        match descriptionSource packets fileid with
        | some (.filedesc _ body) => nameIn body
        | _ => "" := by
  have described := @describes_of_source packets fileid
  have checked := @checks_of_source packets fileid
  generalize descriptionSource packets fileid = description at described
  generalize checksumSource packets fileid = checksums at checked
  rcases description with _ | (_ | _ | _ | _) <;> rcases checksums with _ | (_ | _ | _ | _) <;>
    first | rfl | simp [describes, checks] at described checked

theorem CollectedFrom.named (collected : CollectedFrom packets set) {pf : ScannedFile}
    (member : pf ∈ set.files) : pf.name = "" ∨ ∃ setId body,
      .filedesc setId body ∈ packets ∧ 56 ≤ body.length ∧ pf.name = nameIn body := by
  have found := (mem_iff_findFileById collected.distinct pf).mp member
  rw [collected.file, map_eq_some_iff] at found
  obtain ⟨first, _, made⟩ := found
  have name := @name_entryFrom packets pf.fileid first
  rw [made] at name
  split at name
  · rename_i setId body source
    have describes := describes_of_source _ source
    have member := mem_reverse.mp (mem_of_find?_eq_some source)
    simp only [Parsed.describes, decide_eq_true_eq] at describes
    exact .inr ⟨setId, body, member, describes.1, name⟩
  · exact .inl name

theorem CollectedFrom.exists_named (collected : CollectedFrom packets set) {setId body : Bytes}
    (member : .filedesc setId body ∈ packets) (long : 56 ≤ body.length)
    (agree : ∀ setId' body', .filedesc setId' body' ∈ packets → 56 ≤ body'.length →
      fileidOf body' = fileidOf body → nameIn body' = nameIn body) :
    ∃ pf ∈ set.files, pf.name = nameIn body := by
  have describes : Parsed.describes (fileidOf body) (.filedesc setId body) = true := by
    simp [Parsed.describes, long]
  obtain ⟨last, source⟩ : ∃ last, descriptionSource packets (fileidOf body) = some last := by
    apply isSome_iff_exists.mp
    rw [descriptionSource, find?_isSome]
    exact ⟨_, mem_reverse.mpr member, describes⟩
  obtain ⟨first, entry⟩ : ∃ first, entrySource packets (fileidOf body) = some first := by
    apply isSome_iff_exists.mp
    rw [entrySource, find?_isSome]
    exact ⟨_, member, by rw [Parsed.lists, describes, Bool.true_or]⟩
  have found := collected.file (fileidOf body)
  rw [entry, map_some] at found
  refine ⟨_, mem_of_find?_eq_some found, ?_⟩
  rw [name_entryFrom, source]
  have lastDescribes := describes_of_source _ source
  have inPackets := mem_reverse.mp (mem_of_find?_eq_some source)
  cases last with
  | filedesc setId' body' =>
    simp only [Parsed.describes, decide_eq_true_eq] at lastDescribes
    exact agree setId' body' inPackets lastDescribes.1 lastDescribes.2
  | main | ifsc | recovery => simp [Parsed.describes] at lastDescribes

end Names

section Scanned

variable {md5 : Bytes → Digest} {disk : String → Option Bytes} {dir : String}

theorem exists_readFrom_named
    (scanned : par2ScanDir rounds md5 qsort disk dir (some names) = some set) :
    ∃ read, ReadFrom rounds md5 disk dir names read ∧
      set.files.map (·.name) = (collect read).files.map (·.name) := by
  obtain ⟨read, readFrom, rfl⟩ := exists_readFrom scanned
  refine ⟨read, readFrom, ?_⟩
  rw [sortSlices_files, names_finalizeLayout]

end Scanned

/-! ## Sets of one file

Recovery sets small enough to be run.  The digests are those MD5 has for the byte
strings of such a run. -/

structure SmallSet where
  name : Byte
  content : Bytes
  hash : Digest
  fileid : Digest
  setId : Digest
  crc : ℕ
  digests : List Digest

def smallA : SmallSet where
  name := 97
  content := [1, 2, 3, 4]
  hash := 0x2f268f2a9debdfa1792a51215ac0d608
  fileid := 0x955051879759c54f134bb8d2375513a3
  setId := 0xc1aee4091e77d053910ba46f05fc7cad
  crc := 0xb63cfbcd
  digests := [0xd3f7e1e2c1b4acf52017b3c7a461fc7b, 0x15a5ed4bd12bd86f442f156f4b028118,
    0x25554604c492246b6f11ae6b7ee89e06, 0x36495b3544a04588f3821bba47d6ee4b]

namespace SmallSet

variable (small : SmallSet)

def packet (type body : Bytes) (typeLength : type.length = 16) : Packet where
  setId := toLe 16 small.setId.toNat
  type := type
  body := body
  setId_length := length_toLe _ _
  type_length := typeLength

def id : Bytes := toLe 16 small.fileid.toNat

def sum : Bytes := toLe 16 small.hash.toNat

def critical : List Packet :=
  [small.packet typeMain (toLe 8 4 ++ toLe 4 1 ++ small.id) rfl,
    small.packet typeFiledesc
      (small.id ++ small.sum ++ small.sum ++ toLe 8 4 ++ [small.name, 0, 0, 0]) rfl,
    small.packet typeIfsc (small.id ++ small.sum ++ toLe 4 small.crc) rfl]

def slice : Packet :=
  small.packet typeRecovery (toLe 4 0 ++ small.content) rfl

def hashed : List (Bytes × Digest) :=
  (small.content, small.hash) ::
    ((small.critical ++ [small.slice]).map fun p => p.setId ++ p.type ++ p.body).zip small.digests

def md5 (sets : List SmallSet) (data : Bytes) : Digest :=
  (((sets.flatMap hashed).find? (·.1 = data)).map Prod.snd).getD 0

end SmallSet

end NzbDownloader.Par2
