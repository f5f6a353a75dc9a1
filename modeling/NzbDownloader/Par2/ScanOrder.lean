import NzbDownloader.Par2.Collect
import Mathlib.Data.List.Sort

/-!
# Scanning in any directory order

The packets of one genuine recovery set may be repeated, and may be spread over files that
`readdir` lists in any order.
-/

namespace NzbDownloader.Par2

open Lib List Packet SmallSet

structure SingleSet (packets : List Packet) : Prop where
  setId : ∀ p ∈ packets, ∀ q ∈ packets, p.setId = q.setId
  main : ∀ p ∈ packets, ∀ q ∈ packets, p.type = typeMain → q.type = typeMain → p.body = q.body
  filedesc : ∀ p ∈ packets, ∀ q ∈ packets, p.type = typeFiledesc → q.type = typeFiledesc →
    fileidOf p.body = fileidOf q.body → p.body = q.body
  ifsc : ∀ p ∈ packets, ∀ q ∈ packets, p.type = typeIfsc → q.type = typeIfsc →
    fileidOf p.body = fileidOf q.body → p.body = q.body

structure SameScan (a b : ScanSet) : Prop where
  blockSize : a.blockSize = b.blockSize
  sourceBlockCount : a.sourceBlockCount = b.sourceBlockCount
  file : ∀ fileid, findFileById a.files fileid = findFileById b.files fileid
  slices : a.slices.Perm b.slices
  exponents : a.slices.map Par2Slice.exponent = b.slices.map Par2Slice.exponent

structure Consistent (packets : List Parsed) : Prop where
  setId : ∀ p ∈ packets, ∀ q ∈ packets, p.setId = q.setId
  size : ∀ p ∈ packets, ∀ q ∈ packets, p.blockSize?.isSome → q.blockSize?.isSome → p = q
  layout : ∀ p ∈ packets, ∀ q ∈ packets, p.fileids?.isSome → q.fileids?.isSome → p = q
  description : ∀ fileid, ∀ p ∈ packets, ∀ q ∈ packets,
    p.describes fileid → q.describes fileid → p = q
  checksums : ∀ fileid, ∀ p ∈ packets, ∀ q ∈ packets, p.checks fileid → q.checks fileid → p = q

variable {parsed : Parsed} {a b : List ScannedFile × ℤ}

section Stored

variable {md5 : Bytes → Digest} {path : String}

theorem exists_of_mem_parsedPackets {packets : List Packet} {pos : ℕ}
    (member : parsed ∈ parsedPackets md5 path pos packets) :
    ∃ packet ∈ packets, ∃ pos, packet.parsed md5 path pos = some parsed := by
  induction packets generalizing pos with
  | nil => simp [parsedPackets] at member
  | cons packet rest ih =>
    rw [parsedPackets] at member
    split at member
    · simp at member
    · rcases mem_append.mp member with here | later
      · exact ⟨packet, mem_cons_self, pos, by simpa using here⟩
      · obtain ⟨packet', inRest, found⟩ := ih later
        exact ⟨packet', .tail _ inRest, found⟩

theorem criticalPacket_eq_some {type setId body : Bytes}
    (critical : criticalPacket type setId body = some parsed) :
    (type = typeMain ∧ parsed = .main setId body) ∨
      (type = typeFiledesc ∧ parsed = .filedesc setId body) ∨
        (type = typeIfsc ∧ parsed = .ifsc setId body) := by
  unfold criticalPacket at critical
  split_ifs at critical with main filedesc ifsc <;> cases critical
  · exact .inl ⟨main, rfl⟩
  · exact .inr (.inl ⟨filedesc, rfl⟩)
  · exact .inr (.inr ⟨ifsc, rfl⟩)

theorem Packet.parsed_eq_some {packet : Packet} {pos : ℕ}
    (received : packet.parsed md5 path pos = some parsed) :
    parsed.setId = packet.setId ∧
      match parsed with
      | .main _ body => packet.type = typeMain ∧ packet.body = body
      | .filedesc _ body => packet.type = typeFiledesc ∧ packet.body = body
      | .ifsc _ body => packet.type = typeIfsc ∧ packet.body = body
      | .recovery _ => True := by
  rw [Packet.parsed] at received
  split at received
  · rw [Option.ite_none_left_eq_some] at received
    obtain ⟨_, recorded⟩ := received
    cases recorded
    simp [Parsed.setId, Par2Slice.setId, packet.setId_length]
  · rcases criticalPacket_eq_some received with ⟨type, rfl⟩ | ⟨type, rfl⟩ | ⟨type, rfl⟩
    · exact ⟨rfl, type, rfl⟩
    · exact ⟨rfl, type, rfl⟩
    · exact ⟨rfl, type, rfl⟩

variable {dir : String} {packets : String → List Packet} {names : List String}

theorem exists_of_mem_packetsRead (member : parsed ∈ packetsRead md5 dir packets names) :
    ∃ packet ∈ names.flatMap packets, ∃ path pos, packet.parsed md5 path pos = some parsed := by
  obtain ⟨name, inNames, inFile⟩ := mem_flatMap.mp member
  rw [packetsOf] at inFile
  split at inFile
  · obtain ⟨packet, inPackets, pos, received⟩ := exists_of_mem_parsedPackets inFile
    exact ⟨packet, mem_flatMap.mpr ⟨name, inNames, inPackets⟩, _, pos, received⟩
  · contradiction

section Single

variable (single : SingleSet (names.flatMap packets))
include single

theorem SingleSet.agree {p q : Parsed} (inP : p ∈ packetsRead md5 dir packets names)
    (inQ : q ∈ packetsRead md5 dir packets names) :
    p.setId = q.setId ∧
      match p, q with
      | .main _ a, .main _ b => a = b
      | .filedesc _ a, .filedesc _ b | .ifsc _ a, .ifsc _ b => fileidOf a = fileidOf b → a = b
      | _, _ => True := by
  obtain ⟨_, storedP, _, _, receivedP⟩ := exists_of_mem_packetsRead inP
  obtain ⟨_, storedQ, _, _, receivedQ⟩ := exists_of_mem_packetsRead inQ
  obtain ⟨idP, knownP⟩ := parsed_eq_some receivedP
  obtain ⟨idQ, knownQ⟩ := parsed_eq_some receivedQ
  refine ⟨by rw [idP, idQ, single.setId _ storedP _ storedQ], ?_⟩
  split
  · rw [← knownP.2, ← knownQ.2]
    exact single.main _ storedP _ storedQ knownP.1 knownQ.1
  · rw [← knownP.2, ← knownQ.2]
    exact single.filedesc _ storedP _ storedQ knownP.1 knownQ.1
  · rw [← knownP.2, ← knownQ.2]
    exact single.ifsc _ storedP _ storedQ knownP.1 knownQ.1
  · trivial

theorem SingleSet.consistent : Consistent (packetsRead md5 dir packets names) where
  setId p inP q inQ := (single.agree inP inQ).1
  size p inP q inQ givesP givesQ := by
    cases p <;> cases q <;> simp [Parsed.blockSize?] at givesP givesQ
    obtain ⟨ids, bodies⟩ := single.agree inP inQ
    exact congrArg₂ Parsed.main ids bodies
  layout p inP q inQ givesP givesQ := by
    cases p <;> cases q <;> simp [Parsed.fileids?] at givesP givesQ
    obtain ⟨ids, bodies⟩ := single.agree inP inQ
    exact congrArg₂ Parsed.main ids bodies
  description fileid p inP q inQ givesP givesQ := by
    cases p <;> cases q <;> simp [Parsed.describes] at givesP givesQ
    obtain ⟨ids, bodies⟩ := single.agree inP inQ
    exact congrArg₂ Parsed.filedesc ids (bodies (givesP.2.trans givesQ.2.symm))
  checksums fileid p inP q inQ givesP givesQ := by
    cases p <;> cases q <;> simp [Parsed.checks] at givesP givesQ
    obtain ⟨ids, bodies⟩ := single.agree inP inQ
    exact congrArg₂ Parsed.ifsc ids (bodies (givesP.2.2.trans givesQ.2.2.symm))

end Single

end Stored

theorem map_find?_of_perm {α β : Type} {a b : List α} (perm : a.Perm b) {test : α → Bool}
    (view : α → β)
    (same : ∀ x ∈ a, ∀ y ∈ a, test x → test y → view x = view y) :
    (a.find? test).map view = (b.find? test).map view := by
  cases foundA : a.find? test with
  | none =>
    have absent : b.find? test = none := by
      rw [find?_eq_none] at foundA ⊢
      exact fun x member => foundA x (perm.mem_iff.mpr member)
    rw [absent]
  | some x =>
    cases foundB : b.find? test with
    | none =>
      have passes := find?_some foundA
      rw [find?_eq_none] at foundB
      exact absurd passes
        (foundB x (perm.mem_iff.mp (mem_of_find?_eq_some foundA)))
    | some y =>
      exact congrArg some (same x (mem_of_find?_eq_some foundA) y
        (perm.mem_iff.mpr (mem_of_find?_eq_some foundB)) (find?_some foundA)
        (find?_some foundB))

theorem find?_of_perm {α : Type} {a b : List α} (perm : a.Perm b) {test : α → Bool}
    (same : ∀ x ∈ a, ∀ y ∈ a, test x → test y → x = y) : a.find? test = b.find? test := by
  simpa using map_find?_of_perm perm id same

section Permuted

variable {a b : List Parsed} (perm : a.Perm b) (consistent : Consistent a)
include perm consistent

theorem sizeSource_of_perm : sizeSource a = sizeSource b :=
  find?_of_perm perm consistent.size

theorem layoutSource_of_perm : layoutSource a = layoutSource b :=
  find?_of_perm perm consistent.layout

theorem descriptionSource_of_perm (fileid : Digest) :
    descriptionSource a fileid = descriptionSource b fileid := by
  apply find?_of_perm ((a.reverse_perm.trans perm).trans b.reverse_perm.symm)
  simpa only [mem_reverse] using consistent.description fileid

theorem checksumSource_of_perm (fileid : Digest) :
    checksumSource a fileid = checksumSource b fileid := by
  apply find?_of_perm ((a.reverse_perm.trans perm).trans b.reverse_perm.symm)
  simpa only [mem_reverse] using consistent.checksums fileid

theorem findFileById_collect_of_perm (fileid : Digest) :
    findFileById (collect a).files fileid = findFileById (collect b).files fileid := by
  rw [(collectedFrom_collect a).file, (collectedFrom_collect b).file,
    descriptionSource_of_perm perm consistent, checksumSource_of_perm perm consistent]
  apply map_find?_of_perm perm
  intro p inP q inQ _ _
  rw [entryFrom, entryFrom, consistent.setId p inP q inQ]

end Permuted

def SameFiles (a b : List ScannedFile) : Prop :=
  ∀ fileid, findFileById a fileid = findFileById b fileid

theorem SameFiles.modifyFile {a b : List ScannedFile} (same : SameFiles a b)
    {change : ScannedFile → ScannedFile} (keeps : ∀ pf, (change pf).fileid = pf.fileid)
    (fileid : Digest) : SameFiles (modifyFile fileid change a) (modifyFile fileid change b) := by
  intro other
  rw [findFileById_modifyFile keeps, findFileById_modifyFile keeps, same fileid, same other]

theorem SameFiles.placeFile {blockSize : ℤ} (same : SameFiles a.1 b.1 ∧ a.2 = b.2)
    (fileid : Digest) :
    SameFiles (placeFile blockSize a fileid).1 (placeFile blockSize b fileid).1 ∧
      (placeFile blockSize a fileid).2 = (placeFile blockSize b fileid).2 := by
  obtain ⟨files, running⟩ := same
  simp only [Par2.placeFile, files fileid, running]
  split
  · exact ⟨files, running⟩
  · split
    · exact ⟨files, running⟩
    · exact ⟨files.modifyFile (ScannedFile.place_fileid _ _) fileid, rfl⟩

theorem SameFiles.foldl_placeFile (blockSize : ℤ) (ids : List Digest)
    (same : SameFiles a.1 b.1 ∧ a.2 = b.2) :
    SameFiles (ids.foldl (Par2.placeFile blockSize) a).1
        (ids.foldl (Par2.placeFile blockSize) b).1 ∧
      (ids.foldl (Par2.placeFile blockSize) a).2 = (ids.foldl (Par2.placeFile blockSize) b).2 := by
  induction ids generalizing a b with
  | nil => exact same
  | cons fileid rest ih => exact ih (SameFiles.placeFile same fileid)

structure SameUpToOrder (a b : ScanSet) : Prop where
  blockSize : a.blockSize = b.blockSize
  sourceBlockCount : a.sourceBlockCount = b.sourceBlockCount
  mainFileids : a.mainFileids = b.mainFileids
  files : SameFiles a.files b.files
  slices : a.slices.Perm b.slices

theorem sameUpToOrder_collect {a b : List Parsed} (perm : a.Perm b) (consistent : Consistent a) :
    SameUpToOrder (collect a) (collect b) := by
  have fromA := collectedFrom_collect a
  have fromB := collectedFrom_collect b
  constructor
  · rw [fromA.blockSize, fromB.blockSize, sizeSource_of_perm perm consistent]
  · rw [fromA.sourceBlockCount, fromB.sourceBlockCount]
  · rw [fromA.mainFileids, fromB.mainFileids, layoutSource_of_perm perm consistent]
  · exact findFileById_collect_of_perm perm consistent
  · rw [fromA.slices, fromB.slices]
    exact perm.filterMap _

theorem SameUpToOrder.finalizeLayout {a b : ScanSet} (same : SameUpToOrder a b) :
    SameUpToOrder (finalizeLayout a) (finalizeLayout b) := by
  rw [Par2.finalizeLayout, Par2.finalizeLayout, same.mainFileids, same.blockSize]
  split
  · exact same
  rename_i ids recoverable _
  split
  · obtain ⟨files, count⟩ := SameFiles.foldl_placeFile b.blockSize (ids.take recoverable)
      (a := (a.files, 0)) (b := (b.files, 0)) ⟨same.files, rfl⟩
    exact ⟨rfl, count, rfl, files, same.slices⟩
  · exact ⟨rfl, same.sourceBlockCount, rfl, same.files, same.slices⟩

structure SortsByExponent (qsort : List Par2Slice → List Par2Slice) : Prop where
  perm : ∀ slices, (qsort slices).Perm slices
  sorted : ∀ slices, (qsort slices).Pairwise fun a b => a.exponent ≤ b.exponent

theorem SameUpToOrder.sortSlices {qsort : List Par2Slice → List Par2Slice}
    (sorts : SortsByExponent qsort) {a b : ScanSet} (same : SameUpToOrder a b) :
    SameScan (sortSlices qsort a) (sortSlices qsort b) := by
  have sizes := same.slices.length_eq
  rw [Par2.sortSlices, Par2.sortSlices, sizes]
  split
  · have perm : (qsort a.slices).Perm (qsort b.slices) :=
      ((sorts.perm _).trans same.slices).trans (sorts.perm _).symm
    refine ⟨same.blockSize, same.sourceBlockCount, same.files, perm, ?_⟩
    have sorted (slices : List Par2Slice) :
        ((qsort slices).map Par2Slice.exponent).Pairwise (· ≤ ·) :=
      pairwise_map.mpr (sorts.sorted slices)
    exact (perm.map _).eq_of_pairwise (fun _ _ _ _ => BitVec.le_antisymm) (sorted _) (sorted _)
  · have equal : a.slices = b.slices := by
      have perm := same.slices
      rcases slices : a.slices with _ | ⟨slice, _ | ⟨_, _⟩⟩ <;> rw [slices] at perm sizes
      · rw [nil_perm.mp perm]
      · rw [singleton_perm.mp perm]
      · simp only [length_cons] at sizes
        omega
    exact ⟨same.blockSize, same.sourceBlockCount, same.files, same.slices, by rw [equal]⟩

/-- The packets of one recovery set are collected to the same set in any order of
the directory. -/
theorem par2ScanDir_order_independent {rounds : ℕ} {md5 : Bytes → Digest}
    {qsort : List Par2Slice → List Par2Slice} {disk : String → Option Bytes} {dir : String}
    {packets : String → List Packet} {names names' : List String}
    (sorts : SortsByExponent qsort) (stored : Stored md5 disk dir packets names)
    (single : SingleSet (names.flatMap packets)) (reordered : names.Perm names')
    (enough : roundsFor packets names ≤ rounds) :
    ∃ set set', par2ScanDir rounds md5 qsort disk dir (some names) = some set ∧
      par2ScanDir rounds md5 qsort disk dir (some names') = some set' ∧ SameScan set set' := by
  have stored' : Stored md5 disk dir packets names' :=
    fun name member => stored name (reordered.mem_iff.mpr member)
  have enough' : roundsFor packets names' ≤ rounds := by
    rwa [roundsFor, ← (reordered.map _).sum_eq, ← roundsFor]
  have perm : (packetsRead md5 dir packets names).Perm (packetsRead md5 dir packets names') :=
    reordered.flatMap_right _
  exact ⟨_, _, par2ScanDir_eq stored enough qsort, par2ScanDir_eq stored' enough' qsort,
    ((sameUpToOrder_collect perm single.consistent).finalizeLayout).sortSlices sorts⟩

def exponentLe (a b : Par2Slice) : Bool :=
  a.exponent ≤ b.exponent

theorem byExponent_sorts : SortsByExponent (·.mergeSort exponentLe) where
  perm slices := slices.mergeSort_perm _
  sorted slices := by
    have trans (a b c : Par2Slice) : exponentLe a b → exponentLe b c → exponentLe a c := by
      simpa [exponentLe] using BitVec.le_trans
    have total (a b : Par2Slice) : exponentLe a b || exponentLe b a := by
      simpa [exponentLe] using BitVec.le_total a.exponent b.exponent
    have ordered := pairwise_mergeSort trans total slices
    simpa [exponentLe] using ordered

def volumePackets (name : String) : List Packet :=
  if name = "a.par2" then smallA.critical else smallA.critical ++ [smallA.slice]

def volumeDisk (path : String) : Option Bytes :=
  if path = "d/a.par2" then
    some ((volumePackets "a.par2").flatMap (encode (md5 [smallA])))
  else some ((volumePackets "v.par2").flatMap (encode (md5 [smallA])))

theorem stored_volume :
    Stored (md5 [smallA]) volumeDisk "d" volumePackets ["a.par2", "v.par2"] := by
  have both : ∀ name ∈ ["a.par2", "v.par2"], volumeDisk (par2Path "d" name) =
      some ((volumePackets name).flatMap (encode (md5 [smallA]))) ∧
        ((volumePackets name).flatMap (encode (md5 [smallA]))).length < 2 ^ 63 := by
    decide +kernel
  exact fun name member _ => both name member

theorem single_volume : SingleSet (["a.par2", "v.par2"].flatMap volumePackets) where
  setId := by decide +kernel
  main := by decide +kernel
  filedesc := by decide +kernel
  ifsc := by decide +kernel

theorem par2ScanDir_order_independent_volume : ∃ set set',
    par2ScanDir 9 (md5 [smallA]) (·.mergeSort exponentLe) volumeDisk "d" (some ["a.par2", "v.par2"]) =
      some set ∧
    par2ScanDir 9 (md5 [smallA]) (·.mergeSort exponentLe) volumeDisk "d" (some ["v.par2", "a.par2"]) =
      some set' ∧ SameScan set set' :=
  par2ScanDir_order_independent byExponent_sorts stored_volume single_volume
    (List.Perm.swap _ _ _) (by decide)

end NzbDownloader.Par2
