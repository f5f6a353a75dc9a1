import NzbDownloader.Download.VerifyJob

/-!
# Verified before it is handed over

Whether `download_job` verifies a job before it puts it into the finalize queue depends on
what `par2_scan_dir` finds in the temp directory.
-/

namespace NzbDownloader.Download

open Lib Lib.Effect Lib.Transition Util Par2 Queue Storage List
open String (ofList)

def isPar2File (name : Name) : Bool :=
  isPar2Name (ofList name)

def storedName (name : Name) : String :=
  ofList (pathSanitizeComponent name)

def DescribesFile (packet : Packet) (name : Name) : Prop :=
  packet.type = typeFiledesc ∧ 56 ≤ packet.body.length ∧ nameIn packet.body = ofList name

section Descriptions

variable (md5 : Bytes → Digest) (dir : String) (packets : Name → List Packet)

def Readable (file : Name) (body : Bytes) : Prop :=
  56 ≤ body.length ∧
    ∃ setId, .filedesc setId body ∈ parsedPackets md5 (tempPath dir file) 0 (packets file)

def Arrived (file : Name) (bytes : Bytes) : Prop :=
  ∀ rounds found, parsePackets md5 (tempPath dir file) bytes rounds 0 = some found →
    ∀ setId body, .filedesc setId body ∈ found → 56 ≤ body.length →
      Readable md5 dir packets file body

structure Shipped (content : Name → Bytes) (names : List Name) : Prop where
  encoded : ∀ p ∈ names, isPar2File p = true → jobFileIsPar2Volume p = false →
    content p = (packets p).flatMap (Packet.encode md5)
  small : ∀ p ∈ names, isPar2File p = true → jobFileIsPar2Volume p = false →
    (content p).length < 2 ^ 63

/-- Every file that a packet describes is described by a `.par2` file that is not
a recovery volume.  No two files are stored at one path, descriptions of one file
agree on its name, and no `.par2` file is itself described. -/
structure Indexed (names : List Name) : Prop where
  index : ∀ f ∈ names, ∀ p ∈ names, isPar2File p = true →
    (∃ packet ∈ packets p, DescribesFile packet f) →
      ∃ q ∈ names, isPar2File q = true ∧ jobFileIsPar2Volume q = false ∧
        ∃ body, Readable md5 dir packets q body ∧ nameIn body = ofList f
  paths : ∀ a ∈ names, ∀ b ∈ names, tempPath dir a = tempPath dir b → a = b
  agree : ∀ p ∈ names, isPar2File p = true → ∀ q ∈ names, isPar2File q = true →
    ∀ body body', Readable md5 dir packets p body → Readable md5 dir packets q body' →
      fileidOf body = fileidOf body' → nameIn body = nameIn body'
  foreign : ∀ p ∈ names, isPar2File p = true → ∀ body, Readable md5 dir packets p body →
    ∀ q ∈ names, isPar2File q = true → nameIn body ≠ ofList q

end Descriptions

theorem lower_map_eq_iff {replace : Char → Char} {name suffix : Name}
    (same : ∀ c, ∀ d ∈ suffix, (replace c).toLower = d ↔ c.toLower = d) :
    lower (name.map replace) = suffix ↔ lower name = suffix := by
  induction name generalizing suffix with
  | nil => rfl
  | cons c rest ih =>
    cases suffix with
    | nil => simp [lower]
    | cons d suffix =>
      have later := @ih suffix fun c e member => same c e (.tail _ member)
      unfold lower at later ⊢
      rw [map_cons, map_cons, map_cons, List.cons.injEq, List.cons.injEq, later,
        same c d (.head _)]

theorem hasSuffixCi_map {replace : Char → Char} {suffix : Name}
    (same : ∀ c, ∀ d ∈ lower suffix, (replace c).toLower = d ↔ c.toLower = d) (name : Name) :
    hasSuffixCi (name.map replace) suffix = hasSuffixCi name suffix := by
  have lengths : (lower (name.map replace)).length = (lower name).length := by simp [lower]
  have dropped (n : ℕ) : (lower (name.map replace)).drop n = lower ((name.drop n).map replace) := by
    simp [lower, map_drop]
  rw [Bool.eq_iff_iff, hasSuffixCi, hasSuffixCi, isSuffixOf_iff_suffix,
    isSuffixOf_iff_suffix, suffix_iff_eq_drop, suffix_iff_eq_drop, lengths, dropped,
    eq_comm, lower_map_eq_iff same, eq_comm]
  simp [lower, map_drop]

theorem isPar2Name_storedName (name : Name) : isPar2Name (storedName name) = isPar2File name := by
  have flat := @hasSuffixCi_map (fun c => if c = '/' ∨ c = '\\' then '_' else c)
    ['.', 'p', 'a', 'r', '2'] ?_ name
  · unfold isPar2Name isPar2File isPar2Name storedName pathSanitizeComponent
    simp only [String.toList_ofList]
    rw [← flat]
    split
    · rename_i special
      rcases special with special | special | special <;> rw [special] <;> rfl
    · rfl
  · intro c d member
    split
    · rename_i slash
      have plain : d ≠ '_' ∧ d ≠ '/' ∧ d ≠ '\\' := by
        change d ∈ ['.', 'p', 'a', 'r', '2'] at member
        simp only [mem_cons, not_mem_nil, or_false] at member
        rcases member with rfl | rfl | rfl | rfl | rfl <;> decide
      rcases slash with rfl | rfl
      · exact iff_of_false plain.1.symm plain.2.1.symm
      · exact iff_of_false plain.1.symm plain.2.2.symm
    · rfl

theorem isPar2File_of_volume {name : Name} (volume : jobFileIsPar2Volume name) :
    isPar2File name = true := by
  unfold jobFileIsPar2Volume at volume
  rw [decide_eq_true_eq] at volume
  rw [isPar2File, isPar2Name, String.toList_ofList]
  exact volume.1

section Scan

variable {md5 : Bytes → Digest} {dir : String} {packets : Name → List Packet}
  {content : Name → Bytes} {names : List Name} {disk : String → Option Bytes}

variable (md5 dir packets names) in
def VolumesArrived (disk : String → Option Bytes) : Prop :=
  ∀ v ∈ names, jobFileIsPar2Volume v = true → ∀ bytes, disk (tempPath dir v) = some bytes →
    Arrived md5 dir packets v bytes

variable (dir content names) in
def IndexStored (disk : String → Option Bytes) : Prop :=
  ∀ p ∈ names, isPar2File p = true → jobFileIsPar2Volume p = false →
    disk (tempPath dir p) = some (content p)

variable (dir names) in
structure Listed (disk : String → Option Bytes) (entries : List String) : Prop where
  all : ∀ name ∈ names, disk (tempPath dir name) ≠ none → storedName name ∈ entries
  only : ∀ entry ∈ entries, isPar2Name entry = true → ∃ name ∈ names, entry = storedName name

section

variable {p : Name} (shipped : Shipped md5 packets content names) (member : p ∈ names)
  (par2 : isPar2File p) (notVolume : jobFileIsPar2Volume p = false)

include shipped member par2 notVolume

theorem Shipped.found {rounds : ℕ} {found : List Parsed}
    (parsed : parsePackets md5 (tempPath dir p) (content p) rounds 0 = some found) :
    found = parsedPackets md5 (tempPath dir p) 0 (packets p) := by
  have small := shipped.small p member par2 notVolume
  rw [shipped.encoded p member par2 notVolume] at parsed small
  have whole := @parsePackets_encode md5 (tempPath dir p) [] (packets p)
    (rounds + ((packets p).length + 1)) (by omega) (by simpa using small)
  have more := parsePackets_mono parsed ((packets p).length + 1)
  rw [nil_append, length_nil, more] at whole
  exact Option.some.inj whole

theorem Shipped.arrived : Arrived md5 dir packets p (content p) := by
  intro rounds found parsed setId body inFound long
  rw [shipped.found member par2 notVolume parsed] at inFound
  exact ⟨long, setId, inFound⟩

end

variable {rounds : ℕ} {entries : List String} {read : List Parsed}

theorem readable_of_read (shipped : Shipped md5 packets content names)
    (volumes : VolumesArrived md5 dir packets names disk) (index : IndexStored dir content names disk)
    (listed : Listed dir names disk entries) (readFrom : ReadFrom rounds md5 disk dir entries read)
    {setId body : Bytes} (member : .filedesc setId body ∈ read) (long : 56 ≤ body.length) :
    ∃ p ∈ names, isPar2File p ∧ Readable md5 dir packets p body := by
  obtain ⟨entry, inEntries, par2Entry, bytes, found, stored, parsed, inFound⟩ :=
    readFrom.only _ member
  obtain ⟨p, inNames, rfl⟩ := listed.only entry inEntries par2Entry
  have par2 : isPar2File p = true := (isPar2Name_storedName p).symm.trans par2Entry
  refine ⟨p, inNames, par2, ?_⟩
  cases volume : jobFileIsPar2Volume p with
  | true => exact volumes p inNames volume bytes stored rounds found parsed setId body inFound long
  | false =>
    have same : bytes = content p :=
      Option.some.inj (stored.symm.trans (index p inNames par2 volume))
    rw [same] at parsed
    exact shipped.arrived inNames par2 volume rounds found parsed setId body inFound long

variable (packets names) in
def Covers (set : Par2Set) : Prop :=
  ∀ f ∈ names, ∀ p ∈ names, isPar2File p = true → (∃ packet ∈ packets p, DescribesFile packet f) →
    (par2FindFile set f).isSome

variable (names) in
def Foreign (set : Par2Set) : Prop :=
  ∀ pf ∈ set.files, ∀ p ∈ names, isPar2File p = true → pf.name ≠ ofList p

theorem toPar2Set_names (set : ScanSet) :
    set.toPar2Set.files.map (·.name) = set.files.map (·.name) := by
  rw [ScanSet.toPar2Set, map_map]
  rfl

variable {qsort : List Par2Slice → List Par2Slice} {set : ScanSet}

section

variable (shipped : Shipped md5 packets content names) (indexed : Indexed md5 dir packets names)
  (volumes : VolumesArrived md5 dir packets names disk) (index : IndexStored dir content names disk)
  (listed : Listed dir names disk entries)
  (scanned : par2ScanDir rounds md5 qsort disk dir (some entries) = some set)

include shipped indexed volumes index listed scanned

theorem scan_foreign : Foreign names set.toPar2Set := by
  obtain ⟨read, readFrom, sameNames⟩ := exists_readFrom_named scanned
  intro pf member p inNames par2 isName
  have inMap : pf.name ∈ (collect read).files.map (·.name) := by
    rw [← sameNames, ← toPar2Set_names]
    exact mem_map_of_mem member
  obtain ⟨entry, inTable, sameName⟩ := mem_map.mp inMap
  rcases (collectedFrom_collect read).named inTable with empty | ⟨setId, body, inRead, long, named⟩
  · rw [isPar2File, ← isName, ← sameName, empty] at par2
    contradiction
  · obtain ⟨q, inNames', par2', readable⟩ :=
      readable_of_read shipped volumes index listed readFrom inRead long
    apply indexed.foreign q inNames' par2' body readable p inNames par2
    rw [← named, sameName, isName]

theorem scan_covers : Covers packets names set.toPar2Set := by
  obtain ⟨read, readFrom, sameNames⟩ := exists_readFrom_named scanned
  intro f inNames p inNames' par2 described
  obtain ⟨q, qInNames, qPar2, notVolume, body, ⟨long, setId, inPackets⟩, named⟩ :=
    indexed.index f inNames p inNames' par2 described
  have stored := index q qInNames qPar2 notVolume
  have inEntries := listed.all q qInNames (by rw [stored]; exact nofun)
  obtain ⟨found, parsed, inRead⟩ := readFrom.all _ inEntries
    ((isPar2Name_storedName q).trans qPar2) _ stored
  rw [shipped.found qInNames qPar2 notVolume parsed] at inRead
  obtain ⟨entry, inTable, entryName⟩ := (collectedFrom_collect read).exists_named
    (inRead _ inPackets) long fun setId' body' other long' sameFile => by
      obtain ⟨r, rInNames, rPar2, readable⟩ :=
        readable_of_read shipped volumes index listed readFrom other long'
      exact indexed.agree r rInNames rPar2 q qInNames qPar2 body' body readable
        ⟨long, setId, inPackets⟩ sameFile
  have inMap : entry.name ∈ set.toPar2Set.files.map (·.name) := by
    rw [toPar2Set_names, sameNames]
    exact mem_map_of_mem inTable
  obtain ⟨pf, inSet, sameName⟩ := mem_map.mp inMap
  rw [par2FindFile, find?_isSome]
  exact ⟨pf, inSet, decide_eq_true (by rw [sameName, entryName, named])⟩

end

end Scan

inductive Stage where
  | fetching
  | checking
  | over
  deriving DecidableEq, Repr

def stageOf : DlPoint → Stage
  | .picked | .reachable | .counting => .fetching
  | .started phase | .opening phase | .fileLoop phase _ | .segLoop phase .. | .segFetch phase ..
  | .waiting phase | .fetched phase => if phase = .content then .fetching else .checking
  | .stopping | .incomplete | .repairFailed | .failing | .failed | .stopBusy | .marking => .over
  | .complete | .scanning _ | .verifying _ | .verified .. | .damaged | .refetching | .repairReady
  | .repairPrep | .repairing | .passing => .checking

structure Follows (job : Job) (ok : Bool) (point next : DlPoint) : Prop where
  live : stageOf next ≠ .over → stageOf point ≠ .over ∧ (point = .repairing → ok = true)
  checking : stageOf next = .checking →
    stageOf point = .checking ∨ point = .counting ∧ job.contentComplete = true
  verifying : ∀ pass, next = .verifying pass → point = .scanning pass ∧ ok = true
  repairing : next = .repairing → point = .repairPrep ∧ ok = true
  verified : ∀ pass, next = .verified pass true →
    point = .scanning pass ∧ ok = false ∨ point = .verifying pass ∧ ok = true
  passing : next = .passing → ∃ pass, point = .verified pass true

section Control

variable {maxRetries : ℕ} {quiet ok : Bool} {job : Job} {point next : DlPoint} {effect : DlEffect}

theorem dlStep_follows (taken : dlStep maxRetries quiet job ok point = some effect)
    (going : effect.next = some next) : Follows job ok point next := by
  unfold dlStep at taken
  split at taken <;> (repeat' split at taken) <;> cases taken <;> cases going <;> constructor <;>
    simp_all [stageOf]

theorem failOrRetry_files (maxRetries : ℕ) (job : Job) :
    (job.failOrRetry maxRetries).files = job.files := by
  unfold Job.failOrRetry
  split <;> rfl

theorem dlStep_files (taken : dlStep maxRetries quiet job ok point = some effect) :
    effect.job.files = job.files := by
  unfold dlStep at taken
  split at taken <;> (repeat' split at taken) <;> cases taken <;> first
    | rfl
    | exact failOrRetry_files maxRetries job

theorem dlStep_enqueued (taken : dlStep maxRetries quiet job ok point = some effect)
    (enqueued : effect.enqueued) : point = .passing := by
  unfold dlStep at taken
  split at taken <;> (repeat' split at taken) <;> cases taken <;> first
    | rfl
    | contradiction

end Control

section Run

variable (env : Env) (qsort : List Par2Slice → List Par2Slice) (dir : String)
  (content : Name → Bytes) (maxRetries : ℕ) (packets : Name → List Packet)

/-- A step at which `readdir` lists the temp directory, a scan has memory, and
what has arrived of a recovery volume is part of it. -/
def Regular (s : Checked) : CheckedAct → Prop
  | .go choice =>
      (∃ entries, choice.entries = some entries ∧ Listed dir s.names s.world.disk entries) ∧
      (∀ pass, s.point = some (.scanning pass) → choice.ok = true) ∧
      ∀ v ∈ s.names, jobFileIsPar2Volume v = true → ∀ bytes, choice.volumes v = some bytes →
        Arrived env.md5 dir packets v bytes
  | .other _ => True

structure Called (s : Checked) : Prop where
  point : s.point = some .picked
  handed : s.handed = false
  volumes : VolumesArrived env.md5 dir packets s.names s.world.disk

def AllPassed (names passed : List Name) : Prop :=
  ∀ f ∈ names, ∀ p ∈ names, isPar2File p = true → (∃ packet ∈ packets p, DescribesFile packet f) →
    f ∈ passed

structure Known (names : List Name) (s : Checked) : Prop where
  same : s.names = names
  volumes : ∀ point ∈ s.point, stageOf point ≠ .over →
    VolumesArrived env.md5 dir packets names s.world.disk
  index : ∀ point ∈ s.point, stageOf point = .checking → IndexStored dir content names s.world.disk
  foreign : ∀ point ∈ s.point, point = .repairing ∨ (∃ pass, point = .verifying pass) →
    Foreign names s.set.toPar2Set
  covers : ∀ pass, s.point = some (.verifying pass) → Covers packets names s.set.toPar2Set
  passed : (∃ pass, s.point = some (.verified pass true)) ∨ s.point = some .passing ∨
    s.handed = true → AllPassed packets names s.passed

variable {env qsort dir content maxRetries packets} {names : List Name} {s t s' : Checked}
  {choice : Choice} {point : DlPoint} {ok : Bool}

theorem Called.known (called : Called env dir packets s) :
    Known env dir content packets s.names s where
  same := rfl
  volumes _ _ _ := called.volumes
  index point atPoint checking := by
    rw [called.point] at atPoint
    cases atPoint
    contradiction
  foreign point atPoint reached := by
    rw [called.point] at atPoint
    cases atPoint
    simp at reached
  covers pass atPoint := by
    rw [called.point] at atPoint
    cases atPoint
  passed reached := by
    simp [called.point, called.handed] at reached

theorem VolumesArrived.congr {md5 : Bytes → Digest} {disk disk' : String → Option Bytes}
    (volumes : VolumesArrived md5 dir packets names disk)
    (same : ∀ p ∈ names, isPar2File p → disk' (tempPath dir p) = disk (tempPath dir p)) :
    VolumesArrived md5 dir packets names disk' := by
  intro v member volume bytes stored
  rw [same v member (isPar2File_of_volume volume)] at stored
  exact volumes v member volume bytes stored

theorem IndexStored.congr {disk disk' : String → Option Bytes}
    (index : IndexStored dir content names disk)
    (same : ∀ p ∈ names, isPar2File p → disk' (tempPath dir p) = disk (tempPath dir p)) :
    IndexStored dir content names disk' := by
  intro p member par2 notVolume
  rw [same p member par2]
  exact index p member par2 notVolume

theorem par2FindFile_name {set : Par2Set} {name : Name} {pf : Par2File}
    (found : par2FindFile set name = some pf) : pf ∈ set.files ∧ pf.name = ofList name := by
  refine ⟨mem_of_find?_eq_some found, ?_⟩
  have named := find?_some found
  simpa using named

section

variable {set : Par2Set} {p : Name} (foreign : Foreign names set)
  (paths : ∀ a ∈ names, ∀ b ∈ names, tempPath dir a = tempPath dir b → a = b) (member : p ∈ names)
  (par2 : isPar2File p)

include foreign paths member par2

theorem Foreign.keeps_verifyFiles {passed : List Name} :
    Keeps (fun w => w.disk (tempPath dir p)) (verifyFiles env set dir names passed) := by
  apply Download.keeps_verifyFiles
  intro name inNames pf found samePath
  obtain ⟨inSet, named⟩ := par2FindFile_name found
  rw [← paths p member name inNames samePath] at named
  exact foreign pf inSet p member par2 named

theorem Foreign.disk_of_par2RepairSet {w w' : World}
    (returns : Returns (par2RepairSet env set (repairFiles dir names)) w () w') :
    w'.disk (tempPath dir p) = w.disk (tempPath dir p) := by
  apply Par2.disk_of_par2RepairSet returns
  intro file inFiles pf inSet sameName samePath
  obtain ⟨name, inNames, rfl⟩ := mem_map.mp inFiles
  have same : p = name := paths p member name inNames samePath
  rw [← same] at sameName
  exact foreign pf (mem_of_mem_filter inSet) p member par2 sameName.symm

end

theorem Known.unchanged (known : Known env dir content packets names s) (atPoint : point ∈ s.point)
    (live : stageOf point ≠ .over) (waits : ¬(point = .counting ∧ s.job.contentComplete))
    {disk : String → Option Bytes}
    (same : ∀ p ∈ names, isPar2File p →
      disk (tempPath dir p) = s.world.disk (tempPath dir p)) :
    VolumesArrived env.md5 dir packets names disk ∧
      (stageOf point = .checking ∨ point = .counting ∧ s.job.contentComplete →
        IndexStored dir content names disk) := by
  refine ⟨(known.volumes point atPoint live).congr same, fun complete => ?_⟩
  rcases complete with checking | arriving
  · exact (known.index point atPoint checking).congr same
  · exact absurd arriving waits

theorem Known.perform_disk (known : Known env dir content packets names s)
    (indexed : Indexed env.md5 dir packets names) (regular : Regular env dir packets s (.go choice))
    (atPoint : point ∈ s.point) (live : stageOf point ≠ .over)
    (repaired : point = .repairing → ok = true)
    (performed : perform env qsort dir content choice s point = some (ok, t)) :
    VolumesArrived env.md5 dir packets names t.world.disk ∧
      (stageOf point = .checking ∨ point = .counting ∧ s.job.contentComplete →
        IndexStored dir content names t.world.disk) := by
  unfold perform at performed
  split at performed
  · cases performed
    exact known.unchanged atPoint live (by simp) fun _ _ _ => rfl
  · cases performed
    exact known.unchanged atPoint live (by simp) fun _ _ _ => rfl
  · -- The recovery volumes have been fetched.
    cases performed
    refine ⟨fun v member volume bytes stored => ?_, fun _ p member par2 notVolume => ?_⟩
    · have inVolumes : v ∈ s.names.filter jobFileIsPar2Volume := by
        rw [known.same]
        exact mem_filter.mpr ⟨member, volume⟩
      have kept : storeFiles dir _ choice.volumes s.world.disk (tempPath dir v) = choice.volumes v :=
        storeFiles_of_mem inVolumes (fun other inFilter =>
          indexed.paths v member other (known.same ▸ mem_of_mem_filter inFilter)) _
      exact regular.2.2 v (known.same ▸ member) volume bytes (kept.symm.trans stored)
    · rw [← known.index _ atPoint rfl p member par2 notVolume]
      apply storeFiles_of_ne
      intro v inVolumes samePath
      obtain ⟨inNames, volume⟩ := mem_filter.mp inVolumes
      rw [indexed.paths p member v (known.same ▸ inNames) samePath, volume] at notVolume
      contradiction
  · split at performed
    · -- All other files have arrived.
      cases performed
      refine ⟨fun v member volume bytes stored => ?_, fun _ p member par2 notVolume => ?_⟩
      · apply known.volumes _ atPoint live v member volume bytes
        rw [← stored]
        symm
        apply storeFiles_of_ne
        intro other inRest samePath
        obtain ⟨inNames, notVolume⟩ := mem_filter.mp inRest
        rw [← indexed.paths v member other (known.same ▸ inNames) samePath, volume] at notVolume
        contradiction
      · have inRest : p ∈ s.names.filter fun name => !jobFileIsPar2Volume name := by
          rw [known.same]
          exact mem_filter.mpr ⟨member, by rw [notVolume]; rfl⟩
        exact storeFiles_of_mem inRest (fun other inFilter =>
          indexed.paths p member other (known.same ▸ mem_of_mem_filter inFilter)) s.world.disk
    · rename_i incomplete
      cases performed
      exact known.unchanged atPoint live (by simp [incomplete]) fun _ _ _ => rfl
  · split at performed
    · rw [Option.bind_eq_bind, Option.bind_eq_some_iff] at performed
      obtain ⟨set, _, done⟩ := performed
      cases done
      exact known.unchanged atPoint live (by simp) fun _ _ _ => rfl
    · cases performed
      exact known.unchanged atPoint live (by simp) fun _ _ _ => rfl
  · split at performed
    · rename_i pass _ err passed world verified
      cases performed
      have foreign := known.foreign _ atPoint (.inr ⟨pass, rfl⟩)
      rw [known.same] at verified
      exact known.unchanged atPoint live (by simp) fun p member par2 =>
        (foreign.keeps_verifyFiles indexed.paths member par2).eq verified
    · contradiction
  · rw [Option.bind_eq_bind, Option.bind_eq_some_iff] at performed
    obtain ⟨set, _, done⟩ := performed
    cases done
    exact known.unchanged atPoint live (by simp) fun _ _ _ => rfl
  · split at performed
    · rename_i world repairedSet
      cases performed
      have foreign := known.foreign _ atPoint (.inl rfl)
      rw [known.same] at repairedSet
      exact known.unchanged atPoint live (by simp) fun p member par2 =>
        foreign.disk_of_par2RepairSet indexed.paths member par2 repairedSet
    · cases performed
      exact absurd (repaired rfl) Bool.false_ne_true
  · rename_i notCounting _ _ _ _
    cases performed
    exact known.unchanged atPoint live (fun arriving => notCounting arriving.1) fun _ _ _ => rfl

theorem perform_job (performed : perform env qsort dir content choice s point = some (ok, t)) :
    t.job = s.job := by
  unfold perform at performed
  split at performed <;> (repeat' split at performed) <;> first
    | cases performed; rfl
    | contradiction
    | obtain ⟨set, _, done⟩ := Option.bind_eq_some_iff.mp performed; cases done; rfl

section Go

variable (known : Known env dir content packets names s)
  (shipped : Shipped env.md5 packets content names) (indexed : Indexed env.md5 dir packets names)
  (regular : Regular env dir packets s (.go choice))
include known shipped indexed regular

theorem Known.scan (atPoint : point ∈ s.point)
    (checking : stageOf point = .checking) {rounds : ℕ} {set : ScanSet}
    (scanned : par2ScanDir rounds env.md5 qsort s.world.disk dir choice.entries = some set) :
    Foreign names set.toPar2Set ∧ Covers packets names set.toPar2Set := by
  obtain ⟨⟨entries, listing, listed⟩, _, _⟩ := regular
  rw [listing] at scanned
  rw [known.same] at listed
  have volumes := known.volumes point atPoint (by rw [checking]; exact nofun)
  have index := known.index point atPoint checking
  exact ⟨scan_foreign shipped indexed volumes index listed scanned,
    scan_covers shipped indexed volumes index listed scanned⟩

theorem Known.perform_scanning {pass : Pass} (atPoint : s.point = some (.scanning pass))
    (performed : perform env qsort dir content choice s (.scanning pass) = some (ok, t)) :
    ok = decide (t.set.files.length ≠ 0) ∧ Foreign names t.set.toPar2Set ∧
      Covers packets names t.set.toPar2Set := by
  rw [perform, if_pos (regular.2.1 pass atPoint)] at performed
  obtain ⟨set, scanned, done⟩ := Option.bind_eq_some_iff.mp performed
  cases done
  exact ⟨rfl, known.scan shipped indexed regular atPoint rfl scanned⟩

theorem Known.perform_repairPrep (atPoint : s.point = some .repairPrep)
    (performed : perform env qsort dir content choice s .repairPrep = some (ok, t)) :
    Foreign names t.set.toPar2Set := by
  obtain ⟨set, scanned, done⟩ := Option.bind_eq_some_iff.mp performed
  cases done
  exact (known.scan shipped indexed regular atPoint rfl scanned).1

theorem Known.perform_passed (atPoint : s.point = some point)
    (performed : perform env qsort dir content choice s point = some (ok, t)) {pass : Pass}
    (returns : point = .scanning pass ∧ ok = false ∨ point = .verifying pass ∧ ok = true) :
    AllPassed packets names t.passed := by
  intro f inNames p inNames' par2 described
  rcases returns with ⟨rfl, rfl⟩ | ⟨rfl, rfl⟩
  · -- An empty set covers no file.
    obtain ⟨empty, _, covers⟩ := known.perform_scanning shipped indexed regular atPoint performed
    obtain ⟨pf, found⟩ := Option.isSome_iff_exists.mp (covers f inNames p inNames' par2 described)
    have inSet := (par2FindFile_name found).1
    have none : t.set.files = [] := by simpa using empty.symm
    rw [ScanSet.toPar2Set, none] at inSet
    contradiction
  · have covers := known.covers pass atPoint
    rw [perform] at performed
    split at performed
    · rename_i err passed world verified
      cases err with
      | some message => cases performed
      | none =>
        cases performed
        rw [known.same] at verified
        exact (verifyFiles_passed verified).2 f inNames (covers f inNames p inNames' par2 described)
    · contradiction

theorem Known.go (taken : checkedStep env qsort dir content maxRetries s (.go choice) = some s') :
    Known env dir content packets names s' := by
  simp only [checkedStep, Option.bind_eq_bind, Option.bind_eq_some_iff] at taken
  obtain ⟨point, atPoint, ⟨ok, t⟩, performed, effect, stepped, done⟩ := taken
  cases done
  have sameJob := perform_job performed
  constructor
  case same =>
    rw [← known.same, Checked.names, Checked.names, dlStep_files stepped, sameJob]
  case volumes =>
    intro next going live
    obtain ⟨liveBefore, repaired⟩ := (dlStep_follows stepped going).live live
    exact (known.perform_disk indexed regular atPoint liveBefore repaired performed).1
  case index =>
    intro next going checking
    have follows := dlStep_follows stepped going
    obtain ⟨liveBefore, repaired⟩ := follows.live (by rw [checking]; exact nofun)
    apply (known.perform_disk indexed regular atPoint liveBefore repaired performed).2
    rw [← sameJob]
    exact follows.checking checking
  case foreign =>
    intro next going reached
    have follows := dlStep_follows stepped going
    rcases reached with repairing | ⟨pass, verifying⟩
    · obtain ⟨rfl, _⟩ := follows.repairing repairing
      have foreign := known.perform_repairPrep shipped indexed regular atPoint performed
      exact foreign
    · obtain ⟨rfl, _⟩ := follows.verifying pass verifying
      exact (known.perform_scanning shipped indexed regular atPoint performed).2.1
  case covers =>
    intro pass going
    obtain ⟨rfl, _⟩ := (dlStep_follows stepped going).verifying pass rfl
    exact (known.perform_scanning shipped indexed regular atPoint performed).2.2
  case passed =>
    rintro (⟨pass, going⟩ | going | enqueued)
    · have returns := (dlStep_follows stepped going).verified pass rfl
      have passed := known.perform_passed shipped indexed regular atPoint performed returns
      exact passed
    · obtain ⟨pass, rfl⟩ := (dlStep_follows stepped going).passing rfl
      cases performed
      exact known.passed (.inl ⟨pass, atPoint⟩)
    · obtain rfl := dlStep_enqueued stepped enqueued
      cases performed
      exact known.passed (.inr (.inl atPoint))

end Go

theorem Known.step (known : Known env dir content packets names s)
    (shipped : Shipped env.md5 packets content names) (indexed : Indexed env.md5 dir packets names)
    {act : CheckedAct} (regular : Regular env dir packets s act)
    (taken : checkedStep env qsort dir content maxRetries s act = some s') :
    Known env dir content packets names s' := by
  cases act with
  | go choice => exact known.go shipped indexed regular taken
  | other job =>
    rw [checkedStep] at taken
    split at taken
    · rename_i sameNames
      cases taken
      exact { known with same := sameNames.trans known.same }
    · contradiction

/-- A job whose described files are all described outside the recovery volumes is
handed to the finalizer only after each of them has verified. -/
theorem verified_of_handed {start : Checked}
    (shipped : Shipped env.md5 packets content start.names)
    (indexed : Indexed env.md5 dir packets start.names) (called : Called env dir packets start)
    (run : Reachable (checkedStep env qsort dir content maxRetries) (Regular env dir packets) start s)
    (handed : s.handed = true) {f p : Name} (inJob : f ∈ start.names) (shipper : p ∈ start.names)
    (par2 : isPar2File p = true) (described : ∃ packet ∈ packets p, DescribesFile packet f) :
    f ∈ s.passed := by
  have known := run.invariant called.known fun t act t' known regular taken =>
    known.step shipped indexed regular taken
  exact known.passed (.inr (.inr handed)) f inJob p shipper par2 described

end Run

/-! ## Jobs with one described file

A file of four bytes, shipped with either an index or one recovery volume. -/

instance (packet : Packet) (name : Name) : Decidable (DescribesFile packet name) := by
  unfold DescribesFile
  infer_instance

def testRegular (dir : String) (s : Checked) : CheckedAct → Bool
  | .go choice =>
      (choice.entries.any fun entries =>
        (s.names.all fun name =>
          (s.world.disk (tempPath dir name)).isNone || entries.contains (storedName name)) &&
        entries.all fun entry =>
          !isPar2Name entry || s.names.any fun name => entry == storedName name) &&
      choice.ok && s.names.all fun v => (choice.volumes v).isNone
  | .other _ => true

theorem regular_of_test {env : Env} {dir : String} {packets : Name → List Packet} (s : Checked)
    (act : CheckedAct) (passed : testRegular dir s act) :
    Regular env dir packets s act := by
  cases act with
  | other => trivial
  | go choice =>
    simp only [testRegular, Bool.and_eq_true, all_eq_true, Option.any_eq_true] at passed
    obtain ⟨⟨⟨entries, listing, all, only⟩, ok⟩, none⟩ := passed
    refine ⟨⟨entries, listing, ⟨fun name member stored => ?_, fun entry member par2 => ?_⟩⟩,
      fun _ _ => ok, fun v member _ bytes arrived => ?_⟩
    · simpa [stored] using all name member
    · simpa [par2] using only entry member
    · have missing := none v member
      rw [arrived] at missing
      contradiction

def film : Name := ['a']

def filmIndex : Name := ['a', '.', 'p', 'a', 'r', '2']

def filmVolume : Name := ['a', '.', 'v', 'o', 'l', '0', '+', '1', '.', 'p', 'a', 'r', '2']

def filmEnv : Env :=
  withoutFailure (SmallSet.md5 [smallA])

def filmPackets (name : Name) : List Packet :=
  if name = filmIndex then smallA.critical else smallA.critical ++ [smallA.slice]

def filmContent (bytes : Bytes) (name : Name) : Bytes :=
  if name = film then bytes else (filmPackets name).flatMap (Packet.encode filmEnv.md5)

def filmJob (par2 : Name) (state : JobState) (done : Bool) : Job where
  state := state
  busy := false
  retriesUsed := 0
  files := [⟨film, [⟨"film", done⟩]⟩, ⟨par2, [⟨"par2", done && !jobFileIsPar2Volume par2⟩]⟩]

def filmStart (par2 : Name) : Checked where
  job := filmJob par2 .queued false
  point := some .picked
  handed := false
  world := ⟨fun _ => none, 0⟩
  set := .empty
  passed := []

def filmRun (par2 : Name) (entries : List String) (before after : ℕ) : List CheckedAct :=
  let go : CheckedAct := .go ⟨true, true, 8, some entries, fun _ => none⟩
  List.replicate before go ++ .other (filmJob par2 .downloading true) :: List.replicate after go

theorem film_called (par2 : Name) : Called filmEnv "t" filmPackets (filmStart par2) where
  point := rfl
  handed := rfl
  volumes _ _ _ _ stored := nomatch stored

theorem film_shipped {par2 : Name} (known : par2 = filmIndex ∨ par2 = filmVolume) (bytes : Bytes) :
    Shipped filmEnv.md5 filmPackets (filmContent bytes) (filmStart par2).names := by
  have index : filmContent bytes filmIndex =
      (filmPackets filmIndex).flatMap (Packet.encode filmEnv.md5) := rfl
  have only : ∀ p ∈ (filmStart par2).names, isPar2File p → jobFileIsPar2Volume p = false →
      p = filmIndex := by
    rcases known with rfl | rfl <;> decide +kernel
  constructor
  · intro p member isPar2 notVolume
    rw [only p member isPar2 notVolume, index]
  · intro p member isPar2 notVolume
    rw [only p member isPar2 notVolume, index]
    decide +kernel

theorem handed_without_verification :
    Shipped filmEnv.md5 filmPackets (filmContent [1, 2, 3, 5]) (filmStart filmVolume).names ∧
      Called filmEnv "t" filmPackets (filmStart filmVolume) ∧
      film ∈ (filmStart filmVolume).names ∧ filmVolume ∈ (filmStart filmVolume).names ∧
      isPar2File filmVolume = true ∧
      (∃ packet ∈ filmPackets filmVolume, DescribesFile packet film) ∧
      ∃ s, Reachable (checkedStep filmEnv id "t" (filmContent [1, 2, 3, 5]) 0)
          (Regular filmEnv "t" filmPackets) (filmStart filmVolume) s ∧
        s.handed = true ∧ film ∉ s.passed := by
  have run : (replay (checkedStep filmEnv id "t" (filmContent [1, 2, 3, 5]) 0) (testRegular "t")
      (filmStart filmVolume) (filmRun filmVolume ["a"] 9 7)).any
        (fun s => s.handed && !s.passed.contains film) = true := by
    decide +kernel
  obtain ⟨s, reachable, final⟩ := exists_reachable regular_of_test run
  exact ⟨film_shipped (.inr rfl) _, film_called _, by decide +kernel, by decide +kernel,
    by decide +kernel, by decide +kernel, s, reachable, by simpa using final⟩

def filmDescription : Bytes :=
  smallA.id ++ smallA.sum ++ smallA.sum ++ toLe 8 4 ++ [smallA.name, 0, 0, 0]

theorem film_readable {body : Bytes} :
    Readable filmEnv.md5 "t" filmPackets filmIndex body ↔ body = filmDescription := by
  have parsed : parsedPackets filmEnv.md5 (tempPath "t" filmIndex) 0 (filmPackets filmIndex) =
      [.main (toLe 16 smallA.setId.toNat) (toLe 8 4 ++ toLe 4 1 ++ smallA.id),
        .filedesc (toLe 16 smallA.setId.toNat) filmDescription,
        .ifsc (toLe 16 smallA.setId.toNat) (smallA.id ++ smallA.sum ++ toLe 4 smallA.crc)] := by
    rfl
  rw [Readable, parsed]
  constructor
  · rintro ⟨_, setId, member⟩
    simp only [mem_cons, not_mem_nil, or_false, reduceCtorEq, false_or,
      Parsed.filedesc.injEq] at member
    exact member.2
  · rintro rfl
    exact ⟨by decide +kernel, toLe 16 smallA.setId.toNat, by simp⟩

theorem film_indexed : Indexed filmEnv.md5 "t" filmPackets (filmStart filmIndex).names := by
  have names : (filmStart filmIndex).names = [film, filmIndex] := rfl
  have only : ∀ p ∈ [film, filmIndex], isPar2File p → p = filmIndex := by decide +kernel
  have described : ∀ f ∈ [film, filmIndex], (∃ packet ∈ filmPackets filmIndex,
      DescribesFile packet f) → nameIn filmDescription = ofList f := by
    decide +kernel
  rw [names]
  constructor
  · intro f inNames p member par2 packet
    rw [only p member par2] at packet
    exact ⟨filmIndex, by simp, by decide +kernel, by decide +kernel, filmDescription,
      film_readable.mpr rfl, described f inNames packet⟩
  · decide +kernel
  · intro p member par2 q member' par2' body body' readable readable' _
    rw [only p member par2, film_readable] at readable
    rw [only q member' par2', film_readable] at readable'
    rw [readable, readable']
  · intro p member par2 body readable q member' par2'
    rw [only p member par2, film_readable] at readable
    rw [only q member' par2', readable]
    decide +kernel

theorem verified_of_handed_film : ∃ s,
    Reachable (checkedStep filmEnv id "t" (filmContent smallA.content) 0)
        (Regular filmEnv "t" filmPackets) (filmStart filmIndex) s ∧
      s.handed = true ∧ film ∈ s.passed := by
  have run : (replay (checkedStep filmEnv id "t" (filmContent smallA.content) 0) (testRegular "t")
      (filmStart filmIndex) (filmRun filmIndex ["a", "a.par2"] 13 8)).any
        (fun s => s.handed) = true := by
    decide +kernel
  obtain ⟨s, reachable, handed⟩ := exists_reachable regular_of_test run
  exact ⟨s, reachable, handed, verified_of_handed (film_shipped (.inl rfl) _) film_indexed
    (film_called _) reachable handed (f := film) (p := filmIndex) (by decide +kernel)
    (by decide +kernel) (by decide +kernel) (by decide +kernel)⟩

end NzbDownloader.Download
