import NzbDownloader.Par2.Layout

/-!
# What each stage of a repair establishes

One lemma for each function of the repair that ends normally: which part of the
disk it left alone, and what it found or wrote.  The scan and the planning stage
never write.
-/

namespace NzbDownloader.Par2

open Lib Lib.Effect List Option World AcceptedSlice

variable {env : Env} {set : Par2Set} {files : List RepairFile} {w w' : World}

def Quiet {α : Type} (program : RepairM α) : Prop :=
  Leads (fun w w' : World => w'.disk = w.disk) program

theorem Quiet.keeps {α : Type} {program : RepairM α} {a : α} (quiet : Quiet program)
    (returns : Returns program w a w') : w'.disk = w.disk :=
  Keeps.eq quiet returns

variable {message path : String} {original : String → Bytes} {entry : Par2File × String}
  {sliceBody : Par2Slice → Bytes} {pf : Par2File} {present : ℕ → Bool} {plan : Plan}

section Quiet

theorem quiet_attempt : Quiet (attempt env) :=
  fun _ => rfl

theorem quiet_require : Quiet (require env message) := by
  apply leads_bind quiet_attempt
  intro ok
  split
  · exact leads_pure
  · exact leads_throw

theorem quiet_allocate : Quiet (allocate env) :=
  quiet_require

theorem quiet_fopen : Quiet (fopen env path) := by
  apply leads_bind quiet_attempt
  intro ok
  split
  · exact leads_bind leads_get fun _ => leads_pure
  · exact leads_pure

theorem quiet_withFile {α : Type} {missing failed : α} {answer : Bytes → α} :
    Quiet (withFile env path missing failed answer) := by
  apply leads_bind quiet_fopen
  intro opened
  cases opened with
  | none => exact leads_pure
  | some content =>
    apply leads_bind quiet_attempt
    intro ok
    split <;> exact leads_pure

theorem quiet_freadExactly {off n : ℕ} : Quiet (freadExactly env path off n message) := by
  apply leads_bind quiet_fopen
  intro opened
  cases opened with
  | none => exact leads_throw
  | some content =>
    apply leads_bind quiet_require
    intro _
    split
    · exact leads_pure
    · exact leads_throw

theorem quiet_scanFile : Quiet (scanFile env set present entry) := by
  unfold scanFile
  dsimp only
  split
  · apply leads_bind quiet_allocate
    intro _
    apply leads_bind quiet_withFile
    intro bad
    cases bad with
    | none => exact leads_throw
    | some flags => exact leads_pure
  · exact leads_bind quiet_withFile fun _ => leads_pure

theorem quiet_resolvePath : Quiet (resolvePath env files pf) := by
  unfold resolvePath
  split
  · exact leads_bind quiet_allocate fun _ => leads_pure
  · exact leads_throw

theorem quiet_findDamage : Quiet (findDamage env set files) := by
  unfold findDamage
  split
  · exact leads_throw
  apply leads_bind quiet_allocate
  intro _
  apply leads_bind (leads_mapM fun _ => quiet_resolvePath)
  intro resolved
  apply leads_bind quiet_allocate
  intro _
  exact leads_bind (leads_foldlM fun _ _ => quiet_scanFile) fun _ => leads_pure

theorem quiet_selectSlices {need : ℕ} {candidates : List Par2Slice} {prev : Option (BitVec 32)}
    {accepted : List AcceptedSlice} :
    Quiet (selectSlices env set need candidates prev accepted) := by
  induction candidates generalizing prev accepted with
  | nil => exact leads_pure
  | cons s rest ih =>
    rw [selectSlices]
    split
    · split
      · exact ih
      · split
        · exact ih
        · apply leads_bind quiet_withFile
          intro ok
          split <;> exact ih
    · exact leads_pure

theorem quiet_planRepair : Quiet (planRepair env set present) := by
  apply leads_bind quiet_allocate
  intro _
  split
  · exact leads_throw
  apply leads_bind quiet_allocate
  intro _
  apply leads_bind quiet_allocate
  intro _
  dsimp only
  split
  · exact leads_pure
  apply leads_bind quiet_allocate
  intro _
  apply leads_bind quiet_selectSlices
  intro accepted
  split
  · exact leads_throw
  apply leads_bind quiet_allocate
  intro _
  apply leads_bind quiet_allocate
  intro _
  apply leads_bind quiet_allocate
  intro _
  apply leads_bind quiet_allocate
  intro _
  apply leads_bind quiet_attempt
  intro callocOk
  split
  · exact leads_throw
  · exact leads_pure

variable {resolved : List (Par2File × String)} {chunkOff len col : ℕ}

theorem quiet_readColumn :
    Quiet (readColumn env set resolved plan chunkOff len col) := by
  unfold readColumn
  split
  · dsimp only
    split
    · exact leads_throw
    · split
      · exact leads_bind quiet_freadExactly fun _ => leads_pure
      · exact leads_pure
  · exact quiet_freadExactly

theorem quiet_addColumn {outbufs : ℕ → Bytes} :
    Quiet (addColumn env set resolved plan chunkOff len outbufs col) := by
  apply leads_bind quiet_readColumn
  intro inbuf
  exact leads_bind quiet_require fun _ => leads_pure

end Quiet

section Calls

theorem disk_of_fopen {content : Bytes} (returns : Returns (fopen env path) w (some content) w') :
    w.disk path = some content := by
  obtain ⟨ok, t, tried, rest⟩ := returns_bind.mp returns
  split at rest
  · obtain ⟨_, _, got, done⟩ := returns_bind.mp rest
    obtain ⟨rfl, rfl⟩ := returns_get.mp got
    rw [← quiet_attempt.keeps tried]
    exact (returns_pure.mp done).1
  · cases (returns_pure.mp rest).1

theorem withFile_cases {α : Type} {missing failed a : α} {answer : Bytes → α}
    (returns : Returns (withFile env path missing failed answer) w a w') :
    a = missing ∨ a = failed ∨ ∃ content, w.disk path = some content ∧ a = answer content := by
  obtain ⟨opened, t, fopened, rest⟩ := returns_bind.mp returns
  cases opened with
  | none => exact .inl (returns_pure.mp rest).1.symm
  | some content =>
    obtain ⟨ok, t', tried, last⟩ := returns_bind.mp rest
    split at last
    · exact .inr (.inr ⟨content, disk_of_fopen fopened, (returns_pure.mp last).1.symm⟩)
    · exact .inr (.inl (returns_pure.mp last).1.symm)

theorem freadExactly_spec {off n : ℕ} {bytes : Bytes}
    (returns : Returns (freadExactly env path off n message) w bytes w') :
    ∃ content, w.disk path = some content ∧ bytes = readAt content off n ∧ bytes.length = n := by
  obtain ⟨opened, t, fopened, rest⟩ := returns_bind.mp returns
  cases opened with
  | none => exact absurd rest returns_throw
  | some content =>
    obtain ⟨_, t', required, last⟩ := returns_bind.mp rest
    split at last
    · rename_i complete
      obtain ⟨rfl, rfl⟩ := returns_pure.mp last
      exact ⟨content, disk_of_fopen fopened, rfl, complete⟩
    · exact absurd last returns_throw

theorem pwriteExactly_spec {off : ℕ} {data : Bytes}
    (returns : Returns (pwriteExactly env path off data message) w () w') :
    w'.disk = (w.store path off data).disk := by
  obtain ⟨_, t, required, opened⟩ := returns_bind.mp returns
  obtain ⟨_, _, got, seen⟩ := returns_bind.mp opened
  obtain ⟨rfl, rfl⟩ := returns_get.mp got
  obtain ⟨ok, t', tried, last⟩ := returns_bind.mp seen
  have same : t'.disk = w.disk := (quiet_attempt.keeps tried).trans (quiet_require.keeps required)
  split at last
  · have final := returns_modify.mp last
    rw [final]
    simp only [store, same]
  · obtain ⟨_, _, _, impossible⟩ := returns_bind.mp last
    exact absurd impossible returns_throw

end Calls

section Smooth

variable {disk : String → Option Bytes} (smooth : ∀ n, env.fails n = false)

include smooth

theorem answers_attempt : Answers (fun w => w.disk = disk) (attempt env) true := by
  intro w same
  refine ⟨{ w with clock := w.clock + 1 }, ?_, same⟩
  rw [Returns, attempt, smooth]
  rfl

theorem answers_allocate : Answers (fun w => w.disk = disk) (allocate env) () :=
  (answers_attempt smooth).bind (answers_pure ())

theorem answers_withFile {α : Type} (path : String) (missing failed : α) (answer : Bytes → α) :
    Answers (fun w => w.disk = disk) (withFile env path missing failed answer)
      (((disk path).map answer).getD missing) := by
  have opened : Answers (fun w => w.disk = disk) (fopen env path) (disk path) := by
    apply (answers_attempt smooth).bind
    rintro w rfl
    exact ⟨w, rfl, rfl⟩
  apply opened.bind
  cases disk path with
  | none => exact answers_pure _
  | some content => exact (answers_attempt smooth).bind (answers_pure _)

end Smooth

def World.content (w : World) (path : String) : Bytes :=
  (w.disk path).getD []

theorem World.content_eq {content : Bytes} (found : w.disk path = some content) :
    w.content path = content := by
  rw [World.content, found, getD_some]

theorem World.content_store (w : World) (path : String) (off : ℕ) (data : Bytes) :
    (w.store path off data).content path = writeAt (w.content path) off data := by
  simp [content, store]

theorem World.disk_store_of_ne {other : String} (different : other ≠ path) (w : World) (off : ℕ)
    (data : Bytes) : (w.store path off data).disk other = w.disk other := by
  simp [store, different]

def IntactBlock (set : Par2Set) (original : String → Bytes) (w : World)
    (entry : Par2File × String) (g : ℕ) : Prop :=
  ∀ j < set.blockSize.toNat,
    byteAt (w.content entry.2) (entry.1.localIndex g * set.blockSize.toNat + j) =
      byteAt (original entry.1.name) (entry.1.localIndex g * set.blockSize.toNat + j)

theorem IntactBlock.congr {g : ℕ} (intact : IntactBlock set original w entry g)
    (same : w'.disk = w.disk) : IntactBlock set original w' entry g := by
  unfold IntactBlock content at *
  rwa [same]

section Scan

theorem scanBlockDamage_spec (accepts : Accepts env set original sliceBody)
    (member : pf ∈ recoveryFiles set) {md5s : List Digest} (entries : pf.blockMd5 = some md5s)
    {flags : List Bool} (returns : Returns (scanBlockDamage env set pf md5s path) w (some flags) w')
    {k : ℕ} (bound : k < pf.blockCount) (good : flags.getD k true = false) :
    ∀ j < set.blockSize.toNat, byteAt (w.content path) (k * set.blockSize.toNat + j) =
      byteAt (original pf.name) (k * set.blockSize.toNat + j) := by
  intro j inside
  rcases withFile_cases returns with missing | failed | ⟨content, found, answer⟩
  · cases missing
    simp [getD_eq_getElem?_getD, bound] at good
  · cases failed
  · cases answer
    simp only [getD_eq_getElem?_getD, getElem?_map, getElem?_range bound,
      map_some, getD_some, blockBad, ne_eq, decide_eq_false_iff_not, not_or,
      not_not] at good
    have original := accepts.block pf member md5s entries k bound _ good.1 good.2
    have bytes := congrArg (byteAt · j) original
    rw [content_eq found]
    rwa [← paddedBlock, byteAt_paddedBlock _ _ inside, byteAt_paddedBlock _ _ inside] at bytes

theorem hashFileMd5_spec {value : Digest}
    (returns : Returns (hashFileMd5 env path) w (some value) w') :
    env.md5 (w.content path) = value := by
  rcases withFile_cases returns with missing | failed | ⟨content, found, answer⟩
  · cases missing
  · cases failed
  · cases answer
    rw [content_eq found]

theorem assignBlocks_true {value : ℕ → Bool} {g : ℕ}
    (marked : assignBlocks present pf value g) :
    (pf.Owns g ∧ value (pf.localIndex g)) ∨ present g = true := by
  unfold assignBlocks at marked
  split at marked
  · rename_i owns
    exact .inl ⟨owns, marked⟩
  · exact .inr marked

theorem scanFile_spec (accepts : Accepts env set original sliceBody)
    (member : entry.1 ∈ recoveryFiles set) {present' : ℕ → Bool}
    (returns : Returns (scanFile env set present entry) w present' w') {g : ℕ}
    (marked : present' g) :
    (entry.1.Owns g ∧ IntactBlock set original w entry g) ∨ present g = true := by
  obtain ⟨pf, path⟩ := entry
  unfold scanFile at returns
  dsimp only at returns
  split at returns
  · rename_i md5s _ entries _
    obtain ⟨_, t, allocated, rest⟩ := returns_bind.mp returns
    obtain ⟨bad, t', scanned, last⟩ := returns_bind.mp rest
    cases bad with
    | none => exact absurd last returns_throw
    | some flags =>
      obtain ⟨rfl, rfl⟩ := returns_pure.mp last
      rcases assignBlocks_true marked with ⟨owns, good⟩ | before
      · refine .inl ⟨owns, ?_⟩
        have bound : pf.localIndex g < pf.blockCount := by
          unfold Par2File.localIndex
          unfold Par2File.Owns at owns
          omega
        have bytes := scanBlockDamage_spec accepts member entries scanned bound (by simpa using good)
        unfold content at bytes
        rwa [quiet_allocate.keeps allocated] at bytes
      · exact .inr before
  · obtain ⟨digest, t, hashed, last⟩ := returns_bind.mp returns
    obtain ⟨rfl, rfl⟩ := returns_pure.mp last
    rcases assignBlocks_true marked with ⟨owns, good⟩ | before
    · refine .inl ⟨owns, fun j _ => ?_⟩
      rw [of_decide_eq_true good] at hashed
      rw [accepts.file pf member _ (hashFileMd5_spec hashed)]
    · exact .inr before

def pathOf (files : List RepairFile) (pf : Par2File) : Option String :=
  (files.find? (·.name = pf.name)).map RepairFile.path

theorem exists_of_pathOf (found : pathOf files pf = some path) :
    ∃ file ∈ files, file.name = pf.name ∧ file.path = path := by
  obtain ⟨file, first, atPath⟩ := map_eq_some_iff.mp found
  exact ⟨file, mem_of_find?_eq_some first, by simpa using find?_some first, atPath⟩

theorem resolvePath_spec (returns : Returns (resolvePath env files pf) w entry w') :
    entry.1 = pf ∧ pathOf files pf = some entry.2 := by
  unfold resolvePath at returns
  split at returns
  · rename_i file found
    obtain ⟨_, t, allocated, last⟩ := returns_bind.mp returns
    obtain ⟨rfl, rfl⟩ := returns_pure.mp last
    exact ⟨rfl, by rw [pathOf, found, map_some]⟩
  · exact absurd returns returns_throw

def Resolved (set : Par2Set) (files : List RepairFile) (resolved : List (Par2File × String)) :
    Prop :=
  List.Forall₂ (fun pf entry => entry.1 = pf ∧
    ∃ file ∈ files, file.name = pf.name ∧ file.path = entry.2) (recoveryFiles set) resolved

theorem Resolved.map_fst {resolved : List (Par2File × String)}
    (paths : Resolved set files resolved) : resolved.map Prod.fst = recoveryFiles set := by
  unfold Resolved at paths
  generalize recoveryFiles set = recovery at paths
  induction paths with
  | nil => rfl
  | cons here _ ih => rw [map_cons, here.1, ih]

theorem Resolved.mem {resolved : List (Par2File × String)} (paths : Resolved set files resolved)
    (member : entry ∈ resolved) :
    entry.1 ∈ recoveryFiles set ∧
      ∃ file ∈ files, file.name = entry.1.name ∧ file.path = entry.2 := by
  unfold Resolved at paths
  generalize recoveryFiles set = recovery at paths
  induction paths with
  | nil => contradiction
  | cons here _ ih =>
    rcases mem_cons.mp member with rfl | later
    · obtain ⟨rfl, found⟩ := here
      exact ⟨by simp, found⟩
    · obtain ⟨inRest, found⟩ := ih later
      exact ⟨by simp [inRest], found⟩

def LookedUp (set : Par2Set) (files : List RepairFile) (resolved : List (Par2File × String)) :
    Prop :=
  List.Forall₂ (fun pf entry => entry.1 = pf ∧ pathOf files pf = some entry.2)
    (recoveryFiles set) resolved

theorem LookedUp.resolved {resolved : List (Par2File × String)}
    (paths : LookedUp set files resolved) : Resolved set files resolved :=
  paths.imp fun _ _ found => ⟨found.1, exists_of_pathOf found.2⟩

theorem findDamage_cases {resolved : List (Par2File × String)}
    (returns : Returns (findDamage env set files) w (resolved, present) w') :
    0 < set.blockSize ∧ 0 < set.sourceBlockCount ∧
      LookedUp set files resolved ∧
      ∃ t : World, t.disk = w.disk ∧
        Returns (resolved.foldlM (scanFile env set) fun _ => false) t present w' := by
  unfold findDamage at returns
  split at returns
  · exact absurd returns returns_throw
  obtain ⟨_, t₁, allocated, rest⟩ := returns_bind.mp returns
  obtain ⟨paths, t₂, mapped, rest⟩ := returns_bind.mp rest
  obtain ⟨_, t₃, allocatedAgain, rest⟩ := returns_bind.mp rest
  obtain ⟨final, t₄, scanned, last⟩ := returns_bind.mp rest
  obtain ⟨equal, rfl⟩ := returns_pure.mp last
  cases equal
  obtain ⟨sameMap, resolvedPaths⟩ := returns_mapM (I := fun t => t.disk = w.disk) mapped
    (quiet_allocate.keeps allocated) fun pf _ t entry t' before step =>
      ⟨(quiet_resolvePath.keeps step).trans before, resolvePath_spec step⟩
  exact ⟨by omega, by omega, resolvedPaths, t₃,
    (quiet_allocate.keeps allocatedAgain).trans sameMap, scanned⟩

theorem findDamage_spec (accepts : Accepts env set original sliceBody)
    {resolved : List (Par2File × String)}
    (returns : Returns (findDamage env set files) w (resolved, present) w') :
    Resolved set files resolved ∧ ∀ g, present g → ∃ entry ∈ resolved, entry.1.Owns g ∧
      IntactBlock set original w entry g := by
  obtain ⟨_, _, found, t, unchanged, scanned⟩ := findDamage_cases returns
  have paths : Resolved set files resolved := found.resolved
  obtain ⟨_, marked⟩ := returns_foldlM
    (I := fun visited flags t => t.disk = w.disk ∧ ∀ g, flags g = true →
      ∃ entry ∈ visited, entry.1.Owns g ∧ IntactBlock set original w entry g)
    scanned ⟨unchanged, fun g impossible => nomatch impossible⟩
    fun visited entry later flags t flags' t' split before step => by
      have member : entry ∈ resolved := by simp [split]
      refine ⟨(quiet_scanFile.keeps step).trans before.1, fun g mark => ?_⟩
      rcases scanFile_spec accepts (paths.mem member).1 step mark with ⟨owns, intact⟩ | earlier
      · exact ⟨entry, by simp, owns, intact.congr before.1.symm⟩
      · obtain ⟨other, inVisited, found⟩ := before.2 g earlier
        exact ⟨other, by simp [inVisited], found⟩
  exact ⟨paths, marked⟩

end Scan

theorem assignBases_spec {n baseState m : ℕ} {database : List Gf16}
    (count : Nat.count (Nat.Coprime gfLimit) baseState = m)
    (assigned : assignBases n baseState = some database) :
    ∀ i < n, database.getD i 0 = blockBase (m + i) := by
  induction n generalizing baseState m database with
  | zero => exact fun i bound => absurd bound (Nat.not_lt_zero i)
  | succ n ih =>
    obtain ⟨⟨base, next⟩, first, rest⟩ := bind_eq_some_iff.mp assigned
    obtain ⟨tail, later, done⟩ := bind_eq_some_iff.mp rest
    cases done
    obtain ⟨baseEq, countNext⟩ := gf16NextBase_spec count first
    intro i bound
    cases i with
    | zero => exact baseEq
    | succ i =>
      rw [getD_cons_succ, ih countNext later i (by omega)]
      congr 1
      omega

theorem exists_assignBases {n baseState : ℕ}
    (left : Nat.count (Nat.Coprime gfLimit) baseState + n ≤ 32768) :
    ∃ database, assignBases n baseState = some database := by
  induction n generalizing baseState with
  | zero => exact ⟨[], rfl⟩
  | succ n ih =>
    have more : Nat.count (Nat.Coprime gfLimit) baseState < 32768 := by omega
    obtain ⟨base, next, first⟩ := exists_gf16NextBase more
    obtain ⟨-, count⟩ := gf16NextBase_spec rfl first
    obtain ⟨rest, later⟩ := @ih next (by omega)
    refine ⟨base :: rest, ?_⟩
    simp only [assignBases, first, later, Option.bind_eq_bind, Option.bind_some, Option.pure_def]

structure AcceptedFrom (set : Par2Set) (sliceBody : Par2Slice → Bytes) (w : World)
    (accepted : AcceptedSlice) (s : Par2Slice) : Prop where
  member : s ∈ set.slices
  dataLen : s.dataLen = set.blockSize
  path : accepted.path = s.path
  dataOffset : accepted.dataOffset = s.dataOffset
  exponent : accepted.exponent = s.exponent.setWidth 16
  body : readAt (w.content s.path) (s.dataOffset - 4) (4 + s.dataLen).toNat = sliceBody s

theorem AcceptedFrom.congr {accepted : AcceptedSlice} {s : Par2Slice}
    (from' : AcceptedFrom set sliceBody w accepted s) (same : w'.disk = w.disk) :
    AcceptedFrom set sliceBody w' accepted s :=
  { from' with body := by rw [content, same]; exact from'.body }

section Plan

theorem sliceHashOk_spec (accepts : Accepts env set original sliceBody) {s : Par2Slice}
    (member : s ∈ set.slices) (returns : Returns (sliceHashOk env s) w true w') :
    readAt (w.content s.path) (s.dataOffset - 4) (4 + s.dataLen).toNat = sliceBody s := by
  rcases withFile_cases returns with missing | failed | ⟨content, found, answer⟩
  · cases missing
  · cases failed
  · rw [content_eq found]
    exact accepts.slice s member _ (of_decide_eq_true answer.symm).2

theorem selectSlices_spec (accepts : Accepts env set original sliceBody) {need : ℕ}
    {candidates : List Par2Slice} {prev : Option (BitVec 32)}
    {accepted accepted' : List AcceptedSlice} (known : ∀ s ∈ candidates, s ∈ set.slices)
    (before : ∀ a ∈ accepted, ∃ s, AcceptedFrom set sliceBody w a s)
    (few : accepted.length ≤ need)
    (returns : Returns (selectSlices env set need candidates prev accepted) w accepted' w') :
    accepted'.length ≤ need ∧ ∀ a ∈ accepted', ∃ s, AcceptedFrom set sliceBody w a s := by
  induction candidates generalizing prev accepted w with
  | nil =>
    obtain ⟨rfl, rfl⟩ := returns_pure.mp returns
    exact ⟨few, before⟩
  | cons s rest ih =>
    have restKnown : ∀ s ∈ rest, s ∈ set.slices := fun s member => known s (by simp [member])
    rw [selectSlices] at returns
    split at returns
    · rename_i room
      split at returns
      · exact ih restKnown before few returns
      split at returns
      · exact ih restKnown before few returns
      · rename_i sized
        obtain ⟨ok, t, hashed, last⟩ := returns_bind.mp returns
        have same : t.disk = w.disk := quiet_withFile.keeps hashed
        have carry {all : List AcceptedSlice}
            (found : ∀ a ∈ all, ∃ s, AcceptedFrom set sliceBody w a s) :
            ∀ a ∈ all, ∃ s, AcceptedFrom set sliceBody t a s :=
          fun a member => (found a member).imp fun _ from' => from'.congr same
        suffices later : accepted'.length ≤ need ∧
            ∀ a ∈ accepted', ∃ s, AcceptedFrom set sliceBody t a s from
          ⟨later.1, fun a member => (later.2 a member).imp fun _ from' => from'.congr same.symm⟩
        cases ok with
        | true =>
          have taken : AcceptedFrom set sliceBody w
              ⟨s.path, s.dataOffset, s.exponent.setWidth 16⟩ s :=
            ⟨known s (by simp), not_not.mp sized, rfl, rfl, rfl,
              sliceHashOk_spec accepts (known s (by simp)) hashed⟩
          refine ih restKnown (carry fun a member => ?_) (by simpa using room) last
          rcases mem_append.mp member with earlier | last
          · exact before a earlier
          · rw [mem_singleton.mp last]
            exact ⟨s, taken⟩
        | false => exact ih restKnown (carry before) few last
    · obtain ⟨rfl, rfl⟩ := returns_pure.mp returns
      exact ⟨few, before⟩

structure Planned (set : Par2Set) (sliceBody : Par2Slice → Bytes) (w : World)
    (present : ℕ → Bool) (plan : Plan) : Prop where
  presentIndex : plan.presentIndex =
    (List.range set.sourceBlockCount.toNat).filter fun i => present i
  missingIndex : plan.missingIndex =
    (List.range set.sourceBlockCount.toNat).filter fun i => !present i
  accepted_length : plan.accepted.length = plan.missingIndex.length
  accepted : ∀ a ∈ plan.accepted, ∃ s, AcceptedFrom set sliceBody w a s
  solved : ∃ callocOk, gf16Solve callocOk (plan.presentIndex.map blockBase)
    (plan.missingIndex.map blockBase) (plan.accepted.map exponent) =
      some plan.coeffs

theorem Planned.congr (planned : Planned set sliceBody w present plan)
    (same : w'.disk = w.disk) : Planned set sliceBody w' present plan :=
  { planned with
    accepted := fun a member => (planned.accepted a member).imp fun _ from' => from'.congr same }

theorem map_database {total : ℕ} {database : List Gf16} {indices : List ℕ}
    (bases : ∀ i < total, database.getD i 0 = blockBase i) (bound : ∀ i ∈ indices, i < total) :
    (indices.map fun i => database.getD i 0) = indices.map blockBase :=
  map_congr_left fun i member => bases i (bound i member)

/-- A planning stage that returns has found all blocks, or selected slices for the missing
ones and solved the matrix. -/
theorem planRepair_cases {outcome : Option Plan}
    (returns : Returns (planRepair env set present) w outcome w') :
    (outcome = none ∧ ∀ g < set.sourceBlockCount.toNat, present g) ∨
    ∃ plan, outcome = some plan ∧ 0 < plan.missingIndex.length ∧
      plan.presentIndex = ((List.range set.sourceBlockCount.toNat).filter fun i => present i) ∧
      plan.missingIndex = ((List.range set.sourceBlockCount.toNat).filter fun i => !present i) ∧
      plan.missingIndex.length ≤ plan.accepted.length ∧
      (∃ t t', t.disk = w.disk ∧ Returns
        (selectSlices env set plan.missingIndex.length set.slices none []) t plan.accepted t') ∧
      ∃ callocOk, gf16Solve callocOk (plan.presentIndex.map blockBase)
        (plan.missingIndex.map blockBase) (plan.accepted.map exponent) =
          some plan.coeffs := by
  obtain ⟨_, t₁, allocated₁, rest⟩ := returns_bind.mp returns
  split at rest
  · exact absurd rest returns_throw
  rename_i database assigned
  obtain ⟨_, t₂, allocated₂, rest⟩ := returns_bind.mp rest
  obtain ⟨_, t₃, allocated₃, rest⟩ := returns_bind.mp rest
  dsimp only at rest
  split at rest
  · rename_i empty
    refine .inl ⟨(returns_pure.mp rest).1.symm, fun g bound => ?_⟩
    have none := filter_eq_nil_iff.mp (length_eq_zero_iff.mp empty) g (mem_range.mpr bound)
    simpa using none
  rename_i nonempty
  obtain ⟨_, t₄, allocated₄, rest⟩ := returns_bind.mp rest
  obtain ⟨accepted, t₅, selected, rest⟩ := returns_bind.mp rest
  have same : t₄.disk = w.disk := by
    rw [quiet_allocate.keeps allocated₄, quiet_allocate.keeps allocated₃,
      quiet_allocate.keeps allocated₂, quiet_allocate.keeps allocated₁]
  split at rest
  · exact absurd rest returns_throw
  rename_i enough
  obtain ⟨_, _, _, rest⟩ := returns_bind.mp rest
  obtain ⟨_, _, _, rest⟩ := returns_bind.mp rest
  obtain ⟨_, _, _, rest⟩ := returns_bind.mp rest
  obtain ⟨_, _, _, rest⟩ := returns_bind.mp rest
  obtain ⟨callocOk, _, _, rest⟩ := returns_bind.mp rest
  split at rest
  · exact absurd rest returns_throw
  rename_i coeffs solved
  have bases : ∀ i < set.sourceBlockCount.toNat, database.getD i 0 = blockBase i := by
    intro i bound
    simpa using assignBases_spec (m := 0) (Nat.count_zero _) assigned i bound
  rw [map_database bases (fun i member => mem_range.mp (mem_of_mem_filter member)),
    map_database bases (fun i member => mem_range.mp (mem_of_mem_filter member))]
    at solved
  exact .inr ⟨_, (returns_pure.mp rest).1.symm, Nat.pos_of_ne_zero nonempty, rfl, rfl,
    Nat.le_of_not_lt enough, ⟨t₄, t₅, same, selected⟩, callocOk, solved⟩

theorem planRepair_spec (accepts : Accepts env set original sliceBody)
    (returns : Returns (planRepair env set present) w (some plan) w') :
    (∃ g < set.sourceBlockCount.toNat, present g = false) ∧
      Planned set sliceBody w present plan := by
  rcases planRepair_cases returns with ⟨impossible, _⟩ | ⟨_, equal, nonempty, presentIndex,
    missingIndex, enough, ⟨t, t', same, selected⟩, solved⟩
  · contradiction
  cases equal
  obtain ⟨few, all⟩ := selectSlices_spec accepts (fun s member => member) (by simp)
    (Nat.zero_le _) selected
  refine ⟨?_, presentIndex, missingIndex, Nat.le_antisymm few enough,
    fun a member => (all a member).imp fun _ from' => from'.congr same.symm, solved⟩
  obtain ⟨g, member⟩ := exists_mem_of_length_pos nonempty
  rw [missingIndex, mem_filter, mem_range] at member
  exact ⟨g, member.1, by simpa using member.2⟩

end Plan

private theorem sum_range_getD {M : Type} [AddCommMonoid M] (indices : List ℕ) (f : ℕ → M) :
    ∑ c ∈ Finset.range indices.length, f (indices.getD c 0) = (indices.map f).sum := by
  induction indices with
  | nil => rfl
  | cons i rest ih =>
    rw [length_cons, Finset.sum_range_succ', map_cons, sum_cons, ← ih, add_comm]
    simp

private theorem sum_filter_add {M : Type} [AddCommMonoid M] (indices : List ℕ) (p : ℕ → Bool)
    (f : ℕ → M) : ((indices.filter fun i => p i).map f).sum +
      ((indices.filter fun i => !p i).map f).sum = (indices.map f).sum := by
  induction indices with
  | nil => simp
  | cons i rest ih =>
    rw [map_cons, sum_cons, ← ih]
    cases chosen : p i <;> simp [chosen, add_assoc, add_left_comm]

private theorem sum_range_eq {M : Type} [AddCommMonoid M] (n : ℕ) (f : ℕ → M) :
    ∑ g ∈ Finset.range n, f g = ((List.range n).map f).sum := by
  rw [← sum_range_getD, length_range]
  apply Finset.sum_congr rfl
  intro g member
  rw [getD_eq_getElem _ _ (by simpa using member), getElem_range]

def columnContent (set : Par2Set) (original : String → Bytes) (data : ℕ → Bytes) (plan : Plan)
    (col : ℕ) : Bytes :=
  if col < plan.presentIndex.length then
    sourceBlock set original (plan.presentIndex.getD col 0)
  else data (col - plan.presentIndex.length)

theorem Planned.word_eq (planned : Planned set sliceBody w present plan)
    (genuine : Genuine set files original sliceBody) {data : ℕ → Bytes}
    (slices : ∀ k < plan.missingIndex.length, ∃ s, AcceptedFrom set sliceBody w
      (plan.accepted.getD k ⟨"", 0, 0⟩) s ∧ data k = (sliceBody s).drop 4) {row v : ℕ}
    (bound : row < plan.missingIndex.length) (inside : 2 * v + 1 < set.blockSize.toNat) :
    Galois16.mk (wordAt (sourceBlock set original (plan.missingIndex.getD row 0)) v) =
      ∑ col ∈ Finset.range (plan.presentIndex.length + plan.missingIndex.length),
        Galois16.mk (plan.coeffs row col) *
          ⟨wordAt (columnContent set original data plan col) v⟩ := by
  obtain ⟨callocOk, solved⟩ := planned.solved
  let value : ℕ → Galois16 := fun g => ⟨wordAt (sourceBlock set original g) v⟩
  have solution := gf16Solve_eq solved (fun c => value (plan.presentIndex.getD c 0))
    (fun c => value (plan.missingIndex.getD c 0)) (r := row) (by simpa using bound)
  simp only [length_map] at solution
  rw [show Galois16.mk (wordAt (sourceBlock set original (plan.missingIndex.getD row 0)) v) =
    value (plan.missingIndex.getD row 0) from rfl, solution, Finset.sum_range_add]
  congr 1
  · apply Finset.sum_congr rfl
    intro c member
    rw [columnContent, if_pos (Finset.mem_range.mp member)]
  · apply Finset.sum_congr rfl
    intro k member
    have kBound := Finset.mem_range.mp member
    -- The recovery value of row `k` is the word the slice was created with.
    obtain ⟨s, from', dataEq⟩ := slices k kBound
    obtain ⟨small, _, words⟩ := genuine.slice_data s from'.member from'.dataLen
    rw [columnContent, if_neg (by omega), Nat.add_sub_cancel_left, dataEq, words v inside]
    have exponentEq : ((plan.accepted.map exponent).getD k 0).toNat =
        s.exponent.toNat := by
      have acceptedBound : k < plan.accepted.length := by rw [planned.accepted_length]; exact kBound
      have entry : (plan.accepted.map exponent).getD k 0 =
          (plan.accepted.getD k ⟨"", 0, 0⟩).exponent := by
        simp [getD_eq_getElem?_getD, acceptedBound]
      rw [entry, from'.exponent, BitVec.toNat_setWidth, Nat.mod_eq_of_lt small]
    have base : ∀ (indices : List ℕ) (c : ℕ), c < indices.length →
        (indices.map blockBase).getD c 0 = blockBase (indices.getD c 0) := by
      intro indices c below
      simp [getD_eq_getElem?_getD, below]
    let term : ℕ → Galois16 := fun g => Galois16.mk (blockBase g) ^ s.exponent.toNat * value g
    have part : ∀ indices : List ℕ,
        ∑ c ∈ Finset.range (indices.map blockBase).length,
          Galois16.mk ((indices.map blockBase).getD c 0) ^
            ((plan.accepted.map exponent).getD k 0).toNat *
              value (indices.getD c 0) = (indices.map term).sum := by
      intro indices
      rw [← sum_range_getD, length_map]
      apply Finset.sum_congr rfl
      intro c inRange
      rw [exponentEq, base indices c (Finset.mem_range.mp inRange)]
    rw [recoveryValue, part, part, planned.presentIndex, planned.missingIndex, sum_filter_add,
      ← sum_range_eq]

end NzbDownloader.Par2
