import NzbDownloader.Par2.GoodData

/-!
# Verification after repair

`par2_verify_file` of `par2/par2.c` compares the MD5 of the whole file, whereas a repair
looks at zero-padded blocks. The two agree on a file of its declared length.
-/

namespace NzbDownloader.Par2

open Lib Lib.Effect

inductive VerifyResult where
  | ok
  | damaged
  | unknown
  deriving DecidableEq

structure VerifyReport where
  result : VerifyResult
  badBlocks : ℕ
  blockCount : ℕ

def verifyReadChunk : ℕ := 65536

def readChunks (env : Env) : ℕ → RepairM Bool
  | 0 => return true
  | n + 1 => do
      if ← attempt env then readChunks env n else return false

def hashWhole (env : Env) (content : Bytes) : RepairM Bool := do
  if ← attempt env then
    if ← readChunks env ((content.length + verifyReadChunk - 1) / verifyReadChunk) then attempt env
    else return false
  else return false

def rewind (env : Env) : RepairM Bool := do
  if ← attempt env then attempt env else return false

def checkBlocks (env : Env) (set : Par2Set) (pf : Par2File) (md5s : List Digest)
    (content : Bytes) : VerifyReport :=
  let blockSize := set.blockSize.toNat
  { result := .damaged
    badBlocks := (List.range pf.blockCount).countP fun bi =>
      blockBad env pf md5s bi (padTo blockSize (readAt content (bi * blockSize) blockSize))
    blockCount := pf.blockCount }

def par2VerifyFile (env : Env) (set : Par2Set) (pf : Par2File) (path : String) :
    RepairM (Option VerifyReport) := do
  match ← fopen env path with
  | none => return none
  | some content =>
      if ← hashWhole env content then
        if env.md5 content = pf.hashFull then return some ⟨.ok, 0, 0⟩
        else
          match pf.blockMd5, decide (pf.blockCount = 0 ∨ set.blockSize ≤ 0) with
          | some md5s, false =>
              if ← rewind env then return some (checkBlocks env set pf md5s content)
              else return some ⟨.unknown, 0, 0⟩
          | _, _ => return some ⟨.unknown, 0, 0⟩
      else return none

variable {pf : Par2File} {content : Bytes}

section Verify

variable {env : Env} {set : Par2Set} {w w' : World}

theorem par2VerifyFile_spec {path : String} {report : VerifyReport}
    (returns : Returns (par2VerifyFile env set pf path) w (some report) w') :
    ∃ content, w.disk path = some content ∧
      (report.result = .ok ↔ env.md5 content = pf.hashFull) := by
  obtain ⟨opened, t, fopened, rest⟩ := returns_bind.mp returns
  cases opened with
  | none =>
    obtain ⟨impossible, _⟩ := returns_pure.mp rest
    contradiction
  | some content =>
    refine ⟨content, disk_of_fopen fopened, ?_⟩
    obtain ⟨hashed, t', _, rest⟩ := returns_bind.mp rest
    cases hashed with
    | false =>
      obtain ⟨impossible, _⟩ := returns_pure.mp rest
      contradiction
    | true =>
      rw [if_pos rfl] at rest
      split at rest
      · rename_i matching
        obtain ⟨reported, _⟩ := returns_pure.mp rest
        cases reported
        exact iff_of_true rfl matching
      · rename_i differs
        have notOk : report.result ≠ .ok := by
          split at rest
          · obtain ⟨ready, _, _, rest⟩ := returns_bind.mp rest
            cases ready <;> obtain ⟨reported, _⟩ := returns_pure.mp rest <;>
              cases reported <;> exact nofun
          · obtain ⟨reported, _⟩ := returns_pure.mp rest
            cases reported
            exact nofun
        exact iff_of_false notOk differs

theorem quiet_readChunks {n : ℕ} : Quiet (readChunks env n) := by
  induction n with
  | zero => exact leads_pure
  | succ n ih =>
    apply leads_bind quiet_attempt
    intro ok
    split
    · exact ih
    · exact leads_pure

theorem quiet_hashWhole : Quiet (hashWhole env content) := by
  apply leads_bind quiet_attempt
  intro created
  split
  · apply leads_bind quiet_readChunks
    intro read
    split
    · exact quiet_attempt
    · exact leads_pure
  · exact leads_pure

theorem quiet_rewind : Quiet (rewind env) := by
  apply leads_bind quiet_attempt
  intro ok
  split
  · exact quiet_attempt
  · exact leads_pure

theorem quiet_par2VerifyFile {path : String} : Quiet (par2VerifyFile env set pf path) := by
  apply leads_bind quiet_fopen
  intro opened
  cases opened with
  | none => exact leads_pure
  | some content =>
    apply leads_bind quiet_hashWhole
    intro hashed
    cases hashed with
    | false => exact leads_pure
    | true =>
      rw [if_pos rfl]
      split
      · exact leads_pure
      split
      · apply leads_bind quiet_rewind
        intro ready
        split <;> exact leads_pure
      · exact leads_pure

end Verify

section Agreement

variable {env : Env} {set : Par2Set} {files : List RepairFile} {original : String → Bytes}
  {sliceBody : Par2Slice → Bytes} {w scanned w' w'' : World} {resolved : List (Par2File × String)}
  {present : ℕ → Bool} {file : RepairFile}

theorem byteAt_of_unmarked (genuine : Genuine set files original sliceBody)
    (accepts : Accepts env set original sliceBody)
    (scan : Returns (findDamage env set files) w (resolved, present) scanned)
    (inSet : pf ∈ recoveryFiles set) (inFiles : file ∈ files) (name : file.name = pf.name)
    (unmarked : ∀ g, pf.Owns g → present g = true) {i : ℕ} (inside : (i : ℤ) < pf.length) :
    byteAt (w.content file.path) i = byteAt (original pf.name) i := by
  obtain ⟨paths, intact⟩ := findDamage_spec accepts scan
  obtain ⟨g, j, owns, inBlock, rfl⟩ := genuine.exists_block inSet inside
  obtain ⟨entry, member, owns', block⟩ := intact g (unmarked g owns)
  obtain ⟨inSet', other, inFiles', name', path⟩ := paths.mem member
  have samePf : entry.1 = pf := genuine.owner_unique inSet' inSet owns' owns
  have sameFile : other = file :=
    List.inj_on_of_nodup_map genuine.names inFiles' inFiles (by rw [name, name', samePf])
  have bytes := block j inBlock
  rwa [samePf, ← path, sameFile] at bytes

theorem content_eq_original_iff (genuine : Genuine set files original sliceBody)
    (inSet : pf ∈ recoveryFiles set)
    (agrees : ∀ i : ℕ, (i : ℤ) < pf.length → byteAt content i = byteAt (original pf.name) i) :
    content = original pf.name ↔ (content.length : ℤ) = pf.length := by
  have lengthEq := genuine.length_eq pf inSet
  constructor
  · rintro rfl
    exact lengthEq.symm
  · intro declared
    apply eq_of_byteAt (by omega)
    intro i inside
    exact agrees i (by omega)

theorem Ready.ofMissing {plan : Plan}
    (ready : Ready set files original sliceBody resolved present plan w) :
    plan.OfMissing set present := by
  intro g member
  rw [ready.planned.missingIndex] at member
  simpa using member

theorem Ready.untouched {plan : Plan} {write : Write}
    (ready : Ready set files original sliceBody resolved present plan w)
    (member : (pf, file.path) ∈ resolved) (unmarked : ∀ g, pf.Owns g → present g = true)
    (missing : InMissing set resolved present write) : file.path ≠ write.path := by
  obtain ⟨entry, inResolved, g, _, owns, bad, atPath, _⟩ := missing
  intro samePath
  have same := ready.entry_eq member inResolved (.inr (samePath.trans atPath))
  rw [unmarked g (by cases same; exact owns)] at bad
  contradiction

/-- If the scan marks no block of a file bad and the repair returns `0`, the file
verifies exactly when it already had its declared length, or the repair had a
block elsewhere to reconstruct and its closing `stat` and `truncate` of this file
worked. -/
theorem verify_after_repair_iff (genuine : Genuine set files original sliceBody)
    (accepts : Accepts env set original sliceBody)
    (hashes : ∀ pf ∈ recoveryFiles set, env.md5 (original pf.name) = pf.hashFull)
    (scan : Returns (findDamage env set files) w (resolved, present) scanned)
    (inSet : pf ∈ recoveryFiles set) (inFiles : file ∈ files) (name : file.name = pf.name)
    (unmarked : ∀ g, pf.Owns g → present g = true)
    (repaired : Returns (par2RepairSet env set files) w () w') {report : VerifyReport}
    (verified : Returns (par2VerifyFile env set pf file.path) w' (some report) w'') :
    report.result = .ok ↔
      ((w.content file.path).length : ℤ) = pf.length ∨
        ((∃ g < set.sourceBlockCount.toNat, present g = false) ∧
          env.statFails file.path = false ∧ env.truncateFails file.path = false) := by
  obtain ⟨content, found, reported⟩ := par2VerifyFile_spec verified
  have matching : env.md5 content = pf.hashFull ↔ content = original pf.name :=
    ⟨accepts.file pf inSet content, fun same => by rw [same, hashes pf inSet]⟩
  have agrees (i : ℕ) := @byteAt_of_unmarked _ _ _ _ _ _ _ _ _ _ _ genuine accepts scan inSet
    inFiles name unmarked i
  -- A file that the repair did not change is judged by its length.
  have unchanged (same : w'.disk file.path = w.disk file.path) :
      content = original pf.name ↔ ((w.content file.path).length : ℤ) = pf.length := by
    have before : w.content file.path = content := World.content_eq (same.symm.trans found)
    rw [before] at agrees ⊢
    exact content_eq_original_iff genuine inSet agrees
  rw [reported, matching]
  rcases par2RepairSet_cases genuine accepts scan repaired with
    ⟨nothing, same⟩ | ⟨plan, t, t', missing, start, ready, reconstructed, truncated⟩
  · rw [unchanged (by rw [same])]
    constructor
    · exact .inl
    · rintro (declared | ⟨⟨g, bound, missing⟩, _⟩)
      · exact declared
      · rw [nothing g bound] at missing
        contradiction
  · have member := ready.paths.entry_mem genuine inSet inFiles name
    by_cases stuck : env.statFails file.path = true ∨ env.truncateFails file.path = true
    · have kept : w'.disk file.path = w.disk file.path := by
        have closing : Keeps (fun w => w.disk file.path) (resolved.forM (truncateFile env)) :=
          leads_forM fun _ _ => keeps_truncateFile fun _ => stuck
        have rebuilt := (leads_reconstruct genuine.blockSize_pos ready.ofMissing).returns
          reconstructed
        rw [closing.eq truncated, rebuilt.disk_eq fun _ => ready.untouched member unmarked, start]
      rw [unchanged kept]
      constructor
      · exact .inl
      · rintro (declared | ⟨_, statOk, truncateOk⟩)
        · exact declared
        · simp [statOk, truncateOk] at stuck
    · rw [not_or, Bool.not_eq_true, Bool.not_eq_true] at stuck
      obtain ⟨final, atEnd, _, restored⟩ :=
        ready.truncation_spec (ready.reconstruct_spec reconstructed) truncated member
      rw [atEnd, Option.some.injEq] at found
      exact iff_of_true (found.symm.trans (restored stuck.1 stuck.2)) (.inr ⟨missing, stuck⟩)

end Agreement

/-! ## A file that ends in a zero byte

One file of four bytes and one block, without recovery slices.  The digests are
those MD5 has for the byte strings of this run. -/

def tailOriginal : Bytes := [1, 2, 3, 0]

def tailDigest : Digest := 0x4a3b0dbd82423efb338604e773a11e04

def tailEnv : Env :=
  withoutFailure fun data =>
    if data = tailOriginal then tailDigest
    else if data = [1, 2, 3] then 0x5289df737df57326fcdd22597afb1fac
    else 0

def tailSet : Par2Set :=
  oneBlockSet tailDigest 0xb1513fd4 []

def tailFile : Par2File :=
  ⟨"a", tailDigest, 4, some [tailDigest], [0xb1513fd4], 1, true, 0⟩

def tailWorld (content : Bytes) : World where
  disk path := if path = "/t/a" then some content else none
  clock := 0

theorem tail_genuine :
    Genuine tailSet [⟨"a", "/t/a"⟩] (fun _ => tailOriginal) (zeroExponentBody tailOriginal) :=
  oneBlock_genuine rfl (by decide) (by decide) nofun

theorem tail_accepts :
    Accepts tailEnv tailSet (fun _ => tailOriginal) (zeroExponentBody tailOriginal) := by
  refine oneBlock_accepts rfl (fun data hashed => ?_) nofun
  simp only [tailEnv, withoutFailure] at hashed
  split_ifs at hashed with original
  · exact original
  · exact absurd hashed (by decide)
  · exact absurd hashed (by decide)

theorem tail_runs (content : Bytes) (listed : content ∈ [tailOriginal, [1, 2, 3]]) :
    ∃ resolved present scanned w',
      Returns (findDamage tailEnv tailSet [⟨"a", "/t/a"⟩]) (tailWorld content) (resolved, present)
        scanned ∧ (∀ g, tailFile.Owns g → present g = true) ∧
      Returns (par2RepairSet tailEnv tailSet [⟨"a", "/t/a"⟩]) (tailWorld content) () w' ∧
        endsWith (par2VerifyFile tailEnv tailSet tailFile "/t/a") w' (fun report _ =>
          report.any fun report => report.badBlocks = 0 ∧
            report.result = if content = tailOriginal then .ok else .damaged) = true := by
  have scan : endsWith (findDamage tailEnv tailSet [⟨"a", "/t/a"⟩]) (tailWorld content)
      (fun found _ => found.2 0) = true := by
    revert content
    decide +kernel
  have repair : endsWith (par2RepairSet tailEnv tailSet [⟨"a", "/t/a"⟩]) (tailWorld content)
      (fun _ w' => endsWith (par2VerifyFile tailEnv tailSet tailFile "/t/a") w' (fun report _ =>
          report.any fun report => report.badBlocks = 0 ∧
            report.result = if content = tailOriginal then .ok else .damaged)) = true := by
    clear scan
    revert content
    decide +kernel
  obtain ⟨⟨resolved, present⟩, scanned, found, good⟩ := exists_returns_of_endsWith scan
  obtain ⟨_, w', repaired, verified⟩ := exists_returns_of_endsWith repair
  refine ⟨resolved, present, scanned, w', found, fun g owns => ?_, repaired, verified⟩
  obtain rfl : g = 0 := by
    simp only [Par2File.Owns, tailFile] at owns
    omega
  exact good

/-- Without its last byte the file has only good blocks.  The repair returns `0`,
and the verification that follows reports damage in none of its blocks. -/
theorem verify_fails_without_bad_block :
    Genuine tailSet [⟨"a", "/t/a"⟩] (fun _ => tailOriginal) (zeroExponentBody tailOriginal) ∧
      Accepts tailEnv tailSet (fun _ => tailOriginal) (zeroExponentBody tailOriginal) ∧
      ∃ resolved present scanned w' report w'',
        Returns (findDamage tailEnv tailSet [⟨"a", "/t/a"⟩]) (tailWorld [1, 2, 3])
          (resolved, present) scanned ∧
        (∀ g, tailFile.Owns g → present g = true) ∧
        Returns (par2RepairSet tailEnv tailSet [⟨"a", "/t/a"⟩]) (tailWorld [1, 2, 3]) () w' ∧
        Returns (par2VerifyFile tailEnv tailSet tailFile "/t/a") w' (some report) w'' ∧
        report.result = .damaged ∧ report.badBlocks = 0 := by
  refine ⟨tail_genuine, tail_accepts, ?_⟩
  obtain ⟨resolved, present, scanned, w', scan, unmarked, repaired, verified⟩ :=
    tail_runs [1, 2, 3] (by decide)
  obtain ⟨returned, w'', verified, facts⟩ := exists_returns_of_endsWith verified
  obtain ⟨report, rfl, facts⟩ := (Option.any_eq_true _ _).mp facts
  obtain ⟨bad, result⟩ := of_decide_eq_true facts
  exact ⟨resolved, present, scanned, w', report, w'', scan, unmarked, repaired, verified,
    by simpa [tailOriginal] using result, bad⟩

theorem verify_after_repair_whole : ∃ w' report w'',
    Returns (par2RepairSet tailEnv tailSet [⟨"a", "/t/a"⟩]) (tailWorld tailOriginal) () w' ∧
      Returns (par2VerifyFile tailEnv tailSet tailFile "/t/a") w' (some report) w'' ∧
      report.result = .ok := by
  obtain ⟨resolved, present, scanned, w', scan, unmarked, repaired, verified⟩ :=
    tail_runs tailOriginal (by decide)
  obtain ⟨returned, w'', verified, facts⟩ := exists_returns_of_endsWith verified
  obtain ⟨report, rfl, _⟩ := (Option.any_eq_true _ _).mp facts
  have hashes : ∀ pf ∈ recoveryFiles tailSet, tailEnv.md5 tailOriginal = pf.hashFull := by decide
  have iff := verify_after_repair_iff tail_genuine tail_accepts hashes scan
    (List.mem_singleton_self tailFile) (List.mem_singleton_self _) rfl unmarked repaired verified
  exact ⟨w', report, w'', repaired, verified, iff.mpr (.inl (by decide))⟩

end NzbDownloader.Par2
