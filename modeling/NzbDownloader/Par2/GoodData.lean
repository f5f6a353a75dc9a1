import NzbDownloader.Par2.RepairCorrect

/-!
# What a repair does to good data

Whether it succeeds, fails or is aborted, a repair has written inside blocks that it found
missing only, and below the declared length of their file.
-/

namespace NzbDownloader.Par2

open Lib Lib.Effect List Function

variable {env : Env} {set : Par2Set} {files : List RepairFile}
  {resolved : List (Par2File × String)} {present : ℕ → Bool} {plan : Plan} {w w' : World}

structure Write where
  path : String
  off : ℕ
  data : Bytes

def Write.apply (disk : String → Option Bytes) (write : Write) : String → Option Bytes :=
  update disk write.path
    (some (writeAt ((disk write.path).getD []) write.off write.data))

def Write.Covers (write : Write) (path : String) (i : ℕ) : Prop :=
  write.path = path ∧ write.off ≤ i ∧ i < write.off + write.data.length

def Written (allowed : Write → Prop) (w w' : World) : Prop :=
  ∃ writes : List Write, (∀ write ∈ writes, allowed write) ∧
    w'.disk = writes.foldl Write.apply w.disk

instance (allowed : Write → Prop) : Std.Refl (Written allowed) :=
  ⟨fun _ => ⟨[], by simp, rfl⟩⟩

instance (allowed : Write → Prop) : IsTrans World (Written allowed) := by
  constructor
  rintro a b c ⟨first, firstAllowed, firstDisk⟩ ⟨second, secondAllowed, secondDisk⟩
  refine ⟨first ++ second, ?_, ?_⟩
  · intro write member
    rcases List.mem_append.mp member with early | late
    · exact firstAllowed write early
    · exact secondAllowed write late
  · rw [secondDisk, firstDisk, List.foldl_append]

variable {allowed : Write → Prop} {path : String} {entry : Par2File × String}

theorem written_of_eq (same : w'.disk = w.disk) : Written allowed w w' :=
  ⟨[], by simp, same⟩

theorem Quiet.written {α : Type} {program : RepairM α} (quiet : Quiet program) :
    Leads (Written allowed) program :=
  quiet.mono fun _ _ same => written_of_eq same

theorem byteAt_apply {disk : String → Option Bytes} {write : Write} {i : ℕ}
    (clear : ¬write.Covers path i) :
    byteAt ((write.apply disk path).getD []) i = byteAt ((disk path).getD []) i := by
  unfold Write.apply
  by_cases same : path = write.path
  · subst same
    rw [update_self, Option.getD_some, byteAt_writeAt, if_neg]
    exact fun inside => clear ⟨rfl, inside⟩
  · rw [update_of_ne same]

theorem Written.induction {P : (String → Option Bytes) → Prop} (written : Written allowed w w')
    (start : P w.disk) (step : ∀ disk write, allowed write → P disk → P (write.apply disk)) :
    P w'.disk := by
  obtain ⟨writes, each, result⟩ := written
  rw [result]
  clear result
  generalize w.disk = disk at *
  induction writes generalizing disk with
  | nil => exact start
  | cons write rest ih =>
    exact ih (fun other member => each other (.tail _ member)) _
      (step disk write (each write (.head _)) start)

theorem Written.byteAt_eq {i : ℕ} (written : Written allowed w w')
    (clear : ∀ write, allowed write → ¬write.Covers path i) :
    byteAt (w'.content path) i = byteAt (w.content path) i :=
  written.induction (P := fun disk => byteAt ((disk path).getD []) i = byteAt (w.content path) i)
    rfl fun _ write ok before => (byteAt_apply (clear write ok)).trans before

theorem Written.disk_eq (written : Written allowed w w')
    (apart : ∀ write, allowed write → path ≠ write.path) : w'.disk path = w.disk path :=
  written.induction (P := fun disk => disk path = w.disk path) rfl
    fun _ write ok before => (update_of_ne (apart write ok) _ _).trans before

theorem leads_pwriteExactly {off : ℕ} {data : Bytes} {message : String}
    (each : ∀ k, allowed ⟨path, off, data.take k⟩) :
    Leads (Written allowed) (pwriteExactly env path off data message) := by
  have stores : ∀ k, Leads (Written allowed)
      (modify fun w => w.store path off (data.take k) : RepairM PUnit) :=
    fun k w => ⟨[⟨path, off, data.take k⟩], by simpa using each k, rfl⟩
  apply leads_bind quiet_require.written
  intro _
  refine leads_bind (R := Written allowed) leads_get fun _ => ?_
  apply leads_bind quiet_attempt.written
  intro ok
  split
  · have whole := stores data.length
    rwa [take_length] at whole
  · exact leads_bind (stores _) fun _ => leads_throw

/-- The write lies inside a block found missing, and below the declared length of
the file that the block belongs to. -/
def InMissing (set : Par2Set) (resolved : List (Par2File × String)) (present : ℕ → Bool)
    (write : Write) : Prop :=
  ∃ entry ∈ resolved, ∃ g < set.sourceBlockCount.toNat, entry.1.Owns g ∧ present g = false ∧
    write.path = entry.2 ∧ blockOffset set entry.1 g 0 ≤ write.off ∧
    write.off + write.data.length ≤ blockOffset set entry.1 g set.blockSize.toNat ∧
    ((write.off + write.data.length : ℕ) : ℤ) ≤ entry.1.length

def Plan.OfMissing (plan : Plan) (set : Par2Set) (present : ℕ → Bool) : Prop :=
  ∀ g ∈ plan.missingIndex, g < set.sourceBlockCount.toNat ∧ present g = false

theorem planRepair_ofMissing (returns : Returns (planRepair env set present) w (some plan) w') :
    plan.OfMissing set present := by
  rcases planRepair_cases returns with ⟨impossible, _⟩ | ⟨_, equal, _, _, missingIndex, _⟩
  · contradiction
  cases equal
  intro g member
  rw [missingIndex] at member
  simpa using member

theorem llClamp_le {value hi : ℤ} (positive : 0 < llClamp value 0 hi) :
    llClamp value 0 hi ≤ value ∧ llClamp value 0 hi ≤ hi := by
  unfold llClamp at *
  split at positive
  · omega
  · split <;> omega

section

variable (sized : 0 < set.blockSize) (missing : plan.OfMissing set present)

include sized missing

theorem leads_writeRow {chunkOff len row : ℕ} (bound : row < plan.missingIndex.length)
    (inside : len ≤ set.blockSize.toNat - chunkOff) {outbufs : ℕ → Bytes} :
    Leads (Written (InMissing set resolved present))
      (writeRow env set resolved plan chunkOff len outbufs row) := by
  have member : plan.missingIndex.getD row 0 ∈ plan.missingIndex := by
    rw [getD_eq_getElem _ _ bound]
    exact getElem_mem bound
  obtain ⟨below, bad⟩ := missing _ member
  unfold writeRow
  dsimp only
  split
  · exact leads_throw
  rename_i pf path base located
  obtain ⟨found, owns, rfl⟩ := locateBlock_spec sized located
  split
  · exact leads_pure
  rename_i positive
  obtain ⟨belowLength, belowLen⟩ := llClamp_le (not_le.mp positive)
  generalize llClamp _ 0 (len : ℤ) = writeLen at *
  apply leads_pwriteExactly
  intro k
  have stored : (((outbufs row).take writeLen.toNat).take k).length ≤ writeLen.toNat := by
    rw [length_take, length_take]
    omega
  refine ⟨(pf, path), found, _, below, owns, bad, rfl, ?_, ?_, ?_⟩
  · unfold blockOffset
    dsimp only
    omega
  · unfold blockOffset
    dsimp only
    omega
  · dsimp only
    omega

theorem leads_repairChunk {chunksize chunkOff : ℕ} :
    Leads (Written (InMissing set resolved present))
      (repairChunk env set resolved plan chunksize chunkOff) := by
  apply leads_bind (leads_foldlM fun _ _ => quiet_addColumn.written)
  intro outbufs
  apply leads_forM
  intro row member
  apply leads_writeRow sized missing (mem_range.mp member)
  split <;> omega

theorem leads_reconstruct :
    Leads (Written (InMissing set resolved present)) (reconstruct env set resolved plan) := by
  apply leads_bind quiet_allocate.written
  intro _
  apply leads_bind quiet_allocate.written
  intro _
  apply leads_bind (leads_forM fun _ _ => quiet_allocate.written)
  intro _
  exact leads_forM fun _ _ => leads_repairChunk sized missing

end

def Beyond (resolved : List (Par2File × String)) (path : String) (i : ℕ) : Prop :=
  ∃ entry ∈ resolved, entry.2 = path ∧ entry.1.length ≤ i

def Cut (resolved : List (Par2File × String)) (w w' : World) : Prop :=
  ∀ path i, byteAt (w'.content path) i = byteAt (w.content path) i ∨
    Beyond resolved path i ∧ byteAt (w'.content path) i = 0

instance (resolved : List (Par2File × String)) : Std.Refl (Cut resolved) :=
  ⟨fun _ _ _ => .inl rfl⟩

instance (resolved : List (Par2File × String)) : IsTrans World (Cut resolved) := by
  constructor
  intro a b c first second path i
  rcases second path i with same | lost
  · rw [same]
    exact first path i
  · exact .inr lost

theorem byteAt_setLength_of_le (content : Bytes) {n i : ℕ} (beyond : n ≤ i) :
    byteAt (setLength content n) i = 0 := by
  rw [byteAt, getD_eq_default _ _ (by rwa [length_setLength])]

theorem cut_truncateFile (member : entry ∈ resolved) :
    Leads (Cut resolved) (truncateFile env entry) := by
  obtain ⟨pf, own⟩ := entry
  apply leads_modify
  intro w path i
  dsimp only
  split
  · rename_i content found
    split
    · exact .inl rfl
    split
    · exact .inl rfl
    · rename_i allowed
      by_cases same : path = own
      · subst same
        have before : w.content path = content := World.content_eq found
        simp only [World.content, update_self, Option.getD_some] at before ⊢
        rw [before]
        rcases lt_or_ge i pf.length.toNat with inside | beyond
        · exact .inl (byteAt_setLength content inside)
        · have far : pf.length ≤ i := by omega
          exact .inr ⟨⟨(pf, path), member, rfl, far⟩, byteAt_setLength_of_le content beyond⟩
      · left
        simp only [World.content, update_of_ne same]
  · exact .inl rfl

theorem keeps_truncateFile
    (stuck : path = entry.2 → env.statFails path ∨ env.truncateFails path) :
    Keeps (fun w => w.disk path) (truncateFile env entry) := by
  apply leads_modify
  intro w
  dsimp only
  split
  · split
    · rfl
    · split
      · rfl
      · have other : path ≠ entry.2 := by
          rintro rfl
          simp_all
        exact update_of_ne other _ _
  · rfl

theorem returns_truncateFile (entry : Par2File × String) (w : World) :
    ∃ w', Returns (truncateFile env entry) w () w' :=
  ⟨_, rfl⟩

theorem returns_forM_truncateFile (entries : List (Par2File × String)) (w : World) :
    ∃ w', Returns (entries.forM (truncateFile env)) w () w' := by
  induction entries generalizing w with
  | nil => exact ⟨w, rfl⟩
  | cons entry rest ih =>
    obtain ⟨t, here⟩ := @returns_truncateFile env entry w
    obtain ⟨w', later⟩ := ih t
    exact ⟨w', returns_bind.mpr ⟨(), t, here, later⟩⟩

def Apart (files : List RepairFile) (a b : Par2File) : Prop :=
  ∀ path, pathOf files a = some path → pathOf files b ≠ some path

instance : Std.Symm (Apart files) :=
  ⟨fun _ _ apart path atB atA => apart path atA atB⟩

def DistinctPaths (set : Par2Set) (files : List RepairFile) : Prop :=
  (recoveryFiles set).Pairwise (Apart files)

theorem DistinctPaths.entry_eq (distinct : DistinctPaths set files)
    (paths : LookedUp set files resolved)
    {a b : Par2File × String} (memberA : a ∈ resolved) (memberB : b ∈ resolved)
    (same : a.2 = b.2) : a = b := by
  have found : ∀ entry ∈ resolved, pathOf files entry.1 = some entry.2 := by
    clear distinct memberA memberB
    unfold LookedUp at paths
    generalize recoveryFiles set = recovery at paths
    induction paths with
    | nil => simp
    | cons here _ ih =>
      intro entry member
      rcases mem_cons.mp member with rfl | later
      · rw [here.1, here.2]
      · exact ih entry later
  have resolvedPaths := paths.resolved
  by_cases samePf : a.1 = b.1
  · exact Prod.ext samePf same
  · have apart : Apart files a.1 b.1 := List.Pairwise.forall distinct
      (resolvedPaths.mem memberA).1 (resolvedPaths.mem memberB).1 samePf
    exact absurd (by rw [found b memberB, same]) (apart a.2 (found a memberA))

theorem InMissing.not_covers (distinct : DistinctPaths set files)
    (paths : LookedUp set files resolved) (member : entry ∈ resolved) {g j : ℕ}
    (owns : entry.1.Owns g) (good : present g) (inside : j < set.blockSize.toNat)
    {write : Write} (missing : InMissing set resolved present write) :
    ¬write.Covers entry.2 (blockOffset set entry.1 g j) := by
  obtain ⟨other, otherMember, g', _, otherOwns, bad, path, low, high, _⟩ := missing
  rintro ⟨samePath, atLeast, below⟩
  obtain rfl := distinct.entry_eq paths otherMember member (path.symm.trans samePath)
  have different : other.1.localIndex g' ≠ other.1.localIndex g := by
    intro same
    unfold Par2File.localIndex at same
    unfold Par2File.Owns at owns otherOwns
    have equal : g' = g := by omega
    rw [equal, good] at bad
    contradiction
  unfold blockOffset at low high atLeast below
  have quotient : ∀ {q r : ℕ}, r < set.blockSize.toNat → (q * set.blockSize.toNat + r) /
      set.blockSize.toNat = q := by
    intro q r small
    rw [Nat.add_comm, Nat.add_mul_div_right _ _ (by omega), Nat.div_eq_of_lt small, Nat.zero_add]
  obtain ⟨r, position⟩ := Nat.exists_eq_add_of_le (low.trans atLeast)
  have small : r < set.blockSize.toNat := by omega
  apply different
  rw [← quotient (q := other.1.localIndex g') small, ← quotient (q := other.1.localIndex g) inside,
    position, Nat.add_zero]

theorem written_of_returns {t : World}
    (found : Returns (findDamage env set files) w (resolved, present) t)
    (returns : Returns (par2RepairSet env set files) w () w') :
    ∃ (mid : World) (closing : List (Par2File × String)),
      Written (InMissing set resolved present) w mid ∧ (∀ entry ∈ closing, entry ∈ resolved) ∧
        Returns (closing.forM (truncateFile env)) mid () w' := by
  have sized := (findDamage_cases found).1
  obtain ⟨_, _, again, rest⟩ := returns_bind.mp returns
  obtain ⟨rfl, rfl⟩ := found.unique again
  obtain ⟨outcome, t', planned, last⟩ := returns_bind.mp rest
  have before : t'.disk = w.disk :=
    (quiet_planRepair.keeps planned).trans (quiet_findDamage.keeps found)
  cases outcome with
  | none => exact ⟨t', [], written_of_eq before, nofun, last⟩
  | some plan =>
    obtain ⟨_, mid, reconstructed, closed⟩ := returns_bind.mp last
    have rebuilt := (leads_reconstruct sized (planRepair_ofMissing planned)).returns reconstructed
    exact ⟨mid, resolved, IsTrans.trans w t' mid (written_of_eq before) rebuilt,
      fun _ member => member, closed⟩

theorem disk_of_par2RepairSet (returns : Returns (par2RepairSet env set files) w () w')
    (other : ∀ file ∈ files, ∀ pf ∈ recoveryFiles set, file.name = pf.name → path ≠ file.path) :
    w'.disk path = w.disk path := by
  obtain ⟨⟨resolved, present⟩, t, found, rest⟩ := returns_bind.mp returns
  have paths := (findDamage_cases found).2.2.1.resolved
  have elsewhere : ∀ entry ∈ resolved, path ≠ entry.2 := by
    intro entry member
    obtain ⟨inSet, file, inFiles, name, atPath⟩ := paths.mem member
    rw [← atPath]
    exact other file inFiles entry.1 inSet name
  obtain ⟨mid, closing, written, known, closed⟩ := written_of_returns found returns
  have kept : Keeps (fun w => w.disk path) (closing.forM (truncateFile env)) :=
    leads_forM fun entry member =>
      keeps_truncateFile fun same => absurd same (elsewhere entry (known entry member))
  refine (kept.eq closed).trans (written.disk_eq ?_)
  rintro write ⟨entry, member, _, _, _, _, atPath, _⟩
  rw [atPath]
  exact elsewhere entry member

theorem written_of_fails {t : World} {e : String}
    (found : Returns (findDamage env set files) w (resolved, present) t)
    (fails : Fails (par2RepairSet env set files) w e w') :
    Written (InMissing set resolved present) w w' := by
  have sized := (findDamage_cases found).1
  have scanned : t.disk = w.disk := quiet_findDamage.keeps found
  rcases fails_bind.mp fails with unscanned | ⟨_, _, again, rest⟩
  · exact absurd unscanned found.not_fails
  obtain ⟨rfl, rfl⟩ := found.unique again
  rcases fails_bind.mp rest with unplanned | ⟨outcome, t', planned, last⟩
  · apply written_of_eq
    rw [← unplanned.final_eq, ← scanned]
    exact quiet_planRepair t
  · have before : t'.disk = w.disk := (quiet_planRepair.keeps planned).trans scanned
    cases outcome with
    | none => exact absurd last fails_pure
    | some plan =>
      rcases fails_bind.mp last with unfinished | ⟨_, mid, _, unclosed⟩
      · apply IsTrans.trans w t' w' (written_of_eq before)
        rw [← unfinished.final_eq]
        exact leads_reconstruct sized (planRepair_ofMissing planned) t'
      · obtain ⟨_, closed⟩ := @returns_forM_truncateFile env resolved mid
        exact absurd unclosed closed.not_fails

theorem Written.present_kept {mid : World} (distinct : DistinctPaths set files)
    (paths : LookedUp set files resolved) (written : Written (InMissing set resolved present) w mid)
    (member : entry ∈ resolved) {g j : ℕ} (owns : entry.1.Owns g) (good : present g)
    (inside : j < set.blockSize.toNat) :
    byteAt (mid.content entry.2) (blockOffset set entry.1 g j) =
      byteAt (w.content entry.2) (blockOffset set entry.1 g j) :=
  written.byteAt_eq fun _ missing => missing.not_covers distinct paths member owns good inside

/-- Whether a repair succeeds, fails or is aborted, it has written inside missing
blocks and below the declared lengths only, and every block it found present has
its bytes, but for those beyond the declared length of the file, which a
successful repair may have cut off. -/
theorem repair_spares_present (distinct : DistinctPaths set files) :
    (∀ e t, Fails (findDamage env set files) w e t →
      (final (par2RepairSet env set files) w).disk = w.disk) ∧
    ∀ resolved present t, Returns (findDamage env set files) w (resolved, present) t →
      (∀ e w', Fails (par2RepairSet env set files) w e w' →
        Written (InMissing set resolved present) w w' ∧
        ∀ entry ∈ resolved, ∀ g, entry.1.Owns g → present g = true → ∀ j < set.blockSize.toNat,
          byteAt (w'.content entry.2) (blockOffset set entry.1 g j) =
            byteAt (w.content entry.2) (blockOffset set entry.1 g j)) ∧
      ∀ w', Returns (par2RepairSet env set files) w () w' →
        (∃ mid, Written (InMissing set resolved present) w mid ∧ Cut resolved mid w') ∧
        ∀ entry ∈ resolved, ∀ g, entry.1.Owns g → present g = true → ∀ j < set.blockSize.toNat,
          byteAt (w'.content entry.2) (blockOffset set entry.1 g j) =
              byteAt (w.content entry.2) (blockOffset set entry.1 g j) ∨
            entry.1.length ≤ blockOffset set entry.1 g j ∧
              byteAt (w'.content entry.2) (blockOffset set entry.1 g j) = 0 := by
  refine ⟨?_, ?_⟩
  · intro e t fails
    have ends : final (par2RepairSet env set files) w = t := fails.final_bind
    rw [ends, ← fails.final_eq]
    exact quiet_findDamage w
  · intro resolved present t found
    have paths := (findDamage_cases found).2.2.1
    refine ⟨?_, ?_⟩
    · intro e w' fails
      have written := written_of_fails found fails
      exact ⟨written, fun entry member g owns good j inside =>
        written.present_kept distinct paths member owns good inside⟩
    · intro w' returns
      obtain ⟨mid, closing, written, known, closed⟩ := written_of_returns found returns
      have cut : Cut resolved mid w' := Leads.returns
        (leads_forM fun entry member => cut_truncateFile (known entry member)) closed
      refine ⟨⟨mid, written, cut⟩, fun entry member g owns good j inside => ?_⟩
      have kept := written.present_kept distinct paths member owns good inside
      rcases cut entry.2 (blockOffset set entry.1 g j) with same | ⟨beyond, lost⟩
      · exact .inl (same.trans kept)
      · obtain ⟨other, otherMember, samePath, far⟩ := beyond
        obtain rfl := distinct.entry_eq paths otherMember member samePath
        exact .inr ⟨far, lost⟩

/-! ## A block with bytes beyond the declared length

Two files of one block each.  The checksums of the first vouch for four bytes, but
its declared length is two; the second is lost.  The digests are those MD5 has for
the byte strings of this run. -/

def surplusBlockDigest : Digest := 0x2202e9f824fe793c83c21d95e6dcd6c9

def surplusEnv : Env :=
  withoutFailure fun data =>
    if data = [0, 0, 1, 1] then surplusBlockDigest else (overlongEnv false).md5 data

def surplusFirst : Par2File :=
  ⟨"a", surplusBlockDigest, 2, some [surplusBlockDigest], [0x4F58DECB], 1, true, 0⟩

def surplusSecond : Par2File :=
  ⟨"b", overlongBlockDigest, 4, some [overlongBlockDigest], [0x2144DF1C], 1, true, 1⟩

def surplusSet : Par2Set where
  blockSize := 4
  files := [surplusFirst, surplusSecond]
  slices := overlongSet.slices
  sourceBlockCount := 2

def surplusFiles : List RepairFile :=
  [⟨"a", "/t/a"⟩, ⟨"b", "/t/b"⟩]

def surplusWorld : World where
  disk path :=
    if path = "/t/a" then some [0, 0, 1, 1]
    else if path = "/t/v.par2" then some (List.replicate 72 0)
    else none
  clock := 0

theorem surplus_distinct : DistinctPaths surplusSet surplusFiles := by
  refine pairwise_pair.mpr fun path atA atB => ?_
  have different : pathOf surplusFiles surplusFirst ≠ pathOf surplusFiles surplusSecond := by decide
  exact different (atA.trans atB.symm)

theorem surplus_scan : ∃ resolved present t,
    Returns (findDamage surplusEnv surplusSet surplusFiles) surplusWorld (resolved, present) t ∧
      (surplusFirst, "/t/a") ∈ resolved ∧ present 0 = true := by
  have passed : endsWith (findDamage surplusEnv surplusSet surplusFiles) surplusWorld
      (fun found _ => found.2 0) = true := by
    decide +kernel
  obtain ⟨⟨resolved, present⟩, t, returns, good⟩ := exists_returns_of_endsWith passed
  refine ⟨resolved, present, t, returns, ?_, good⟩
  obtain ⟨_, _, paths, _⟩ := findDamage_cases returns
  obtain ⟨first, rest, ⟨same, atPath⟩, _, rfl⟩ := forall₂_cons_left_iff.mp paths
  have path : first.2 = "/t/a" :=
    Option.some.inj (atPath.symm.trans (by decide : pathOf surplusFiles surplusFirst = _))
  exact mem_cons.mpr (.inl (Prod.ext same.symm path.symm))

theorem surplus_bytes_cut :
    Consecutive 0 (recoveryFiles surplusSet) surplusSet.sourceBlockCount ∧
      DistinctPaths surplusSet surplusFiles ∧
      ∃ resolved present t w',
        Returns (findDamage surplusEnv surplusSet surplusFiles) surplusWorld
          (resolved, present) t ∧
        Returns (par2RepairSet surplusEnv surplusSet surplusFiles) surplusWorld () w' ∧
        ∃ entry ∈ resolved, entry.1.Owns 0 ∧ present 0 = true ∧
          byteAt (w'.content entry.2) (blockOffset surplusSet entry.1 0 2) ≠
            byteAt (surplusWorld.content entry.2) (blockOffset surplusSet entry.1 0 2) := by
  refine ⟨⟨rfl, rfl, rfl⟩, surplus_distinct, ?_⟩
  obtain ⟨resolved, present, t, scan, member, good⟩ := surplus_scan
  have passed : endsWith (par2RepairSet surplusEnv surplusSet surplusFiles) surplusWorld
      (fun _ w' => byteAt (w'.content "/t/a") 2 = 0) = true := by
    decide +kernel
  obtain ⟨_, w', returns, lost⟩ := exists_returns_of_endsWith passed
  refine ⟨resolved, present, t, w', scan, returns, _, member, by decide, good, ?_⟩
  have gone : byteAt (w'.content "/t/a") 2 = 0 := of_decide_eq_true lost
  change byteAt (w'.content "/t/a") 2 ≠ byteAt [0, 0, 1, 1] 2
  rw [gone]
  decide

theorem repair_spares_present_surplus :
    DistinctPaths surplusSet surplusFiles ∧ ∃ w',
      Returns (par2RepairSet surplusEnv surplusSet surplusFiles) surplusWorld () w' ∧
        byteAt (w'.content "/t/a") 1 = byteAt (surplusWorld.content "/t/a") 1 := by
  obtain ⟨resolved, present, t, scan, member, good⟩ := surplus_scan
  have passed : endsWith (par2RepairSet surplusEnv surplusSet surplusFiles) surplusWorld
      (fun _ _ => true) = true := by
    decide +kernel
  obtain ⟨_, w', returns, _⟩ := exists_returns_of_endsWith passed
  refine ⟨surplus_distinct, w', returns, ?_⟩
  have spared := (repair_spares_present surplus_distinct).2 resolved present t scan
  rcases (spared.2 w' returns).2 _ member 0 (by decide) good 1 (by decide) with same | ⟨far, _⟩
  · exact same
  · exact absurd far (by decide)

end NzbDownloader.Par2
