import NzbDownloader.Par2.RepairSteps

/-!
# A repair that reports success restored the files

The reconstruction pass reads good blocks and writes bad ones of the same files, chunk by
chunk.
-/

namespace NzbDownloader.Par2

open Lib Lib.Effect List Nat World

variable {set : Par2Set} {files : List RepairFile} {original : String → Bytes}
  {sliceBody : Par2Slice → Bytes} {resolved : List (Par2File × String)} {done : ℕ → ℕ → Prop}
  {g k chunkOff len : ℕ} {pf : Par2File} {entry : Par2File × String} {outbufs : ℕ → Bytes}
  {env : Env} {w w' scanned : World} {present : ℕ → Bool}

section Reconstruction

variable {plan : Plan} {start : World}

structure Ready (set : Par2Set) (files : List RepairFile) (original : String → Bytes)
    (sliceBody : Par2Slice → Bytes) (resolved : List (Par2File × String)) (present : ℕ → Bool)
    (plan : Plan) (start : World) : Prop where
  genuine : Genuine set files original sliceBody
  paths : Resolved set files resolved
  intact : ∀ g, present g = true →
    ∃ entry ∈ resolved, entry.1.Owns g ∧ IntactBlock set original start entry g
  planned : Planned set sliceBody start present plan

def blockOffset (set : Par2Set) (pf : Par2File) (g j : ℕ) : ℕ :=
  pf.localIndex g * set.blockSize.toNat + j

theorem toNat_blockOffset :
    (((pf.localIndex g * set.blockSize.toNat : ℕ) : ℤ) + (chunkOff : ℤ)).toNat =
      blockOffset set pf g chunkOff := by
  unfold blockOffset
  omega

/-- How far the reconstruction has come: `done g j` for the bytes of block `g`
that were read or written. -/
structure Progress (set : Par2Set) (original : String → Bytes)
    (resolved : List (Par2File × String)) (present : ℕ → Bool) (start : World)
    (done : ℕ → ℕ → Prop) (w : World) : Prop where
  others : ∀ path, (∀ entry ∈ resolved, entry.2 ≠ path) → w.disk path = start.disk path
  correct : ∀ entry ∈ resolved, ∀ g, entry.1.Owns g → ∀ j < set.blockSize.toNat,
    (blockOffset set entry.1 g j : ℤ) < entry.1.length → (present g = true ∨ done g j) →
      byteAt (w.content entry.2) (blockOffset set entry.1 g j) =
        byteAt (original entry.1.name) (blockOffset set entry.1 g j)
  reached : ∀ entry ∈ resolved, ∀ g, entry.1.Owns g → ∀ j < set.blockSize.toNat,
    (blockOffset set entry.1 g j : ℤ) < entry.1.length → done g j →
      blockOffset set entry.1 g j < (w.content entry.2).length

section

variable (progress : Progress set original resolved present start done w)

include progress

theorem Progress.mono {done' : ℕ → ℕ → Prop}
    (weaker : ∀ entry ∈ resolved, ∀ g, entry.1.Owns g → ∀ j < set.blockSize.toNat,
      (blockOffset set entry.1 g j : ℤ) < entry.1.length → done' g j → done g j) :
    Progress set original resolved present start done' w where
  others := progress.others
  correct entry member g owns j inside below seen :=
    progress.correct entry member g owns j inside below
      (seen.imp_right (weaker entry member g owns j inside below))
  reached entry member g owns j inside below seen :=
    progress.reached entry member g owns j inside below
      (weaker entry member g owns j inside below seen)

theorem Progress.congr (same : w'.disk = w.disk) :
    Progress set original resolved present start done w' := by
  have content : w'.content = w.content := by
    funext path
    rw [content, content, same]
  obtain ⟨others, correct, reached⟩ := progress
  rw [← same] at others
  rw [← content] at correct reached
  exact ⟨others, correct, reached⟩

end

theorem llClamp_zero {value hi : ℤ} (nonneg : 0 ≤ hi) :
    llClamp value 0 hi = max 0 (min value hi) := by
  unfold llClamp
  split
  · omega
  · split <;> omega

theorem locateBlock_spec (positive : 0 < set.blockSize) {path : String} {base : ℤ}
    (located : locateBlock set resolved g = some (pf, path, base)) :
    (pf, path) ∈ resolved ∧ pf.Owns g ∧ base = (pf.localIndex g * set.blockSize.toNat : ℕ) := by
  unfold locateBlock at located
  split at located
  · rename_i owner ownerPath found
    cases located
    have owns : pf.Owns g := by simpa [Par2File.Owns] using find?_some found
    refine ⟨mem_of_find?_eq_some found, owns, ?_⟩
    unfold Par2File.Owns at owns
    unfold Par2File.localIndex
    rw [cast_mul, Int.toNat_of_nonneg (by omega), Int.toNat_of_nonneg (by omega)]
  · contradiction

namespace Ready

variable (ready : Ready set files original sliceBody resolved present plan start)

include ready

theorem entry_eq {a b : Par2File × String} (memberA : a ∈ resolved) (memberB : b ∈ resolved)
    (same : a.1 = b.1 ∨ a.2 = b.2) : a = b := by
  obtain ⟨inSetA, fileA, inFilesA, nameA, pathA⟩ := ready.paths.mem memberA
  obtain ⟨inSetB, fileB, inFilesB, nameB, pathB⟩ := ready.paths.mem memberB
  have sameFile : fileA = fileB := by
    rcases same with samePf | samePath
    · exact inj_on_of_nodup_map ready.genuine.names inFilesA inFilesB
        (by rw [nameA, nameB, samePf])
    · exact inj_on_of_nodup_map ready.genuine.paths inFilesA inFilesB
        (by rw [pathA, pathB, samePath])
  have samePf := inj_on_of_nodup_map ready.genuine.recoveryNames inSetA inSetB
    (by rw [← nameA, ← nameB, sameFile])
  exact Prod.ext samePf (by rw [← pathA, ← pathB, sameFile])

theorem entry_eq_of_owns {a b : Par2File × String} (memberA : a ∈ resolved) (memberB : b ∈ resolved)
    (ownsA : a.1.Owns g) (ownsB : b.1.Owns g) : a = b :=
  ready.entry_eq memberA memberB (.inl (ready.genuine.owner_unique (ready.paths.mem memberA).1
    (ready.paths.mem memberB).1 ownsA ownsB))

theorem even_blockSize : 2 ∣ set.blockSize.toNat := by
  have := ready.genuine.blockSize_dvd
  omega

theorem mem_index (member : entry ∈ resolved) (owns : entry.1.Owns g) :
    g ∈ plan.presentIndex ∨ g ∈ plan.missingIndex := by
  have bound := ready.genuine.owned_lt (ready.paths.mem member).1 owns
  rw [ready.planned.presentIndex, ready.planned.missingIndex]
  cases present g <;> simp_all

theorem length_eq (member : entry ∈ resolved) : entry.1.length = (original entry.1.name).length :=
  ready.genuine.length_eq _ (ready.paths.mem member).1

theorem byteAt_sourceBlock (member : entry ∈ resolved) {j : ℕ} (owns : entry.1.Owns g)
    (inside : j < set.blockSize.toNat) :
    byteAt (sourceBlock set original g) j =
      byteAt (original entry.1.name) (blockOffset set entry.1 g j) :=
  ready.genuine.byteAt_sourceBlock (ready.paths.mem member).1 owns inside

theorem progress_start :
    Progress set original resolved present start (fun _ _ => False) start where
  others _ _ := rfl
  correct entry member g owns j inside _ seen := by
    rcases seen with good | impossible
    · obtain ⟨owner, ownerMember, ownerOwns, intact⟩ := ready.intact g good
      obtain rfl := ready.entry_eq_of_owns ownerMember member ownerOwns owns
      exact intact j inside
    · exact impossible.elim
  reached _ _ _ _ _ _ _ seen := seen.elim

end Ready

def sliceData (set : Par2Set) (plan : Plan) (start : World) (k : ℕ) : Bytes :=
  let slice := plan.accepted.getD k ⟨"", 0, 0⟩
  readAt (start.content slice.path) slice.dataOffset set.blockSize.toNat

namespace Ready

variable (ready : Ready set files original sliceBody resolved present plan start)

include ready

theorem accepted_getD (bound : k < plan.missingIndex.length) :
    ∃ s, AcceptedFrom set sliceBody start (plan.accepted.getD k ⟨"", 0, 0⟩) s := by
  have inList : k < plan.accepted.length := by
    rw [ready.planned.accepted_length]
    exact bound
  rw [getD_eq_getElem _ _ inList]
  exact ready.planned.accepted _ (getElem_mem inList)

theorem sliceData_eq {s : Par2Slice}
    (from' : AcceptedFrom set sliceBody start (plan.accepted.getD k ⟨"", 0, 0⟩) s) :
    sliceData set plan start k = (sliceBody s).drop 4 := by
  have offset := ready.genuine.slice_offset s from'.member
  rw [← from'.body, sliceData, from'.path, from'.dataOffset, from'.dataLen, readAt, readAt,
    drop_take, drop_drop]
  congr 2
  · omega
  · omega

abbrev Reached (_ : Ready set files original sliceBody resolved present plan start)
    (done : ℕ → ℕ → Prop) (w : World) : Prop :=
  Progress set original resolved present start done w

theorem slice_disk (progress : ready.Reached done w)
    (bound : k < plan.missingIndex.length) :
    w.disk (plan.accepted.getD k ⟨"", 0, 0⟩).path =
      start.disk (plan.accepted.getD k ⟨"", 0, 0⟩).path := by
  obtain ⟨s, from'⟩ := ready.accepted_getD bound
  apply progress.others
  intro entry member samePath
  obtain ⟨inSet, file, inFiles, name, path⟩ := ready.paths.mem member
  exact ready.genuine.slice_path s from'.member entry.1 inSet file inFiles name
    (by rw [path, samePath, from'.path])

/-- A column that was read holds the chunk of its block or slice.  Reading a
block also shows that its bytes lie inside the file. -/
theorem readColumn_spec (progress : ready.Reached done w) {col : ℕ}
    (chunk : chunkOff + len ≤ set.blockSize.toNat)
    (bound : col < plan.presentIndex.length + plan.missingIndex.length) {inbuf : Bytes}
    (returns : Returns (readColumn env set resolved plan chunkOff len col) w inbuf w') :
    w'.disk = w.disk ∧ inbuf.length = len ∧
      (∀ j < len, byteAt inbuf j =
        byteAt (columnContent set original (sliceData set plan start) plan col) (chunkOff + j)) ∧
      ready.Reached
        (fun g j => done g j ∨ (col < plan.presentIndex.length ∧
          g = plan.presentIndex.getD col 0 ∧ chunkOff ≤ j ∧ j < chunkOff + len)) w := by
  unfold readColumn at returns
  split at returns
  · rename_i inPresent
    dsimp only at returns
    generalize index : plan.presentIndex.getD col 0 = g at returns
    have good : present g = true := by
      have member : g ∈ plan.presentIndex := by
        rw [← index, getD_eq_getElem _ _ inPresent]
        exact getElem_mem inPresent
      rw [ready.planned.presentIndex] at member
      exact (mem_filter.mp member).2
    split at returns
    · exact absurd returns returns_throw
    rename_i pf path base located
    obtain ⟨member, owns, rfl⟩ := locateBlock_spec ready.genuine.blockSize_pos located
    have lengthEq : pf.length = (original pf.name).length := ready.length_eq member
    have column : ∀ j < len, byteAt
        (columnContent set original (sliceData set plan start) plan col) (chunkOff + j) =
          byteAt (original pf.name) (blockOffset set pf g (chunkOff + j)) := by
      intro j inside
      rw [columnContent, if_pos inPresent, index]
      exact ready.byteAt_sourceBlock member owns (by omega)
    have extend : (∀ j, chunkOff ≤ j → j < chunkOff + len →
          (blockOffset set pf g j : ℤ) < pf.length →
            blockOffset set pf g j < (w.content path).length) →
        ready.Reached
          (fun g' j => done g' j ∨ (col < plan.presentIndex.length ∧
            g' = g ∧ chunkOff ≤ j ∧ j < chunkOff + len)) w := by
      intro reach
      refine ⟨progress.others, fun entry inResolved g' owns' j inside below seen => ?_,
        fun entry inResolved g' owns' j inside below seen => ?_⟩
      · apply progress.correct entry inResolved g' owns' j inside below
        rcases seen with seen | seen | ⟨_, rfl, _⟩
        · exact .inl seen
        · exact .inr seen
        · exact .inl good
      · rcases seen with seen | ⟨_, rfl, low, high⟩
        · exact progress.reached entry inResolved g' owns' j inside below seen
        · obtain rfl := ready.entry_eq_of_owns inResolved member owns' owns
          exact reach j low high below
    split at returns
    · rename_i positive
      obtain ⟨bytes, t, read, last⟩ := returns_bind.mp returns
      obtain ⟨rfl, rfl⟩ := returns_pure.mp last
      obtain ⟨content, found, bytesEq, complete⟩ := freadExactly_spec read
      -- `valid` is the part of the chunk before the declared end of the file.
      generalize validEq : llClamp (pf.length - ((pf.localIndex g * set.blockSize.toNat : ℕ) : ℤ) -
        (chunkOff : ℤ)) 0 (len : ℤ) = valid at positive bytesEq complete
      rw [llClamp_zero (by omega)] at validEq
      rw [toNat_blockOffset] at bytesEq
      have contentEq : w.content path = content := content_eq found
      have reach : blockOffset set pf g chunkOff + valid.toNat ≤ content.length := by
        apply le_length_of_readAt (by omega)
        rw [← bytesEq]
        exact complete
      refine ⟨quiet_freadExactly.keeps read, ?_, fun j inside => ?_, extend fun j low high below => ?_⟩
      · rw [length_padTo, complete]
        omega
      · rw [byteAt_padTo, column j inside]
        by_cases within : j < valid.toNat
        · rw [bytesEq, byteAt_readAt within, ← contentEq,
            show blockOffset set pf g chunkOff + j = blockOffset set pf g (chunkOff + j) by
              unfold blockOffset; omega]
          have below : (blockOffset set pf g (chunkOff + j) : ℤ) < pf.length := by
            unfold blockOffset
            omega
          exact progress.correct (pf, path) member g owns (chunkOff + j) (by omega) below
            (.inl good)
        · rw [byteAt_eq_zero (by omega), byteAt_eq_zero]
          unfold blockOffset
          omega
      · rw [contentEq]
        unfold blockOffset at *
        omega
    · rename_i notPositive
      obtain ⟨rfl, rfl⟩ := returns_pure.mp returns
      have beyond : ∀ j < len, pf.length ≤ blockOffset set pf g (chunkOff + j) := by
        intro j inside
        rw [llClamp_zero (by omega)] at notPositive
        unfold blockOffset
        omega
      refine ⟨rfl, by simp, fun j inside => ?_, extend fun j low high below => ?_⟩
      · have := beyond j inside
        rw [byteAt_padTo, column j inside, byteAt_eq_zero (by simp), byteAt_eq_zero (by omega)]
      · have := beyond (j - chunkOff) (by omega)
        rw [show chunkOff + (j - chunkOff) = j by omega] at this
        omega
  · rename_i notPresent
    obtain ⟨content, found, bytesEq, complete⟩ := freadExactly_spec returns
    have inMissing : col - plan.presentIndex.length < plan.missingIndex.length := by omega
    refine ⟨quiet_freadExactly.keeps returns, complete, fun j inside => ?_, progress.mono ?_⟩
    · rw [ready.slice_disk progress inMissing] at found
      rw [bytesEq, byteAt_readAt inside, columnContent, if_neg notPresent, sliceData,
        byteAt_readAt (by omega), content_eq found, add_assoc]
    · rintro entry _ g _ j _ _ (seen | ⟨inPresent, _⟩)
      · exact seen
      · exact absurd inPresent notPresent

omit ready in
theorem wordAt_of_byteAt {inbuf column : Bytes} {v : ℕ} (even : 2 ∣ chunkOff)
    (inside : 2 * v + 1 < len) (same : ∀ j < len, byteAt inbuf j = byteAt column (chunkOff + j)) :
    wordAt inbuf v = wordAt column (chunkOff / 2 + v) := by
  have offset : 2 * (chunkOff / 2 + v) = chunkOff + 2 * v := by omega
  rw [wordAt, wordAt, same _ (by omega), same _ inside, offset, add_assoc]

theorem columns_spec (evenOff : 2 ∣ chunkOff) (evenLen : 2 ∣ len)
    (chunk : chunkOff + len ≤ set.blockSize.toNat)
    (progress : ready.Reached (fun _ j => j < chunkOff) w)
    (returns : Returns
      ((range (plan.presentIndex.length + plan.missingIndex.length)).foldlM
        (addColumn env set resolved plan chunkOff len) fun _ => replicate len 0)
      w outbufs w') :
    ready.Reached
        (fun g j => j < chunkOff ∨ (j < chunkOff + len ∧ g ∈ plan.presentIndex)) w' ∧
      ∀ row < plan.missingIndex.length, (outbufs row).length = len ∧ ∀ j < len,
        byteAt (outbufs row) j =
          byteAt (sourceBlock set original (plan.missingIndex.getD row 0)) (chunkOff + j) := by
  let column := columnContent set original (sliceData set plan start) plan
  let invariant : ℕ → (ℕ → Bytes) → World → Prop := fun col bufs t =>
    ready.Reached (fun g j => j < chunkOff ∨
      (j < chunkOff + len ∧ g ∈ plan.presentIndex.take col)) t ∧
    ∀ row, (bufs row).length = len ∧ ∀ v, 2 * v + 1 < len →
      Galois16.mk (wordAt (bufs row) v) = ∑ c ∈ Finset.range col,
        Galois16.mk (plan.coeffs row c) * ⟨wordAt (column c) (chunkOff / 2 + v)⟩
  have first : invariant 0 (fun _ => replicate len 0) w := by
    refine ⟨progress.mono fun entry _ g _ j _ _ => ?_, fun row => ⟨by simp, fun v _ => ?_⟩⟩
    · rintro (before | ⟨_, impossible⟩)
      · exact before
      · simp at impossible
    · rw [Finset.sum_range_zero, wordAt, byteAt_replicate_zero, byteAt_replicate_zero]
      rfl
  have step : ∀ col < plan.presentIndex.length + plan.missingIndex.length, ∀ bufs t bufs' t',
      invariant col bufs t →
      Returns (addColumn env set resolved plan chunkOff len bufs col) t bufs' t' →
      invariant (col + 1) bufs' t' := by
    intro col colBound bufs t bufs' t' before step
    obtain ⟨progressT, sumsT⟩ := before
    obtain ⟨inbuf, t₁, read, rest⟩ := returns_bind.mp step
    obtain ⟨_, t₂, required, last⟩ := returns_bind.mp rest
    obtain ⟨rfl, rfl⟩ := returns_pure.mp last
    obtain ⟨same, length, bytes, next⟩ := ready.readColumn_spec progressT chunk colBound read
    constructor
    · apply (next.congr ((quiet_require.keeps required).trans same)).mono
      rintro entry _ g _ j _ _ (before | ⟨inChunk, listed⟩)
      · exact .inl (.inl before)
      rw [take_add_one, mem_append] at listed
      rcases listed with earlier | here
      · exact .inl (.inr ⟨inChunk, earlier⟩)
      by_cases low : j < chunkOff
      · exact .inl (.inl low)
      · have inPresent : col < plan.presentIndex.length := by
          by_contra outside
          rw [getElem?_eq_none (by omega)] at here
          simp at here
        rw [getElem?_eq_getElem inPresent] at here
        refine .inr ⟨inPresent, ?_, by omega, inChunk⟩
        rw [getD_eq_getElem _ _ inPresent]
        simpa using here
    · intro row
      obtain ⟨rowLength, rowWords⟩ := sumsT row
      dsimp only
      split
      · refine ⟨by rw [length_gf16MulAcc, rowLength], fun v inside => ?_⟩
        rw [mk_wordAt_gf16MulAcc _ (by omega) (by omega), rowWords v inside,
          Finset.sum_range_succ, wordAt_of_byteAt evenOff inside bytes]
      · rename_i zero
        refine ⟨rowLength, fun v inside => ?_⟩
        rw [Finset.sum_range_succ, rowWords v inside, not_not.mp zero,
          show Galois16.mk 0 = 0 from rfl, zero_mul, add_zero]
  obtain ⟨final, sums⟩ := returns_foldlM_range returns first step
  refine ⟨final.mono ?_, fun row bound => ⟨(sums row).1, fun j inside => ?_⟩⟩
  · rw [take_of_length_le (by omega)]
    exact fun _ _ _ _ _ _ _ => id
  · have slices : ∀ k < plan.missingIndex.length, ∃ s, AcceptedFrom set sliceBody start
        (plan.accepted.getD k ⟨"", 0, 0⟩) s ∧
          sliceData set plan start k = (sliceBody s).drop 4 := by
      intro k kBound
      obtain ⟨s, from'⟩ := ready.accepted_getD kBound
      exact ⟨s, from', ready.sliceData_eq from'⟩
    have words := (sums row).2 (j / 2) (by omega)
    rw [← ready.planned.word_eq ready.genuine slices bound (by omega)] at words
    have bytes : byteAt (outbufs row) j = byteAt
        ((sourceBlock set original (plan.missingIndex.getD row 0)).drop chunkOff) j := by
      apply byteAt_eq_of_wordAt
      rw [Galois16.mk.injEq] at words
      rw [words]
      have offset : 2 * (chunkOff / 2 + j / 2) = chunkOff + 2 * (j / 2) := by omega
      rw [wordAt, wordAt, byteAt_drop, byteAt_drop, offset, add_assoc]
    rw [bytes, byteAt_drop]

omit ready in
theorem block_unique {a b j size : ℕ} (insideA : j < size) (low : b * size + k ≤ a * size + j)
    (high : a * size + j < (b + 1) * size) : a = b := by
  rcases lt_trichotomy a b with less | same | greater
  · have := mul_le_mul_right size (show a + 1 ≤ b from less)
    rw [succ_mul] at this
    omega
  · exact same
  · have := mul_le_mul_right size (show b + 1 ≤ a from greater)
    omega

theorem progress_store (progress : ready.Reached done w)
    {path : String} (member : (pf, path) ∈ resolved) (owns : pf.Owns g) {off : ℕ} {data : Bytes}
    (nonempty : data ≠ []) (inBlock : off + data.length ≤ set.blockSize.toNat)
    (bytes : ∀ j < data.length,
      byteAt data j = byteAt (original pf.name) (blockOffset set pf g (off + j)))
    (stored : w'.disk = (w.store path (blockOffset set pf g off) data).disk) :
    ready.Reached
      (fun g' j => done g' j ∨ (g' = g ∧ off ≤ j ∧ j < off + data.length)) w' := by
  have here : w'.content path =
      writeAt (w.content path) (blockOffset set pf g off) data := by
    rw [← content_store, content, stored, content]
  have elsewhere : ∀ {other}, other ≠ path → w'.disk other = w.disk other := by
    intro other different
    rw [stored, disk_store_of_ne different]
  -- Another entry has the content it had, and does not own the block.
  have others : ∀ {entry}, entry ∈ resolved → entry ≠ (pf, path) →
      w'.content entry.2 = w.content entry.2 ∧ ¬entry.1.Owns g := by
    intro entry inResolved different
    have otherPath : entry.2 ≠ path :=
      fun same => different (ready.entry_eq inResolved member (.inr same))
    exact ⟨by rw [content, content, elsewhere otherPath],
      fun owns' => different (ready.entry_eq_of_owns inResolved member owns' owns)⟩
  refine ⟨fun other apart => ?_, fun entry inResolved g' owns' j inside below seen => ?_,
    fun entry inResolved g' owns' j inside below seen => ?_⟩
  · rw [elsewhere fun same => apart (pf, path) member same.symm]
    exact progress.others other apart
  · by_cases same : entry = (pf, path)
    · subst same
      rw [here, byteAt_writeAt]
      split
      · rename_i inRange
        have sameIndex : pf.localIndex g' = pf.localIndex g := by
          apply block_unique inside inRange.1
          unfold blockOffset at inRange
          rw [succ_mul]
          omega
        unfold blockOffset at inRange ⊢
        rw [sameIndex] at inRange ⊢
        rw [bytes _ (by omega)]
        unfold blockOffset
        congr 1
        omega
      · rename_i outside
        apply progress.correct (pf, path) inResolved g' owns' j inside below
        rcases seen with good | seen | ⟨rfl, low, high⟩
        · exact .inl good
        · exact .inr seen
        · dsimp only [blockOffset] at outside
          omega
    · obtain ⟨content, notOwner⟩ := others inResolved same
      rw [content]
      refine progress.correct entry inResolved g' owns' j inside below (seen.imp_right ?_)
      rintro (seen | ⟨rfl, _⟩)
      · exact seen
      · exact absurd owns' notOwner
  · by_cases same : entry = (pf, path)
    · subst same
      rw [here]
      rcases seen with seen | ⟨rfl, _, high⟩
      · exact lt_of_lt_of_le (progress.reached _ inResolved g' owns' j inside below seen)
          (length_le_writeAt _ _ _)
      · rw [length_writeAt nonempty]
        dsimp only [blockOffset]
        omega
    · obtain ⟨content, notOwner⟩ := others inResolved same
      rw [content]
      rcases seen with seen | ⟨rfl, _⟩
      · exact progress.reached entry inResolved g' owns' j inside below seen
      · exact absurd owns' notOwner

theorem writeRow_spec (progress : ready.Reached done w) {row : ℕ}
    (chunk : chunkOff + len ≤ set.blockSize.toNat)
    (before : ∀ j < chunkOff, done (plan.missingIndex.getD row 0) j)
    (length : (outbufs row).length = len) (bytes : ∀ j < len, byteAt (outbufs row) j =
      byteAt (sourceBlock set original (plan.missingIndex.getD row 0)) (chunkOff + j))
    (returns : Returns (writeRow env set resolved plan chunkOff len outbufs row) w () w') :
    ready.Reached (fun g j => done g j ∨
      (g = plan.missingIndex.getD row 0 ∧ j < chunkOff + len)) w' := by
  unfold writeRow at returns
  dsimp only at returns
  generalize plan.missingIndex.getD row 0 = g at returns before bytes ⊢
  split at returns
  · exact absurd returns returns_throw
  rename_i pf path base located
  obtain ⟨member, owns, rfl⟩ := locateBlock_spec ready.genuine.blockSize_pos located
  generalize clampEq : llClamp (pf.length - ((pf.localIndex g * set.blockSize.toNat : ℕ) : ℤ) -
    (chunkOff : ℤ)) 0 (len : ℤ) = writeLen at returns
  rw [llClamp_zero (by omega)] at clampEq
  -- Bytes of the block below the declared length lie in the part that is written.
  have written : ∀ {entry : Par2File × String} {j : ℕ}, entry ∈ resolved → entry.1.Owns g →
      (blockOffset set entry.1 g j : ℤ) < entry.1.length → chunkOff ≤ j → j < chunkOff + len →
        (j : ℤ) < chunkOff + writeLen := by
    intro entry j inResolved owns' below low high
    obtain rfl := ready.entry_eq_of_owns inResolved member owns' owns
    dsimp only [blockOffset] at below
    omega
  split at returns
  · obtain ⟨_, rfl⟩ := returns_pure.mp returns
    apply progress.mono
    rintro entry inResolved g' owns' j _ below (seen | ⟨rfl, high⟩)
    · exact seen
    · by_cases low : j < chunkOff
      · exact before j low
      · have := written inResolved owns' below (by omega) high
        omega
  · rw [toNat_blockOffset] at returns
    have dataLength : ((outbufs row).take writeLen.toNat).length = writeLen.toNat := by
      rw [length_take, length]
      omega
    have dataBytes : ∀ j < ((outbufs row).take writeLen.toNat).length,
        byteAt ((outbufs row).take writeLen.toNat) j =
          byteAt (original pf.name) (blockOffset set pf g (chunkOff + j)) := by
      intro j inside
      rw [byteAt_take, if_pos (by omega), bytes j (by omega),
        ready.byteAt_sourceBlock member owns (by omega)]
    have stored := ready.progress_store progress member owns
      (ne_nil_of_length_pos (by omega)) (by omega) dataBytes (pwriteExactly_spec returns)
    apply stored.mono
    rintro entry inResolved g' owns' j _ below (seen | ⟨rfl, high⟩)
    · exact .inl seen
    · by_cases low : j < chunkOff
      · exact .inl (before j low)
      · have := written inResolved owns' below (by omega) high
        exact .inr ⟨rfl, by omega, by omega⟩

theorem repairChunk_spec {chunksize : ℕ} (evenOff : 2 ∣ chunkOff) (evenSize : 2 ∣ chunksize)
    (inside : chunkOff < set.blockSize.toNat)
    (progress : ready.Reached (fun _ j => j < chunkOff) w)
    (returns : Returns (repairChunk env set resolved plan chunksize chunkOff) w () w') :
    ready.Reached (fun _ j => j < chunkOff + chunksize) w' := by
  obtain ⟨outbufs, t, columns, rows⟩ := returns_bind.mp returns
  generalize lenEq : (if set.blockSize.toNat - chunkOff < chunksize then
    set.blockSize.toNat - chunkOff else chunksize) = len at columns rows
  have evenBlock := ready.even_blockSize
  have evenLen : 2 ∣ len := by
    split at lenEq <;> omega
  have chunk : chunkOff + len ≤ set.blockSize.toNat := by
    split at lenEq <;> omega
  obtain ⟨read, outputs⟩ := ready.columns_spec evenOff evenLen chunk progress columns
  let invariant : ℕ → World → Prop := fun count t =>
    ready.Reached (fun g j => j < chunkOff ∨ (j < chunkOff + len ∧
      (g ∈ plan.presentIndex ∨ ∃ row < count, g = plan.missingIndex.getD row 0))) t
  have first : invariant 0 t := by
    apply read.mono
    rintro entry _ g _ j _ _ (before | ⟨inChunk, listed | ⟨row, impossible, _⟩⟩)
    · exact .inl before
    · exact .inr ⟨inChunk, listed⟩
    · exact absurd impossible (Nat.not_lt_zero row)
  have step : ∀ row < plan.missingIndex.length, ∀ t t', invariant row t →
      Returns (writeRow env set resolved plan chunkOff len outbufs row) t () t' →
      invariant (row + 1) t' := by
    intro row bound t t' before step
    obtain ⟨length, bytes⟩ := outputs row bound
    apply (ready.writeRow_spec before chunk (fun j low => .inl low) length bytes step).mono
    rintro entry _ g _ j _ _ (low | ⟨inChunk, listed | ⟨other, visited, rfl⟩⟩)
    · exact .inl (.inl low)
    · exact .inl (.inr ⟨inChunk, .inl listed⟩)
    · rcases Nat.lt_succ_iff_lt_or_eq.mp visited with earlier | rfl
      · exact .inl (.inr ⟨inChunk, .inr ⟨other, earlier, rfl⟩⟩)
      · exact .inr ⟨rfl, inChunk⟩
  apply (returns_forM_range rows first step).mono
  intro entry member g owns j inBlock _ seen
  by_cases low : j < chunkOff
  · exact .inl low
  refine .inr ⟨by split at lenEq <;> omega, ?_⟩
  rcases ready.mem_index member owns with listed | listed
  · exact .inl listed
  · obtain ⟨row, bound, rfl⟩ := mem_iff_getElem.mp listed
    exact .inr ⟨row, bound, (getD_eq_getElem _ _ bound).symm⟩

omit ready in
theorem chunkSize_pos {blockSize : ℕ} (positive : 0 < blockSize) (datamissing : ℕ) :
    0 < chunkSize blockSize datamissing := by
  unfold chunkSize
  split <;> omega

omit ready in
theorem even_chunkSize {blockSize : ℕ} (even : 2 ∣ blockSize) (datamissing : ℕ) :
    2 ∣ chunkSize blockSize datamissing := by
  unfold chunkSize
  split
  · rcases le_total 4 (repairMemoryBudget / datamissing / 2 * 2) with larger | smaller
    · rw [max_eq_right larger]
      exact dvd_mul_left 2 _
    · rw [max_eq_left smaller]
      decide
  · exact even

theorem reconstruct_spec (returns : Returns (reconstruct env set resolved plan) start () w') :
    ready.Reached (fun _ _ => True) w' := by
  obtain ⟨_, t₁, allocated₁, rest⟩ := returns_bind.mp returns
  obtain ⟨_, t₂, allocated₂, rest⟩ := returns_bind.mp rest
  obtain ⟨_, t₃, allocated₃, chunks⟩ := returns_bind.mp rest
  have all : Quiet ((range plan.missingIndex.length).forM fun _ => allocate env) :=
    leads_forM fun _ _ => quiet_allocate
  have same : t₃.disk = start.disk := by
    rw [all.keeps allocated₃, quiet_allocate.keeps allocated₂, quiet_allocate.keeps allocated₁]
  have blockPos : 0 < set.blockSize.toNat := by
    have := ready.genuine.blockSize_pos
    omega
  have sizePos := chunkSize_pos blockPos plan.missingIndex.length
  have sizeEven := even_chunkSize ready.even_blockSize plan.missingIndex.length
  generalize chunkSize set.blockSize.toNat plan.missingIndex.length = chunksize
    at chunks sizePos sizeEven
  generalize blockEq : set.blockSize.toNat = blockSize at chunks blockPos
  have first : ready.Reached (fun _ j => j < 0 * chunksize) t₃ := by
    apply (ready.progress_start.congr same).mono
    intro entry _ g _ j _ _ impossible
    simp at impossible
  have done := returns_forM_range
    (I := fun k => ready.Reached fun _ j => j < k * chunksize)
    chunks first fun k bound t t' before step => by
      have inside : k * chunksize < blockSize := by
        have := (le_div_iff_mul_le sizePos).mp (succ_le_of_lt bound)
        rw [succ_mul] at this
        omega
      rw [succ_mul]
      exact ready.repairChunk_spec (Dvd.dvd.mul_left sizeEven _) sizeEven
        (by rw [blockEq]; exact inside) before step
  apply done.mono
  intro entry _ g _ j inside _ _
  have covered := div_add_mod (blockSize + chunksize - 1) chunksize
  have remainder := mod_lt (blockSize + chunksize - 1) sizePos
  rw [mul_comm]
  omega

theorem begins_with_original
    (progress : ready.Reached (fun _ _ => True) w)
    (member : entry ∈ resolved) :
    ∃ content, w.disk entry.2 = some content ∧ original entry.1.name <+: content := by
  have inSet := (ready.paths.mem member).1
  have lengthEq := ready.length_eq member
  have positive := ready.genuine.length_pos _ inSet
  have bytes : ∀ i < (original entry.1.name).length, i < (w.content entry.2).length ∧
      byteAt (w.content entry.2) i = byteAt (original entry.1.name) i := by
    intro i inside
    obtain ⟨g, j, owns, inBlock, rfl⟩ := ready.genuine.exists_block inSet (i := i) (by omega)
    have below : (blockOffset set entry.1 g j : ℤ) < entry.1.length := by
      unfold blockOffset
      omega
    exact ⟨progress.reached entry member g owns j inBlock below trivial,
      progress.correct entry member g owns j inBlock below (.inr trivial)⟩
  have enough := (bytes ((original entry.1.name).length - 1) (by omega)).1
  obtain ⟨content, found⟩ : ∃ content, w.disk entry.2 = some content := by
    cases found : w.disk entry.2 with
    | none =>
      rw [content, found, Option.getD_none, length_nil] at enough
      omega
    | some content => exact ⟨content, rfl⟩
  rw [content_eq found] at enough bytes
  refine ⟨content, found, ?_⟩
  rw [prefix_iff_eq_take]
  apply eq_of_byteAt
  · rw [length_take]
    omega
  · intro i inside
    rw [byteAt_take, if_pos inside, (bytes i inside).2]

theorem truncateFile_spec (member : entry ∈ resolved) {content : Bytes}
    (found : w.disk entry.2 = some content) (begins : original entry.1.name <+: content)
    (returns : Returns (truncateFile env entry) w () w') :
    (∀ path, path ≠ entry.2 → w'.disk path = w.disk path) ∧
      ∃ final, w'.disk entry.2 = some final ∧ original entry.1.name <+: final ∧
        (env.statFails entry.2 = false → env.truncateFails entry.2 = false →
          final = original entry.1.name) := by
  have lengthEq := ready.length_eq member
  have result := returns_modify.mp returns
  simp only [found] at result
  split at result
  · rename_i kept
    subst result
    refine ⟨fun _ _ => rfl, content, found, begins, fun statOk _ => ?_⟩
    have sameLength : (content.length : ℤ) = entry.1.length := by
      simpa [statOk] using kept
    exact (begins.eq_of_length (by omega)).symm
  · split at result
    · rename_i failed
      subst result
      refine ⟨fun _ _ => rfl, content, found, begins, fun _ truncateOk => ?_⟩
      simp only [truncateOk, Bool.false_eq_true, false_or] at failed
      omega
    · subst result
      have cut : setLength content entry.1.length.toNat = original entry.1.name := by
        rw [lengthEq, Int.toNat_natCast]
        apply eq_of_byteAt (by simp)
        intro i inside
        rw [length_setLength] at inside
        rw [byteAt_setLength _ inside, prefix_iff_eq_take.mp begins, byteAt_take,
          if_pos (by simpa using inside)]
      refine ⟨fun path different => ?_, _, Function.update_self _ _ _, ?_, fun _ _ => cut⟩
      · simp [different]
      · rw [cut]

theorem truncation_spec
    (progress : ready.Reached (fun _ _ => True) w)
    (returns : Returns (resolved.forM (truncateFile env)) w () w') (member : entry ∈ resolved) :
    ∃ content, w'.disk entry.2 = some content ∧ original entry.1.name <+: content ∧
      (env.statFails entry.2 = false → env.truncateFails entry.2 = false →
        content = original entry.1.name) := by
  let invariant : List (Par2File × String) → World → Prop := fun visited t =>
    ∀ entry ∈ resolved, ∃ content, t.disk entry.2 = some content ∧
      original entry.1.name <+: content ∧ (entry ∈ visited → env.statFails entry.2 = false →
        env.truncateFails entry.2 = false → content = original entry.1.name)
  have first : invariant [] w := by
    intro entry inResolved
    obtain ⟨content, found, begins⟩ := ready.begins_with_original progress inResolved
    exact ⟨content, found, begins, fun impossible => nomatch impossible⟩
  have step : ∀ visited x rest t t', resolved = visited ++ x :: rest → invariant visited t →
      Returns (truncateFile env x) t () t' → invariant (visited ++ [x]) t' := by
    intro visited x rest t t' split before step
    have inX : x ∈ resolved := by rw [split]; simp
    obtain ⟨content, found, begins, _⟩ := before x inX
    obtain ⟨others, final, atX, beginsX, exact'⟩ :=
      ready.truncateFile_spec inX found begins step
    intro entry inResolved
    by_cases samePath : entry.2 = x.2
    · obtain rfl := ready.entry_eq inResolved inX (.inr samePath)
      exact ⟨final, atX, beginsX, fun _ => exact'⟩
    · obtain ⟨content', found', begins', truncated⟩ := before entry inResolved
      refine ⟨content', by rw [others _ samePath, found'], begins', fun inVisited => ?_⟩
      rcases mem_append.mp inVisited with earlier | here
      · exact truncated earlier
      · exact absurd (by rw [mem_singleton.mp here]) samePath
  obtain ⟨content, found, begins, truncated⟩ := returns_forM returns first step entry member
  exact ⟨content, found, begins, truncated member⟩

end Ready

end Reconstruction

section

variable (genuine : Genuine set files original sliceBody)
  (accepts : Accepts env set original sliceBody)
  (scan : Returns (findDamage env set files) w (resolved, present) scanned)

include genuine accepts scan

theorem ready_of_plan {t : World} {plan : Plan}
    (planning : Returns (planRepair env set present) scanned (some plan) t) :
    t.disk = w.disk ∧ (∃ g < set.sourceBlockCount.toNat, present g = false) ∧
      Ready set files original sliceBody resolved present plan t := by
  obtain ⟨paths, intact⟩ := findDamage_spec accepts scan
  have samePlan : t.disk = scanned.disk := quiet_planRepair.keeps planning
  have sameDisk : t.disk = w.disk := samePlan.trans (quiet_findDamage.keeps scan)
  obtain ⟨missing, columns⟩ := planRepair_spec accepts planning
  refine ⟨sameDisk, missing, genuine, paths, fun g good => ?_, columns.congr samePlan⟩
  obtain ⟨entry, member, owns, block⟩ := intact g good
  exact ⟨entry, member, owns, block.congr sameDisk⟩

/-- A repair that returns `0` either found nothing missing and left the disk as it
was, or went through the whole reconstruction. -/
theorem par2RepairSet_cases (returns : Returns (par2RepairSet env set files) w () w') :
    ((∀ g < set.sourceBlockCount.toNat, present g = true) ∧ w'.disk = w.disk) ∨
      ∃ plan t t', (∃ g < set.sourceBlockCount.toNat, present g = false) ∧ t.disk = w.disk ∧
        Ready set files original sliceBody resolved present plan t ∧
          Returns (reconstruct env set resolved plan) t () t' ∧
            Returns (resolved.forM (truncateFile env)) t' () w' := by
  obtain ⟨_, _, first, rest⟩ := returns_bind.mp returns
  obtain ⟨rfl, rfl⟩ := first.unique scan
  obtain ⟨outcome, t, planning, rest⟩ := returns_bind.mp rest
  cases outcome with
  | none =>
    obtain ⟨_, rfl⟩ := returns_pure.mp rest
    rcases planRepair_cases planning with ⟨_, nothing⟩ | ⟨_, impossible, _⟩
    · exact .inl ⟨nothing, (quiet_planRepair.keeps planning).trans (quiet_findDamage.keeps scan)⟩
    · contradiction
  | some plan =>
    obtain ⟨_, t', reconstructed, truncated⟩ := returns_bind.mp rest
    obtain ⟨sameDisk, missing, ready⟩ := ready_of_plan genuine accepts scan planning
    exact .inr ⟨plan, t, t', missing, sameDisk, ready, reconstructed, truncated⟩

end

theorem Resolved.entry_mem (paths : Resolved set files resolved)
    (genuine : Genuine set files original sliceBody) (inSet : pf ∈ recoveryFiles set)
    {file : RepairFile} (inFiles : file ∈ files) (name : file.name = pf.name) :
    (pf, file.path) ∈ resolved := by
  rw [← paths.map_fst] at inSet
  obtain ⟨entry, member, rfl⟩ := mem_map.mp inSet
  obtain ⟨_, other, inFiles', name', path⟩ := paths.mem member
  have sameFile : other = file :=
    inj_on_of_nodup_map genuine.names inFiles' inFiles (by rw [name, name'])
  subst sameFile
  rwa [path]

theorem restored_of_returns (genuine : Genuine set files original sliceBody)
    (accepts : Accepts env set original sliceBody)
    (scan : Returns (findDamage env set files) w (resolved, present) scanned)
    (damaged : ∃ g < set.sourceBlockCount.toNat, present g = false)
    (returns : Returns (par2RepairSet env set files) w () w') (inSet : pf ∈ recoveryFiles set)
    {file : RepairFile} (inFiles : file ∈ files) (name : file.name = pf.name) :
    ∃ content, w'.disk file.path = some content ∧ original pf.name <+: content ∧
      (env.statFails file.path = false → env.truncateFails file.path = false →
        content = original pf.name) := by
  rcases par2RepairSet_cases genuine accepts scan returns with
    ⟨nothing, _⟩ | ⟨plan, t, t', _, _, ready, reconstructed, truncated⟩
  · obtain ⟨g, bound, missing⟩ := damaged
    rw [nothing g bound] at missing
    contradiction
  · have progress := ready.reconstruct_spec reconstructed
    have member := ready.paths.entry_mem genuine inSet inFiles name
    exact ready.truncation_spec progress truncated member

/-- A repair of a genuine set that found damage and returns `0` leaves every file
of the set beginning with its original, and equal to it unless the closing `stat`
or `truncate` of that file failed. -/
theorem par2RepairSet_restores {env : Env} {set : Par2Set} {files : List RepairFile}
    {original : String → Bytes} {sliceBody : Par2Slice → Bytes}
    (genuine : Genuine set files original sliceBody)
    (accepts : Accepts env set original sliceBody) {w scanned w' : World}
    {resolved : List (Par2File × String)} {present : ℕ → Bool}
    (scan : Returns (findDamage env set files) w (resolved, present) scanned)
    (damaged : ∃ g < set.sourceBlockCount.toNat, present g = false)
    (returns : Returns (par2RepairSet env set files) w () w') :
    ∀ pf ∈ recoveryFiles set, ∀ file ∈ files, file.name = pf.name →
      ∃ content, w'.disk file.path = some content ∧ original pf.name <+: content ∧
        (env.statFails file.path = false → env.truncateFails file.path = false →
          content = original pf.name) := by
  intro pf inSet file inFiles name
  exact restored_of_returns genuine accepts scan damaged returns inSet inFiles name

/-! ## Sets of one block

One file of four bytes, and slices of exponent zero, whose data is that of the file. -/

def oneBlockSet (digest : Digest) (crc : BitVec 32) (slices : List Par2Slice) : Par2Set where
  blockSize := 4
  files := [⟨"a", digest, 4, some [digest], [crc], 1, true, 0⟩]
  slices := slices
  sourceBlockCount := 1

def zeroExponentBody (content : Bytes) : Par2Slice → Bytes :=
  fun _ => replicate 4 0 ++ content

section OneBlock

variable {digest : Digest} {crc : BitVec 32} {slices : List Par2Slice} {files : List RepairFile}
  {content : Bytes}

theorem oneBlock_genuine (size : content.length = 4) (names : (files.map RepairFile.name).Nodup)
    (paths : (files.map RepairFile.path).Nodup) (fits : ∀ s ∈ slices, s.exponent = 0 ∧
      4 ≤ s.dataOffset ∧ ∀ file ∈ files, file.name = "a" → s.path ≠ file.path) :
    Genuine (oneBlockSet digest crc slices) files (fun _ => content)
      (zeroExponentBody content) where
  blockSize_pos := (by decide : (0 : ℤ) < 4)
  blockSize_dvd := dvd_refl (4 : ℤ)
  length_eq pf member := by
    rw [mem_singleton.mp member, size]
    rfl
  length_pos pf member := by
    rw [mem_singleton.mp member]
    exact (by decide : (0 : ℤ) < 4)
  blockCount_eq pf member := by
    rw [mem_singleton.mp member]
    rfl
  recoveryNames := nodup_singleton "a"
  names := names
  paths := paths
  order := ⟨(oneBlockSet digest crc slices).files, List.Perm.refl _, rfl, rfl⟩
  slice_data s member _ := by
    obtain ⟨zero, -, -⟩ := fits s member
    refine ⟨by rw [zero]; decide, by simp [zeroExponentBody, size, oneBlockSet], fun v inside => ?_⟩
    obtain ⟨a, b, c, d, rfl⟩ : ∃ a b c d, content = [a, b, c, d] := by
      match content, size with
      | [a, b, c, d], _ => exact ⟨a, b, c, d, rfl⟩
    change Galois16.mk (wordAt [a, b, c, d] v) = ∑ g ∈ Finset.range 1,
      Galois16.mk (blockBase g) ^ s.exponent.toNat *
        ⟨wordAt (sourceBlock (oneBlockSet digest crc slices) (fun _ => [a, b, c, d]) g) v⟩
    rw [Finset.sum_range_one, zero]
    exact (one_mul _).symm
  slice_offset s member := (fits s member).2.1
  slice_path s member pf inSet file inFiles name := by
    rw [mem_singleton.mp inSet] at name
    exact (fits s member).2.2 file inFiles name

theorem oneBlock_accepts (size : content.length = 4)
    (whole : ∀ data, env.md5 data = digest → data = content)
    (slice : ∀ s ∈ slices, ∀ data, env.md5 data = s.hash →
      data = s.headerTail ++ zeroExponentBody content s) :
    Accepts env (oneBlockSet digest crc slices) (fun _ => content) (zeroExponentBody content) where
  block pf member md5s entries k bound block _ hashed := by
    rw [mem_singleton.mp member] at entries bound
    cases entries
    obtain rfl : k = 0 := lt_one_iff.mp bound
    rw [whole block hashed]
    match content, size with
    | [_, _, _, _], _ => rfl
  file pf member data hashed := by
    rw [mem_singleton.mp member] at hashed
    exact whole data hashed
  slice s member body hashed := append_cancel_left (slice s member _ hashed)

end OneBlock

/-! ## An over-long file

Four zero bytes, damaged on disk and one byte too long, with one recovery slice.
The digests are those MD5 has for the byte strings of this run. -/

def overlongTail : Bytes :=
  replicate 16 0 ++ [80, 65, 82, 32, 50, 46, 48, 0, 82, 101, 99, 118, 83, 108, 105, 99]

def overlongBlockDigest : Digest := 0xf1d3ff8443297732862df21dc4e57262

def overlongSliceDigest : Digest := 0xd709b7dc224a60d4ae05c369d72e7088

def overlongEnv (stuck : Bool) : Env :=
  { withoutFailure fun data =>
      if data = replicate 4 0 then overlongBlockDigest
      else if data = overlongTail ++ replicate 8 0 then overlongSliceDigest
      else 0 with
    truncateFails := fun _ => stuck }

def overlongSet : Par2Set :=
  oneBlockSet overlongBlockDigest 0x2144DF1C
    [⟨"/t/v.par2", 68, 4, 0, overlongSliceDigest, overlongTail⟩]

def overlongFiles : List RepairFile :=
  [⟨"a", "/t/a"⟩]

def overlongWorld : World where
  disk path :=
    if path = "/t/a" then some [9, 9, 9, 9, 7]
    else if path = "/t/v.par2" then some (replicate 64 0 ++ replicate 8 0)
    else none
  clock := 0

theorem overlong_genuine : Genuine overlongSet overlongFiles (fun _ => replicate 4 0)
    (zeroExponentBody (replicate 4 0)) :=
  oneBlock_genuine rfl (by decide) (by decide) (by decide)

theorem overlong_accepts (stuck : Bool) : Accepts (overlongEnv stuck) overlongSet
    (fun _ => replicate 4 0) (zeroExponentBody (replicate 4 0)) := by
  refine oneBlock_accepts rfl (fun data hashed => ?_) fun s member data hashed => ?_
  · simp only [overlongEnv, withoutFailure] at hashed
    split_ifs at hashed with block
    · exact block
    · exact absurd hashed (by decide)
    · exact absurd hashed (by decide)
  · rw [mem_singleton.mp member] at hashed ⊢
    simp only [overlongEnv, withoutFailure] at hashed
    split_ifs at hashed with _ body
    · exact absurd hashed (by decide)
    · exact body
    · exact absurd hashed (by decide)

theorem overlong_scan (stuck : Bool) : ∃ resolved present scanned,
    Returns (findDamage (overlongEnv stuck) overlongSet overlongFiles) overlongWorld
      (resolved, present) scanned ∧
        ∃ g < overlongSet.sourceBlockCount.toNat, present g = false := by
  have passed : endsWith (findDamage (overlongEnv stuck) overlongSet overlongFiles) overlongWorld
      (fun found _ => !found.2 0) = true := by
    cases stuck <;> decide +kernel
  obtain ⟨⟨resolved, present⟩, scanned, returns, missing⟩ := exists_returns_of_endsWith passed
  exact ⟨resolved, present, scanned, returns, 0, by decide, by simpa using missing⟩

theorem par2RepairSet_overlong :
    ¬∀ (env : Env) (set : Par2Set) (files : List RepairFile) (original : String → Bytes)
      (sliceBody : Par2Slice → Bytes) (w scanned w' : World)
      (resolved : List (Par2File × String)) (present : ℕ → Bool),
      Genuine set files original sliceBody → Accepts env set original sliceBody →
      Returns (findDamage env set files) w (resolved, present) scanned →
      (∃ g < set.sourceBlockCount.toNat, present g = false) →
      Returns (par2RepairSet env set files) w () w' →
      ∀ pf ∈ recoveryFiles set, ∀ file ∈ files, file.name = pf.name →
        w'.disk file.path = some (original pf.name) := by
  intro claim
  obtain ⟨resolved, present, scanned, scan, damaged⟩ := overlong_scan true
  have passed : endsWith (par2RepairSet (overlongEnv true) overlongSet overlongFiles)
      overlongWorld (fun _ w' => w'.disk "/t/a" = some [0, 0, 0, 0, 7]) = true := by
    decide +kernel
  obtain ⟨_, w', returns, tooLong⟩ := exists_returns_of_endsWith passed
  have exactly := claim _ _ _ _ _ _ _ _ _ _ overlong_genuine (overlong_accepts true) scan damaged
    returns _ (mem_singleton_self _) _ (mem_singleton_self _) rfl
  have found : w'.disk "/t/a" = some [0, 0, 0, 0, 7] := by simpa using tooLong
  exact absurd (found.symm.trans exactly) (by decide)

theorem par2RepairSet_restores_overlong : ∃ w',
    Returns (par2RepairSet (overlongEnv false) overlongSet overlongFiles) overlongWorld () w' ∧
      w'.disk "/t/a" = some (replicate 4 0) := by
  obtain ⟨resolved, present, scanned, scan, damaged⟩ := overlong_scan false
  have passed : endsWith (par2RepairSet (overlongEnv false) overlongSet overlongFiles)
      overlongWorld (fun _ _ => true) = true := by
    decide +kernel
  obtain ⟨_, w', returns, _⟩ := exists_returns_of_endsWith passed
  obtain ⟨content, found, _, exactly⟩ := par2RepairSet_restores overlong_genuine
    (overlong_accepts false) scan damaged returns _ (mem_singleton_self _) _
    (mem_singleton_self _) rfl
  exact ⟨w', returns, by rw [found, exactly rfl rfl]⟩

end NzbDownloader.Par2
