import NzbDownloader.Par2.Repair

/-!
# Genuine recovery sets

What a recovery set states about the original files: the block ranges of its files
follow one another, every block is a zero-padded piece of an original, and every
recovery slice combines all blocks word by word.
-/

namespace NzbDownloader.Par2

open Lib

def paddedBlock (blockSize : ℕ) (content : Bytes) (k : ℕ) : Bytes :=
  padTo blockSize (readAt content (k * blockSize) blockSize)

theorem byteAt_paddedBlock {blockSize j : ℕ} (content : Bytes) (k : ℕ) (inside : j < blockSize) :
    byteAt (paddedBlock blockSize content k) j = byteAt content (k * blockSize + j) := by
  rw [paddedBlock, byteAt_padTo, byteAt_readAt inside]

def Par2File.Owns (pf : Par2File) (g : ℕ) : Prop :=
  pf.globalBlockStart ≤ g ∧ (g : ℤ) < pf.globalBlockStart + pf.blockCount

instance (pf : Par2File) (g : ℕ) : Decidable (pf.Owns g) :=
  inferInstanceAs (Decidable (_ ∧ _))

def Par2File.localIndex (pf : Par2File) (g : ℕ) : ℕ :=
  (g - pf.globalBlockStart).toNat

def sourceBlock (set : Par2Set) (original : String → Bytes) (g : ℕ) : Bytes :=
  match (recoveryFiles set).find? (·.Owns g) with
  | some pf => paddedBlock set.blockSize.toNat (original pf.name) (pf.localIndex g)
  | none => []

def Consecutive : ℤ → List Par2File → ℤ → Prop
  | start, [], stop => start = stop
  | start, pf :: rest, stop =>
      pf.globalBlockStart = start ∧ Consecutive (start + pf.blockCount) rest stop

/-- The layout of the set is the one its originals were split into.  The files
of the set are `files` entries of the same name; `sliceBody` is the exponent
field and data of a slice as they were created. -/
structure Genuine (set : Par2Set) (files : List RepairFile) (original : String → Bytes)
    (sliceBody : Par2Slice → Bytes) : Prop where
  blockSize_pos : 0 < set.blockSize
  blockSize_dvd : 4 ∣ set.blockSize
  length_eq : ∀ pf ∈ recoveryFiles set, pf.length = (original pf.name).length
  length_pos : ∀ pf ∈ recoveryFiles set, 0 < pf.length
  blockCount_eq : ∀ pf ∈ recoveryFiles set,
    (pf.blockCount : ℤ) = (pf.length + set.blockSize - 1) / set.blockSize
  recoveryNames : ((recoveryFiles set).map Par2File.name).Nodup
  names : (files.map RepairFile.name).Nodup
  paths : (files.map RepairFile.path).Nodup
  order : ∃ order, order.Perm (recoveryFiles set) ∧ Consecutive 0 order set.sourceBlockCount
  slice_data : ∀ s ∈ set.slices, s.dataLen = set.blockSize →
    s.exponent.toNat < 65536 ∧ (sliceBody s).length = 4 + set.blockSize.toNat ∧
      ∀ w, 2 * w + 1 < set.blockSize.toNat →
        Galois16.mk (wordAt ((sliceBody s).drop 4) w) =
          ∑ g ∈ Finset.range set.sourceBlockCount.toNat,
            Galois16.mk (blockBase g) ^ s.exponent.toNat *
              ⟨wordAt (sourceBlock set original g) w⟩
  slice_offset : ∀ s ∈ set.slices, 4 ≤ s.dataOffset
  slice_path : ∀ s ∈ set.slices, ∀ pf ∈ recoveryFiles set, ∀ file ∈ files,
    file.name = pf.name → s.path ≠ file.path

structure Accepts (env : Env) (set : Par2Set) (original : String → Bytes)
    (sliceBody : Par2Slice → Bytes) : Prop where
  block : ∀ pf ∈ recoveryFiles set, ∀ md5s, pf.blockMd5 = some md5s → ∀ k < pf.blockCount,
    ∀ block, Util.crc32 block = pf.blockCrc32.getD k 0 → env.md5 block = md5s.getD k 0 →
      block = paddedBlock set.blockSize.toNat (original pf.name) k
  file : ∀ pf ∈ recoveryFiles set, ∀ content, env.md5 content = pf.hashFull →
    content = original pf.name
  slice : ∀ s ∈ set.slices, ∀ body, env.md5 (s.headerTail ++ body) = s.hash →
    body = sliceBody s

variable {pf : Par2File} {g : ℕ}

theorem Consecutive.start_le {start stop : ℤ} {order : List Par2File}
    (consecutive : Consecutive start order stop) (member : pf ∈ order) :
    start ≤ pf.globalBlockStart := by
  induction order generalizing start with
  | nil => contradiction
  | cons first rest ih =>
    obtain ⟨here, later⟩ := consecutive
    rcases List.mem_cons.mp member with rfl | inRest
    · omega
    · have := ih later inRest
      omega

theorem Consecutive.owner_unique {start stop : ℤ} {order : List Par2File}
    (consecutive : Consecutive start order stop) {a b : Par2File} (memberA : a ∈ order)
    (memberB : b ∈ order) (ownsA : a.Owns g) (ownsB : b.Owns g) : a = b := by
  induction order generalizing start with
  | nil => contradiction
  | cons first rest ih =>
    obtain ⟨here, later⟩ := consecutive
    unfold Par2File.Owns at ownsA ownsB
    rcases List.mem_cons.mp memberA with rfl | restA <;>
      rcases List.mem_cons.mp memberB with rfl | restB
    · rfl
    · have := later.start_le restB
      omega
    · have := later.start_le restA
      omega
    · exact ih later restA restB

namespace Genuine

variable {set : Par2Set} {files : List RepairFile} {original : String → Bytes}
  {sliceBody : Par2Slice → Bytes}

theorem owner_unique (genuine : Genuine set files original sliceBody) {a b : Par2File}
    (memberA : a ∈ recoveryFiles set) (memberB : b ∈ recoveryFiles set) (ownsA : a.Owns g)
    (ownsB : b.Owns g) : a = b := by
  obtain ⟨order, perm, consecutive⟩ := genuine.order
  exact consecutive.owner_unique (perm.mem_iff.mpr memberA) (perm.mem_iff.mpr memberB) ownsA ownsB

section

variable (genuine : Genuine set files original sliceBody) (member : pf ∈ recoveryFiles set)

include genuine member

theorem owned_lt (owns : pf.Owns g) : g < set.sourceBlockCount.toNat := by
  obtain ⟨order, perm, consecutive⟩ := genuine.order
  suffices ∀ {start stop : ℤ} {order : List Par2File}, Consecutive start order stop →
      pf ∈ order → (g : ℤ) < stop by
    have := this consecutive (perm.mem_iff.mpr member)
    omega
  intro start stop order
  induction order generalizing start with
  | nil => exact fun _ absurd => nomatch absurd
  | cons first rest ih =>
    rintro ⟨here, later⟩ inOrder
    rcases List.mem_cons.mp inOrder with rfl | inRest
    · -- The ranges after this file end at `stop`, which is not before its own end.
      have ends : ∀ {s : ℤ} {files : List Par2File}, Consecutive s files stop → s ≤ stop := by
        intro s files
        induction files generalizing s with
        | nil => exact fun same => le_of_eq same
        | cons _ _ ih =>
          rintro ⟨_, rest⟩
          have := ih rest
          omega
      have := ends later
      unfold Par2File.Owns at owns
      omega
    · exact ih later inRest

theorem byteAt_sourceBlock {j : ℕ} (owns : pf.Owns g) (inside : j < set.blockSize.toNat) :
    byteAt (sourceBlock set original g) j =
      byteAt (original pf.name) (pf.localIndex g * set.blockSize.toNat + j) := by
  unfold sourceBlock
  cases found : (recoveryFiles set).find? (·.Owns g) with
  | none =>
    have none := List.find?_eq_none.mp found pf member
    simp [owns] at none
  | some owner =>
    have ownerOwns : owner.Owns g := by simpa using List.find?_some found
    have same := genuine.owner_unique (List.mem_of_find?_eq_some found) member ownerOwns owns
    subst same
    exact byteAt_paddedBlock _ _ inside

theorem exists_block {i : ℕ} (inside : (i : ℤ) < pf.length) :
    ∃ g j, pf.Owns g ∧ j < set.blockSize.toNat ∧ i = pf.localIndex g * set.blockSize.toNat + j := by
  have positive := genuine.blockSize_pos
  have count := genuine.blockCount_eq pf member
  obtain ⟨order, perm, consecutive⟩ := genuine.order
  have start := consecutive.start_le (perm.mem_iff.mpr member)
  obtain ⟨bs, sizeEq⟩ : ∃ bs : ℕ, set.blockSize = bs := ⟨_, (Int.toNat_of_nonneg (by omega)).symm⟩
  have bsPos : 0 < bs := by omega
  have divided := Nat.div_add_mod i bs
  have remainder := Nat.mod_lt i bsPos
  generalize i / bs = q at divided
  have below : q < pf.blockCount := by
    have quotient : (bs : ℤ) * ((pf.length + bs - 1) / bs) > pf.length - 1 := by
      have := Int.emod_add_mul_ediv (pf.length + bs - 1) bs
      have := Int.emod_lt_of_pos (pf.length + bs - 1) (b := bs) (by omega)
      omega
    rw [sizeEq] at count
    rw [← count] at quotient
    by_contra notBelow
    have : bs * pf.blockCount ≤ bs * q := Nat.mul_le_mul_left bs (by omega)
    omega
  refine ⟨(pf.globalBlockStart + q).toNat, i % bs, ?_, ?_, ?_⟩
  · unfold Par2File.Owns
    omega
  · rw [sizeEq]
    simpa using remainder
  have index : pf.localIndex (pf.globalBlockStart + q).toNat = q := by
    unfold Par2File.localIndex
    omega
  rw [index, sizeEq, Int.toNat_natCast, Nat.mul_comm]
  exact divided.symm

end

end Genuine

end NzbDownloader.Par2
