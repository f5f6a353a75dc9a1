import NzbDownloader.Extract.Rar5Consistent

/-!
# The size of a RAR5 header

What `read_and_decrypt_header` of `extract/rar5_crypt.c` computes from the first block of a
header: its length, how much memory it allocates, and the part that the checksum covers.
-/

namespace NzbDownloader.Extract

open Lib Lib.Effect Util

structure HeaderSizes where
  sizeBytes : ℕ
  outLen : ℕ
  allocated : ℕ
  hashed : ℕ
  deriving DecidableEq

def headerSizes (firstPt : Bytes) : Option HeaderSizes :=
  let (blockSize, pos) := getVint firstPt 16 4
  let sizeBytes := pos - 4
  if blockSize = 0 ∨ sizeBytes = 0 then none
  else
    let totalHeader := (4 + sizeBytes + blockSize) % 2 ^ 64
    if totalHeader > maxHeaderSize then none
    else some
      { sizeBytes := sizeBytes
        outLen := totalHeader
        allocated := max 16 (wholeBlocks ((totalHeader + 15) % 2 ^ 64))
        hashed := (totalHeader + (2 ^ 64 - 4)) % 2 ^ 64 }

/-- The header is no shorter than the fields it starts with, no longer than the
limit and the memory, and the checksum covers it from offset 4 to its end. -/
structure HeaderSizes.Bounded (sizes : HeaderSizes) : Prop where
  fields : 4 + sizes.sizeBytes ≤ sizes.outLen
  limit : sizes.outLen ≤ maxHeaderSize
  memory : sizes.outLen ≤ sizes.allocated
  checksum : 4 + sizes.hashed = sizes.outLen

def SizeFits (firstPt : Bytes) : Prop :=
  4 + ((getVint firstPt 16 4).2 - 4) + (getVint firstPt 16 4).1 < 2 ^ 64

instance (firstPt : Bytes) : Decidable (SizeFits firstPt) := by
  unfold SizeFits
  infer_instance

theorem bounded_iff_sizeFits {firstPt : Bytes} {sizes : HeaderSizes}
    (passes : headerSizes firstPt = some sizes) : sizes.Bounded ↔ SizeFits firstPt := by
  have value := @getVint_lt firstPt 16 4
  unfold headerSizes at passes
  unfold SizeFits
  generalize getVint firstPt 16 4 = field at *
  obtain ⟨blockSize, pos⟩ := field
  dsimp only at *
  split at passes
  · contradiction
  split at passes
  · contradiction
  rename_i withinLimit
  cases passes
  have limit : maxHeaderSize < 2 ^ 32 := by decide
  constructor
  · rintro ⟨fields, _, _, _⟩
    dsimp only at fields
    omega
  · intro fits
    rw [Nat.mod_eq_of_lt fits] at withinLimit ⊢
    have whole := length_le_wholeBlocks (4 + (pos - 4) + blockSize)
    refine ⟨?_, ?_, ?_, ?_⟩ <;> dsimp only
    · omega
    · omega
    · rw [Nat.mod_eq_of_lt (by omega : 4 + (pos - 4) + blockSize + 15 < 2 ^ 64)]
      exact whole
    · omega

variable {message : String}

section Read

variable {env : CryptEnv} {key : Bytes} {v v' : Vol}

def firstPlain (env : CryptEnv) (key : Bytes) (v : Vol) : Bytes :=
  env.cipher.decrypt key (v.input.take 16) ((v.input.drop 16).take 16)

def ComesToChecksum (env : CryptEnv) (key : Bytes) (v : Vol) : Prop :=
  (∃ out v', Returns (readAndDecryptHeader env key) v out v') ∨
    ∃ v', Fails (readAndDecryptHeader env key) v .lost v'

theorem fail_not_lost {α : Type} : ¬Fails (fail env message : ReadM α) v .lost v' := by
  intro fails
  rcases fails_bind.mp fails with never | ⟨_, _, _, thrown⟩
  · cases never
  · cases (fails_throw.mp thrown).1

theorem tryCall_not_lost : ¬Fails (tryCall env message) v .lost v' := by
  intro fails
  rcases fails_bind.mp fails with never | ⟨_, _, _, rest⟩
  · cases never
  rcases fails_bind.mp rest with never | ⟨_, _, _, rest⟩
  · cases never
  split at rest
  · exact fails_pure rest
  · exact fail_not_lost rest

theorem freadExact_not_lost {n : ℕ} : ¬Fails (freadExact env n message) v .lost v' := by
  intro fails
  rcases fails_bind.mp fails with never | ⟨_, _, _, rest⟩
  · cases never
  split at rest
  · exact fail_not_lost rest
  · rcases fails_bind.mp rest with never | ⟨_, _, _, done⟩
    · cases never
    · exact fails_pure done

theorem aes256cbcDecrypt_not_lost {iv data : Bytes} :
    ¬Fails (aes256cbcDecrypt env key iv data) v .lost v' := by
  intro fails
  rcases fails_bind.mp fails with called | ⟨_, _, _, done⟩
  · exact tryCall_not_lost called
  · exact fails_pure done

theorem firstPlain_eq {iv first : Bytes} {v₁ v₂ : Vol} {message' : String}
    (readIv : Returns (freadExact env 16 message) v iv v₁)
    (readFirst : Returns (freadExact env 16 message') v₁ first v₂) :
    firstPlain env key v = env.cipher.decrypt key iv first := by
  obtain ⟨ivLength, input₁, _⟩ := freadExact_spec readIv
  obtain ⟨firstLength, input₂, _⟩ := freadExact_spec readFirst
  rw [firstPlain, input₁, input₂, List.take_left' ivLength, List.drop_left' ivLength,
    List.take_left' firstLength]

theorem headerSizes_of_checks {firstPt : Bytes}
    (sized : ¬((getVint firstPt 16 4).1 = 0 ∨ (getVint firstPt 16 4).2 - 4 = 0))
    (withinLimit : ¬(4 + ((getVint firstPt 16 4).2 - 4) + (getVint firstPt 16 4).1) % 2 ^ 64 >
      maxHeaderSize) :
    ∃ sizes, headerSizes firstPt = some sizes ∧
      sizes.outLen = (4 + ((getVint firstPt 16 4).2 - 4) + (getVint firstPt 16 4).1) % 2 ^ 64 := by
  unfold headerSizes
  dsimp only
  rw [if_neg sized, if_neg withinLimit]
  exact ⟨_, rfl, rfl⟩

theorem headerSizes_of_returns {pt : Bytes} {crcOk : Bool}
    (returns : Returns (readAndDecryptHeader env key) v (pt, crcOk) v') :
    ∃ sizes, headerSizes (firstPlain env key v) = some sizes ∧ pt.length = sizes.outLen := by
  obtain ⟨iv, v₁, readIv, returns⟩ := returns_bind.mp returns
  obtain ⟨first, v₂, readFirst, returns⟩ := returns_bind.mp returns
  obtain ⟨firstPt, v₃, decryptedFirst, returns⟩ := returns_bind.mp returns
  obtain ⟨rfl, _⟩ := aes256cbcDecrypt_spec decryptedFirst
  rw [← firstPlain_eq readIv readFirst] at returns
  dsimp only at returns
  split at returns
  · exact absurd returns fail_spec
  rename_i sized
  split at returns
  · exact absurd returns fail_spec
  rename_i withinLimit
  obtain ⟨sizes, passes, outLen⟩ := headerSizes_of_checks sized withinLimit
  rw [← outLen] at returns
  obtain ⟨_, v₄, _, returns⟩ := returns_bind.mp returns
  obtain ⟨more, v₅, readMore, returns⟩ := returns_bind.mp returns
  obtain ⟨plain, v₆, decrypted, returns⟩ := returns_bind.mp returns
  obtain ⟨rfl, _⟩ := aes256cbcDecrypt_spec decrypted
  split at returns
  · exact absurd returns returns_throw
  obtain ⟨result, rfl⟩ := returns_pure.mp returns
  cases result
  refine ⟨sizes, passes, ?_⟩
  have firstLength := (freadExact_spec readFirst).1
  have moreLength := (freadExact_spec readMore).1
  have blocks : (first ++ more).length = max 16 (wholeBlocks (sizes.outLen + 15)) := by
    rw [List.length_append, firstLength, moreLength]
    omega
  rw [List.length_take, env.cipher.length_decrypt _ _ _ (blocks ▸ dvd_wholeBlocks _), blocks]
  exact min_eq_left (length_le_wholeBlocks sizes.outLen)

theorem headerSizes_of_lost (lost : Fails (readAndDecryptHeader env key) v .lost v') :
    ∃ sizes, headerSizes (firstPlain env key v) = some sizes ∧ sizes.outLen < 4 := by
  rcases fails_bind.mp lost with failed | ⟨iv, v₁, readIv, lost⟩
  · exact absurd failed freadExact_not_lost
  rcases fails_bind.mp lost with failed | ⟨first, v₂, readFirst, lost⟩
  · exact absurd failed freadExact_not_lost
  rcases fails_bind.mp lost with failed | ⟨firstPt, v₃, decryptedFirst, lost⟩
  · exact absurd failed aes256cbcDecrypt_not_lost
  obtain ⟨rfl, _⟩ := aes256cbcDecrypt_spec decryptedFirst
  rw [← firstPlain_eq readIv readFirst] at lost
  dsimp only at lost
  split at lost
  · exact absurd lost fail_not_lost
  rename_i sized
  split at lost
  · exact absurd lost fail_not_lost
  rename_i withinLimit
  obtain ⟨sizes, passes, outLen⟩ := headerSizes_of_checks sized withinLimit
  rw [← outLen] at lost
  rcases fails_bind.mp lost with failed | ⟨_, v₄, _, lost⟩
  · exact absurd failed tryCall_not_lost
  rcases fails_bind.mp lost with failed | ⟨more, v₅, _, lost⟩
  · exact absurd failed freadExact_not_lost
  rcases fails_bind.mp lost with failed | ⟨plain, v₆, _, lost⟩
  · exact absurd failed aes256cbcDecrypt_not_lost
  split at lost
  · rename_i short
    exact ⟨sizes, passes, short⟩
  · exact absurd lost fails_pure

/-- The lengths with which a call comes to the checksum are bounded exactly if the
sum of the size field and the fields before the type fits 64 bits; the header that
it returns has the computed length. -/
theorem readAndDecryptHeader_bounded_iff (comes : ComesToChecksum env key v) :
    ∃ sizes, headerSizes (firstPlain env key v) = some sizes ∧
      (∀ pt crcOk v', Returns (readAndDecryptHeader env key) v (pt, crcOk) v' →
        pt.length = sizes.outLen) ∧
      (sizes.Bounded ↔ SizeFits (firstPlain env key v)) := by
  have passed : ∃ sizes, headerSizes (firstPlain env key v) = some sizes := by
    rcases comes with ⟨⟨pt, crcOk⟩, v', returns⟩ | ⟨v', lost⟩
    · exact (headerSizes_of_returns returns).imp fun _ found => found.1
    · exact (headerSizes_of_lost lost).imp fun _ found => found.1
  obtain ⟨sizes, passes⟩ := passed
  refine ⟨sizes, passes, fun pt crcOk v' returns => ?_, bounded_iff_sizeFits passes⟩
  obtain ⟨same, again, length⟩ := headerSizes_of_returns returns
  cases passes.symm.trans again
  exact length

end Read

def wrappedVolume : Bytes :=
  List.replicate 20 0 ++ [0xFF, 0xFF, 0xFF, 0xFF, 0xFF, 0xFF, 0xFF, 0xFF, 0xFF, 0x01, 0x00, 0x00]

def emptyVolume : Bytes :=
  List.replicate 20 0 ++ [0xF2, 0xFF, 0xFF, 0xFF, 0xFF, 0xFF, 0xFF, 0xFF, 0xFF, 0x01, 0x00, 0x00]

/-- A header of 13 bytes is returned that starts with 14 bytes of fields; with
another size field the checksum covers `2 ^ 64 - 4` bytes. -/
theorem wrapped_size_too_short :
    (∃ pt crcOk v' sizes,
      Returns (readAndDecryptHeader (calm identityCipher) []) (volumeOf wrappedVolume)
        (pt, crcOk) v' ∧
      headerSizes (firstPlain (calm identityCipher) [] (volumeOf wrappedVolume)) = some sizes ∧
      pt.length = sizes.outLen ∧ sizes.outLen < 4 + sizes.sizeBytes) ∧
    ∃ v' sizes,
      Fails (readAndDecryptHeader (calm identityCipher) []) (volumeOf emptyVolume) .lost v' ∧
      headerSizes (firstPlain (calm identityCipher) [] (volumeOf emptyVolume)) = some sizes ∧
      sizes.hashed = 2 ^ 64 - 4 ∧ sizes.allocated = 16 := by
  constructor
  · have passed : endsWith (readAndDecryptHeader (calm identityCipher) [])
        (volumeOf wrappedVolume) (fun _ _ => true) = true := by
      decide +kernel
    obtain ⟨⟨pt, crcOk⟩, v', returns, _⟩ := exists_returns_of_endsWith passed
    obtain ⟨sizes, passes, length⟩ := headerSizes_of_returns returns
    refine ⟨pt, crcOk, v', sizes, returns, passes, length, ?_⟩
    have known : headerSizes (firstPlain (calm identityCipher) [] (volumeOf wrappedVolume)) =
        some ⟨10, 13, 16, 9⟩ := by rfl
    cases passes.symm.trans known
    decide
  · have failed : failsWith (readAndDecryptHeader (calm identityCipher) [])
        (volumeOf emptyVolume) (· = .lost) = true := by
      decide +kernel
    obtain ⟨e, v', fails, lost⟩ := exists_fails_of_failsWith failed
    obtain rfl := of_decide_eq_true lost
    exact ⟨v', ⟨10, 0, 16, 2 ^ 64 - 4⟩, fails, by decide +kernel, rfl, rfl⟩

theorem readAndDecryptHeader_bounded_file :
    ∃ sizes, headerSizes (firstPlain (calm identityCipher) [] (volumeOf fileVolume)) = some sizes ∧
      sizes.Bounded := by
  have passed : endsWith (readAndDecryptHeader (calm identityCipher) []) (volumeOf fileVolume)
      (fun _ _ => true) = true := by
    decide +kernel
  obtain ⟨out, v', returns, _⟩ := exists_returns_of_endsWith passed
  obtain ⟨sizes, passes, _, bounded⟩ := readAndDecryptHeader_bounded_iff (.inl ⟨out, v', returns⟩)
  exact ⟨sizes, passes, bounded.mpr (by decide)⟩

end NzbDownloader.Extract
