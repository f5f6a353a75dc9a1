import NzbDownloader.Extract.Rar5Entries

/-!
# The decrypted stream is self-consistent

What the callback returns over all calls is the signature and, for each header of
the volume, a header with a fitting checksum followed by as many bytes as its
PackSize says.
-/

namespace NzbDownloader.Extract

open Lib Lib.Effect Util List Header

structure StreamEntry.Consistent (e : StreamEntry) : Prop where
  length : e.emitted.length = e.decrypted.length
  crc : Header.CrcMatches e.emitted
  type : type e.emitted = type e.decrypted
  flags : flags e.emitted = flags e.decrypted
  extraSize : extraSize e.emitted = extraSize e.decrypted
  data : e.data.length = dataSize e.emitted

def SelfConsistent (cipher : Cipher) (key input stream : Bytes) : Prop :=
  ∃ entries, stream = rar5Sig ++ render entries ∧
    Layout cipher key input (entries.map (·.decrypted)) ∧ ∀ e ∈ entries, e.Consistent

def cappedSize (pt : Bytes) (cap : ℕ) : ℕ :=
  if cap = uint64Max then dataSize pt else cap

def Emits (env : CryptEnv) (e : StreamEntry) : Prop :=
  ∃ crypt cap, Rewriting env e.decrypted crypt cap ∧
    e.emitted = rewriteHeader e.decrypted crypt cap ∧
    e.data.length = cappedSize e.decrypted cap ∧
    (crypt.isSome = true → 16 ∣ dataSize e.decrypted)

def Remains (env : CryptEnv) (key input : Bytes) (entries : List StreamEntry) : Prop :=
  Layout env.cipher key input (entries.map (·.decrypted)) ∧ ∀ e ∈ entries, Emits env e

section Entries

variable {env : CryptEnv} {key password input rest : Bytes} {split split' : SplitState} {e : VolEntry}
  {entries : List VolEntry}

theorem Emits.consistent {e : StreamEntry} (emits : Emits env e) (inside : AreasInside e.decrypted) :
    e.Consistent := by
  obtain ⟨crypt, cap, rewriting, emitted, data, whole⟩ := emits
  have outside : Outside e.decrypted crypt := by
    rintro record rfl
    obtain ⟨named, found⟩ := rewriting.found record rfl
    obtain ⟨before, apart⟩ := fieldIdPos_outside rewriting.credible.bounded inside named
      rewriting.credible.sized found
    have blocks := whole rfl
    exact ⟨before, by omega⟩
  obtain ⟨length, crc, type, flags, extraSize, dataSize⟩ :=
    rewriteHeader_spec rewriting.credible.long rewriting.crc outside rewriting.capped
  rw [← emitted] at length crc type flags extraSize dataSize
  exact ⟨length, crc, type, flags, extraSize, data.trans dataSize.symm⟩

section

variable (read : e.ReadFrom env key password split input rest split')

include read

theorem VolEntry.ReadFrom.length_data : e.data.length = cappedSize e.header e.cap := by
  have bound := dataSize_le e.header
  have below := read.rewriting.capped
  rw [VolEntry.data, length_take, read.length_plain, cappedSize]
  split <;> omega

theorem VolEntry.ReadFrom.emits : Emits env (e.stream) :=
  ⟨e.crypt, e.cap, read.rewriting, rfl, read.length_data, read.blocks⟩

theorem VolEntry.ReadFrom.dataSize_le : dataSize e.header ≤ (e.packed ++ rest).length := by
  rw [← read.packed, length_append]
  exact Nat.le_add_right _ _

end

theorem Serves.remains (serves : Serves env key password split input entries split') :
    Remains env key input (entries.map (VolEntry.stream)) := by
  induction serves with
  | eof => exact ⟨.eof, forall_mem_nil _⟩
  | last read endarc =>
    exact ⟨.last read.headerAt endarc read.dataSize_le, forall_mem_singleton.mpr read.emits⟩
  | next read other _ ih =>
    have later := ih.1
    rw [← read.drop_dataSize] at later
    exact ⟨.next read.headerAt other read.dataSize_le later,
      forall_mem_cons.mpr ⟨read.emits, ih.2⟩⟩

end Entries

/-- Whatever a sequence of calls returns until the end of the stream is the
signature and the entries of the volume, each with a header that fits its data. -/
theorem selfConsistent_of_calls {env : CryptEnv} {v v' : Vol} {chunks : List Bytes}
    (forward : env.cipher.Forward) (opened : Opened v)
    (inside : ∀ headers, Layout env.cipher v.archiveKey v.input headers →
      ∀ pt ∈ headers, AreasInside pt)
    (calls : Calls env v (chunks ++ [[]]) v') :
    SelfConsistent env.cipher v.archiveKey v.input chunks.flatten := by
  obtain ⟨entries, stream, serves⟩ := serves_of_calls forward opened calls
  obtain ⟨layout, emits⟩ := serves.remains
  refine ⟨_, stream, layout, fun e member => ?_⟩
  exact (emits e member).consistent (inside _ layout _ (mem_map_of_mem member))

def calm (cipher : Cipher) : CryptEnv where
  cipher := cipher
  deriveKey _ _ _ := []
  fails _ := false
  rounds := 8
  path := "film.part1.rar"

def volumeOf (input : Bytes) : Vol where
  input := input
  archiveKey := []
  confirmedPassword := []
  splitState := ⟨false, 0, 0⟩
  done := false
  wroteSig := false
  inFiledata := false
  dataRemaining := 0
  writeCap := 0
  emittedThisEntry := 0
  haveFileCrypt := false
  endarcPending := false
  fileCtx := none
  clock := 0

theorem opened_volumeOf (input : Bytes) : Opened (volumeOf input) :=
  ⟨rfl, rfl, rfl⟩

def identityCipher : Cipher :=
  ⟨fun _ _ data => data, fun _ _ _ _ => rfl⟩

def fileHeader (crc : Bytes) (packSize id : Byte) : Bytes :=
  crc ++ [0x30, 2, 3, 37, packSize, 0, 5, 0, 0, 0, 1, 0x61, 0x24, id] ++ replicate 35 0

def endHeader : Bytes :=
  [0x19, 0xb2, 0x3a, 0x35, 3, 5, 0, 0]

def fileVolume : Bytes :=
  replicate 16 0 ++ fileHeader [0x7c, 0x71, 0x6f, 0x0c] 16 1 ++ replicate 11 0 ++
    [1, 2, 3, 4, 5] ++ replicate 11 0 ++ replicate 16 0 ++ endHeader ++
    replicate 8 0

theorem selfConsistent_of_calls_file :
    SelfConsistent identityCipher [] fileVolume
      (rar5Sig ++ fileHeader [0xea, 0x00, 0x69, 0xd3] 5 0x40 ++ [1, 2, 3, 4, 5] ++ endHeader) := by
  have executed : (readCalls (calm identityCipher) 5 (volumeOf fileVolume)).map Prod.fst =
      some ([rar5Sig, fileHeader [0xea, 0x00, 0x69, 0xd3] 5 0x40, [1, 2, 3, 4, 5], endHeader] ++
        [[]]) := by
    decide +kernel
  obtain ⟨v', calls⟩ := exists_calls _ executed
  have forward : identityCipher.Forward := fun _ _ _ _ _ _ => rfl
  refine selfConsistent_of_calls forward (opened_volumeOf fileVolume) ?_ calls
  intro headers layout
  rw [layout.eq_volumeHeaders forward.showsSize le_rfl]
  decide +kernel

def fickleCipher : Cipher where
  decrypt _ _ data := if data.length ≤ 16 then data else data.set 0 0
  length_decrypt _ _ data _ := by
    split
    · rfl
    · exact length_set

theorem showsSize_fickleCipher : fickleCipher.ShowsSize := by
  intro key iv ct _ long
  apply getVint_congr
  intro i low high
  have inside := (@getVint_pos (fickleCipher.decrypt key iv (ct.take 16)) 16 4).2.2
  have first : fickleCipher.decrypt key iv (ct.take 16) = ct.take 16 :=
    if_pos (length_take_le _ _)
  rw [first, byteAt_take, if_pos (by omega)]
  change byteAt (if ct.length ≤ 16 then ct else ct.set 0 0) i = byteAt ct i
  split
  · rfl
  · rw [byteAt, byteAt, getD_eq_getElem?_getD, getElem?_set_ne (by omega),
      getD_eq_getElem?_getD]

def endVolume : Bytes :=
  replicate 16 0 ++ [0xe4, 0x92, 0xd6, 0x51, 0x0f, 5] ++ replicate 26 0

def fickleHeader : Bytes :=
  [0, 0x92, 0xd6, 0x51, 0x0f, 5] ++ replicate 14 0

/-- The checksum of a header is compared with the one in its first block, which is
decrypted a second time with the rest. -/
theorem inconsistent_of_fickle :
    ∃ v', Opened (volumeOf endVolume) ∧
      (∀ headers, Layout fickleCipher [] endVolume headers → ∀ pt ∈ headers, AreasInside pt) ∧
      Calls (calm fickleCipher) (volumeOf endVolume)
        ([rar5Sig, fickleHeader] ++ [[]]) v' ∧
      ¬SelfConsistent fickleCipher [] endVolume [rar5Sig, fickleHeader].flatten := by
  have executed : (readCalls (calm fickleCipher) 3 (volumeOf endVolume)).map Prod.fst =
      some ([rar5Sig, fickleHeader] ++ [[]]) := by
    decide +kernel
  obtain ⟨v', calls⟩ := exists_calls _ executed
  refine ⟨v', opened_volumeOf endVolume, ?_, calls, ?_⟩
  · intro headers layout
    rw [layout.eq_volumeHeaders showsSize_fickleCipher le_rfl]
    decide +kernel
  · rintro ⟨entries, stream, layout, consistent⟩
    have headers : entries.map (·.decrypted) = [fickleHeader] := by
      rw [layout.eq_volumeHeaders showsSize_fickleCipher le_rfl]
      decide +kernel
    obtain ⟨e, rfl, decrypted⟩ := map_eq_singleton_iff.mp headers
    have fits := consistent e (.head _)
    have joined : fickleHeader ++ [] = e.emitted ++ (e.data ++ []) := by
      rw [← append_assoc]
      exact append_cancel_left stream
    have emitted : fickleHeader = e.emitted :=
      append_inj_left joined (by rw [fits.length, decrypted])
    have crc := fits.crc
    rw [← emitted] at crc
    exact absurd crc (by decide +kernel)

end NzbDownloader.Extract
