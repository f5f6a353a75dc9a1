import NzbDownloader.Extract.Vint
import NzbDownloader.Lib.LittleEndian
import NzbDownloader.Util.Crc32

/-!
# Rewriting a RAR5 header

What `rar5_next_header_chunk` of `extract/rar5_crypt.c` does with a decrypted
header: it reads the common fields, looks for the encryption record of the
entry, neutralises that record, lowers the size of the data where encryption has
padded it, and renews the checksum.
-/

namespace NzbDownloader.Extract

open Lib Util

def headFile : ℕ := 2
def headService : ℕ := 3
def headEndarc : ℕ := 5

def hflExtra : ℕ := 0x0001
def hflData : ℕ := 0x0002
def hflSplitBefore : ℕ := 0x0008
def hflSplitAfter : ℕ := 0x0010

def fhflUtime : ℕ := 0x0002
def fhflCrc32 : ℕ := 0x0004
def fhflUnpUnknown : ℕ := 0x0008

def fhextraCrypt : ℕ := 0x01
def cryptVersion : ℕ := 0
def crypt5KdfLg2CountMax : ℕ := 24
def sizeSalt50 : ℕ := 16
def sizeInitv : ℕ := 16

def maxHeaderSize : ℕ := 2 * 1024 * 1024 + 64

def uint64Max : ℕ := 2 ^ 64 - 1

def hasFlag (flags flag : ℕ) : Bool :=
  flags &&& flag ≠ 0

namespace Header

variable (pt : Bytes)

def typePos : ℕ :=
  (getVint pt pt.length 4).2

def type : ℕ :=
  (getVint pt pt.length (typePos pt)).1

def flagsPos : ℕ :=
  (getVint pt pt.length (typePos pt)).2

def flags : ℕ :=
  (getVint pt pt.length (flagsPos pt)).1

def extraPos : ℕ :=
  (getVint pt pt.length (flagsPos pt)).2

def extraField : ℕ × ℕ :=
  if hasFlag (flags pt) hflExtra then getVint pt pt.length (extraPos pt) else (0, extraPos pt)

def extraSize : ℕ :=
  (extraField pt).1

def dataSizePos : ℕ :=
  (extraField pt).2

def dataField : ℕ × ℕ :=
  if hasFlag (flags pt) hflData then getVint pt pt.length (dataSizePos pt) else (0, dataSizePos pt)

def dataSize : ℕ :=
  (dataField pt).1

def bodyPos : ℕ :=
  (dataField pt).2

def dataSizeWidth : ℕ :=
  bodyPos pt - dataSizePos pt

def named : Bool :=
  type pt = headFile ∨ type pt = headService

def CrcMatches : Prop :=
  ofLe (pt.take 4) = (crc32 (pt.drop 4)).toNat

instance : Decidable (CrcMatches pt) := by
  unfold CrcMatches
  infer_instance

end Header

structure FileCrypt where
  salt : Bytes
  iv : Bytes
  lg2count : ℕ
  fieldIdPos : ℕ
  unpSize : ℕ
  unpSizeKnown : Bool
  deriving DecidableEq

structure FileFields where
  flags : ℕ
  unpSize : ℕ
  nameSize : ℕ
  namePos : ℕ

section Find

variable (body : Bytes)

def fileFields (afterCommonPos : ℕ) : FileFields :=
  let (fileFlags, pos) := getVint body body.length afterCommonPos
  let (unpSize, pos) := getVint body body.length pos
  let (_, pos) := getVint body body.length pos
  let pos := if hasFlag fileFlags fhflUtime then pos + 4 else pos
  let pos := if hasFlag fileFlags fhflCrc32 then pos + 4 else pos
  let (_, pos) := getVint body body.length pos
  let (_, pos) := getVint body body.length pos
  let (nameSize, pos) := getVint body body.length pos
  ⟨fileFlags, unpSize, nameSize, pos⟩

/-- The record of type `FHEXTRA_CRYPT` whose type is at `fieldIdPos` and whose
data starts at `fp`, if it is usable. -/
def cryptRecord (file : FileFields) (extraEnd fieldIdPos fp : ℕ) : Option FileCrypt :=
  let (encVer, fp) := getVint body extraEnd fp
  let (_, fp) := getVint body extraEnd fp
  if encVer = cryptVersion ∧ fp < extraEnd then
    let lg2 := (byteAt body fp).toNat
    let fp := fp + 1
    if lg2 ≤ crypt5KdfLg2CountMax ∧ fp + sizeSalt50 + sizeInitv ≤ extraEnd then
      some
        { salt := readAt body fp sizeSalt50
          iv := readAt body (fp + sizeSalt50) sizeInitv
          lg2count := lg2
          fieldIdPos := fieldIdPos
          unpSize := file.unpSize
          unpSizeKnown := !hasFlag file.flags fhflUnpUnknown }
    else none
  else none

/-- The loop over the records of the extra area.  The end of a record is computed
modulo `2 ^ 64`, so that the loop may go back and never end; the outer `none`
says that it has not ended within the rounds. -/
def extraLoop (file : FileFields) (extraEnd : ℕ) : ℕ → ℕ → Option (Option FileCrypt)
  | 0, _ => none
  | rounds + 1, ep =>
      if ep < extraEnd then
        let (fieldSize, afterSizePos) := getVint body extraEnd ep
        if fieldSize = 0 ∨ (afterSizePos + fieldSize) % 2 ^ 64 > extraEnd then some none
        else
          let (fieldId, fp) := getVint body extraEnd afterSizePos
          if fieldId = fhextraCrypt then some (cryptRecord body file extraEnd afterSizePos fp)
          else extraLoop file extraEnd rounds ((afterSizePos + fieldSize) % 2 ^ 64)
      else some none

/-- `find_file_crypt`, without the name and the method that it reports for the
log. -/
def findFileCrypt (rounds extraSize afterCommonPos : ℕ) : Option (Option FileCrypt) :=
  if extraSize = 0 then some none
  else
    let file := fileFields body afterCommonPos
    let extraStart := (file.namePos + file.nameSize) % 2 ^ 64
    if extraStart > body.length then some none
    else
      let extraEnd := (extraStart + extraSize) % 2 ^ 64
      if extraEnd > body.length then some none
      else extraLoop body file extraEnd rounds extraStart

end Find

def AreasInside (pt : Bytes) : Prop :=
  Header.named pt = true → Header.extraSize pt ≠ 0 →
    (fileFields pt (Header.bodyPos pt)).namePos + (fileFields pt (Header.bodyPos pt)).nameSize +
      Header.extraSize pt ≤ pt.length

instance (pt : Bytes) : Decidable (AreasInside pt) := by
  unfold AreasInside
  infer_instance

structure SplitState where
  active : Bool
  unpTotal : ℕ
  writtenSoFar : ℕ

/-- `write_cap` for an entry with an encryption record, and what becomes of the
state that spans the volumes. -/
def writeCap (flags dataSize : ℕ) (crypt : FileCrypt) (split : SplitState) : ℕ × SplitState :=
  let splitBefore := hasFlag flags hflSplitBefore
  let splitAfter := hasFlag flags hflSplitAfter
  if !splitBefore && !splitAfter then
    (if crypt.unpSizeKnown ∧ crypt.unpSize < dataSize then crypt.unpSize else uint64Max, split)
  else if splitAfter && !splitBefore then (uint64Max, ⟨true, crypt.unpSize, dataSize⟩)
  else if splitAfter then
    (uint64Max,
      if split.active then
        { split with writtenSoFar := (split.writtenSoFar + dataSize) % 2 ^ 64 }
      else split)
  else if split.active then
    let trueSize :=
      if split.unpTotal > split.writtenSoFar then split.unpTotal - split.writtenSoFar else 0
    (if trueSize < dataSize then trueSize else uint64Max, { split with active := false })
  else (uint64Max, split)

def neutralise (pt : Bytes) : Option FileCrypt → Bytes
  | some found => writeAt pt found.fieldIdPos [0x40]
  | none => pt

def renewCrc (pt : Bytes) : Bytes :=
  writeAt pt 0 (toLe 4 (crc32 (pt.drop 4)).toNat)

def rewriteHeader (pt : Bytes) (crypt : Option FileCrypt) (cap : ℕ) : Bytes :=
  if crypt.isSome ∨ cap ≠ uint64Max then
    renewCrc
      (if cap ≠ uint64Max then
        putVintFixedWidth (neutralise pt crypt) (Header.dataSizePos pt) cap
          (Header.dataSizeWidth pt)
      else neutralise pt crypt)
  else pt

namespace Header

variable {pt h : Bytes}

theorem typePos_le : 4 ≤ typePos pt :=
  getVint_pos.1

theorem flagsPos_le : typePos pt ≤ flagsPos pt :=
  getVint_pos.1

theorem extraPos_le : flagsPos pt ≤ extraPos pt :=
  getVint_pos.1

theorem dataSizePos_le : extraPos pt ≤ dataSizePos pt := by
  unfold dataSizePos extraField
  split
  · exact getVint_pos.1
  · exact le_rfl

theorem bodyPos_le : dataSizePos pt ≤ bodyPos pt := by
  unfold bodyPos dataField
  split
  · exact getVint_pos.1
  · exact le_rfl

theorem congr (length : h.length = pt.length)
    (same : ∀ i, 4 ≤ i → i < dataSizePos pt → byteAt h i = byteAt pt i) :
    type h = type pt ∧ flags h = flags pt ∧ extraField h = extraField pt := by
  have order₁ := @typePos_le pt
  have order₂ := @flagsPos_le pt
  have order₃ := @extraPos_le pt
  have order₄ := @dataSizePos_le pt
  have size : getVint h h.length 4 = getVint pt pt.length 4 := by
    rw [length]
    exact getVint_congr fun i low high => same i low (by
      change i < typePos pt at high
      omega)
  have atType : getVint h h.length (typePos h) = getVint pt pt.length (typePos pt) := by
    rw [typePos, size, length]
    exact getVint_congr fun i low high => same i (by
      change typePos pt ≤ i at low
      omega) (by
      change i < flagsPos pt at high
      omega)
  have atFlags : getVint h h.length (flagsPos h) = getVint pt pt.length (flagsPos pt) := by
    rw [flagsPos, atType, length]
    exact getVint_congr fun i low high => same i (by
      change flagsPos pt ≤ i at low
      omega) (by
      change i < extraPos pt at high
      omega)
  have sameFlags : flags h = flags pt := congrArg Prod.fst atFlags
  have samePos : extraPos h = extraPos pt := congrArg Prod.snd atFlags
  refine ⟨congrArg Prod.fst atType, sameFlags, ?_⟩
  unfold extraField
  rw [sameFlags, samePos, length]
  split
  · rename_i flagged
    exact getVint_congr fun i low high => same i (by omega) (by
      rw [dataSizePos, extraField, if_pos flagged]
      exact high)
  · rfl

theorem four_le : 4 ≤ dataSizePos pt :=
  typePos_le.trans (flagsPos_le.trans (extraPos_le.trans dataSizePos_le))

theorem dataField_eq (length : h.length = pt.length)
    (same : ∀ i, 4 ≤ i → i < dataSizePos pt → byteAt h i = byteAt pt i) :
    dataField h =
      if hasFlag (flags pt) hflData then getVint h pt.length (dataSizePos pt)
      else (0, dataSizePos pt) := by
  obtain ⟨_, sameFlags, sameExtra⟩ := congr length same
  have samePos : dataSizePos h = dataSizePos pt := congrArg Prod.snd sameExtra
  rw [dataField, sameFlags, samePos, length]

theorem dataSize_congr (length : h.length = pt.length)
    (same : ∀ i, 4 ≤ i → i < bodyPos pt → byteAt h i = byteAt pt i) :
    dataSize h = dataSize pt := by
  have start := @four_le pt
  have order := @bodyPos_le pt
  rw [dataSize, dataField_eq length fun i low high => same i low (by omega), dataSize, dataField]
  split
  · rename_i flagged
    rw [getVint_congr fun i low high => same i (by omega) (by
      rw [bodyPos, dataField, if_pos flagged]
      exact high)]
  · rfl

end Header

section Record

variable {body pt : Bytes} {file : FileFields} {rounds ep extraEnd : ℕ} {crypt : FileCrypt}

structure RecordAt (body : Bytes) (extraEnd pos : ℕ) : Prop where
  afterSize : ∃ start, (getVint body extraEnd start).1 ≠ 0 ∧ (getVint body extraEnd start).2 = pos
  id : (getVint body extraEnd pos).1 = fhextraCrypt
  version : (getVint body extraEnd (getVint body extraEnd pos).2).1 = cryptVersion
  room : (getVint body extraEnd pos).2 + 33 ≤ extraEnd

theorem recordAt_of_cryptRecord {start pos : ℕ} (sized : (getVint body extraEnd start).1 ≠ 0)
    (after : (getVint body extraEnd start).2 = pos)
    (id : (getVint body extraEnd pos).1 = fhextraCrypt)
    (found : cryptRecord body file extraEnd pos (getVint body extraEnd pos).2 = some crypt) :
    crypt.unpSize = file.unpSize ∧ crypt.fieldIdPos = pos ∧ RecordAt body extraEnd pos := by
  unfold cryptRecord at found
  dsimp only at found
  split at found
  · rename_i version
    split at found
    · cases found
      have first := @getVint_pos body extraEnd (getVint body extraEnd pos).2
      have second := @getVint_pos body extraEnd
        (getVint body extraEnd (getVint body extraEnd pos).2).2
      refine ⟨rfl, rfl, ⟨start, sized, after⟩, id, version.1, ?_⟩
      have wide : sizeSalt50 + sizeInitv = 32 := rfl
      omega
    · contradiction
  · contradiction

theorem recordAt_of_extraLoop
    (found : extraLoop body file extraEnd rounds ep = some (some crypt)) :
    crypt.unpSize = file.unpSize ∧ RecordAt body extraEnd crypt.fieldIdPos := by
  induction rounds generalizing ep with
  | zero => contradiction
  | succ rounds ih =>
    rw [extraLoop] at found
    split at found
    · dsimp only at found
      split at found
      · cases found
      rename_i sized
      split at found
      · rename_i id
        obtain ⟨size, same, record⟩ := recordAt_of_cryptRecord (fun zero => sized (.inl zero)) rfl id
          (Option.some.inj found)
        rw [same]
        exact ⟨size, record⟩
      · exact ih found
    · cases found

theorem unpSize_lt {afterCommonPos extraSize : ℕ}
    (found : findFileCrypt body rounds extraSize afterCommonPos = some (some crypt)) :
    crypt.unpSize < 2 ^ 64 := by
  unfold findFileCrypt at found
  split at found
  · cases found
  dsimp only at found
  split at found
  · cases found
  split at found
  · cases found
  rw [(recordAt_of_extraLoop found).1]
  exact getVint_lt

theorem extraLoop_one_byte (small : ep ≤ maxHeaderSize) :
    extraLoop body file (ep + 1) rounds ep ≠ some (some crypt) := by
  intro found
  cases rounds with
  | zero => contradiction
  | succ rounds =>
    rw [extraLoop, if_pos (Nat.lt_succ_self ep)] at found
    dsimp only at found
    rw [if_pos] at found
    · cases found
    by_cases zero : (getVint body (ep + 1) ep).1 = 0
    · exact .inl zero
    · have moved := @getVint_pos body (ep + 1) ep
      have width := @getVint_lt_width body (ep + 1) ep
      have one : (getVint body (ep + 1) ep).2 = ep + 1 := by
        have := (vintLoop_last zero).1
        change ep < (getVint body (ep + 1) ep).2 at this
        omega
      rw [one, Nat.add_sub_cancel_left] at width
      rw [one, Nat.mod_eq_of_lt (by unfold maxHeaderSize at small; omega)]
      exact .inr (by omega)

theorem namePos_ge (pos : ℕ) : pos ≤ (fileFields body pos).namePos := by
  have step (p : ℕ) : p ≤ (getVint body body.length p).2 := getVint_pos.1
  have skip (p : ℕ) (flag : Bool) : p ≤ if flag then p + 4 else p := by
    split <;> omega
  unfold fileFields
  exact (step _).trans ((step _).trans ((step _).trans ((skip _ _).trans ((skip _ _).trans
    ((step _).trans ((step _).trans (step _)))))))

theorem exists_extraLoop (bounded : pt.length ≤ maxHeaderSize) (inside : AreasInside pt)
    (named : Header.named pt)
    (found : findFileCrypt pt rounds (Header.extraSize pt) (Header.bodyPos pt) = some (some crypt)) :
    Header.extraSize pt ≠ 0 ∧ ∃ start, Header.bodyPos pt ≤ start ∧
      start + Header.extraSize pt ≤ pt.length ∧
      extraLoop pt (fileFields pt (Header.bodyPos pt)) (start + Header.extraSize pt) rounds start =
        some (some crypt) := by
  unfold findFileCrypt at found
  split at found
  · cases found
  rename_i nonempty
  have areas := inside named nonempty
  have low := @namePos_ge pt (Header.bodyPos pt)
  dsimp only at found
  unfold maxHeaderSize at bounded
  rw [Nat.mod_eq_of_lt (by omega : (fileFields pt (Header.bodyPos pt)).namePos +
      (fileFields pt (Header.bodyPos pt)).nameSize < 2 ^ 64), if_neg (by omega),
    Nat.mod_eq_of_lt (by omega), if_neg (by omega)] at found
  exact ⟨nonempty, _, by omega, areas, found⟩

theorem RecordAt.boundary {pos a : ℕ} (record : RecordAt pt extraEnd pos) (le : a ≤ pos) :
    a = pos ∨ (getVint pt pt.length a).2 ≤ pos := by
  obtain ⟨start, nonzero, ends⟩ := record.afterSize
  by_contra apart
  rw [not_or, not_le] at apart
  rw [← ends] at apart le
  exact not_inside_vint nonzero (Nat.lt_of_le_of_ne le apart.1) apart.2

theorem RecordAt.getVint_eq {pos : ℕ} (record : RecordAt pt extraEnd pos)
    (within : extraEnd ≤ pt.length) : getVint pt pt.length pos = getVint pt extraEnd pos := by
  have room := record.room
  exact getVint_len (by rw [record.id]; decide) (by omega)

theorem fieldIdPos_outside (bounded : pt.length ≤ maxHeaderSize) (inside : AreasInside pt)
    (named : Header.named pt)
    (sized : ∀ next, getVint pt pt.length 4 = (1, next) → pt.length = next + 1)
    (found : findFileCrypt pt rounds (Header.extraSize pt) (Header.bodyPos pt) = some (some crypt)) :
    crypt.fieldIdPos < pt.length ∧ (crypt.fieldIdPos < 4 ∨ Header.bodyPos pt ≤ crypt.fieldIdPos ∨
      Header.dataSize pt = 1) := by
  obtain ⟨nonempty, start, afterBody, within, loop⟩ := exists_extraLoop bounded inside named found
  have record := (recordAt_of_extraLoop loop).2
  have whole := record.getVint_eq within
  have room := record.room
  have ahead := (@getVint_pos pt (start + Header.extraSize pt) crypt.fieldIdPos).1
  have value : (getVint pt pt.length crypt.fieldIdPos).1 = 1 := by
    rw [whole]
    exact record.id
  have flagged : hasFlag (Header.flags pt) hflExtra = true := by
    by_contra unset
    exact nonempty (by rw [Header.extraSize, Header.extraField, if_neg unset])
  have extra : Header.extraField pt = getVint pt pt.length (Header.extraPos pt) := by
    rw [Header.extraField, if_pos flagged]
  refine ⟨by omega, ?_⟩
  by_contra others
  rw [not_or, not_or, not_lt, not_le] at others
  obtain ⟨low, high, packed⟩ := others
  -- The record would have to begin where one of the common fields does.
  rcases record.boundary low with atSize | afterSize
  · have far : (getVint pt pt.length crypt.fieldIdPos).2 + 33 ≤ pt.length := by
      rw [whole]
      exact room.trans within
    have size := sized (getVint pt pt.length crypt.fieldIdPos).2
      (by rw [atSize]; exact Prod.ext value rfl)
    omega
  rcases record.boundary afterSize with atType | afterType
  · have type : Header.type pt = 1 := by
      rw [← atType] at value
      exact value
    simp [Header.named, type, headFile, headService] at named
  rcases record.boundary afterType with atFlags | afterFlags
  · -- The version would be the size of the extra area.
    have next : (getVint pt (start + Header.extraSize pt) crypt.fieldIdPos).2 =
        Header.extraPos pt := by
      rw [← whole, ← atFlags]
      rfl
    have size : (getVint pt pt.length (Header.extraPos pt)).1 = Header.extraSize pt := by
      rw [Header.extraSize, extra]
    have same : getVint pt (start + Header.extraSize pt) (Header.extraPos pt) =
        getVint pt pt.length (Header.extraPos pt) := by
      apply getVint_len (by rwa [size])
      have ends : (getVint pt pt.length (Header.extraPos pt)).2 = Header.dataSizePos pt := by
        rw [Header.dataSizePos, extra]
      have := @Header.bodyPos_le pt
      omega
    have version := record.version
    rw [next, same, size] at version
    exact nonempty version
  rcases record.boundary afterFlags with atExtra | afterExtra
  · have size : Header.extraSize pt = 1 := by
      rw [← atExtra] at value
      rw [Header.extraSize, extra]
      exact value
    rw [size] at loop
    unfold maxHeaderSize at bounded
    exact extraLoop_one_byte (by unfold maxHeaderSize; omega) loop
  · have data : hasFlag (Header.flags pt) hflData = true := by
      by_contra unset
      rw [Header.bodyPos, Header.dataField, if_neg unset, Header.dataSizePos, extra] at high
      exact absurd afterExtra (by change ¬(getVint pt pt.length (Header.extraPos pt)).2 ≤ _; omega)
    have field : Header.dataField pt = getVint pt pt.length (Header.dataSizePos pt) := by
      rw [Header.dataField, if_pos data]
    have afterExtra : Header.dataSizePos pt ≤ crypt.fieldIdPos := by
      rw [Header.dataSizePos, extra]
      exact afterExtra
    rcases record.boundary afterExtra with atData | afterData
    · rw [← atData] at value
      exact packed (by rw [Header.dataSize, field]; exact value)
    · rw [Header.bodyPos, field] at high
      omega

end Record

section Rewrite

variable {pt sized : Bytes} {crypt : Option FileCrypt} {cap : ℕ}

theorem length_writeAt_inside {content data : Bytes} {off : ℕ}
    (inside : off + data.length ≤ content.length) :
    (writeAt content off data).length = content.length := by
  by_cases empty : data = []
  · rw [writeAt, if_pos empty]
  · rw [length_writeAt empty, max_eq_left inside]

theorem renewCrc_eq (sized : Bytes) :
    renewCrc sized = toLe 4 (crc32 (sized.drop 4)).toNat ++ sized.drop 4 := by
  have nonempty : toLe 4 (crc32 (sized.drop 4)).toNat ≠ [] := by
    rw [← List.length_pos_iff, length_toLe]
    decide
  rw [renewCrc, writeAt, if_neg nonempty, length_toLe]
  simp [padTo]

theorem length_renewCrc (long : 4 ≤ sized.length) : (renewCrc sized).length = sized.length := by
  rw [renewCrc_eq, List.length_append, length_toLe, List.length_drop]
  omega

theorem renewCrc_matches (sized : Bytes) : Header.CrcMatches (renewCrc sized) := by
  have front := length_toLe 4 (crc32 (sized.drop 4)).toNat
  rw [Header.CrcMatches, renewCrc_eq, List.take_left' front, List.drop_left' front, ofLe_toLe]
  exact Nat.mod_eq_of_lt (crc32 (sized.drop 4)).isLt

theorem byteAt_renewCrc {i : ℕ} (after : 4 ≤ i) : byteAt (renewCrc sized) i = byteAt sized i := by
  rw [renewCrc, byteAt_writeAt, length_toLe, if_neg (by omega)]

theorem writeCap_lt {flags dataSize : ℕ} {found : FileCrypt} {split : SplitState}
    (capped : (writeCap flags dataSize found split).1 ≠ uint64Max) :
    (writeCap flags dataSize found split).1 < dataSize := by
  unfold writeCap at capped ⊢
  dsimp only at capped ⊢
  split_ifs at capped ⊢ <;> simp_all

def Outside (pt : Bytes) (crypt : Option FileCrypt) : Prop :=
  ∀ found, crypt = some found → found.fieldIdPos < pt.length ∧
    (found.fieldIdPos < 4 ∨ Header.bodyPos pt ≤ found.fieldIdPos)

theorem length_neutralise (outside : Outside pt crypt) :
    (neutralise pt crypt).length = pt.length := by
  cases crypt with
  | none => rfl
  | some found => exact length_writeAt_inside (outside found rfl).1

theorem byteAt_neutralise (outside : Outside pt crypt) {i : ℕ} (low : 4 ≤ i)
    (high : i < Header.bodyPos pt) : byteAt (neutralise pt crypt) i = byteAt pt i := by
  cases crypt with
  | none => rfl
  | some found =>
    have apart := (outside found rfl).2
    rw [neutralise, byteAt_writeAt, List.length_singleton, if_neg (by omega)]

theorem Header.dataSizeWidth_of_ne_zero (nonzero : dataSize pt ≠ 0) :
    hasFlag (flags pt) hflData = true ∧ 0 < dataSizeWidth pt ∧
      dataSizeWidth pt ≤ 10 ∧
      dataSizePos pt + dataSizeWidth pt = bodyPos pt ∧
      bodyPos pt ≤ pt.length ∧ dataSize pt < 128 ^ dataSizeWidth pt ∧
      dataSize pt < 2 ^ 64 := by
  have flagged : hasFlag (flags pt) hflData = true := by
    by_contra unset
    exact nonzero (by rw [dataSize, dataField, if_neg unset])
  have field : dataField pt = getVint pt pt.length (dataSizePos pt) := by
    rw [dataField, if_pos flagged]
  have moved := @getVint_pos pt pt.length (dataSizePos pt)
  have width := @getVint_lt_width pt pt.length (dataSizePos pt)
  have word := @getVint_lt pt pt.length (dataSizePos pt)
  rw [dataSize, field] at nonzero
  have start := (vintLoop_last nonzero).1
  change dataSizePos pt < (getVint pt pt.length (dataSizePos pt)).2 at start
  rw [dataSizeWidth, bodyPos, dataSize, field]
  rw [pow_mul] at width
  exact ⟨flagged, by omega, by omega, by omega, by omega, width, word⟩

/-- The rewritten header has the length, type, flags and extra size of the old
one, a fitting checksum, and the capped size of the data. -/
theorem rewriteHeader_spec (long : 4 ≤ pt.length) (crc : Header.CrcMatches pt)
    (outside : Outside pt crypt) (capped : cap ≠ uint64Max → cap < Header.dataSize pt) :
    (rewriteHeader pt crypt cap).length = pt.length ∧
      Header.CrcMatches (rewriteHeader pt crypt cap) ∧
      Header.type (rewriteHeader pt crypt cap) = Header.type pt ∧
      Header.flags (rewriteHeader pt crypt cap) = Header.flags pt ∧
      Header.extraSize (rewriteHeader pt crypt cap) = Header.extraSize pt ∧
      Header.dataSize (rewriteHeader pt crypt cap) =
        if cap = uint64Max then Header.dataSize pt else cap := by
  have start := @Header.four_le pt
  have order := @Header.bodyPos_le pt
  have length := length_neutralise outside
  by_cases uncapped : cap = uint64Max
  · rw [if_pos uncapped]
    by_cases plain : crypt.isSome
    · have rewritten : rewriteHeader pt crypt cap = renewCrc (neutralise pt crypt) := by
        rw [rewriteHeader, if_pos (.inl plain), if_neg (not_not.mpr uncapped)]
      have kept : (renewCrc (neutralise pt crypt)).length = pt.length := by
        rw [length_renewCrc (by omega), length]
      have same : ∀ i, 4 ≤ i → i < Header.bodyPos pt →
          byteAt (renewCrc (neutralise pt crypt)) i = byteAt pt i := by
        intro i low high
        rw [byteAt_renewCrc low, byteAt_neutralise outside low high]
      rw [rewritten]
      obtain ⟨type, flags, extra⟩ := Header.congr kept fun i low high => same i low (by omega)
      exact ⟨kept, renewCrc_matches _, type, flags, congrArg Prod.fst extra,
        Header.dataSize_congr kept same⟩
    · rw [rewriteHeader, if_neg (by simp [plain, uncapped])]
      exact ⟨rfl, crc, rfl, rfl, rfl, rfl⟩
  · have below := capped uncapped
    obtain ⟨flagged, positive, few, ends, inside, fits, word⟩ :=
      Header.dataSizeWidth_of_ne_zero (by omega : Header.dataSize pt ≠ 0)
    have sized : (putVintFixedWidth (neutralise pt crypt) (Header.dataSizePos pt) cap
        (Header.dataSizeWidth pt)).length = pt.length := by
      rw [putVintFixedWidth, length_writeAt_inside (by rw [length_vintBytes]; omega), length]
    have rewritten : rewriteHeader pt crypt cap = renewCrc (putVintFixedWidth (neutralise pt crypt)
        (Header.dataSizePos pt) cap (Header.dataSizeWidth pt)) := by
      rw [rewriteHeader, if_pos (.inr uncapped), if_pos uncapped]
    have kept : (rewriteHeader pt crypt cap).length = pt.length := by
      rw [rewritten, length_renewCrc (by omega), sized]
    have same : ∀ i, 4 ≤ i → i < Header.dataSizePos pt →
        byteAt (rewriteHeader pt crypt cap) i = byteAt pt i := by
      intro i low high
      rw [rewritten, byteAt_renewCrc low, putVintFixedWidth, byteAt_writeAt, if_neg (by omega),
        byteAt_neutralise outside low (by omega)]
    have packed : getVint (rewriteHeader pt crypt cap) pt.length (Header.dataSizePos pt) =
        (cap, Header.bodyPos pt) := by
      rw [rewritten, ← ends, ← @getVint_putVintFixedWidth (neutralise pt crypt) pt.length _ cap _
        positive few (by omega) (lt_trans below fits) (lt_trans below word)]
      exact getVint_congr fun i low _ => byteAt_renewCrc (by omega)
    obtain ⟨type, flags, extra⟩ := Header.congr kept same
    refine ⟨kept, ?_, type, flags, congrArg Prod.fst extra, ?_⟩
    · rw [rewritten]
      exact renewCrc_matches _
    · rw [Header.dataSize, Header.dataField_eq kept same, if_pos flagged, packed, if_neg uncapped]

end Rewrite

end NzbDownloader.Extract
