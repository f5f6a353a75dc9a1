import NzbDownloader.Extract.Rar5Header
import NzbDownloader.Lib.Walk

/-!
# The walk over a file header

`find_file_crypt` of `extract/rar5_crypt.c` walks over the fields of an entry, its name and
the records of its extra area.
-/

namespace NzbDownloader.Extract

open Lib

section Area

variable (body : Bytes)

def extraArea (extraSize afterCommonPos : ℕ) : Option (ℕ × ℕ) :=
  let file := fileFields body afterCommonPos
  let extraStart := (file.namePos + file.nameSize) % 2 ^ 64
  let extraEnd := (extraStart + extraSize) % 2 ^ 64
  if extraSize = 0 ∨ extraStart > body.length ∨ extraEnd > body.length then none
  else some (extraStart, extraEnd)

def recordSize (extraEnd ep : ℕ) : ℕ :=
  (getVint body extraEnd ep).1

def recordStart (extraEnd ep : ℕ) : ℕ :=
  (getVint body extraEnd ep).2

def recordId (extraEnd ep : ℕ) : ℕ :=
  (getVint body extraEnd (recordStart body extraEnd ep)).1

def Sized (extraEnd ep : ℕ) : Prop :=
  recordSize body extraEnd ep ≠ 0 ∧
    (recordStart body extraEnd ep + recordSize body extraEnd ep) % 2 ^ 64 ≤ extraEnd

instance (extraEnd ep : ℕ) : Decidable (Sized body extraEnd ep) := by
  unfold Sized
  infer_instance

def nextRecord (extraEnd ep : ℕ) : Option ℕ :=
  if ep < extraEnd ∧ Sized body extraEnd ep ∧ recordId body extraEnd ep ≠ fhextraCrypt then
    some ((recordStart body extraEnd ep + recordSize body extraEnd ep) % 2 ^ 64)
  else none

def Wraps (extraEnd ep : ℕ) : Prop :=
  2 ^ 64 ≤ recordStart body extraEnd ep + recordSize body extraEnd ep

variable {body} {file : FileFields} {extraSize afterCommonPos extraEnd ep rounds : ℕ}

theorem findFileCrypt_eq : findFileCrypt body rounds extraSize afterCommonPos =
    match extraArea body extraSize afterCommonPos with
    | none => some none
    | some (extraStart, extraEnd) =>
      extraLoop body (fileFields body afterCommonPos) extraEnd rounds extraStart := by
  unfold findFileCrypt extraArea
  dsimp only
  by_cases empty : extraSize = 0
  · rw [if_pos empty, if_pos (.inl empty)]
  rw [if_neg empty]
  split
  · rename_i beyond
    rw [if_pos (.inr (.inl beyond))]
  rename_i startInside
  split
  · rename_i beyond
    rw [if_pos (.inr (.inr beyond))]
  rename_i endInside
  rw [if_neg]
  rintro (zero | beyond | beyond)
  · exact empty zero
  · exact startInside beyond
  · exact endInside beyond

theorem extraLoop_succ : extraLoop body file extraEnd (rounds + 1) ep =
    match nextRecord body extraEnd ep with
    | some next => extraLoop body file extraEnd rounds next
    | none =>
      if ep < extraEnd ∧ Sized body extraEnd ep then
        some (cryptRecord body file extraEnd (recordStart body extraEnd ep)
          (getVint body extraEnd (recordStart body extraEnd ep)).2)
      else some none := by
  rw [extraLoop, nextRecord]
  by_cases inside : ep < extraEnd
  · by_cases sized : Sized body extraEnd ep
    · have usable : ¬((getVint body extraEnd ep).1 = 0 ∨
          ((getVint body extraEnd ep).2 + (getVint body extraEnd ep).1) % 2 ^ 64 > extraEnd) := by
        rintro (zero | beyond)
        · exact sized.1 zero
        · exact absurd sized.2 (not_le.mpr beyond)
      by_cases id : recordId body extraEnd ep = fhextraCrypt
      · simp only [if_pos inside, if_neg usable, if_neg (fun h => h.2.2 id :
          ¬(ep < extraEnd ∧ Sized body extraEnd ep ∧ recordId body extraEnd ep ≠ fhextraCrypt)),
          if_pos (And.intro inside sized)]
        exact if_pos id
      · simp only [if_pos inside, if_neg usable, if_pos (And.intro inside (And.intro sized id))]
        exact if_neg id
    · have stops : (getVint body extraEnd ep).1 = 0 ∨
          ((getVint body extraEnd ep).2 + (getVint body extraEnd ep).1) % 2 ^ 64 > extraEnd := by
        by_contra goesOn
        rw [not_or, not_lt] at goesOn
        exact sized goesOn
      simp only [if_pos inside, if_pos stops, sized, false_and, and_false, if_false]
  · simp only [inside, false_and, if_false]

theorem isSome_extraLoop_iff : (extraLoop body file extraEnd rounds ep).isSome ↔
    Walk.position (nextRecord body extraEnd) rounds ep = none := by
  induction rounds generalizing ep with
  | zero => simp [extraLoop, Walk.position]
  | succ rounds ih =>
    rw [extraLoop_succ, Walk.position]
    cases step : nextRecord body extraEnd ep with
    | none =>
      simp only [Option.bind_none, iff_true]
      split <;> rfl
    | some next =>
      rw [Option.bind_some]
      exact ih

theorem nextRecord_eq_some_iff {next : ℕ} : nextRecord body extraEnd ep = some next ↔
    (ep < extraEnd ∧ Sized body extraEnd ep ∧ recordId body extraEnd ep ≠ fhextraCrypt) ∧
      (recordStart body extraEnd ep + recordSize body extraEnd ep) % 2 ^ 64 = next := by
  unfold nextRecord
  split
  · rename_i goesOn
    simp only [Option.some.injEq, goesOn, ne_eq, not_false_eq_true, and_self, true_and]
  · rename_i stops
    simp only [reduceCtorEq, stops, false_and]

theorem lt_of_nextRecord {next : ℕ} (step : nextRecord body extraEnd ep = some next)
    (fits : ¬Wraps body extraEnd ep) : ep < next := by
  obtain ⟨⟨_, sized, _⟩, rfl⟩ := nextRecord_eq_some_iff.mp step
  have ahead : ep ≤ recordStart body extraEnd ep := getVint_pos.1
  have positive := sized.1
  unfold Wraps at fits
  rw [Nat.mod_eq_of_lt (not_le.mp fits)]
  omega

theorem ends_nextRecord_iff (start : ℕ) : Walk.Ends (nextRecord body extraEnd) start ↔
    ∀ ep next, Walk.Comes (nextRecord body extraEnd) start ep → Wraps body extraEnd ep →
      nextRecord body extraEnd ep = some next → ¬Walk.Comes (nextRecord body extraEnd) next ep :=
  Walk.ends_iff_of_rank (Set.finite_lt_nat extraEnd)
    (fun _ _ step => (nextRecord_eq_some_iff.mp step).1.1)
    (fun _ _ step fits => lt_of_nextRecord step fits) start

theorem exists_findFileCrypt_iff :
    (∃ rounds, (findFileCrypt body rounds extraSize afterCommonPos).isSome) ↔
      ∀ start stop, extraArea body extraSize afterCommonPos = some (start, stop) →
        Walk.Ends (nextRecord body stop) start := by
  simp only [findFileCrypt_eq]
  cases area : extraArea body extraSize afterCommonPos with
  | none => simp
  | some bounds =>
    obtain ⟨start, stop⟩ := bounds
    simp only [isSome_extraLoop_iff, Option.some.injEq, Prod.mk.injEq, and_imp]
    constructor
    · rintro ended _ _ rfl rfl
      exact ended
    · exact fun ends => ends start stop rfl rfl

variable (body extraSize afterCommonPos) in
/-- `find_file_crypt` ends exactly when no record that it comes to wraps around and
leads back to itself. -/
theorem findFileCrypt_ends_iff :
    (∃ rounds, (findFileCrypt body rounds extraSize afterCommonPos).isSome = true) ↔
      ∀ start stop, extraArea body extraSize afterCommonPos = some (start, stop) →
        ∀ ep next, Walk.Comes (nextRecord body stop) start ep → Wraps body stop ep →
          nextRecord body stop ep = some next → ¬Walk.Comes (nextRecord body stop) next ep := by
  rw [exists_findFileCrypt_iff]
  simp only [ends_nextRecord_iff]

end Area

def circularBody : Bytes :=
  List.replicate 6 0 ++ [0xF6, 0xFF, 0xFF, 0xFF, 0xFF, 0xFF, 0xFF, 0xFF, 0xFF, 0x01, 0x00]

theorem circularBody_never_ends :
    0 ≤ circularBody.length ∧ ¬∃ rounds, (findFileCrypt circularBody rounds 11 0).isSome = true := by
  refine ⟨Nat.zero_le _, ?_⟩
  rw [exists_findFileCrypt_iff]
  intro ends
  have back : nextRecord circularBody 17 6 = some 6 := by decide
  exact Walk.not_ends_of_return back (Walk.Comes.refl 6) (ends 6 17 (by decide))

section Reads

variable (body : Bytes)

def vintReads (len pos : ℕ) : Set ℕ :=
  Set.Ico pos (getVint body len pos).2

def fieldPositions (afterCommonPos : ℕ) : List ℕ :=
  let (fileFlags, unpSizePos) := getVint body body.length afterCommonPos
  let (_, attrPos) := getVint body body.length unpSizePos
  let (_, pos) := getVint body body.length attrPos
  let pos := if hasFlag fileFlags fhflUtime then pos + 4 else pos
  let compInfoPos := if hasFlag fileFlags fhflCrc32 then pos + 4 else pos
  let (_, hostOsPos) := getVint body body.length compInfoPos
  let (_, nameSizePos) := getVint body body.length hostOsPos
  [afterCommonPos, unpSizePos, attrPos, compInfoPos, hostOsPos, nameSizePos]

def entryNameSize : ℕ := 256

def copiedName (nameSize : ℕ) : ℕ :=
  if nameSize < entryNameSize - 1 then nameSize else entryNameSize - 1

def nameReads (afterCommonPos : ℕ) : Set ℕ :=
  let file := fileFields body afterCommonPos
  {i | (file.namePos + file.nameSize) % 2 ^ 64 ≤ body.length ∧
    file.namePos ≤ i ∧ i < file.namePos + copiedName file.nameSize}

def cryptReads (extraEnd fp : ℕ) : Set ℕ :=
  let (encVer, flagsPos) := getVint body extraEnd fp
  let (_, lg2Pos) := getVint body extraEnd flagsPos
  vintReads body extraEnd fp ∪ vintReads body extraEnd flagsPos ∪
    {i | encVer = cryptVersion ∧ lg2Pos < extraEnd ∧ (i = lg2Pos ∨
      (byteAt body lg2Pos).toNat ≤ crypt5KdfLg2CountMax ∧
        lg2Pos + 1 + sizeSalt50 + sizeInitv ≤ extraEnd ∧
        lg2Pos + 1 ≤ i ∧ i < lg2Pos + 1 + sizeSalt50 + sizeInitv)}

def recordReads (extraEnd ep : ℕ) : Set ℕ :=
  let idPos := recordStart body extraEnd ep
  vintReads body extraEnd ep ∪ {i | Sized body extraEnd ep ∧
    (i ∈ vintReads body extraEnd idPos ∨ recordId body extraEnd ep = fhextraCrypt ∧
      i ∈ cryptReads body extraEnd (getVint body extraEnd idPos).2)}

def fileCryptReads (extraSize afterCommonPos : ℕ) : Set ℕ :=
  {i | extraSize ≠ 0 ∧
    ((∃ pos ∈ fieldPositions body afterCommonPos, i ∈ vintReads body body.length pos) ∨
      i ∈ nameReads body afterCommonPos ∨
      ∃ start stop ep, extraArea body extraSize afterCommonPos = some (start, stop) ∧
        Walk.Comes (nextRecord body stop) start ep ∧ ep < stop ∧ i ∈ recordReads body stop ep)}

def NameOverruns (afterCommonPos : ℕ) : Prop :=
  let file := fileFields body afterCommonPos
  file.namePos ≤ body.length ∧ 2 ^ 64 ≤ file.namePos + file.nameSize ∧
    body.length < file.namePos + copiedName file.nameSize

variable {body} {len pos extraEnd ep fp i extraSize afterCommonPos : ℕ}

theorem lt_of_mem_vintReads (read : i ∈ vintReads body len pos) : i < len := by
  obtain ⟨low, high⟩ := read
  have bound := (@getVint_pos body len pos).2.2
  omega

theorem lt_of_mem_cryptReads (read : i ∈ cryptReads body extraEnd fp) : i < extraEnd := by
  rcases read with (version | flags) | ⟨_, inside, lg2 | ⟨_, room, _, high⟩⟩
  · exact lt_of_mem_vintReads version
  · exact lt_of_mem_vintReads flags
  · rwa [lg2]
  · exact lt_of_lt_of_le high room

theorem lt_of_mem_recordReads (read : i ∈ recordReads body extraEnd ep) : i < extraEnd := by
  rcases read with size | ⟨_, id | ⟨_, crypt⟩⟩
  · exact lt_of_mem_vintReads size
  · exact lt_of_mem_vintReads id
  · exact lt_of_mem_cryptReads crypt

theorem extraArea_le {start stop : ℕ}
    (area : extraArea body extraSize afterCommonPos = some (start, stop)) :
    extraSize ≠ 0 ∧ stop ≤ body.length := by
  unfold extraArea at area
  dsimp only at area
  split at area
  · contradiction
  · rename_i inside
    cases area
    rw [not_or, not_or] at inside
    exact ⟨inside.1, not_lt.mp inside.2.2⟩

theorem exists_nameSizePos : ∃ pos ∈ fieldPositions body afterCommonPos,
    getVint body body.length pos =
      ((fileFields body afterCommonPos).nameSize, (fileFields body afterCommonPos).namePos) := by
  unfold fieldPositions fileFields
  exact ⟨_, by simp, rfl⟩

theorem namePos_le (nonempty : (fileFields body afterCommonPos).nameSize ≠ 0) :
    (fileFields body afterCommonPos).namePos ≤ body.length := by
  obtain ⟨pos, _, read⟩ := @exists_nameSizePos body afterCommonPos
  have value : (getVint body body.length pos).1 ≠ 0 := by rwa [read]
  have moved : pos < (getVint body body.length pos).2 := (vintLoop_last value).1
  have bound := (@getVint_pos body body.length pos).2.2
  rw [read] at moved bound
  omega

theorem nameSize_lt : (fileFields body afterCommonPos).nameSize < 2 ^ 64 := by
  obtain ⟨pos, _, read⟩ := @exists_nameSizePos body afterCommonPos
  have bound := @getVint_lt body body.length pos
  rwa [read] at bound

theorem copiedName_le (nameSize : ℕ) : copiedName nameSize ≤ nameSize := by
  unfold copiedName
  split <;> omega

theorem nameReads_lt_iff :
    (∀ i ∈ nameReads body afterCommonPos, i < body.length) ↔
      ¬NameOverruns body afterCommonPos := by
  have copied := copiedName_le (fileFields body afterCommonPos).nameSize
  constructor
  · rintro inside ⟨start, wraps, short⟩
    -- The end of the name, taken modulo `2 ^ 64`, passes the check.
    have size := @nameSize_lt body afterCommonPos
    have last := inside ((fileFields body afterCommonPos).namePos +
      copiedName (fileFields body afterCommonPos).nameSize - 1) ⟨by omega, by omega, by omega⟩
    omega
  · rintro fits i ⟨passes, low, high⟩
    by_cases wraps : 2 ^ 64 ≤ (fileFields body afterCommonPos).namePos +
        (fileFields body afterCommonPos).nameSize
    · have start : (fileFields body afterCommonPos).namePos ≤ body.length :=
        namePos_le fun empty => by omega
      have room := not_lt.mp fun short => fits ⟨start, wraps, short⟩
      omega
    · rw [Nat.mod_eq_of_lt (not_le.mp wraps)] at passes
      omega

theorem fieldIdPos_lt {rounds : ℕ} {found : FileCrypt}
    (returned : findFileCrypt body rounds extraSize afterCommonPos = some (some found)) :
    found.fieldIdPos < body.length := by
  rw [findFileCrypt_eq] at returned
  split at returned
  · cases returned
  rename_i start stop area
  have room := (recordAt_of_extraLoop returned).2.room
  have ahead := (@getVint_pos body stop found.fieldIdPos).1
  have inside := (extraArea_le area).2
  omega

variable (body extraSize afterCommonPos) in
/-- `find_file_crypt` reads inside the header only, and returns a place inside it,
exactly when it returns at once or the name does not overrun. -/
theorem fileCryptReads_inside_iff :
    ((∀ i ∈ fileCryptReads body extraSize afterCommonPos, i < body.length) ∧
      ∀ rounds found, findFileCrypt body rounds extraSize afterCommonPos = some (some found) →
        found.fieldIdPos < body.length) ↔
      (extraSize ≠ 0 → ¬NameOverruns body afterCommonPos) := by
  constructor
  · rintro ⟨inside, -⟩ nonempty
    exact nameReads_lt_iff.mp fun i read => inside i ⟨nonempty, .inr (.inl read)⟩
  intro fits
  refine ⟨?_, fun rounds found returned => fieldIdPos_lt returned⟩
  rintro i ⟨nonempty, ⟨pos, _, field⟩ | name | ⟨start, stop, ep, area, _, _, record⟩⟩
  · exact lt_of_mem_vintReads field
  · exact nameReads_lt_iff.mpr (fits nonempty) i name
  · exact lt_of_lt_of_le (lt_of_mem_recordReads record) (extraArea_le area).2

end Reads

def namelessBody : Bytes :=
  List.replicate 5 0 ++ [0xF1, 0xFF, 0xFF, 0xFF, 0xFF, 0xFF, 0xFF, 0xFF, 0xFF, 0x01]

theorem namelessBody_read_outside : ∃ i ∈ fileCryptReads namelessBody 1 0, namelessBody.length ≤ i := by
  refine ⟨15, ⟨by decide, .inr (.inl ?_)⟩, by decide⟩
  change _ ∧ _ ∧ _
  decide

end NzbDownloader.Extract
