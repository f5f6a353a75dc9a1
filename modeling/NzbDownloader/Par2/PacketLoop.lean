import NzbDownloader.Lib.Transition
import NzbDownloader.Par2.Collect

/-!
# The packet loop

Each round of `parse_par2_file` reads a header and moves past its packet, by reading or by a
relative seek over the length that the header gives.
-/

namespace NzbDownloader.Par2

open Lib Lib.Transition Util Option Nat List

def headerAt (content : Bytes) (pos : ℕ) : Bytes :=
  readAt content pos packetHeaderSize

def lengthAt (content : Bytes) (pos : ℕ) : ℕ :=
  ofLe (readAt (headerAt content pos) 8 8)

def typeAt (content : Bytes) (pos : ℕ) : Bytes :=
  readAt (headerAt content pos) 48 16

def readBeforeSeek (content : Bytes) (pos : ℕ) : ℕ :=
  if typeAt content pos = typeRecovery then 4 else 0

structure SeeksBack (content : Bytes) (pos : ℕ) : Prop where
  header : (headerAt content pos).length = packetHeaderSize
  magic : readAt (headerAt content pos) 0 8 = packetMagic
  skipped : (criticalPacket (typeAt content pos) [] []).isNone = true
  readable : (readAt content (pos + packetHeaderSize) (readBeforeSeek content pos)).length =
    readBeforeSeek content pos
  negative : 2 ^ 63 + packetHeaderSize + readBeforeSeek content pos ≤ lengthAt content pos
  inside : 2 ^ 64 ≤ pos + lengthAt content pos ∧ pos + lengthAt content pos ≤ 2 ^ 64 + longMax

theorem signed64_of_ge {n : ℕ} (large : 2 ^ 63 ≤ n) (small : n < 2 ^ 64) :
    signed64 n = n - 2 ^ 64 := by
  rw [signed64, BitVec.toInt_eq_toNat_cond, BitVec.toNat_ofNat, mod_eq_of_lt small,
    if_neg (by omega)]
  norm_num

theorem fseek_eq_some_iff {pos next : ℕ} {offset : ℤ} :
    fseek pos offset = some next ↔ (next : ℤ) = pos + offset ∧ next ≤ longMax := by
  rw [fseek, ite_none_right_eq_some, some_inj]
  constructor
  · rintro ⟨⟨low, high⟩, rfl⟩
    omega
  · rintro ⟨same, high⟩
    omega

theorem lengthAt_lt (content : Bytes) (pos : ℕ) : lengthAt content pos < 2 ^ 64 := by
  have bound := ofLe_lt (readAt (headerAt content pos) 8 8)
  have short : (readAt (headerAt content pos) 8 8).length ≤ 8 := by
    rw [readAt, length_take]
    omega
  calc lengthAt content pos < 256 ^ (readAt (headerAt content pos) 8 8).length := bound
    _ ≤ 256 ^ 8 := Nat.pow_le_pow_right (by decide) short
    _ = 2 ^ 64 := by norm_num

section Round

variable {md5 : Bytes → Digest} {path : String} {content : Bytes} {pos next : ℕ}

theorem fseek_signed64 {n : ℕ} (small : n < 2 ^ 64) (moved : fseek pos (signed64 n) = some next) :
    (n < 2 ^ 63 ∧ next = pos + n) ∨ (2 ^ 63 ≤ n ∧ next + 2 ^ 64 = pos + n) := by
  obtain ⟨same, -⟩ := fseek_eq_some_iff.mp moved
  rcases lt_or_ge n (2 ^ 63) with fits | large
  · rw [signed64_of_lt fits] at same
    exact .inl ⟨fits, by omega⟩
  · rw [signed64_of_ge large small] at same
    exact .inr ⟨large, by omega⟩

theorem criticalPacket_isNone_of_setId (type setId : Bytes) :
    (criticalPacket type setId []).isNone = (criticalPacket type [] []).isNone := by
  unfold criticalPacket
  split_ifs <;> rfl

theorem handleRecoveryPacket_next {start bodyLen : ℕ} {hash : Digest} {headerTail : Bytes}
    (small : bodyLen < 2 ^ 64)
    (went : (handleRecoveryPacket path content start bodyLen hash headerTail).2 = some next) :
    next = start + bodyLen ∨
      (readAt content start 4).length = 4 ∧ 2 ^ 63 + 4 ≤ bodyLen ∧
        next + 2 ^ 64 = start + bodyLen ∧ next ≤ longMax := by
  rw [handleRecoveryPacket] at went
  split at went
  · obtain ⟨same, -⟩ := fseek_eq_some_iff.mp went
    exact .inl (by omega)
  dsimp only at went
  split at went
  · cases went
  · rename_i complete
    rcases fseek_signed64 (by omega) went with ⟨-, same⟩ | ⟨large, same⟩
    · exact .inl (by omega)
    · exact .inr ⟨not_not.mp complete, by omega, by omega, (fseek_eq_some_iff.mp went).2⟩

def readCritical (md5 : Bytes → Digest) (content : Bytes) (pos bodyLen : ℕ) :
    Option Parsed × Option ℕ :=
  let header := headerAt content pos
  let start := pos + packetHeaderSize
  if bodyLen > maxCriticalPacketBody then (none, none)
  else
    let body := readAt content start bodyLen
    if body.length ≠ bodyLen then (none, none)
    else if md5 (readAt header 32 32 ++ body) ≠ digestOf (readAt header 16 16) then
      (none, some (start + bodyLen))
    else (criticalPacket (typeAt content pos) (readAt header 32 16) body, some (start + bodyLen))

theorem readPacket_eq : readPacket md5 path content pos =
    if (headerAt content pos).length ≠ packetHeaderSize then (none, none)
    else if readAt (headerAt content pos) 0 8 ≠ packetMagic then (none, none)
    else if lengthAt content pos < packetHeaderSize then (none, none)
    else if typeAt content pos = typeRecovery then
      handleRecoveryPacket path content (pos + packetHeaderSize)
        (lengthAt content pos - packetHeaderSize) (digestOf (readAt (headerAt content pos) 16 16))
        (readAt (headerAt content pos) 32 32)
    else if (criticalPacket (typeAt content pos) [] []).isNone then
      (none, fseek (pos + packetHeaderSize) (signed64 (lengthAt content pos - packetHeaderSize)))
    else readCritical md5 content pos (lengthAt content pos - packetHeaderSize) := by
  rw [← criticalPacket_isNone_of_setId _ (readAt (headerAt content pos) 32 16)]
  rfl

theorem readCritical_next {bodyLen : ℕ}
    (went : (readCritical md5 content pos bodyLen).2 = some next) :
    next = pos + packetHeaderSize + bodyLen := by
  rw [readCritical] at went
  dsimp only at went
  split at went
  · cases went
  · split at went
    · cases went
    · split at went <;> exact (Option.some.inj went).symm

theorem readPacket_next (went : (readPacket md5 path content pos).2 = some next) :
    packetHeaderSize ≤ lengthAt content pos ∧
      (next = pos + lengthAt content pos ∨
        SeeksBack content pos ∧ next + 2 ^ 64 = pos + lengthAt content pos) := by
  have small := lengthAt_lt content pos
  rw [readPacket_eq] at went
  split at went
  · cases went
  rename_i header
  split at went
  · cases went
  rename_i magic
  split at went
  · cases went
  rename_i long
  have bound : packetHeaderSize ≤ lengthAt content pos := not_lt.mp long
  refine ⟨bound, ?_⟩
  split at went
  · rename_i recovery
    rcases handleRecoveryPacket_next (by omega) went with
      same | ⟨readable, negative, same, inside⟩
    · exact .inl (by omega)
    have four : readBeforeSeek content pos = 4 := if_pos recovery
    refine .inr ⟨⟨not_not.mp header, not_not.mp magic, ?_, ?_, ?_, ?_⟩, by omega⟩
    · rw [recovery]
      rfl
    · rw [four, readable]
    · rw [four]
      omega
    · omega
  · rename_i other
    split at went
    · rename_i skipped
      rcases fseek_signed64 (by omega) went with ⟨-, same⟩ | ⟨negative, same⟩
      · exact .inl (by omega)
      have nothing : readBeforeSeek content pos = 0 := if_neg other
      have inside := (fseek_eq_some_iff.mp went).2
      refine .inr ⟨⟨not_not.mp header, not_not.mp magic, skipped, ?_, ?_, ?_⟩, by omega⟩
      · rw [nothing, readAt, take_zero, length_nil]
      · rw [nothing]
        omega
      · omega
    · exact .inl (by have := readCritical_next went; omega)

theorem SeeksBack.readPacket_next (back : SeeksBack content pos) :
    ∃ next, (readPacket md5 path content pos).2 = some next ∧ next < pos := by
  have small := lengthAt_lt content pos
  obtain ⟨header, magic, skipped, readable, negative, low, high⟩ := back
  have inside : ∀ k ≤ readBeforeSeek content pos,
      fseek (pos + packetHeaderSize + k)
        (signed64 (lengthAt content pos - packetHeaderSize - k)) =
          some (pos + lengthAt content pos - 2 ^ 64) := by
    intro k before
    rw [fseek_eq_some_iff, signed64_of_ge (by omega) (by omega)]
    omega
  refine ⟨pos + lengthAt content pos - 2 ^ 64, ?_, by omega⟩
  rw [readPacket_eq, if_neg (not_not.mpr header), if_neg (not_not.mpr magic), if_neg (by omega)]
  split
  · rename_i recovery
    have four : readBeforeSeek content pos = 4 := if_pos recovery
    rw [four] at readable negative inside
    rw [handleRecoveryPacket, if_neg (by omega)]
    rw [if_neg (not_not.mpr readable)]
    exact inside 4 le_rfl
  · exact inside 0 (zero_le _)

theorem readPacket_header (read : (readPacket md5 path content pos).1.isSome = true ∨
    (readPacket md5 path content pos).2.isSome = true) :
    pos + packetHeaderSize ≤ content.length := by
  rw [readPacket_eq] at read
  split at read
  · rcases read with none | none <;> cases none
  · rename_i header
    rw [not_not, headerAt, length_readAt] at header
    have : 0 < packetHeaderSize := by decide
    omega

end Round

section Loop

variable (md5 : Bytes → Digest) (path : String) (content : Bytes)

def nextRound (pos : ℕ) (_ : Unit) : Option ℕ :=
  (readPacket md5 path content pos).2

def Visits (start pos : ℕ) : Prop :=
  Reachable (nextRound md5 path content) Anything start pos

variable {md5 path content}

theorem Visits.step {start pos next : ℕ}
    (went : (readPacket md5 path content start).2 = some next)
    (later : Visits md5 path content next pos) : Visits md5 path content start pos :=
  (Reachable.tail () Reachable.refl trivial went).trans later

def sliceCount (packets : List Parsed) : ℕ :=
  (packets.filterMap Parsed.slice?).length

theorem sliceCount_append (first second : List Parsed) :
    sliceCount (first ++ second) = sliceCount first + sliceCount second := by
  rw [sliceCount, filterMap_append, length_append, sliceCount, sliceCount]

theorem sliceCount_toList (found : Option Parsed) : sliceCount found.toList ≤ 1 := by
  cases found with
  | none => exact zero_le 1
  | some p => exact length_filterMap_le Parsed.slice? [p]

theorem sliceCount_round (pos : ℕ) :
    packetHeaderSize * sliceCount (readPacket md5 path content pos).1.toList ≤
      content.length - pos := by
  cases found : (readPacket md5 path content pos).1 with
  | none => exact zero_le _
  | some p =>
    have header := readPacket_header (.inl (by rw [found]; rfl))
    calc packetHeaderSize * sliceCount (some p).toList
        ≤ packetHeaderSize * 1 := mul_le_mul_left _ (sliceCount_toList _)
      _ ≤ content.length - pos := by omega

theorem parsePackets_ends {start rounds : ℕ}
    (ahead : ∀ pos, Visits md5 path content start pos → ¬ SeeksBack content pos)
    (positive : 0 < rounds) (enough : content.length < start + packetHeaderSize * rounds) :
    ∃ found, parsePackets md5 path content rounds start = some found ∧
      packetHeaderSize * sliceCount found ≤ content.length - start := by
  induction rounds generalizing start with
  | zero => contradiction
  | succ rounds ih =>
    have here := @sliceCount_round md5 path content start
    rcases round : readPacket md5 path content start with ⟨found, _ | next⟩
    · rw [round] at here
      exact ⟨found.toList, by rw [parsePackets, round], here⟩
    have went : (readPacket md5 path content start).2 = some next := by rw [round]
    have header := readPacket_header (.inr (by rw [went]; rfl))
    have further : start + packetHeaderSize ≤ next := by
      obtain ⟨bound, same | ⟨back, -⟩⟩ := readPacket_next went
      · omega
      · exact absurd back (ahead start Reachable.refl)
    rw [mul_succ] at enough
    obtain ⟨rest, parsed, bound⟩ := @ih next (fun pos later => ahead pos (later.step went))
      (pos_of_ne_zero fun none => by rw [none] at enough; omega) (by omega)
    refine ⟨found.toList ++ rest, ?_, ?_⟩
    · simp only [parsePackets, round, parsed, map_some]
    · have one : packetHeaderSize * sliceCount found.toList ≤ packetHeaderSize * 1 :=
        mul_le_mul_left _ (sliceCount_toList found)
      rw [sliceCount_append, mul_add]
      omega

theorem foldl_handlePacket_slices (packets : List Parsed) (set : ScanSet) :
    (packets.foldl handlePacket set).slices = set.slices ++ packets.filterMap Parsed.slice? := by
  induction packets generalizing set with
  | nil => simp
  | cons packet rest ih =>
    rw [foldl_cons, ih, handlePacket_slices, append_assoc]
    cases packet <;> rfl

variable (md5 path) in
/-- Parsing a file makes progress in every round, ends within one round for each 64
bytes and one more, and appends at most one slice for each 64 bytes, exactly when no
round seeks back. -/
theorem parsePar2File_ends_iff (disk : String → Option Bytes) :
    ((∀ pos next, Visits md5 path ((disk path).getD []) 0 pos →
        (readPacket md5 path ((disk path).getD []) pos).2 = some next →
          pos + packetHeaderSize ≤ next) ∧
      ∀ set, ∃ set',
        parsePar2File (((disk path).getD []).length / packetHeaderSize + 1) md5 disk set path =
          some set' ∧
        packetHeaderSize * set'.slices.length ≤
          packetHeaderSize * set.slices.length + ((disk path).getD []).length) ↔
      ∀ pos, Visits md5 path ((disk path).getD []) 0 pos →
        ¬ SeeksBack ((disk path).getD []) pos := by
  constructor
  · rintro ⟨progress, -⟩ pos visited back
    obtain ⟨next, went, before⟩ := @SeeksBack.readPacket_next md5 path _ _ back
    have := progress pos next visited went
    omega
  · intro ahead
    constructor
    · intro pos next visited went
      obtain ⟨bound, same | ⟨back, -⟩⟩ := readPacket_next went
      · omega
      · exact absurd back (ahead pos visited)
    · intro set
      rw [parsePar2File]
      cases stored : disk path with
      | none => exact ⟨set, rfl, Nat.le_add_right _ _⟩
      | some content =>
        rw [stored, getD_some] at ahead
        have enough : content.length <
            0 + packetHeaderSize * (content.length / packetHeaderSize + 1) := by
          rw [Nat.zero_add]
          exact Nat.lt_mul_div_succ _ (by decide)
        obtain ⟨found, parsed, bound⟩ := parsePackets_ends ahead (Nat.succ_pos _) enough
        refine ⟨found.foldl handlePacket set, ?_, ?_⟩
        · simp only [getD_some, parsed, map_some]
        · rw [foldl_handlePacket_slices, length_append, Nat.mul_add]
          exact Nat.add_le_add_left bound _

end Loop

def unknownHeader (length : ℕ) : Bytes :=
  packetMagic ++ (toLe 8 length ++ replicate 48 0)

def endlessVolume : Bytes :=
  unknownHeader 64 ++ unknownHeader (2 ^ 64 - 64)

theorem readPacket_endlessVolume (md5 : Bytes → Digest) (path : String) :
    readPacket md5 path endlessVolume 0 = (none, some 64) ∧
      readPacket md5 path endlessVolume 64 = (none, some 0) :=
  ⟨rfl, rfl⟩

theorem endlessVolume_never_ends : ¬ ∃ md5 rounds set,
    parsePar2File rounds md5 (fun _ => some endlessVolume) .empty "v.par2" = some set := by
  rintro ⟨md5, rounds, set, ended⟩
  obtain ⟨first, second⟩ := readPacket_endlessVolume md5 "v.par2"
  have never : ∀ n, parsePackets md5 "v.par2" endlessVolume n 0 = none ∧
      parsePackets md5 "v.par2" endlessVolume n 64 = none := by
    intro n
    induction n with
    | zero => exact ⟨rfl, rfl⟩
    | succ n ih => simp only [parsePackets, first, second, ih, map_none, and_self]
  simp only [parsePar2File, (never rounds).1, map_none, reduceCtorEq] at ended

end NzbDownloader.Par2
