import NzbDownloader.Lib.LittleEndian
import NzbDownloader.Par2.Repair
import NzbDownloader.Util.Name
import NzbDownloader.Util.Numeral

/-!
# PAR2 packets

The packet loop of `parse_par2_file` in `par2/par2.c`: which packets of a file reach a
handler. The control flow of the loop does not depend on the set being collected, so the
packets are listed first and handled afterwards.

A length field with the top bit set makes `fseek` go backwards, and the loop need not
end then; it is run with a bound on its rounds.
-/

namespace NzbDownloader.Par2

open Lib Util List

def packetHeaderSize : ℕ := 64

def packetMagic : Bytes := [80, 65, 82, 50, 0, 80, 75, 84]

def typeMain : Bytes := [80, 65, 82, 32, 50, 46, 48, 0, 77, 97, 105, 110, 0, 0, 0, 0]

def typeFiledesc : Bytes := [80, 65, 82, 32, 50, 46, 48, 0, 70, 105, 108, 101, 68, 101, 115, 99]

def typeIfsc : Bytes := [80, 65, 82, 32, 50, 46, 48, 0, 73, 70, 83, 67, 0, 0, 0, 0]

def typeRecovery : Bytes := [80, 65, 82, 32, 50, 46, 48, 0, 82, 101, 99, 118, 83, 108, 105, 99]

theorem length_typeMain : typeMain.length = 16 :=
  rfl

theorem length_typeFiledesc : typeFiledesc.length = 16 :=
  rfl

theorem length_typeRecovery : typeRecovery.length = 16 :=
  rfl

def maxCriticalPacketBody : ℕ := 16 * 1024 * 1024

def digestOf (bytes : Bytes) : Digest :=
  BitVec.ofNat 128 (ofLe bytes)

/-- A packet as a handler receives it, with the set id of its header.  A recovery
packet is recorded by its place; its set id is in `header_tail`. -/
inductive Parsed where
  | main (setId body : Bytes)
  | filedesc (setId body : Bytes)
  | ifsc (setId body : Bytes)
  | recovery (slice : Par2Slice)

def Par2Slice.setId (slice : Par2Slice) : Bytes :=
  slice.headerTail.take 16

def Parsed.setId : Parsed → Bytes
  | .main setId _ => setId
  | .filedesc setId _ => setId
  | .ifsc setId _ => setId
  | .recovery slice => slice.setId

def criticalPacket (type setId body : Bytes) : Option Parsed :=
  if type = typeMain then some (.main setId body)
  else if type = typeFiledesc then some (.filedesc setId body)
  else if type = typeIfsc then some (.ifsc setId body)
  else none

def fseek (pos : ℕ) (offset : ℤ) : Option ℕ :=
  if 0 ≤ pos + offset ∧ pos + offset ≤ longMax then some (pos + offset).toNat else none

section Parse

variable (md5 : Bytes → Digest) (path : String) (content : Bytes)

/-- `handle_recovery_packet`, from the end of the header at `pos` on: what it
records, and where the next packet starts unless it returned `-1`. -/
def handleRecoveryPacket (pos bodyLen : ℕ) (hash : Digest) (headerTail : Bytes) :
    Option Parsed × Option ℕ :=
  if bodyLen < 4 then (none, fseek pos bodyLen)
  else
    let expbuf := readAt content pos 4
    if expbuf.length ≠ 4 then (none, none)
    else
      let dataLen := signed64 (bodyLen - 4)
      (some (.recovery
        { path := path, dataOffset := pos + 4, dataLen := dataLen,
          exponent := BitVec.ofNat 32 (ofLe expbuf), hash := hash, headerTail := headerTail }),
        fseek (pos + 4) dataLen)

/-- One round of the loop, with the file positioned at `pos`: what it hands to a
handler, and where the next round starts unless the loop was left. -/
def readPacket (pos : ℕ) : Option Parsed × Option ℕ :=
  let header := readAt content pos packetHeaderSize
  if header.length ≠ packetHeaderSize then (none, none)
  else if readAt header 0 8 ≠ packetMagic then (none, none)
  else
    let length := ofLe (readAt header 8 8)
    if length < packetHeaderSize then (none, none)
    else
      let bodyLen := length - packetHeaderSize
      let start := pos + packetHeaderSize
      let hash := digestOf (readAt header 16 16)
      let setId := readAt header 32 16
      let type := readAt header 48 16
      if type = typeRecovery then
        handleRecoveryPacket path content start bodyLen hash (readAt header 32 32)
      else if (criticalPacket type setId []).isNone then (none, fseek start (signed64 bodyLen))
      else if bodyLen > maxCriticalPacketBody then (none, none)
      else
        let body := readAt content start bodyLen
        if body.length ≠ bodyLen then (none, none)
        else if md5 (readAt header 32 32 ++ body) ≠ hash then (none, some (start + bodyLen))
        else (criticalPacket type setId body, some (start + bodyLen))

/-- The packets that `parse_par2_file` hands to its handlers from `pos` on, in
order; `none` if the bound on the rounds is reached. -/
def parsePackets : ℕ → ℕ → Option (List Parsed)
  | 0, _ => none
  | rounds + 1, pos =>
      match readPacket md5 path content pos with
      | (found, none) => some found.toList
      | (found, some next) => (parsePackets rounds next).map (found.toList ++ ·)

end Parse

structure Packet where
  setId : Bytes
  type : Bytes
  body : Bytes
  setId_length : setId.length = 16
  type_length : type.length = 16

def Packet.digest (md5 : Bytes → Digest) (packet : Packet) : Digest :=
  md5 (packet.setId ++ packet.type ++ packet.body)

def Packet.header (md5 : Bytes → Digest) (packet : Packet) : Bytes :=
  packetMagic ++ (toLe 8 (packetHeaderSize + packet.body.length) ++
    (toLe 16 (packet.digest md5).toNat ++ (packet.setId ++ packet.type)))

def Packet.encode (md5 : Bytes → Digest) (packet : Packet) : Bytes :=
  packet.header md5 ++ packet.body

def Packet.oversized (packet : Packet) : Bool :=
  packet.type ≠ typeRecovery ∧ (criticalPacket packet.type packet.setId []).isSome ∧
    maxCriticalPacketBody < packet.body.length

def Packet.parsed (md5 : Bytes → Digest) (path : String) (pos : ℕ) (packet : Packet) :
    Option Parsed :=
  if packet.type = typeRecovery then
    if packet.body.length < 4 then none
    else some (.recovery
      { path := path, dataOffset := pos + packetHeaderSize + 4,
        dataLen := (packet.body.length - 4 : ℕ),
        exponent := BitVec.ofNat 32 (ofLe (packet.body.take 4)),
        hash := packet.digest md5,
        headerTail := packet.setId ++ packet.type })
  else criticalPacket packet.type packet.setId packet.body

def parsedPackets (md5 : Bytes → Digest) (path : String) : ℕ → List Packet → List Parsed
  | _, [] => []
  | pos, packet :: rest =>
      if packet.oversized then []
      else (packet.parsed md5 path pos).toList ++
        parsedPackets md5 path (pos + (packet.encode md5).length) rest

theorem digestOf_toLe (digest : Digest) : digestOf (toLe 16 digest.toNat) = digest := by
  have small : digest.toNat < 256 ^ 16 := digest.isLt
  rw [digestOf, ofLe_toLe, Nat.mod_eq_of_lt small, BitVec.ofNat_toNat, BitVec.setWidth_eq]

theorem fseek_of_lt {pos n : ℕ} (small : pos + n < 2 ^ 63) :
    fseek pos n = some (pos + n) := by
  have inside : (0 : ℤ) ≤ pos + n ∧ (pos + n : ℤ) ≤ longMax := by
    simp only [longMax]
    omega
  rw [fseek, if_pos inside]
  congr 1

theorem criticalPacket_isNone (type setId body : Bytes) :
    (criticalPacket type setId body).isNone = (criticalPacket type setId []).isNone := by
  unfold criticalPacket
  split_ifs <;> rfl

namespace Packet

variable (md5 : Bytes → Digest) (packet : Packet)

theorem header_length : (packet.header md5).length = packetHeaderSize := by
  simp [header, packet.setId_length, packet.type_length, packetMagic, packetHeaderSize]

theorem encode_length : (packet.encode md5).length = packetHeaderSize + packet.body.length := by
  rw [encode, length_append, header_length]

structure HeaderFields (header : Bytes) : Prop where
  magic : readAt header 0 8 = packetMagic
  length : readAt header 8 8 = toLe 8 (packetHeaderSize + packet.body.length)
  hash : readAt header 16 16 = toLe 16 (packet.digest md5).toNat
  setId : readAt header 32 16 = packet.setId
  type : readAt header 48 16 = packet.type
  tail : readAt header 32 32 = packet.setId ++ packet.type

theorem headerFields : packet.HeaderFields md5 (packet.header md5) := by
  have magic : packetMagic.length = 8 := rfl
  have setId := packet.setId_length
  have type := packet.type_length
  rw [header]
  constructor
  · exact readAt_middle (a := []) _ rfl magic
  · exact readAt_middle _ magic (length_toLe _ _)
  · rw [← append_assoc]
    apply readAt_middle
    · simp [magic]
    · rw [length_toLe]
  · rw [← append_assoc, ← append_assoc]
    apply readAt_middle
    · simp [magic]
    · exact setId
  · rw [← append_assoc, ← append_assoc, ← append_assoc]
    apply readAt_last
    · simp [magic, setId]
    · exact type
  · rw [← append_assoc, ← append_assoc]
    apply readAt_last
    · simp [magic]
    · simp [setId, type]

theorem readPacket_encode (path : String) (front rest : Bytes)
    (small : (front ++ (packet.encode md5 ++ rest)).length < 2 ^ 63) :
    readPacket md5 path (front ++ (packet.encode md5 ++ rest)) front.length =
      if packet.oversized then (none, none)
      else (packet.parsed md5 path front.length,
        some (front.length + (packet.encode md5).length)) := by
  have fields := packet.headerFields md5
  have headerRead : readAt (front ++ (packet.encode md5 ++ rest)) front.length packetHeaderSize =
      packet.header md5 := by
    rw [encode, append_assoc]
    exact readAt_middle _ rfl (packet.header_length md5)
  have bodyRead {n : ℕ} (le : n ≤ packet.body.length) :
      readAt (front ++ (packet.encode md5 ++ rest)) (front.length + packetHeaderSize) n =
        packet.body.take n := by
    have start : (front ++ packet.header md5).length = front.length + packetHeaderSize := by
      rw [length_append, header_length]
    have joined : front ++ (packet.encode md5 ++ rest) =
        (front ++ packet.header md5) ++ (packet.body.take n ++ (packet.body.drop n ++ rest)) := by
      rw [← append_assoc (packet.body.take n), take_append_drop, encode]
      simp only [append_assoc]
    rw [joined, readAt_middle _ start (length_take_of_le le)]
  have size := packet.encode_length md5
  have total : front.length + (packetHeaderSize + packet.body.length) < 2 ^ 63 := by
    simp only [length_append, size] at small
    omega
  have lengthRead : ofLe (toLe 8 (packetHeaderSize + packet.body.length)) =
      packetHeaderSize + packet.body.length := by
    rw [ofLe_toLe, Nat.mod_eq_of_lt (by omega)]
  simp only [readPacket, headerRead, header_length, fields.magic, fields.length, fields.hash,
    fields.setId, fields.type, fields.tail, lengthRead, digestOf_toLe, ne_eq, not_true_eq_false,
    if_false, Nat.not_lt.mpr (Nat.le_add_right _ _), Nat.add_sub_cancel_left, size]
  by_cases recovery : packet.type = typeRecovery
  · have fitting : packet.oversized = false := by simp [oversized, recovery]
    rw [if_pos recovery, fitting, parsed, if_pos recovery, handleRecoveryPacket]
    by_cases tiny : packet.body.length < 4
    · rw [if_pos tiny, if_pos tiny, fseek_of_lt (by omega)]
      simp [Nat.add_assoc]
    have next : front.length + packetHeaderSize + 4 + (packet.body.length - 4) =
        front.length + (packetHeaderSize + packet.body.length) := by omega
    have expRead : (packet.body.take 4).length = 4 := length_take_of_le (by omega)
    have sought := fseek_of_lt (next.trans_lt total)
    simp only [bodyRead (n := 4) (by omega), expRead, if_neg tiny, signed64_of_lt
      (show packet.body.length - 4 < 2 ^ 63 by omega), sought, next, ne_eq, not_true_eq_false,
      if_false, Bool.false_eq_true]
  · rw [if_neg recovery, parsed, if_neg recovery]
    by_cases critical : (criticalPacket packet.type packet.setId []).isNone = true
    · have fitting : packet.oversized = false := by
        simp [oversized, Option.isNone_iff_eq_none.mp critical]
      have unknown := Option.isNone_iff_eq_none.mp
        ((criticalPacket_isNone packet.type packet.setId packet.body).trans critical)
      rw [if_pos critical, fitting, unknown, signed64_of_lt (by omega), fseek_of_lt (by omega)]
      simp [Nat.add_assoc]
    · have known : (criticalPacket packet.type packet.setId []).isSome = true :=
        Option.isSome_iff_ne_none.mpr (by simpa using critical)
      rw [if_neg critical]
      by_cases large : maxCriticalPacketBody < packet.body.length
      · have oversized : packet.oversized = true := by simp [oversized, recovery, known, large]
        rw [if_pos large, oversized, if_pos rfl]
      · have fitting : packet.oversized = false := by simp [oversized, large]
        rw [if_neg large, fitting, bodyRead le_rfl, take_length]
        simp [digest, Nat.add_assoc]

end Packet

theorem parsePackets_succ {md5 : Bytes → Digest} {path : String} {bytes : Bytes} {rounds pos : ℕ}
    {found : List Parsed}
    (parsed : parsePackets md5 path bytes rounds pos = some found) :
    parsePackets md5 path bytes (rounds + 1) pos = some found := by
  induction rounds generalizing pos found with
  | zero => contradiction
  | succ rounds ih =>
    rw [parsePackets] at parsed ⊢
    split at parsed
    · exact parsed
    · obtain ⟨rest, later, joined⟩ := Option.map_eq_some_iff.mp parsed
      rw [ih later, Option.map_some, joined]

theorem parsePackets_mono {md5 : Bytes → Digest} {path : String} {bytes : Bytes} {rounds pos : ℕ}
    {found : List Parsed}
    (parsed : parsePackets md5 path bytes rounds pos = some found) (extra : ℕ) :
    parsePackets md5 path bytes (rounds + extra) pos = some found := by
  induction extra with
  | zero => exact parsed
  | succ extra ih => exact parsePackets_succ ih

theorem parsePackets_encode (md5 : Bytes → Digest) (path : String) (front : Bytes)
    (packets : List Packet) {rounds : ℕ} (enough : packets.length < rounds)
    (small : (front ++ packets.flatMap (Packet.encode md5)).length < 2 ^ 63) :
    parsePackets md5 path (front ++ packets.flatMap (Packet.encode md5)) rounds front.length =
      some (parsedPackets md5 path front.length packets) := by
  induction packets generalizing front rounds with
  | nil =>
    obtain ⟨rounds, rfl⟩ := Nat.exists_eq_add_one_of_ne_zero (by omega : rounds ≠ 0)
    have atEnd : (readAt front front.length packetHeaderSize).length ≠ packetHeaderSize := by
      simp [readAt, packetHeaderSize]
    rw [flatMap_nil, append_nil, parsePackets, readPacket, if_pos atEnd]
    rfl
  | cons packet rest ih =>
    obtain ⟨rounds, rfl⟩ := Nat.exists_eq_add_one_of_ne_zero
      (by omega : rounds ≠ 0)
    rw [flatMap_cons] at small ⊢
    rw [parsePackets, packet.readPacket_encode md5 path front _ small, parsedPackets]
    by_cases oversized : packet.oversized = true
    · simp [oversized]
    · have tail := ih (front ++ packet.encode md5)
        (by simpa using enough) (by simpa using small)
      rw [append_assoc, length_append] at tail
      simp [oversized, tail]

end NzbDownloader.Par2
