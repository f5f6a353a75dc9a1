import NzbDownloader.Lib.ByteFile

/-!
# CRC-32

The table-driven checksum of `util/crc32.c`.  The register is an `unsigned long`
of which only the low 32 bits are ever set.
-/

namespace NzbDownloader.Util

open Lib BitVec List

/-- One of the eight rounds that make up an entry of the table. -/
def tableRound {w : ℕ} (c : BitVec w) : BitVec w :=
  if c &&& 1 ≠ 0 then 0xEDB88320 ^^^ (c >>> 1) else c >>> 1

def crc32Table (n : BitVec 8) : BitVec 32 :=
  (range 8).foldl (fun c _ => tableRound c) (n.setWidth 32)

def crc32Init : BitVec 32 :=
  0xFFFFFFFF

def crc32Update (crc : BitVec 32) (data : Bytes) : BitVec 32 :=
  data.foldl (fun crc byte => crc32Table ((crc ^^^ byte.setWidth 32).setWidth 8) ^^^ (crc >>> 8))
    crc

def crc32Final (crc : BitVec 32) : BitVec 32 :=
  crc ^^^ 0xFFFFFFFF

def crc32 (data : Bytes) : BitVec 32 :=
  crc32Final (crc32Update crc32Init data)

example : crc32 [0x31, 0x32, 0x33, 0x34, 0x35, 0x36, 0x37, 0x38, 0x39] = 0xCBF43926 := by
  decide +kernel

/-! ## The register as the code has it

The same functions on an `unsigned long` of 64 bits.
-/

def tableEntry (n : BitVec 8) (rounds : ℕ) : BitVec 64 :=
  (range rounds).foldl (fun c _ => tableRound c) (n.setWidth 64)

def longUpdate (crc : BitVec 64) (data : Bytes) : BitVec 64 :=
  data.foldl (fun crc byte =>
    tableEntry (((crc ^^^ byte.setWidth 64) &&& 0xFF).setWidth 8) 8 ^^^ (crc >>> 8)) crc

def longInit : BitVec 64 :=
  0xFFFFFFFF

def longFinal (crc : BitVec 64) : BitVec 64 :=
  crc ^^^ 0xFFFFFFFF

/-! ## The definition of CRC-32

The message is a string of bits, the low bit of a byte first, shifted through
the register one at a time.
-/

def bitStep (crc : BitVec 32) (bit : Bool) : BitVec 32 :=
  if crc.getLsbD 0 ^^ bit then (crc >>> 1) ^^^ 0xEDB88320 else crc >>> 1

def byteBits (byte : Byte) : List Bool :=
  (range 8).map byte.getLsbD

def bitwiseCrc32 (data : Bytes) : BitVec 32 :=
  (data.flatMap byteBits).foldl bitStep 0xFFFFFFFF ^^^ 0xFFFFFFFF

theorem tableRound_eq (c : BitVec 32) :
    tableRound c = (if c.getLsbD 0 then 0xEDB88320#32 else 0#32) ^^^ (c >>> 1) := by
  rw [tableRound]
  change (if c &&& 1#32 ≠ 0 then _ else _) = _
  rw [and_one_eq_setWidth_ofBool_getLsbD]
  cases c.getLsbD 0 <;> simp

theorem tableRound_setWidth (c : BitVec 32) :
    tableRound (c.setWidth 64) = (tableRound c).setWidth 64 := by
  rw [tableRound_eq, tableRound]
  change (if c.setWidth 64 &&& 1#64 ≠ 0 then _ else _) = _
  rw [and_one_eq_setWidth_ofBool_getLsbD]
  have shift : c.setWidth 64 >>> 1 = (c >>> 1).setWidth 64 := by
    ext i
    simp
  have lowest : (c.setWidth 64).getLsbD 0 = c.getLsbD 0 := by simp
  rw [lowest, shift, setWidth_xor]
  cases c.getLsbD 0 with
  | false => exact zero_xor.symm
  | true => rfl

theorem tableEntry_eq (n : BitVec 8) (rounds : ℕ) :
    tableEntry n rounds =
      ((range rounds).foldl (fun c _ => tableRound c) (n.setWidth 32)).setWidth 64 := by
  rw [tableEntry, show n.setWidth 64 = (n.setWidth 32).setWidth 64 by simp]
  exact foldl_hom (setWidth 64) fun c _ => tableRound_setWidth c

theorem longUpdate_setWidth (crc : BitVec 32) (data : Bytes) :
    longUpdate (crc.setWidth 64) data = (crc32Update crc data).setWidth 64 := by
  apply foldl_hom (setWidth 64)
  intro crc byte
  have mask : (0xFF : BitVec 64).setWidth 8 = allOnes 8 := by decide
  have index : (((crc.setWidth 64 ^^^ byte.setWidth 64) &&& 0xFF).setWidth 8 : BitVec 8) =
      (crc ^^^ byte.setWidth 32).setWidth 8 := by
    rw [setWidth_and, mask, and_allOnes, setWidth_xor, setWidth_xor,
      setWidth_setWidth_of_le _ (by decide), setWidth_setWidth_of_le _ (by decide),
      setWidth_setWidth_of_le _ (by decide)]
  have shift : crc.setWidth 64 >>> 8 = (crc >>> 8).setWidth 64 := by
    ext i
    simp
  rw [index, tableEntry_eq, shift, setWidth_xor]
  rfl

theorem tableRound_xor (x y : BitVec 32) :
    tableRound (x ^^^ y) = tableRound x ^^^ tableRound y := by
  have feedback (a b : Bool) : (if (a ^^ b) = true then 0xEDB88320#32 else 0#32) =
      (if a = true then 0xEDB88320#32 else 0#32) ^^^ (if b = true then 0xEDB88320#32 else 0#32) := by
    cases a <;> cases b <;> rfl
  simp only [tableRound_eq, getLsbD_xor, ushiftRight_xor_distrib, feedback]
  ac_rfl

theorem iterate_tableRound_xor (n : ℕ) (x y : BitVec 32) :
    tableRound^[n] (x ^^^ y) = tableRound^[n] x ^^^ tableRound^[n] y := by
  induction n with
  | zero => rfl
  | succ n ih => simp only [Function.iterate_succ_apply', ih, tableRound_xor]

theorem iterate_tableRound_high {n : ℕ} {y : BitVec 32} (clear : ∀ i < n, y.getLsbD i = false) :
    tableRound^[n] y = y >>> n := by
  induction n with
  | zero => simp
  | succ n ih =>
    have lowest : (y >>> n).getLsbD 0 = false := by
      simpa using clear n (Nat.lt_succ_self n)
    rw [Function.iterate_succ_apply', ih fun i bound => clear i (by omega), tableRound_eq, lowest,
      shiftRight_add]
    exact zero_xor

theorem iterate_tableRound_eight (x : BitVec 32) :
    tableRound^[8] x = crc32Table (x.setWidth 8) ^^^ (x >>> 8) := by
  have parts : x = (x.setWidth 8).setWidth 32 ^^^ ((x >>> 8) <<< 8) := by
    apply eq_of_getLsbD_eq
    intro i bound
    by_cases low : i < 8
    · simp [low, bound]
    · simp [low, bound, Nat.add_sub_cancel' (Nat.not_lt.mp low)]
  have high : ((x >>> 8) <<< 8) >>> 8 = x >>> 8 := by
    apply eq_of_getLsbD_eq
    intro i bound
    simpa using x.lt_of_getLsbD
  conv_lhs => rw [parts]
  rw [iterate_tableRound_xor, iterate_tableRound_high (n := 8) (y := (x >>> 8) <<< 8), high]
  · rfl
  · intro i bound
    simp [bound]

theorem foldl_bitStep (crc y : BitVec 32) (n : ℕ) :
    ((range n).map y.getLsbD).foldl bitStep crc = tableRound^[n] (crc ^^^ y) ^^^ (y >>> n) := by
  induction n with
  | zero =>
    change crc = crc ^^^ y ^^^ y >>> 0
    rw [BitVec.ushiftRight_zero, BitVec.xor_assoc, BitVec.xor_self, BitVec.xor_zero]
  | succ n ih =>
    rw [range_succ, map_append, foldl_append, ih, Function.iterate_succ_apply',
      tableRound_eq]
    generalize tableRound^[n] (crc ^^^ y) = register
    have sent : ((register ^^^ (y >>> n)).getLsbD 0 ^^ y.getLsbD n) = register.getLsbD 0 := by
      simp
    simp only [map_cons, map_nil, foldl_cons, foldl_nil, bitStep, sent,
      BitVec.ushiftRight_xor_distrib, BitVec.shiftRight_add]
    cases register.getLsbD 0 with
    | false => exact congrArg (· ^^^ _) BitVec.zero_xor.symm
    | true =>
      change _ ^^^ _ ^^^ _ = _ ^^^ _ ^^^ _
      ac_rfl

theorem foldl_byteBits (crc : BitVec 32) (byte : Byte) :
    (byteBits byte).foldl bitStep crc = crc32Update crc [byte] := by
  have bits : byteBits byte = (range 8).map (byte.setWidth 32).getLsbD := by
    apply map_congr_left
    intro i range
    have bound : i < 8 := mem_range.mp range
    simp [show i < 32 by omega]
  have gone : byte.setWidth 32 >>> 8 = 0 := by
    ext i
    simp
  rw [bits, foldl_bitStep, iterate_tableRound_eight, ushiftRight_xor_distrib, gone]
  simp [crc32Update]

theorem crc32_eq_bitwiseCrc32 (data : Bytes) : crc32 data = bitwiseCrc32 data := by
  rw [crc32, crc32Final, bitwiseCrc32, foldl_flatMap]
  simp only [foldl_byteBits]
  rfl

/-- However the data is cut into pieces, `crc32_update` on them computes the
CRC-32 of the whole; neither the register nor a table entry leaves 32 bits. -/
theorem streamed_crc32 :
    (∀ pieces : List Bytes, longFinal (pieces.foldl longUpdate longInit) =
        (bitwiseCrc32 pieces.flatten).setWidth 64) ∧
      (∀ (pieces : List Bytes) (part : Bytes),
        (longUpdate (pieces.foldl longUpdate longInit) part).toNat < 2 ^ 32 ∧
        (longFinal (pieces.foldl longUpdate longInit)).toNat < 2 ^ 32) ∧
      ∀ (n : BitVec 8) (rounds : ℕ), (tableEntry n rounds).toNat < 2 ^ 32 := by
  have low (c : BitVec 32) : (c.setWidth 64).toNat < 2 ^ 32 := by
    rw [toNat_setWidth_of_le (by decide)]
    exact c.isLt
  have register (pieces : List Bytes) : pieces.foldl longUpdate longInit =
      (crc32Update crc32Init pieces.flatten).setWidth 64 := by
    rw [← longUpdate_setWidth, longUpdate, foldl_flatten]
    rfl
  have final (pieces : List Bytes) : longFinal (pieces.foldl longUpdate longInit) =
      (bitwiseCrc32 pieces.flatten).setWidth 64 := by
    rw [← crc32_eq_bitwiseCrc32, register, crc32, crc32Final, setWidth_xor]
    rfl
  refine ⟨final, fun pieces part => ⟨?_, ?_⟩, fun n rounds => ?_⟩
  · rw [register, longUpdate_setWidth]
    exact low _
  · rw [final]
    exact low _
  · rw [tableEntry_eq]
    exact low _

end NzbDownloader.Util
