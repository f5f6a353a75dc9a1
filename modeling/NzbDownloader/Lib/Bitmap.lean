import NzbDownloader.Lib.ByteFile

/-!
# Flags in a bitmap

A list of flags is kept as bytes with one bit for each flag, the first flag in
the lowest bit of the first byte.
-/

namespace NzbDownloader.Lib

def bitMask (k : ℕ) : Byte :=
  1#8 <<< k

def flagAt (bitmap : Bytes) (bit : ℕ) : Bool :=
  bit / 8 < bitmap.length ∧ byteAt bitmap (bit / 8) &&& bitMask (bit % 8) ≠ 0

def setFlag (bitmap : Bytes) (bit : ℕ) : Bytes :=
  bitmap.modify (bit / 8) (· ||| bitMask (bit % 8))

def setFlags : ℕ → List Bool → Bytes → Bytes
  | _, [], bitmap => bitmap
  | bit, flag :: rest, bitmap =>
      setFlags (bit + 1) rest (if flag then setFlag bitmap bit else bitmap)

def bitmapOf (flags : List Bool) : Bytes :=
  setFlags 0 flags (List.replicate ((flags.length + 7) / 8) 0)

theorem getLsbD_bitMask {i k : ℕ} (inside : i < 8) : (bitMask k).getLsbD i = decide (i = k) := by
  rw [bitMask, BitVec.getLsbD_shiftLeft, BitVec.getLsbD_one]
  by_cases less : i < k
  · simp [less, less.ne]
  · have after : i - k = 0 ↔ i = k := by omega
    simp [inside, less, after]

theorem and_bitMask_ne_zero {byte : Byte} {k : ℕ} (inside : k < 8) :
    byte &&& bitMask k ≠ 0 ↔ byte.getLsbD k = true := by
  rw [Ne, BitVec.eq_of_getLsbD_eq_iff]
  constructor
  · intro some
    by_contra unset
    apply some
    intro i small
    rw [BitVec.getLsbD_and, getLsbD_bitMask small]
    by_cases same : i = k
    · rw [same]
      simpa using unset
    · simp [same]
  · intro set all
    have zero := all k inside
    rw [BitVec.getLsbD_and, getLsbD_bitMask inside, set] at zero
    simp at zero

theorem flagAt_eq (bitmap : Bytes) (bit : ℕ) :
    flagAt bitmap bit = (byteAt bitmap (bit / 8)).getLsbD (bit % 8) := by
  have inside : bit % 8 < 8 := Nat.mod_lt _ (by decide)
  rw [Bool.eq_iff_iff, flagAt, decide_eq_true_eq, and_bitMask_ne_zero inside]
  constructor
  · exact And.right
  intro set
  refine ⟨?_, set⟩
  by_contra beyond
  rw [byteAt_eq_zero (not_lt.mp beyond)] at set
  simp at set

theorem length_setFlag (bitmap : Bytes) (bit : ℕ) : (setFlag bitmap bit).length = bitmap.length :=
  List.length_modify _ _ _

theorem flagAt_setFlag {bitmap : Bytes} {bit : ℕ} (inside : bit / 8 < bitmap.length) (other : ℕ) :
    flagAt (setFlag bitmap bit) other = (flagAt bitmap other || decide (other = bit)) := by
  have small : other % 8 < 8 := Nat.mod_lt _ (by decide)
  have changed : byteAt (setFlag bitmap bit) (other / 8) =
      if other / 8 = bit / 8 then byteAt bitmap (other / 8) ||| bitMask (bit % 8)
      else byteAt bitmap (other / 8) := by
    unfold byteAt setFlag
    rw [List.getD_eq_getElem?_getD, List.getElem?_modify, List.getD_eq_getElem?_getD]
    by_cases same : bit / 8 = other / 8
    · rw [if_pos same.symm, ← same, List.getElem?_eq_getElem inside]
      simp
    · simp [same, Ne.symm same]
  rw [flagAt_eq, flagAt_eq, changed]
  split
  · rw [BitVec.getLsbD_or, getLsbD_bitMask small]
    congr 1
    rw [decide_eq_decide]
    omega
  · rename_i different
    have apart : other ≠ bit := fun same => different (by rw [same])
    simp [apart]

theorem flagAt_setFlags {flags : List Bool} {bitmap : Bytes} {bit : ℕ}
    (room : bit + flags.length ≤ 8 * bitmap.length) (other : ℕ) :
    flagAt (setFlags bit flags bitmap) other =
      (flagAt bitmap other || decide (bit ≤ other) && flags.getD (other - bit) false) := by
  induction flags generalizing bit bitmap with
  | nil => simp [setFlags]
  | cons flag rest ih =>
    rw [List.length_cons] at room
    have inside : bit / 8 < bitmap.length := by omega
    have length : (if flag then setFlag bitmap bit else bitmap).length = bitmap.length := by
      split
      · exact length_setFlag bitmap bit
      · rfl
    have here : flagAt (if flag then setFlag bitmap bit else bitmap) other =
        (flagAt bitmap other || flag && decide (other = bit)) := by
      cases flag with
      | false => simp
      | true => simpa using flagAt_setFlag inside other
    rw [setFlags, ih (by omega), here, Bool.or_assoc]
    rcases lt_trichotomy other bit with before | rfl | after
    · simp [before.ne, show ¬bit + 1 ≤ other by omega, show ¬bit ≤ other by omega]
    · simp
    obtain ⟨k, rfl⟩ := Nat.exists_eq_add_of_lt after
    have index : bit + k + 1 - bit = k + 1 := by omega
    have index' : bit + k + 1 - (bit + 1) = k := by omega
    rw [index, index', List.getD_cons_succ]
    simp [show bit + k + 1 ≠ bit by omega, show bit ≤ bit + k + 1 by omega]

theorem flagAt_bitmapOf (flags : List Bool) (bit : ℕ) :
    flagAt (bitmapOf flags) bit = flags.getD bit false := by
  have room : 0 + flags.length ≤
      8 * (List.replicate ((flags.length + 7) / 8) (0 : Byte)).length := by
    rw [List.length_replicate]
    omega
  have none : flagAt (List.replicate ((flags.length + 7) / 8) 0) bit = false := by
    rw [flagAt_eq, byteAt_replicate_zero]
    simp
  rw [bitmapOf, flagAt_setFlags room, none]
  simp

end NzbDownloader.Lib
