import Mathlib.Data.BitVec
import Mathlib.Data.List.GetD
import Mathlib.Tactic.IntervalCases

/-!
# Files as byte lists

A file's content is a list of bytes. Reading past the end delivers fewer bytes, writing past
the end fills the gap with zeros.
-/

namespace NzbDownloader.Lib

open List BitVec

abbrev Byte := BitVec 8

abbrev Bytes := List Byte

def byteAt (content : Bytes) (i : ℕ) : Byte :=
  content.getD i 0

def padTo (n : ℕ) (content : Bytes) : Bytes :=
  content ++ List.replicate (n - content.length) 0

def readAt (content : Bytes) (off n : ℕ) : Bytes :=
  (content.drop off).take n

def writeAt (content : Bytes) (off : ℕ) (data : Bytes) : Bytes :=
  if data = [] then content
  else padTo off (content.take off) ++ data ++ content.drop (off + data.length)

def setLength (content : Bytes) (n : ℕ) : Bytes :=
  padTo n (content.take n)

variable {content a b : Bytes} {i off n : ℕ}

theorem byteAt_eq_zero (beyond : content.length ≤ i) : byteAt content i = 0 := by
  exact getD_eq_default _ _ beyond

theorem byteAt_append (a b : Bytes) (i : ℕ) :
    byteAt (a ++ b) i = if i < a.length then byteAt a i else byteAt b (i - a.length) := by
  unfold byteAt
  split
  · rename_i inside
    exact getD_append _ _ _ _ inside
  · exact getD_append_right _ _ _ _ (by omega)

@[simp]
theorem byteAt_replicate_zero (n i : ℕ) : byteAt (List.replicate n 0) i = 0 := by
  unfold byteAt
  rw [getD_eq_getElem?_getD, getElem?_replicate]
  split <;> rfl

@[simp]
theorem byteAt_padTo (n : ℕ) (content : Bytes) (i : ℕ) :
    byteAt (padTo n content) i = byteAt content i := by
  rw [padTo, byteAt_append]
  split
  · rfl
  · rw [byteAt_replicate_zero, byteAt_eq_zero (by omega)]

@[simp]
theorem length_padTo (n : ℕ) (content : Bytes) :
    (padTo n content).length = max n content.length := by
  simp [padTo]
  omega

theorem byteAt_take (content : Bytes) (n i : ℕ) :
    byteAt (content.take n) i = if i < n then byteAt content i else 0 := by
  unfold byteAt
  simp only [getD_eq_getElem?_getD, getElem?_take]
  split <;> rfl

theorem byteAt_drop (content : Bytes) (n i : ℕ) :
    byteAt (content.drop n) i = byteAt content (n + i) := by
  simp [byteAt, getD_eq_getElem?_getD, getElem?_drop]

theorem byteAt_readAt (inside : i < n) :
    byteAt (readAt content off n) i = byteAt content (off + i) := by
  rw [readAt, byteAt_take, if_pos inside, byteAt_drop]

theorem length_readAt (content : Bytes) (off n : ℕ) :
    (readAt content off n).length = min n (content.length - off) := by
  simp [readAt]

theorem readAt_middle (c : Bytes) (start : a.length = off) (size : b.length = n) :
    readAt (a ++ (b ++ c)) off n = b := by
  subst start size
  rw [readAt, drop_left, take_left]

theorem readAt_last (start : a.length = off) (size : b.length = n) : readAt (a ++ b) off n = b := by
  subst start size
  rw [readAt, drop_left, take_length]

theorem le_length_of_readAt (positive : 0 < n) (complete : (readAt content off n).length = n) :
    off + n ≤ content.length := by
  rw [length_readAt] at complete
  omega

theorem byteAt_writeAt (content : Bytes) (off : ℕ) (data : Bytes) (i : ℕ) :
    byteAt (writeAt content off data) i =
      if off ≤ i ∧ i < off + data.length then byteAt data (i - off) else byteAt content i := by
  unfold writeAt
  split
  · rename_i empty
    subst empty
    rw [if_neg (by simp)]
  · have start : (padTo off (content.take off)).length = off := by
      simp only [length_padTo, length_take]
      omega
    rw [byteAt_append, length_append, start]
    by_cases before : i < off
    · rw [if_pos (by omega), byteAt_append, start, if_pos before, byteAt_padTo, byteAt_take,
        if_pos before, if_neg (by omega)]
    by_cases inside : i < off + data.length
    · rw [if_pos inside, byteAt_append, start, if_neg before, if_pos (by omega)]
    · rw [if_neg inside, if_neg (by omega), byteAt_drop]
      congr 1
      omega

theorem length_writeAt {data : Bytes} (nonempty : data ≠ []) :
    (writeAt content off data).length = max content.length (off + data.length) := by
  simp only [writeAt, if_neg nonempty, length_append, length_padTo, length_take,
    length_drop]
  omega

theorem length_le_writeAt (content : Bytes) (off : ℕ) (data : Bytes) :
    content.length ≤ (writeAt content off data).length := by
  by_cases empty : data = []
  · simp [writeAt, empty]
  · rw [length_writeAt empty]
    omega

@[simp]
theorem length_setLength (content : Bytes) (n : ℕ) : (setLength content n).length = n := by
  simp only [setLength, length_padTo, length_take]
  omega

theorem byteAt_setLength (content : Bytes) (inside : i < n) :
    byteAt (setLength content n) i = byteAt content i := by
  rw [setLength, byteAt_padTo, byteAt_take, if_pos inside]

theorem eq_of_byteAt (length : a.length = b.length)
    (same : ∀ i < a.length, byteAt a i = byteAt b i) : a = b := by
  apply ext_getElem length
  intro i inA inB
  have here := same i inA
  rwa [byteAt, byteAt, getD_eq_getElem _ _ inA, getD_eq_getElem _ _ inB] at here

structure Extent where
  offset : ℕ
  data : Bytes
  deriving DecidableEq, Repr

namespace Extent

variable {part other : Extent}

def In (part : Extent) (content : Bytes) : Prop :=
  readAt content part.offset part.data.length = part.data

instance (part : Extent) (content : Bytes) : Decidable (part.In content) :=
  inferInstanceAs (Decidable (_ = _))

def Agrees (part other : Extent) : Prop :=
  ∀ i < part.data.length, other.offset ≤ part.offset + i →
    part.offset + i < other.offset + other.data.length →
      byteAt part.data i = byteAt other.data (part.offset + i - other.offset)

instance (part other : Extent) : Decidable (part.Agrees other) :=
  inferInstanceAs (Decidable (∀ i < _, _ → _ → _))

theorem in_iff : part.In content ↔
    (part.data ≠ [] → part.offset + part.data.length ≤ content.length) ∧
      ∀ i < part.data.length, byteAt content (part.offset + i) = byteAt part.data i := by
  constructor
  · intro inside
    constructor
    · intro nonempty
      refine le_length_of_readAt (length_pos_iff.mpr nonempty) ?_
      rw [inside]
    · intro i within
      rw [← byteAt_readAt within, inside]
  · rintro ⟨long, same⟩
    by_cases empty : part.data = []
    · simp [In, empty, readAt]
    have length : (readAt content part.offset part.data.length).length = part.data.length := by
      have fits := long empty
      rw [length_readAt]
      omega
    refine eq_of_byteAt length fun i within => ?_
    rw [length] at within
    rw [byteAt_readAt within, same i within]

theorem in_writeAt_self (part : Extent) (content : Bytes) :
    part.In (writeAt content part.offset part.data) := by
  rw [in_iff]
  constructor
  · intro nonempty
    rw [length_writeAt nonempty]
    omega
  · intro i within
    rw [byteAt_writeAt, if_pos (by omega)]
    congr 1
    omega

theorem In.writeAt (inside : part.In content) (agrees : part.Agrees other) :
    part.In (writeAt content other.offset other.data) := by
  rw [in_iff] at inside ⊢
  constructor
  · intro nonempty
    exact (inside.1 nonempty).trans (length_le_writeAt _ _ _)
  intro i within
  rw [byteAt_writeAt]
  split
  · rename_i overlap
    exact (agrees i within overlap.1 overlap.2).symm
  · exact inside.2 i within

theorem In.setLength (inside : part.In content) (fits : part.offset + part.data.length ≤ n) :
    part.In (setLength content n) := by
  rw [in_iff] at inside ⊢
  constructor
  · intro _
    rw [length_setLength]
    exact fits
  · intro i within
    rw [byteAt_setLength content (by omega)]
    exact inside.2 i within

theorem Agrees.of_apart (apart : part.offset + part.data.length ≤ other.offset ∨
    other.offset + other.data.length ≤ part.offset) : part.Agrees other := by
  intro i within above below
  omega

theorem In.glue {off : ℕ} {front back : Bytes} (first : Extent.In ⟨off, front⟩ content)
    (second : Extent.In ⟨off + front.length, back⟩ content) :
    Extent.In ⟨off, front ++ back⟩ content := by
  unfold In readAt at first second ⊢
  rw [length_append, take_add, drop_drop, first, second]

theorem In.append (inside : part.In content) (more : Bytes) :
    Extent.In ⟨part.offset, part.data ++ more⟩
      (Lib.writeAt content (part.offset + part.data.length) more) := by
  have behind : part.Agrees ⟨part.offset + part.data.length, more⟩ :=
    .of_apart (.inl le_rfl)
  have kept := inside.writeAt behind
  have added := in_writeAt_self ⟨part.offset + part.data.length, more⟩ content
  rw [in_iff] at kept added ⊢
  dsimp only at kept added ⊢
  rw [length_append]
  constructor
  · intro nonempty
    by_cases empty : more = []
    · have longer := kept.1 (by simpa [empty] using nonempty)
      simpa [empty] using longer
    · have longer := added.1 empty
      omega
  · intro i within
    rw [byteAt_append]
    split
    · rename_i front
      exact kept.2 i front
    · have back := added.2 (i - part.data.length) (by omega)
      rwa [show part.offset + part.data.length + (i - part.data.length) = part.offset + i by omega]
        at back

end Extent

def leWord (low high : Byte) : BitVec 16 :=
  low.setWidth 16 ||| (high.setWidth 16 <<< 8)

def wordAt (content : Bytes) (w : ℕ) : BitVec 16 :=
  leWord (byteAt content (2 * w)) (byteAt content (2 * w + 1))

theorem leWord_split (word : BitVec 16) :
    leWord ((word &&& 0xff).setWidth 8) ((word >>> 8).setWidth 8) = word := by
  unfold leWord
  ext i inside
  simp only [getElem_or, getElem_setWidth, getLsbD_setWidth,
    getElem_shiftLeft, getLsbD_and, getLsbD_ushiftRight]
  by_cases low : i < 8
  · have mask : getLsbD (0xff : BitVec 16) i = true := by
      interval_cases i <;> decide
    rw [mask]
    simp [low, getLsbD_eq_getElem inside]
  · have shifted : 8 + (i - 8) = i := by omega
    have high : i - 8 < 8 := by omega
    simp [low, shifted, high, getLsbD_eq_getElem inside]

theorem leWord_injective {a b c d : Byte} (equal : leWord a b = leWord c d) : a = c ∧ b = d := by
  have bits : ∀ i, (leWord a b).getLsbD i = (leWord c d).getLsbD i := by
    intro i
    rw [equal]
  unfold leWord at bits
  constructor
  · apply eq_of_getLsbD_eq
    intro i inside
    have here := bits i
    simpa [show i < 16 by omega, show i < 8 by omega] using here
  · apply eq_of_getLsbD_eq
    intro i inside
    have here := bits (i + 8)
    have beyondA : a.getLsbD (i + 8) = false := getLsbD_of_ge a _ (by omega)
    have beyondC : c.getLsbD (i + 8) = false := getLsbD_of_ge c _ (by omega)
    simpa [show i + 8 < 16 by omega, show i < 16 by omega, beyondA, beyondC] using here

theorem byteAt_eq_of_wordAt (same : wordAt a (i / 2) = wordAt b (i / 2)) :
    byteAt a i = byteAt b i := by
  obtain ⟨low, high⟩ := leWord_injective same
  rcases Nat.mod_two_eq_zero_or_one i with even | odd
  · rwa [show 2 * (i / 2) = i by omega] at low
  · rwa [show 2 * (i / 2) + 1 = i by omega] at high

end NzbDownloader.Lib
