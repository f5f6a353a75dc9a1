import NzbDownloader.Lib.ByteFile

/-!
# Variable-length integers

`get_vint` and `put_vint_fixed_width` of `extract/rar5_crypt.c`: groups of seven bits, low
group first, the high bit of a byte saying that another follows.
-/

namespace NzbDownloader.Extract

open Lib

def more (b : Byte) : Bool :=
  b &&& 0x80 ≠ 0

def addGroup (result shift : ℕ) (b : Byte) : ℕ :=
  result ||| ((b &&& 0x7f).toNat <<< shift) % 2 ^ 64

/-- The loop of `get_vint` for at most `rounds` more groups: the number, or zero
if it does not end, and the position after what was read. -/
def vintLoop (buf : Bytes) (len : ℕ) : ℕ → ℕ → ℕ → ℕ → ℕ × ℕ
  | 0, _, _, pos => (0, pos)
  | rounds + 1, shift, result, pos =>
      if pos < len then
        if more (byteAt buf pos) then
          vintLoop buf len rounds (shift + 7) (addGroup result shift (byteAt buf pos)) (pos + 1)
        else (addGroup result shift (byteAt buf pos), pos + 1)
      else (0, pos)

def getVint (buf : Bytes) (len pos : ℕ) : ℕ × ℕ :=
  vintLoop buf len 10 0 0 pos

def vintBytes : ℕ → ℕ → Bytes
  | _, 0 => []
  | value, width + 1 =>
      (BitVec.ofNat 8 (value % 128) ||| if width = 0 then 0 else 0x80) ::
        vintBytes (value / 128) width

def putVintFixedWidth (buf : Bytes) (pos value width : ℕ) : Bytes :=
  writeAt buf pos (vintBytes value width)

section Ends

variable {buf buf' : Bytes} {len len' rounds shift result pos : ℕ}

theorem vintLoop_pos :
    pos ≤ (vintLoop buf len rounds shift result pos).2 ∧
      (vintLoop buf len rounds shift result pos).2 ≤ pos + rounds ∧
      (vintLoop buf len rounds shift result pos).2 ≤ max pos len := by
  fun_induction vintLoop buf len rounds shift result pos with
  | case1 | case2 | case3 | case4 => omega

theorem vintLoop_more {i : ℕ} (low : pos ≤ i)
    (high : i + 1 < (vintLoop buf len rounds shift result pos).2) : more (byteAt buf i) = true := by
  fun_induction vintLoop buf len rounds shift result pos with
  | case1 | case3 | case4 => omega
  | case2 rounds shift result pos inside follows ih =>
    rcases Nat.eq_or_lt_of_le low with rfl | later
    · exact follows
    · exact ih later high

theorem vintLoop_last (nonzero : (vintLoop buf len rounds shift result pos).1 ≠ 0) :
    pos < (vintLoop buf len rounds shift result pos).2 ∧
      more (byteAt buf ((vintLoop buf len rounds shift result pos).2 - 1)) = false := by
  fun_induction vintLoop buf len rounds shift result pos with
  | case1 | case4 => contradiction
  | case2 rounds shift result pos inside follows ih =>
    obtain ⟨low, last⟩ := ih nonzero
    exact ⟨by omega, last⟩
  | case3 rounds shift result pos inside ends => exact ⟨Nat.lt_succ_self pos, by simpa using ends⟩

theorem vintLoop_congr (same : ∀ i, pos ≤ i → i < (vintLoop buf len rounds shift result pos).2 →
      byteAt buf' i = byteAt buf i) :
    vintLoop buf' len rounds shift result pos = vintLoop buf len rounds shift result pos := by
  fun_induction vintLoop buf len rounds shift result pos with
  | case1 => rfl
  | case2 rounds shift result pos inside follows ih =>
    have here := same pos le_rfl (Nat.lt_of_succ_le vintLoop_pos.1)
    rw [vintLoop, if_pos inside, here, if_pos follows]
    exact ih fun i low high => same i (by omega) high
  | case3 rounds shift result pos inside ends =>
    have here := same pos le_rfl (Nat.lt_succ_self pos)
    rw [vintLoop, if_pos inside, here, if_neg ends]
  | case4 rounds shift result pos beyond => rw [vintLoop, if_neg beyond]

theorem vintLoop_len (nonzero : (vintLoop buf len rounds shift result pos).1 ≠ 0)
    (within : (vintLoop buf len rounds shift result pos).2 ≤ len') :
    vintLoop buf len' rounds shift result pos = vintLoop buf len rounds shift result pos := by
  fun_induction vintLoop buf len rounds shift result pos with
  | case1 => rfl
  | case2 rounds shift result pos inside follows ih =>
    have start := (vintLoop_last nonzero).1
    rw [vintLoop, if_pos (by omega), if_pos follows]
    exact ih nonzero within
  | case3 rounds shift result pos inside ends =>
    rw [vintLoop, if_pos (Nat.lt_of_succ_le within), if_neg ends]
  | case4 => contradiction

theorem addGroup_lt {n : ℕ} {b : Byte} (small : result < 2 ^ n) (enough : shift + 7 ≤ n ∨ 64 ≤ n) :
    addGroup result shift b < 2 ^ n := by
  have group : (b &&& 0x7f).toNat < 2 ^ 7 := by
    rw [BitVec.toNat_and]
    exact Nat.and_lt_two_pow _ (by decide)
  apply Nat.or_lt_two_pow small
  rcases enough with enough | enough
  · have shifted : (b &&& 0x7f).toNat <<< shift < 2 ^ (shift + 7) := by
      rw [Nat.shiftLeft_eq, Nat.pow_add, Nat.mul_comm]
      exact Nat.mul_lt_mul_of_pos_left group (Nat.two_pow_pos shift)
    exact lt_of_le_of_lt (Nat.mod_le _ _)
      (lt_of_lt_of_le shifted (Nat.pow_le_pow_right (by decide) enough))
  · exact lt_of_lt_of_le (Nat.mod_lt _ (by decide)) (Nat.pow_le_pow_right (by decide) enough)

theorem vintLoop_lt {n : ℕ} (small : result < 2 ^ n)
    (enough : shift + 7 * ((vintLoop buf len rounds shift result pos).2 - pos) ≤ n ∨ 64 ≤ n) :
    (vintLoop buf len rounds shift result pos).1 < 2 ^ n := by
  fun_induction vintLoop buf len rounds shift result pos with
  | case1 | case4 => exact Nat.two_pow_pos n
  | case2 rounds shift result pos inside follows ih =>
    have moved := @vintLoop_pos buf len rounds (shift + 7)
      (addGroup result shift (byteAt buf pos)) (pos + 1)
    exact ih (addGroup_lt small (by omega)) (by omega)
  | case3 rounds shift result pos inside ends => exact addGroup_lt small (by omega)

end Ends

section Read

variable {buf buf' : Bytes} {len len' pos : ℕ}

theorem getVint_pos : pos ≤ (getVint buf len pos).2 ∧ (getVint buf len pos).2 ≤ pos + 10 ∧
    (getVint buf len pos).2 ≤ max pos len :=
  vintLoop_pos

theorem getVint_congr (same : ∀ i, pos ≤ i → i < (getVint buf len pos).2 →
    byteAt buf' i = byteAt buf i) : getVint buf' len pos = getVint buf len pos :=
  vintLoop_congr same

theorem getVint_len (nonzero : (getVint buf len pos).1 ≠ 0)
    (within : (getVint buf len pos).2 ≤ len') : getVint buf len' pos = getVint buf len pos :=
  vintLoop_len nonzero within

theorem getVint_lt : (getVint buf len pos).1 < 2 ^ 64 :=
  vintLoop_lt (by decide) (.inr le_rfl)

theorem getVint_lt_width :
    (getVint buf len pos).1 < 2 ^ (7 * ((getVint buf len pos).2 - pos)) :=
  vintLoop_lt (Nat.two_pow_pos _) (.inl (Nat.zero_add _).le)

theorem not_inside_vint {other : ℕ} (nonzero : (getVint buf len pos).1 ≠ 0)
    (after : other < (getVint buf len pos).2)
    (before : (getVint buf len pos).2 < (getVint buf len' other).2) : False := by
  have ends := (vintLoop_last nonzero).2
  have follows : more (byteAt buf ((getVint buf len pos).2 - 1)) = true :=
    vintLoop_more (Nat.le_sub_one_of_lt after) (by
      change _ < (getVint buf len' other).2
      omega)
  exact Bool.false_ne_true (ends.symm.trans follows)

end Read

theorem length_vintBytes (value width : ℕ) : (vintBytes value width).length = width := by
  induction width generalizing value with
  | zero => rfl
  | succ width ih => rw [vintBytes, List.length_cons, ih]

theorem group_of_lt : ∀ x < 128, ∀ last : Bool,
    more (BitVec.ofNat 8 x ||| if last then 0 else 0x80) = !last ∧
      ((BitVec.ofNat 8 x ||| if last then 0 else 0x80) &&& 0x7f).toNat = x := by
  decide +kernel

theorem addGroup_eq {result shift x : ℕ} {b : Byte} (group : (b &&& 0x7f).toNat = x)
    (small : result < 2 ^ shift) (word : x * 2 ^ shift < 2 ^ 64) :
    addGroup result shift b = result + x * 2 ^ shift := by
  rw [addGroup, group, Nat.shiftLeft_eq, Nat.mod_eq_of_lt word, Nat.or_comm, Nat.mul_comm,
    ← Nat.two_pow_add_eq_or_of_lt small, Nat.add_comm]

theorem vintLoop_vintBytes {buf : Bytes} {len rounds shift result pos value width : ℕ}
    (stored : ∀ i < width, byteAt buf (pos + i) = byteAt (vintBytes value width) i)
    (positive : 0 < width) (few : width ≤ rounds) (inside : pos + width ≤ len)
    (small : result < 2 ^ shift) (fits : value < 128 ^ width)
    (word : value * 2 ^ shift < 2 ^ 64) :
    vintLoop buf len rounds shift result pos = (result + value * 2 ^ shift, pos + width) := by
  induction width generalizing rounds shift result pos value with
  | zero => contradiction
  | succ width ih =>
    obtain ⟨rounds, rfl⟩ := Nat.exists_eq_add_one_of_ne_zero (by omega : rounds ≠ 0)
    have here : byteAt buf pos =
        BitVec.ofNat 8 (value % 128) ||| if decide (width = 0) then 0 else 0x80 := by
      simpa [vintBytes, byteAt] using stored 0 (Nat.succ_pos width)
    obtain ⟨follows, group⟩ :=
      group_of_lt (value % 128) (Nat.mod_lt _ (by decide)) (decide (width = 0))
    rw [← here] at follows group
    have low : value % 128 * 2 ^ shift < 2 ^ 64 :=
      lt_of_le_of_lt (Nat.mul_le_mul_right _ (Nat.mod_le _ _)) word
    rw [vintLoop, if_pos (by omega), addGroup_eq group small low]
    -- The number is its low group and what the remaining groups make.
    have split : value % 128 * 2 ^ shift + value / 128 * 2 ^ (shift + 7) = value * 2 ^ shift := by
      rw [Nat.pow_add, Nat.mul_comm (2 ^ shift), ← Nat.mul_assoc, ← Nat.add_mul,
        show value / 128 * 2 ^ 7 = 128 * (value / 128) by omega, Nat.mod_add_div]
    cases width with
    | zero =>
      have small : value / 128 = 0 := Nat.div_eq_of_lt (by simpa using fits)
      rw [if_neg (by simp [follows]), ← split, small, Nat.zero_mul]
      rfl
    | succ width =>
      have grown : result + value % 128 * 2 ^ shift < 2 ^ (shift + 7) := by
        have group : value % 128 * 2 ^ shift ≤ 127 * 2 ^ shift :=
          Nat.mul_le_mul_right _ (by omega)
        rw [Nat.pow_add]
        omega
      rw [if_pos (by simp [follows]), ih (fun i bound => ?_) (Nat.succ_pos _) (by omega) (by omega)
        grown (Nat.div_lt_of_lt_mul (by rwa [Nat.pow_succ'] at fits)) (by omega)]
      · rw [Nat.add_assoc, split, Nat.add_assoc, Nat.add_comm 1]
      · have next := stored (i + 1) (by omega)
        rwa [← Nat.add_assoc, Nat.add_right_comm] at next

theorem getVint_putVintFixedWidth {buf : Bytes} {len pos value width : ℕ} (positive : 0 < width)
    (few : width ≤ 10) (inside : pos + width ≤ len)
    (fits : value < 128 ^ width) (word : value < 2 ^ 64) :
    getVint (putVintFixedWidth buf pos value width) len pos = (value, pos + width) := by
  have bytes : ∀ i < width, byteAt (putVintFixedWidth buf pos value width) (pos + i) =
      byteAt (vintBytes value width) i := by
    intro i bound
    rw [putVintFixedWidth, byteAt_writeAt]
    simp [length_vintBytes, bound]
  rw [getVint, vintLoop_vintBytes bytes positive few inside (by decide) fits (by simpa using word)]
  simp

theorem putVintFixedWidth_frame {buf : Bytes} {pos value width : ℕ}
    (inside : pos + width ≤ buf.length) :
    (putVintFixedWidth buf pos value width).length = buf.length ∧
      ∀ i, i < pos ∨ pos + width ≤ i →
        byteAt (putVintFixedWidth buf pos value width) i = byteAt buf i := by
  constructor
  · rw [putVintFixedWidth]
    rcases eq_or_ne (vintBytes value width) [] with empty | nonempty
    · rw [empty, writeAt, if_pos rfl]
    · rw [length_writeAt nonempty, length_vintBytes, Nat.max_eq_left inside]
  · intro i outside
    rw [putVintFixedWidth, byteAt_writeAt, length_vintBytes, if_neg (by omega)]

theorem smaller_fits {buf : Bytes} {len pos value : ℕ} (smaller : value < (getVint buf len pos).1) :
    pos < (getVint buf len pos).2 ∧ (getVint buf len pos).2 ≤ pos + 10 ∧
      (getVint buf len pos).2 ≤ len ∧ value < 2 ^ 64 ∧
      value < 2 ^ (7 * ((getVint buf len pos).2 - pos)) := by
  have start : pos < (getVint buf len pos).2 := (vintLoop_last (Nat.ne_zero_of_lt smaller)).1
  have bounds := @getVint_pos buf len pos
  exact ⟨start, bounds.2.1, by omega, smaller.trans getVint_lt, smaller.trans getVint_lt_width⟩

/-- Rewriting a number in place: every value that has room in the groups is read
back and takes all of them, nothing else changes, and a value below the one that
was read has room. -/
theorem vint_rewritten_in_place :
    (∀ (buf : Bytes) (len pos value width : ℕ), 0 < width → width ≤ 10 → pos + width ≤ len →
      len ≤ buf.length → value < 2 ^ (7 * width) → value < 2 ^ 64 →
      getVint (putVintFixedWidth buf pos value width) len pos = (value, pos + width) ∧
        (putVintFixedWidth buf pos value width).length = buf.length ∧
        ∀ i, i < pos ∨ pos + width ≤ i →
          byteAt (putVintFixedWidth buf pos value width) i = byteAt buf i) ∧
    ∀ (buf : Bytes) (len pos value width : ℕ), value < (getVint buf len pos).1 →
      (getVint buf len pos).2 = pos + width →
      0 < width ∧ width ≤ 10 ∧ pos + width ≤ len ∧ value < 2 ^ (7 * width) ∧ value < 2 ^ 64 := by
  constructor
  · intro buf len pos value width positive few inside within fits word
    rw [Nat.pow_mul] at fits
    exact ⟨getVint_putVintFixedWidth positive few inside fits word,
      putVintFixedWidth_frame (inside.trans within)⟩
  · intro buf len pos value width smaller ends
    obtain ⟨start, few, inside, word, fits⟩ := smaller_fits smaller
    rw [ends] at start few inside fits
    rw [Nat.add_sub_cancel_left] at fits
    exact ⟨by omega, by omega, inside, fits, word⟩

theorem vint_rewritten_in_place_runs :
    getVint (putVintFixedWidth (List.replicate 12 7) 1 (2 ^ 64 - 1) 10) 12 1 = (2 ^ 64 - 1, 11) ∧
      getVint (putVintFixedWidth [0xac, 2, 9] 0 5 2) 3 0 = (5, 2) := by
  have room := vint_rewritten_in_place.2 [0xac, 2, 9] 3 0 5 2 (by decide) (by decide)
  exact ⟨(vint_rewritten_in_place.1 _ 12 1 _ 10 (by decide) le_rfl (by decide) (by decide)
      (by decide) (by decide)).1,
    (vint_rewritten_in_place.1 _ 3 0 5 2 room.1 room.2.1 room.2.2.1 (by decide) room.2.2.2.1
      room.2.2.2.2).1⟩

end NzbDownloader.Extract
