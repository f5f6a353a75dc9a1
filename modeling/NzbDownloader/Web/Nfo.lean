import NzbDownloader.Util.Numeral
import NzbDownloader.Web.Utf8

/-!
# NFO text in the old code page

`cp437_upper`, `utf8_encode` and `cp437_to_utf8` of `web/api_jobs.c`. The block from
`malloc` comes with any content, and a store outside it yields `none`.
-/

namespace NzbDownloader.Web

open Lib Util List

def cp437Upper : List ℕ :=
  [0x00C7, 0x00FC, 0x00E9, 0x00E2, 0x00E4, 0x00E0, 0x00E5, 0x00E7,
    0x00EA, 0x00EB, 0x00E8, 0x00EF, 0x00EE, 0x00EC, 0x00C4, 0x00C5,
    0x00C9, 0x00E6, 0x00C6, 0x00F4, 0x00F6, 0x00F2, 0x00FB, 0x00F9,
    0x00FF, 0x00D6, 0x00DC, 0x00A2, 0x00A3, 0x00A5, 0x20A7, 0x0192,
    0x00E1, 0x00ED, 0x00F3, 0x00FA, 0x00F1, 0x00D1, 0x00AA, 0x00BA,
    0x00BF, 0x2310, 0x00AC, 0x00BD, 0x00BC, 0x00A1, 0x00AB, 0x00BB,
    0x2591, 0x2592, 0x2593, 0x2502, 0x2524, 0x2561, 0x2562, 0x2556,
    0x2555, 0x2563, 0x2551, 0x2557, 0x255D, 0x255C, 0x255B, 0x2510,
    0x2514, 0x2534, 0x252C, 0x251C, 0x2500, 0x253C, 0x255E, 0x255F,
    0x255A, 0x2554, 0x2569, 0x2566, 0x2560, 0x2550, 0x256C, 0x2567,
    0x2568, 0x2564, 0x2565, 0x2559, 0x2558, 0x2552, 0x2553, 0x256B,
    0x256A, 0x2518, 0x250C, 0x2588, 0x2584, 0x258C, 0x2590, 0x2580,
    0x03B1, 0x00DF, 0x0393, 0x03C0, 0x03A3, 0x03C3, 0x00B5, 0x03C4,
    0x03A6, 0x0398, 0x03A9, 0x03B4, 0x221E, 0x03C6, 0x03B5, 0x2229,
    0x2261, 0x00B1, 0x2265, 0x2264, 0x2320, 0x2321, 0x00F7, 0x2248,
    0x00B0, 0x2219, 0x00B7, 0x221A, 0x207F, 0x00B2, 0x25A0, 0x00A0]

def cp437Point (c : Byte) : ℕ :=
  if c < 0x80 then c.toNat else cp437Upper.getD (c.toNat - 0x80) 0

def utf8Encode (cp : ℕ) : Bytes :=
  (if cp < 0x80 then [cp]
    else if cp < 0x800 then [0xC0 ||| cp >>> 6, 0x80 ||| cp &&& 0x3F]
    else [0xE0 ||| cp >>> 12, 0x80 ||| cp >>> 6 &&& 0x3F, 0x80 ||| cp &&& 0x3F]).map
    (BitVec.ofNat 8)

def store (block : Bytes) (off : ℕ) (bytes : Bytes) : Option Bytes :=
  if off + bytes.length ≤ block.length then some (writeAt block off bytes) else none

def cp437Loop (out : Bytes) (oi : ℕ) : Bytes → Option Bytes
  | [] => store out oi [0]
  | c :: input =>
      (store out oi (utf8Encode (cp437Point c))).bind fun out =>
        cp437Loop out (oi + (utf8Encode (cp437Point c)).length) input

def cp437ToUtf8 (block input : Bytes) : Option Bytes :=
  cp437Loop block 0 input

def cp437Text (input : Bytes) : Bytes :=
  input.flatMap fun c => utf8Encode (cp437Point c)

theorem store_append {a free bytes : Bytes} (nonempty : bytes ≠ [])
    (fits : bytes.length ≤ free.length) :
    store (a ++ free) a.length bytes = some (a ++ bytes ++ free.drop bytes.length) := by
  rw [store, if_pos (by simpa using fits), writeAt, if_neg nonempty, take_left, drop_append,
    drop_eq_nil_of_le (by omega), padTo]
  simp

theorem utf8Encode_ne_nil (cp : ℕ) : utf8Encode cp ≠ [] := by
  unfold utf8Encode
  split_ifs <;> simp

theorem length_utf8Encode (cp : ℕ) : (utf8Encode cp).length ≤ 3 := by
  unfold utf8Encode
  split_ifs <;> simp

theorem cp437Loop_eq {a free input : Bytes} (room : 3 * input.length + 1 ≤ free.length) :
    ∃ tail, cp437Loop (a ++ free) a.length input = some (a ++ cp437Text input ++ 0 :: tail) := by
  induction input generalizing a free with
  | nil =>
    refine ⟨free.drop 1, ?_⟩
    rw [cp437Loop, store_append (by simp) (by simpa using room)]
    simp [cp437Text]
  | cons c input ih =>
    have short := length_utf8Encode (cp437Point c)
    rw [length_cons] at room
    have rest : 3 * input.length + 1 ≤ (free.drop (utf8Encode (cp437Point c)).length).length := by
      rw [length_drop]
      omega
    obtain ⟨tail, ended⟩ := ih (a := a ++ utf8Encode (cp437Point c)) rest
    refine ⟨tail, ?_⟩
    rw [cp437Loop, store_append (utf8Encode_ne_nil _) (by omega), Option.bind_some,
      ← length_append, ended]
    simp [cp437Text]

theorem utf8Encode_cp437Point (c : Byte) :
    utf8Encode (cp437Point c) = encode (Char.ofNat (cp437Point c)) := by
  revert c
  decide +kernel

theorem cp437Text_eq (input : Bytes) :
    cp437Text input = (input.map fun c => Char.ofNat (cp437Point c)).flatMap encode := by
  rw [cp437Text, flatMap_map]
  simp only [utf8Encode_cp437Point]

theorem flatMap_encode_injective {cs ds : List Char}
    (same : cs.flatMap encode = ds.flatMap encode) : cs = ds := by
  have bytes (cs : List Char) :
      cs.flatMap encode = (cs.flatMap String.utf8EncodeChar).map UInt8.toBitVec := by
    rw [map_flatMap]
    rfl
  rw [bytes, bytes] at same
  have plain := map_injective_iff.mpr (fun _ _ => UInt8.toBitVec_inj.mp) same
  apply String.ofList_injective
  rw [← String.toByteArray_inj, String.toByteArray_ofList, String.toByteArray_ofList,
    List.utf8Encode, List.utf8Encode, plain]

theorem isValidUtf8_cp437Text (input : Bytes) : isValidUtf8 (cp437Text input) = some true := by
  rw [cp437Text_eq, isValidUtf8_flatMap]

theorem cp437Point_injective : ∀ c d : Byte, cp437Point c = cp437Point d → c = d := by
  have bytes (c : Byte) : (if cp437Point c < 0x80 then cp437Point c
      else 0x80 + idxOf (cp437Point c) cp437Upper) = c.toNat := by
    revert c
    decide +kernel
  intro c d same
  apply BitVec.eq_of_toNat_eq
  rw [← bytes, ← bytes, same]

theorem cp437Text_injective {input other : Bytes} (same : cp437Text input = cp437Text other) :
    input = other := by
  have scalar (c : Byte) : (Char.ofNat (cp437Point c)).toNat = cp437Point c := by
    revert c
    decide +kernel
  rw [cp437Text_eq, cp437Text_eq] at same
  refine map_injective_iff.mpr (fun c d points => ?_) (flatMap_encode_injective same)
  apply cp437Point_injective
  rw [← scalar, ← scalar d, points]

theorem cString_cp437Text (input tail : Bytes) :
    cString (cp437Text input ++ 0 :: tail) = cp437Text (cString input) := by
  have nonzero (c : Byte) : (utf8Encode (cp437Point c)).all (· != 0) = (c != 0) := by
    revert c
    decide +kernel
  induction input with
  | nil => simp [cString, cp437Text]
  | cons c input ih =>
    rw [cString] at ih
    by_cases zero : c = 0
    · subst zero
      simp [cString, cp437Text, cp437Point, utf8Encode]
    · have encoded : ∀ b ∈ utf8Encode (cp437Point c), (b != 0) = true :=
        all_eq_true.mp ((nonzero c).trans (bne_iff_ne.mpr zero))
      rw [cString, cString, takeWhile_cons_of_pos (by simpa using zero), cp437Text, flatMap_cons,
        append_assoc, takeWhile_append_of_pos (by simpa using encoded)]
      change _ ++ takeWhile _ (cp437Text input ++ 0 :: tail) = _
      rw [ih]
      rfl

theorem cp437ToUtf8_cut_at_zero :
    ([0x80, 0, 0x41] : Bytes) ≠ [0x80, 0, 0x42] ∧
      (cp437ToUtf8 (replicate 10 7) [0x80, 0, 0x41]).map cString = some [0xC3, 0x87] ∧
      (cp437ToUtf8 (replicate 10 7) [0x80, 0, 0x42]).map cString = some [0xC3, 0x87] := by
  decide +kernel

/-- The block is large enough, what is stored in it is valid and determines the
input, and the strings are valid; different inputs have different strings exactly
if they differ before their first zero byte. -/
theorem cp437ToUtf8_differ_iff (block block' input other : Bytes)
    (room : block.length = 3 * input.length + 1) (room' : block'.length = 3 * other.length + 1) :
    ∃ out out', cp437ToUtf8 block input = some out ∧ cp437ToUtf8 block' other = some out' ∧
      cp437Text input ++ [0] <+: out ∧ cp437Text other ++ [0] <+: out' ∧
      isValidUtf8 (cp437Text input) = some true ∧ isValidUtf8 (cString out) = some true ∧
      (cp437Text input = cp437Text other → input = other) ∧
      ((input ≠ other → cString out ≠ cString out') ↔
        input = other ∨ cString input ≠ cString other) := by
  obtain ⟨tail, ended⟩ := cp437Loop_eq (a := []) room.ge
  obtain ⟨tail', ended'⟩ := cp437Loop_eq (a := []) room'.ge
  rw [nil_append, nil_append] at ended ended'
  refine ⟨_, _, ended, ended', ⟨tail, by simp⟩, ⟨tail', by simp⟩, isValidUtf8_cp437Text _, ?_,
    cp437Text_injective, ?_⟩
  · rw [cString_cp437Text]
    exact isValidUtf8_cp437Text _
  · have strings : cp437Text (cString input) = cp437Text (cString other) ↔
        cString input = cString other :=
      ⟨cp437Text_injective, congrArg _⟩
    rw [cString_cp437Text, cString_cp437Text, Ne, Ne, strings]
    exact imp_iff_not_or.trans (or_congr_left not_not)

theorem cp437ToUtf8_differ_iff_box :
    (cp437ToUtf8 (replicate 7 7) [0xC9, 0xCD]).map cString ≠
      (cp437ToUtf8 (replicate 7 9) [0xC9, 0xBB]).map cString := by
  obtain ⟨out, out', converted, converted', -, -, -, -, -, differ⟩ :=
    cp437ToUtf8_differ_iff (replicate 7 7) (replicate 7 9) [0xC9, 0xCD] [0xC9, 0xBB] (by decide)
      (by decide)
  rw [converted, converted']
  intro same
  exact differ.mpr (.inr (by decide)) (by decide) (Option.some.inj same)

end NzbDownloader.Web
