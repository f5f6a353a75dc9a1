import NzbDownloader.Lib.ByteFile

/-!
# Recognising UTF-8

`is_valid_utf8` of `web/api_jobs.c`.  The position in the string is given by what follows
it, and reading behind the end yields `none`.
-/

namespace NzbDownloader.Web

open Lib List

def lead (c : Byte) : Option (ℕ × ℕ) :=
  if c < 0x80 then some (0, c.toNat)
  else if c &&& 0xE0 = 0xC0 then some (1, (c &&& 0x1F).toNat)
  else if c &&& 0xF0 = 0xE0 then some (2, (c &&& 0x0F).toNat)
  else if c &&& 0xF8 = 0xF0 then some (3, (c &&& 0x07).toNat)
  else none

def following (s : Bytes) (cp j : ℕ) : ℕ → Option (Option ℕ)
  | 0 => some (some cp)
  | n + 1 =>
      s[j]?.bind fun cc =>
        if cc &&& 0xC0 ≠ 0x80 then some none
        else following s (cp <<< 6 ||| (cc &&& 0x3F).toNat) (j + 1) n

def IllFormed (extra cp : ℕ) : Prop :=
  (extra = 1 ∧ cp < 0x80) ∨ (extra = 2 ∧ cp < 0x800) ∨ (extra = 3 ∧ cp < 0x10000) ∨
    (0xD800 ≤ cp ∧ cp ≤ 0xDFFF) ∨ 0x10FFFF < cp
  deriving Decidable

def character (s : Bytes) : Option (Option ℕ) :=
  s[0]?.bind fun c =>
    match lead c with
    | none => some none
    | some (extra, cp) =>
        if s.length ≤ extra then some none
        else (following s cp 1 extra).map fun found =>
          (found.filter fun cp => ¬IllFormed extra cp).map fun _ => extra

def isValidUtf8 (s : Bytes) : Option Bool :=
  if s = [] then some true
  else (character s).bind fun
    | none => some false
    | some extra => isValidUtf8 (s.drop (extra + 1))
termination_by s.length
decreasing_by
  simpa [length_pos_iff] using by assumption

def encode (c : Char) : Bytes :=
  (String.utf8EncodeChar c).map UInt8.toBitVec

def mark (extra : ℕ) : ℕ × ℕ :=
  match extra with
  | 0 => (0, 128)
  | 1 => (192, 32)
  | 2 => (224, 16)
  | _ => (240, 8)

def trailing (y : ℕ) : Byte :=
  BitVec.ofNat 8 (y + 128)

structure Parts where
  first : ℕ
  rest : List ℕ
  short : rest.length ≤ 3
  first_lt : first < (mark rest.length).2
  rest_lt : ∀ y ∈ rest, y < 64

open Parts

namespace Parts

def bytes (p : Parts) : Bytes :=
  BitVec.ofNat 8 (p.first + (mark p.rest.length).1) :: p.rest.map trailing

def point (p : Parts) : ℕ :=
  p.rest.foldl (fun v y => v * 64 + y) p.first

end Parts

theorem lead_iff (c : Byte) (extra x : ℕ) : lead c = some (extra, x) ↔
    extra ≤ 3 ∧ x < (mark extra).2 ∧ c = BitVec.ofNat 8 (x + (mark extra).1) := by
  constructor
  · have all : ∀ c : Byte, (lead c).all (fun p => p.1 ≤ 3 ∧ p.2 < (mark p.1).2 ∧
        c = BitVec.ofNat 8 (p.2 + (mark p.1).1)) = true := by
      decide +kernel
    intro led
    simpa [led] using all c
  · have all : ∀ extra ≤ 3, ∀ x < (mark extra).2,
        lead (BitVec.ofNat 8 (x + (mark extra).1)) = some (extra, x) := by
      decide +kernel
    rintro ⟨short, small, rfl⟩
    exact all extra short x small

theorem trailing_spec {y : ℕ} (small : y < 64) :
    trailing y &&& 0xC0 = 0x80 ∧ (trailing y &&& 0x3F).toNat = y := by
  revert y
  decide +kernel

theorem eq_trailing {cc : Byte} (follows : cc &&& 0xC0 = 0x80) :
    (cc &&& 0x3F).toNat < 64 ∧ cc = trailing (cc &&& 0x3F).toNat := by
  revert cc
  decide +kernel

theorem shift_or {y : ℕ} (small : y < 64) (cp : ℕ) : cp <<< 6 ||| y = cp * 64 + y := by
  rw [← Nat.shiftLeft_add_eq_or_of_lt small, Nat.shiftLeft_eq]

theorem following_of_prefix {s : Bytes} {ys : List ℕ} {j : ℕ} (cp : ℕ) (small : ∀ y ∈ ys, y < 64)
    (there : ys.map trailing <+: s.drop j) :
    following s cp j ys.length = some (some (ys.foldl (fun v y => v * 64 + y) cp)) := by
  induction ys generalizing cp j with
  | nil => rfl
  | cons y ys ih =>
    obtain ⟨rest, split⟩ := there
    have here : s[j]? = some (trailing y) := by
      rw [← head?_drop, ← split]
      rfl
    have later : s.drop (j + 1) = ys.map trailing ++ rest := by
      rw [← tail_drop, ← split]
      rfl
    have bits := trailing_spec (small y (.head _))
    rw [length_cons, following, here, Option.bind_some, if_neg (not_not.mpr bits.1), bits.2,
      shift_or (small y (.head _)), ih]
    · rfl
    · exact fun z member => small z (.tail y member)
    · exact ⟨rest, later.symm⟩

theorem following_cases {s : Bytes} {j n : ℕ} (cp : ℕ) (inside : j + n ≤ s.length) :
    following s cp j n = some none ∨ ∃ ys : List ℕ, ys.length = n ∧ (∀ y ∈ ys, y < 64) ∧
      ys.map trailing <+: s.drop j := by
  induction n generalizing cp j with
  | zero => exact .inr ⟨[], rfl, by simp, nil_prefix⟩
  | succ n ih =>
    have bound : j < s.length := by omega
    rw [following, getElem?_eq_getElem bound, Option.bind_some]
    by_cases follows : s[j] &&& 0xC0 = 0x80
    · obtain ⟨small, same⟩ := eq_trailing follows
      rw [if_neg (not_not.mpr follows)]
      obtain failed | ⟨ys, length, rest, there⟩ := ih (j := j + 1) _ (by omega)
      · exact .inl failed
      · refine .inr ⟨(s[j] &&& 0x3F).toNat :: ys, by simp [length],
          forall_mem_cons.mpr ⟨small, rest⟩, ?_⟩
        rw [drop_eq_getElem_cons bound, map_cons, ← same]
        exact (prefix_cons_inj _).mpr there
    · exact .inl (if_pos follows)

theorem encode_point (p : Parts) (formed : ¬IllFormed p.rest.length p.point) :
    encode (Char.ofNat p.point) = p.bytes := by
  generalize isPoint : p.point = v at formed
  have scalar : v.isValidChar := by
    simp only [IllFormed, not_or] at formed
    unfold Nat.isValidChar
    omega
  have value : (Char.ofNat v).val.toNat = v := by
    rw [Char.ofNat, dif_pos scalar]
    rfl
  unfold encode String.utf8EncodeChar
  rw [value]
  obtain ⟨x, ys, short, small, smalls⟩ := p
  simp only [point, IllFormed] at isPoint formed
  match ys with
  | [] =>
    rw [if_pos (isPoint ▸ Nat.lt_succ_iff.mp small), ← isPoint]
    rfl
  | [y] =>
    simp only [mark, forall_mem_singleton, length_singleton, foldl,
      true_and] at small smalls isPoint formed
    rw [if_neg (by omega), if_pos (by omega), show v / 64 % 32 = x by omega,
      show v % 64 = y by omega]
    rfl
  | [y, z] =>
    simp only [mark, forall_mem_cons, length, foldl, true_and]
      at small smalls isPoint formed
    rw [if_neg (by omega), if_neg (by omega), if_pos (by omega), show v / 4096 % 16 = x by omega,
      show v / 64 % 64 = y by omega, show v % 64 = z by omega]
    rfl
  | [y, z, w] =>
    simp only [mark, forall_mem_cons, length, foldl, true_and]
      at small smalls isPoint formed
    rw [if_neg (by omega), if_neg (by omega), if_neg (by omega), show v / 262144 % 8 = x by omega,
      show v / 4096 % 64 = y by omega, show v / 64 % 64 = z by omega, show v % 64 = w by omega]
    rfl

theorem exists_parts (c : Char) : ∃ p : Parts, p.point = c.toNat ∧
    ¬IllFormed p.rest.length p.point := by
  have scalar : c.toNat.isValidChar := c.valid
  generalize c.toNat = v at scalar ⊢
  unfold Nat.isValidChar at scalar
  by_cases one : v < 0x80
  · exact ⟨⟨v, [], by simp, one, by simp⟩, rfl, by simp [IllFormed, point]; omega⟩
  by_cases two : v < 0x800
  · have whole : v / 64 * 64 + v % 64 = v := by omega
    exact ⟨⟨v / 64, [v % 64], by simp, by simp [mark]; omega, by simp; omega⟩, whole,
      by simp [IllFormed, point, whole]; omega⟩
  by_cases three : v < 0x10000
  · have whole : (v / 4096 * 64 + v / 64 % 64) * 64 + v % 64 = v := by omega
    exact ⟨⟨v / 4096, [v / 64 % 64, v % 64], by simp, by simp [mark]; omega, by simp; omega⟩, whole,
      by simp [IllFormed, point, whole]; omega⟩
  · have whole :
        ((v / 262144 * 64 + v / 4096 % 64) * 64 + v / 64 % 64) * 64 + v % 64 = v := by
      omega
    exact ⟨⟨v / 262144, [v / 4096 % 64, v / 64 % 64, v % 64], by simp, by simp [mark]; omega,
      by simp; omega⟩, whole, by simp [IllFormed, point, whole]; omega⟩

theorem character_of_parts (p : Parts) (formed : ¬IllFormed p.rest.length p.point) (rest : Bytes) :
    character (p.bytes ++ rest) = some (some p.rest.length) := by
  have led := (lead_iff _ p.rest.length p.first).mpr ⟨p.short, p.first_lt, rfl⟩
  have found := following_of_prefix (s := p.bytes ++ rest) (j := 1) p.first p.rest_lt ⟨rest, rfl⟩
  change (match lead (BitVec.ofNat 8 (p.first + (mark p.rest.length).1)) with
    | none => some none
    | some (extra, cp) => _) = _
  rw [led]
  dsimp only
  have fits : p.rest.length < (p.bytes ++ rest).length := by
    simp only [bytes, length_append, length_cons, length_map]
    omega
  rw [if_neg fits.not_ge, found]
  change some (((some p.point).filter _).map _) = _
  simp [formed]

theorem character_cases {s : Bytes} (nonempty : s ≠ []) :
    character s = some none ∨
      ∃ p : Parts, ¬IllFormed p.rest.length p.point ∧ p.bytes <+: s := by
  obtain ⟨c, tail, rfl⟩ := exists_cons_of_ne_nil nonempty
  unfold character
  rw [getElem?_cons_zero, Option.bind_some]
  split
  · exact .inl rfl
  rename_i extra cp led
  obtain ⟨short, small, rfl⟩ := (lead_iff c extra cp).mp led
  split_ifs with truncated
  · exact .inl rfl
  rw [not_le, ← Nat.succ_le_iff, Nat.succ_eq_one_add] at truncated
  obtain failed | ⟨ys, rfl, smalls, there⟩ := following_cases cp truncated
  · rw [failed]
    exact .inl rfl
  · rw [ following_of_prefix cp smalls there]
    by_cases formed : IllFormed ys.length (ys.foldl (fun v y => v * 64 + y) cp)
    · simp [formed]
    · exact .inr ⟨⟨cp, ys, short, small, smalls⟩, formed, (prefix_cons_inj _).mpr there⟩

theorem isValidUtf8_of_parts (p : Parts) (formed : ¬IllFormed p.rest.length p.point)
    (rest : Bytes) : isValidUtf8 (p.bytes ++ rest) = isValidUtf8 rest := by
  rw [isValidUtf8, if_neg (by simp [bytes]), character_of_parts p formed]
  simp [bytes]

theorem isValidUtf8_flatMap (cs : List Char) : isValidUtf8 (cs.flatMap encode) = some true := by
  induction cs with
  | nil => simp [isValidUtf8]
  | cons c cs ih =>
    obtain ⟨p, point, formed⟩ := exists_parts c
    have bytes : encode c = p.bytes := by
      rw [← encode_point p formed, point, Char.ofNat_toNat]
    rw [flatMap_cons, bytes, isValidUtf8_of_parts p formed, ih]

theorem isValidUtf8_cases (s : Bytes) :
    isValidUtf8 s = some false ∨ ∃ cs : List Char, s = cs.flatMap encode := by
  induction length : s.length using Nat.strong_induction_on generalizing s with
  | _ n ih =>
    by_cases nonempty : s = []
    · exact .inr ⟨[], nonempty⟩
    obtain failed | ⟨p, formed, rest, rfl⟩ := character_cases nonempty
    · rw [isValidUtf8, if_neg nonempty, failed]
      exact .inl rfl
    · rw [isValidUtf8_of_parts p formed]
      have shorter : rest.length < n := by
        rw [← length, length_append, bytes, length_cons]
        omega
      obtain failed | ⟨cs, rfl⟩ := ih rest.length shorter rest rfl
      · exact .inl failed
      · exact .inr ⟨Char.ofNat p.point :: cs, by rw [flatMap_cons, encode_point p formed]⟩

/-- `is_valid_utf8` accepts the encodings of sequences of scalar values and nothing else, and
reads nothing behind the end. -/
theorem isValidUtf8_eq (s : Bytes) : isValidUtf8 s ≠ none ∧
    (isValidUtf8 s = some true ↔ ∃ cs : List Char, s = cs.flatMap encode) := by
  obtain failed | ⟨cs, rfl⟩ := isValidUtf8_cases s
  · refine ⟨by simp [failed], fun accepted => ?_, ?_⟩
    · rw [failed] at accepted
      contradiction
    · rintro ⟨cs, rfl⟩
      exact isValidUtf8_flatMap cs
  · have accepted := isValidUtf8_flatMap cs
    exact ⟨by simp [accepted], fun _ => ⟨cs, rfl⟩, fun _ => accepted⟩

end NzbDownloader.Web
