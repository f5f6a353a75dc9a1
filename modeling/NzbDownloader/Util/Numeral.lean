import Mathlib.Data.Nat.Digits.Defs
import NzbDownloader.Lib.ByteFile
import NzbDownloader.Util.Name

/-!
# Numbers in C strings

`strtol`, `strtoul` and `atoi` as the parsers of received lines call them.  A
string is given without its terminator.
-/

namespace NzbDownloader.Util

open Lib List

def ascii (text : String) : Bytes :=
  text.toList.map fun c => BitVec.ofNat 8 c.toNat

def cString (buffer : Bytes) : Bytes :=
  buffer.takeWhile (· ≠ 0)

namespace Numeral

def isSpace (c : Byte) : Bool :=
  c.toNat = 32 ∨ (9 ≤ c.toNat ∧ c.toNat ≤ 13)

def isDigit (c : Byte) : Bool :=
  48 ≤ c.toNat ∧ c.toNat ≤ 57

def digitValue (base : ℕ) (c : Byte) : Option ℕ :=
  let value : Option ℕ :=
    if 48 ≤ c.toNat ∧ c.toNat ≤ 57 then some (c.toNat - 48)
    else if 97 ≤ c.toNat ∧ c.toNat ≤ 122 then some (c.toNat - 87)
    else if 65 ≤ c.toNat ∧ c.toNat ≤ 90 then some (c.toNat - 55)
    else none
  value.filter (· < base)

def leadingDigits (base : ℕ) : Bytes → List ℕ
  | [] => []
  | c :: rest =>
      match digitValue base c with
      | none => []
      | some value => value :: leadingDigits base rest

def value (base : ℕ) (text : Bytes) : ℕ :=
  Nat.ofDigits base (leadingDigits base text).reverse

def sign (text : Bytes) : Bool × Bytes :=
  match text.dropWhile isSpace with
  | [] => (false, [])
  | c :: rest => if c = 45 then (true, rest) else if c = 43 then (false, rest) else (false, c :: rest)

def strtol (text : Bytes) : ℤ :=
  match sign text with
  | (true, rest) => max (-(longMax : ℤ) - 1) (-(value 10 rest : ℤ))
  | (false, rest) => min (longMax : ℤ) (value 10 rest : ℤ)

def skipHexMark : Bytes → Bytes
  | 48 :: mark :: rest =>
      if (mark = 120 ∨ mark = 88) ∧ leadingDigits 16 rest ≠ [] then rest else 48 :: mark :: rest
  | text => text

def strtoulHex (text : Bytes) : BitVec 64 :=
  let (negative, rest) := sign text
  let magnitude := value 16 (skipHexMark rest)
  if 0xffffffffffffffff < magnitude then 0xffffffffffffffff
  else if negative then -BitVec.ofNat 64 magnitude
  else BitVec.ofNat 64 magnitude

def atoi (text : Bytes) : ℤ :=
  (BitVec.ofInt 32 (strtol text)).toInt

example : [strtol (ascii " -12x"), strtol (ascii "99999999999999999999"), atoi (ascii "222 ok")] =
    [-12, (longMax : ℤ), 222] := by
  decide +kernel

example : [strtoulHex (ascii "cbf43926 size"), strtoulHex (ascii "0xFF"), strtoulHex (ascii "-1")] =
    [0xcbf43926, 0xff, 0xffffffffffffffff] := by
  decide +kernel

section Decimal

variable {digits text : Bytes}

theorem digitValue_isSome_iff (c : Byte) : (digitValue 10 c).isSome = isDigit c := by
  revert c
  decide +kernel

theorem leadingDigits_append {base : ℕ} (all : ∀ c ∈ digits, (digitValue base c).isSome)
    (ended : ∀ c ∈ text.head?, digitValue base c = none) :
    leadingDigits base (digits ++ text) = leadingDigits base digits := by
  induction digits with
  | nil =>
    cases text with
    | nil => rfl
    | cons c rest => simp [leadingDigits, ended c rfl]
  | cons c digits ih =>
    obtain ⟨value, isValue⟩ := Option.isSome_iff_exists.mp (all c (.head _))
    simp only [cons_append, leadingDigits, isValue]
    rw [ih fun c member => all c (.tail _ member)]

theorem value_append (decimal : ∀ c ∈ digits, isDigit c)
    (ended : ∀ c ∈ text.head?, isDigit c = false) : value 10 (digits ++ text) = value 10 digits := by
  rw [value, leadingDigits_append, value]
  · intro c member
    rw [digitValue_isSome_iff]
    exact decimal c member
  · intro c member
    rw [← Option.isNone_iff_eq_none, ← Option.isSome_eq_false_iff, digitValue_isSome_iff]
    exact ended c member

theorem sign_of_digit {c : Byte} (digit : isDigit c) (rest : Bytes) :
    sign (c :: rest) = (false, c :: rest) := by
  have plain : isSpace c = false ∧ c ≠ 45 ∧ c ≠ 43 := by
    revert c
    decide +kernel
  unfold sign
  rw [dropWhile_cons_of_neg (by simp [plain.1])]
  dsimp only
  rw [if_neg plain.2.1, if_neg plain.2.2]

section

variable (nonempty : digits ≠ []) (decimal : ∀ c ∈ digits, isDigit c)
  (ended : ∀ c ∈ text.head?, isDigit c = false)

include nonempty decimal ended

theorem strtol_append : strtol (digits ++ text) = min (longMax : ℤ) (value 10 digits : ℤ) := by
  have unsigned : sign (digits ++ text) = (false, digits ++ text) := by
    obtain ⟨c, rest, rfl⟩ := exists_cons_of_ne_nil nonempty
    exact sign_of_digit (decimal c (.head _)) _
  simp only [strtol, unsigned, value_append decimal ended]

theorem atoi_append (small : value 10 digits ≤ 0x7fffffff) :
    atoi (digits ++ text) = value 10 digits := by
  have limit : (longMax : ℤ) = 0x7fffffffffffffff := rfl
  rw [atoi, strtol_append nonempty decimal ended, BitVec.toInt_ofInt, min_eq_right (by omega)]
  rw [Int.bmod_eq_of_le] <;> omega

end

end Decimal

section Hexadecimal

variable {digits text : Bytes}

theorem plain_of_hexDigit {c : Byte} (hex : (digitValue 16 c).isSome) :
    isSpace c = false ∧ c ≠ 45 ∧ c ≠ 43 ∧ c ≠ 120 ∧ c ≠ 88 := by
  revert c
  decide +kernel

theorem skipHexMark_append (hex : ∀ c ∈ digits, (digitValue 16 c).isSome)
    (nonempty : digits ≠ []) (ended : ∀ c ∈ text.head?, c = 32) :
    skipHexMark (digits ++ text) = digits ++ text := by
  unfold skipHexMark
  split
  · rename_i mark rest eq
    rw [eq]
    refine if_neg ?_
    rintro ⟨isMark, -⟩
    match digits, nonempty, hex, eq with
    | [_], _, _, eq =>
      have tail : text = mark :: rest := (List.cons.inj eq).2
      have blank := ended mark (by rw [tail]; rfl)
      rw [blank] at isMark
      exact absurd isMark (by decide)
    | _ :: c :: _, _, hex, eq =>
      have same : c = mark := (List.cons.inj (List.cons.inj eq).2).1
      obtain ⟨-, -, -, small, large⟩ :=
        plain_of_hexDigit (hex c (.tail _ (.head _)))
      rw [same] at small large
      exact isMark.elim small large
  · rfl

theorem strtoulHex_append (nonempty : digits ≠ [])
    (hex : ∀ c ∈ digits, (digitValue 16 c).isSome) (ended : ∀ c ∈ text.head?, c = 32)
    (small : value 16 digits ≤ 0xffffffff) :
    strtoulHex (digits ++ text) = BitVec.ofNat 64 (value 16 digits) := by
  have unsigned : sign (digits ++ text) = (false, digits ++ text) := by
    obtain ⟨c, rest, rfl⟩ := exists_cons_of_ne_nil nonempty
    obtain ⟨blank, minus, plus, -⟩ := plain_of_hexDigit (hex c (.head _))
    rw [sign, cons_append, dropWhile_cons_of_neg (by simp [blank])]
    dsimp only
    rw [if_neg minus, if_neg plus]
  have same : value 16 (digits ++ text) = value 16 digits := by
    rw [value, leadingDigits_append hex, value]
    intro c member
    rw [ended c member]
    decide
  simp only [strtoulHex, unsigned, skipHexMark_append hex nonempty ended, same]
  rw [if_neg (by omega), if_neg (by simp)]

end Hexadecimal

end Numeral

end NzbDownloader.Util
