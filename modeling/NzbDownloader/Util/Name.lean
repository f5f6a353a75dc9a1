import Mathlib.Data.List.DropRight

/-!
# File names

File names are C strings without their terminator, compared without regard to
case where the source uses `strcasecmp`.
-/

namespace NzbDownloader.Util

open List

abbrev Name := List Char

instance Name.lawfulBEq : LawfulBEq Name :=
  inferInstance

def lower (name : Name) : Name :=
  name.map Char.toLower

def hasSuffixCi (name suffix : Name) : Bool :=
  (lower suffix).isSuffixOf (lower name)

def endDigits (name : Name) : Name :=
  name.rtakeWhile Char.isDigit

def beforeDigits (name : Name) : Name :=
  name.rdropWhile Char.isDigit

def longMax : ℕ :=
  0x7fffffffffffffff

def strtol (digits : Name) : ℕ :=
  min longMax (digits.foldl (fun value digit => 10 * value + (digit.toNat - '0'.toNat)) 0)

theorem toNat_of_toLower {c d : Char} (lowered : c.toLower = d) :
    c = d ∨ (65 ≤ c.toNat ∧ c.toNat ≤ 90 ∧ c.toNat + 32 = d.toNat) := by
  unfold Char.toLower at lowered
  split at lowered
  · rename_i upper
    subst lowered
    have low : 65 ≤ c.toNat := upper.1
    have high : c.toNat ≤ 90 := upper.2
    refine .inr ⟨low, high, ?_⟩
    change c.toNat + 32 = (c.val + ('a'.val - 'A'.val)).toNat
    rw [UInt32.toNat_add]
    change c.toNat + 32 = (c.toNat + 32) % 2 ^ 32
    omega
  · exact .inl lowered

theorem eq_of_toLower {c d : Char} (lowered : c.toLower = d) (early : d.toNat < 97) : c = d := by
  rcases toNat_of_toLower lowered with same | ⟨_, _, shifted⟩
  · exact same
  · omega

theorem hasSuffixCi_iff {name suffix : Name} :
    hasSuffixCi name suffix = true ↔
      ∃ front back, name = front ++ back ∧ lower back = lower suffix := by
  simp only [hasSuffixCi, List.isSuffixOf_iff_suffix, lower]
  constructor
  · rintro ⟨front, joined⟩
    obtain ⟨front', back', rfl, _, same⟩ := List.map_eq_append_iff.mp joined.symm
    exact ⟨front', back', rfl, same⟩
  · rintro ⟨front, back, rfl, same⟩
    rw [List.map_append, same]
    exact List.suffix_append _ _

section Digits

variable {c d : Char} {front tail : Name} {p : Char → Bool}

theorem rsplit (front : Name) (stops : p c = false) (all : ∀ d ∈ tail, p d) :
    (front ++ c :: tail).rtakeWhile p = tail ∧
      (front ++ c :: tail).rdropWhile p = front ++ [c] := by
  have reversed : (front ++ c :: tail).reverse = tail.reverse ++ c :: front.reverse := by simp
  have all' : ∀ d ∈ tail.reverse, p d = true := fun d member => all d (mem_reverse.mp member)
  have stops' : ¬p c = true := by simp [stops]
  constructor
  · rw [List.rtakeWhile, reversed, takeWhile_append_of_pos all',
      takeWhile_cons_of_neg stops']
    simp
  · rw [List.rdropWhile, reversed, dropWhile_append_of_pos all',
      dropWhile_cons_of_neg stops']
    simp

theorem toNat_le_of_isDigit (digit : c.isDigit) : c.toNat ≤ 57 :=
  of_decide_eq_true (Bool.and_eq_true_iff.mp digit).2

theorem toLower_of_isDigit (digit : c.isDigit) : c.toLower = c := by
  rcases toNat_of_toLower (c := c) rfl with same | ⟨low, -, -⟩
  · exact same.symm
  · have high := toNat_le_of_isDigit digit
    omega

theorem getLast?_lower_append (last : (lower tail).getLast? = some d) :
    (lower (front ++ tail)).getLast? = some d := by
  rw [lower, map_append, ← lower, ← lower, getLast?_append, last, Option.some_or]

theorem digits_append (last : (lower front).getLast? = some d) (letter : d.isDigit = false)
    (digits : ∀ d ∈ tail, d.isDigit) :
    endDigits (front ++ tail) = tail ∧ beforeDigits (front ++ tail) = front := by
  obtain ⟨early, c, rfl⟩ : ∃ early c, front = early ++ [c] :=
    (eq_nil_or_concat' front).resolve_left fun empty => by simp [empty, lower] at last
  have lowered : c.toLower = d := by simpa [lower] using last
  have stops : c.isDigit = false := Bool.eq_false_iff.mpr fun digit => by
    rw [← lowered, toLower_of_isDigit digit, digit] at letter
    contradiction
  rw [endDigits, beforeDigits, append_assoc]
  exact rsplit _ stops digits

end Digits

end NzbDownloader.Util
