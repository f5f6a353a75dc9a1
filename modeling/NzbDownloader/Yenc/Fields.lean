import Mathlib.Tactic.MkIffOfInductiveProp
import NzbDownloader.Yenc.Line

/-!
# Fields of a control line

`parse_fields` takes every blank-separated token to the end of the line for a field, the
words of a file name too.
-/

namespace NzbDownloader.Yenc

open Lib Util Numeral List Bool

@[mk_iff]
structure IsToken (token : Bytes) : Prop where
  nonempty : token ≠ []
  plain : ∀ c ∈ token, c ≠ 32 ∧ c ≠ 0

instance (token : Bytes) : Decidable (IsToken token) :=
  decidable_of_iff' _ (isToken_iff token)

def render (fields : List Bytes) : Bytes :=
  fields.flatMap fun field => 32 :: field

def Ended (rest : Bytes) : Prop :=
  ∀ c ∈ rest.head?, c = 32

variable {rest : Bytes}

section Tokens

variable {token key key' : Bytes} {fields : List Bytes}

theorem ended_nil : Ended [] := by
  intro c member
  contradiction

theorem ended_render (fields : List Bytes) (ended : Ended rest) : Ended (render fields ++ rest) := by
  cases fields with
  | nil => exact ended
  | cons field fields =>
    intro c member
    simpa [render] using member.symm

theorem tokens_skip (plain : ∀ c ∈ token, c ≠ 32) : tokens false (token ++ rest) = tokens false rest := by
  induction token with
  | nil => rfl
  | cons c token ih =>
    rw [cons_append, tokens, if_neg (plain c (.head _)), if_neg (by simp)]
    exact ih fun c member => plain c (.tail _ member)

theorem tokens_of_ended (ended : Ended rest) : tokens false rest = tokens true rest := by
  cases rest with
  | nil => rfl
  | cons c rest =>
    rw [ended c rfl, tokens, tokens, if_pos rfl, if_pos rfl]

theorem tokens_token (isToken : IsToken token) (ended : Ended rest) :
    tokens true (32 :: (token ++ rest)) = (token ++ rest) :: tokens true rest := by
  obtain ⟨c, later, rfl⟩ := exists_cons_of_ne_nil isToken.nonempty
  rw [tokens, if_pos rfl, cons_append, tokens,
    if_neg (isToken.plain c (.head _)).1, if_pos rfl,
    tokens_skip fun c member => (isToken.plain c (.tail _ member)).1,
    tokens_of_ended ended]

theorem hasKey_append (isToken : IsToken token) (ended : Ended rest) (key : Bytes) :
    hasKey key (token ++ rest) = hasKey key token := by
  have plain : ∀ c ∈ token, decide (c ≠ 32) = true := fun c member =>
    decide_eq_true (isToken.plain c member).1
  have whole : (token ++ rest).takeWhile (· ≠ 32) = token := by
    rw [takeWhile_append_of_pos plain]
    cases rest with
    | nil => exact append_nil _
    | cons c rest =>
      rw [takeWhile_cons_of_neg (by simp [ended c rfl]), append_nil]
  rw [hasKey, hasKey, whole, takeWhile_eq_self_iff.mpr plain]
  by_cases longer : key.length < token.length
  · rw [Bool.eq_iff_iff]
    simp only [longer, decide_true, Bool.true_and, isPrefixOf_iff_prefix]
    exact ⟨fun starts => prefix_of_prefix_length_le starts (prefix_append _ _) longer.le,
      fun starts => starts.trans (prefix_append _ _)⟩
  · simp [longer]

theorem hasKey_exclusive (has : hasKey key token) (apart : ¬key <+: key') (apart' : ¬key' <+: key) :
    hasKey key' token = false := by
  rw [eq_false_iff]
  intro has'
  simp only [hasKey, and_eq_true, isPrefixOf_iff_prefix] at has has'
  exact ( prefix_or_prefix_of_prefix has.2 has'.2).elim apart apart'

theorem tokens_render (isToken : IsToken token) (fields : List Bytes) (ended : Ended rest) :
    tokens true (render (token :: fields) ++ rest) =
      (token ++ (render fields ++ rest)) :: tokens true (render fields ++ rest) := by
  have split : render (token :: fields) ++ rest = 32 :: (token ++ (render fields ++ rest)) := by
    simp [render]
  rw [split, tokens_token isToken (ended_render fields ended)]

theorem cString_render (isTokens : ∀ token ∈ fields, IsToken token) (text : ∀ c ∈ rest, c ≠ 0) :
    cString (render fields ++ rest) = render fields ++ rest := by
  rw [cString, takeWhile_eq_self_iff]
  intro c member
  rw [decide_eq_true_eq]
  rcases mem_append.mp member with inside | after
  · obtain ⟨token, isField, here⟩ := mem_flatMap.mp inside
    rcases mem_cons.mp here with rfl | later
    · decide
    · exact ((isTokens token isField).plain c later).2
  · exact text c after

end Tokens

section Keys

variable {token : Bytes} {fields : Fields}

theorem parseToken_size (has : hasKey (ascii "size=") token = true) :
    parseToken fields token =
      { fields with out := { fields.out with size := strtol (token.drop 5), hasSize := true } } := by
  simp only [parseToken, has, if_true]

theorem parseToken_pcrc32 (has : hasKey (ascii "pcrc32=") token = true) :
    parseToken fields token =
      { fields with out := { fields.out with
        crc32 := (strtoulHex (token.drop 7)).setWidth 32, hasCrc32 := true } } := by
  have size := hasKey_exclusive has (by decide +kernel : ¬_ <+: ascii "size=") (by decide +kernel)
  have start := hasKey_exclusive has (by decide +kernel : ¬_ <+: ascii "begin=") (by decide +kernel)
  have stop := hasKey_exclusive has (by decide +kernel : ¬_ <+: ascii "end=") (by decide +kernel)
  simp only [parseToken, has, size, start, stop, if_true, false_eq_true, if_false]

theorem parseToken_crc32 (has : hasKey (ascii "crc32=") token = true) :
    parseToken fields token =
      if fields.out.hasCrc32 then fields
      else
        { fields with out := { fields.out with
          crc32 := (strtoulHex (token.drop 6)).setWidth 32, hasCrc32 := true } } := by
  have size := hasKey_exclusive has (by decide +kernel : ¬_ <+: ascii "size=") (by decide +kernel)
  have start := hasKey_exclusive has (by decide +kernel : ¬_ <+: ascii "begin=") (by decide +kernel)
  have stop := hasKey_exclusive has (by decide +kernel : ¬_ <+: ascii "end=") (by decide +kernel)
  have part := hasKey_exclusive has (by decide +kernel : ¬_ <+: ascii "pcrc32=") (by decide +kernel)
  cases taken : fields.out.hasCrc32 <;>
    simp [parseToken, has, size, start, stop, part, taken]

theorem parseToken_checksum (notPart : hasKey (ascii "pcrc32=") token = false)
    (notFile : hasKey (ascii "crc32=") token = false) :
    (parseToken fields token).out.hasCrc32 = fields.out.hasCrc32 ∧
      (parseToken fields token).out.crc32 = fields.out.crc32 := by
  simp only [parseToken, notPart, notFile, Bool.false_and, Bool.false_eq_true, if_false]
  split_ifs <;> exact ⟨rfl, rfl⟩

theorem parseToken_other (notSize : hasKey (ascii "size=") token = false) :
    (parseToken fields token).out.hasSize = fields.out.hasSize ∧
      (parseToken fields token).out.size = fields.out.size := by
  simp only [parseToken, notSize, false_eq_true, if_false]
  split_ifs <;> exact ⟨rfl, rfl⟩

end Keys

section Checksums

variable {token : Bytes} {fields : List Bytes} {part file : BitVec 32} {before : Fields}

@[mk_iff]
structure Denotes (text : Bytes) (number : BitVec 32) : Prop where
  hex : ∀ c ∈ text, (digitValue 16 c).isSome = true
  value : Numeral.value 16 text = number.toNat

instance (text : Bytes) (number : BitVec 32) : Decidable (Denotes text number) :=
  decidable_of_iff' _ (denotes_iff text number)

/-- A field with a checksum has the one of the part behind `pcrc32=` and the one of the
file behind `crc32=`. -/
@[mk_iff]
structure Checksums (part file : BitVec 32) (token : Bytes) : Prop extends IsToken token where
  part : hasKey (ascii "pcrc32=") token = true → Denotes (token.drop 7) part
  file : hasKey (ascii "crc32=") token = true → Denotes (token.drop 6) file

instance (part file : BitVec 32) (token : Bytes) : Decidable (Checksums part file token) :=
  decidable_of_iff' _ (checksums_iff part file token)

theorem length_of_hasKey {key : Bytes} (has : hasKey key token) (isToken : IsToken token) :
    key.length < token.length := by
  have plain : ∀ c ∈ token, decide (c ≠ 32) = true := fun c member =>
    decide_eq_true (isToken.plain c member).1
  rw [hasKey, takeWhile_eq_self_iff.mpr plain, and_eq_true, decide_eq_true_eq] at has
  exact has.1

theorem Denotes.strtoul {number : BitVec 32} {n : ℕ} (denotes : Denotes (token.drop n) number)
    (longer : n < token.length) (ended : Ended rest) :
    (strtoulHex ((token ++ rest).drop n)).setWidth 32 = number := by
  have nonempty : token.drop n ≠ [] := by
    rw [Ne, drop_eq_nil_iff]
    omega
  rw [drop_append_of_le_length longer.le, strtoulHex_append nonempty denotes.hex ended
    (by rw [denotes.value]; omega), denotes.value]
  apply BitVec.eq_of_toNat_eq
  rw [BitVec.toNat_setWidth, BitVec.toNat_ofNat]
  omega

theorem foldl_checksums (all : ∀ token ∈ fields, Checksums part file token) :
    ((tokens true (render fields ++ [])).foldl parseToken before).out.hasCrc32 =
        (before.out.hasCrc32 || fields.any (hasKey (ascii "pcrc32=")) ||
          fields.any (hasKey (ascii "crc32="))) ∧
      ((tokens true (render fields ++ [])).foldl parseToken before).out.crc32 =
        if fields.any (hasKey (ascii "pcrc32=")) then part
        else if before.out.hasCrc32 then before.out.crc32
        else if fields.any (hasKey (ascii "crc32=")) then file else before.out.crc32 := by
  induction fields generalizing before with
  | nil =>
    simp only [render, flatMap_nil, append_nil, tokens, foldl_nil, any_nil,
      Bool.or_false, Bool.false_eq_true, if_false]
    exact ⟨trivial, by split_ifs <;> rfl⟩
  | cons token fields ih =>
    have checksums := all token (.head _)
    have isToken := checksums.toIsToken
    have ended : Ended (render fields ++ []) := ended_render fields ended_nil
    obtain ⟨has, crc⟩ := @ih (parseToken before (token ++ (render fields ++ [])))
      fun token member => all token (.tail _ member)
    rw [tokens_render isToken fields ended_nil, foldl_cons, has, crc]
    by_cases isPart : hasKey (ascii "pcrc32=") token = true
    · have number := (checksums.part isPart).strtoul (length_of_hasKey isPart isToken) ended
      rw [parseToken_pcrc32 ((hasKey_append isToken ended _).trans isPart), number]
      simp [isPart]
    by_cases isFile : hasKey (ascii "crc32=") token = true
    · have number := (checksums.file isFile).strtoul (length_of_hasKey isFile isToken) ended
      rw [parseToken_crc32 ((hasKey_append isToken ended _).trans isFile), number]
      cases taken : before.out.hasCrc32 <;> simp [isPart, isFile, taken]
    · obtain ⟨same, same'⟩ := @parseToken_checksum (token ++ (render fields ++ [])) before
        ((hasKey_append isToken ended _).trans (Bool.eq_false_iff.mpr isPart))
        ((hasKey_append isToken ended _).trans (Bool.eq_false_iff.mpr isFile))
      rw [same, same']
      simp [isPart, isFile]

theorem startsWithKeyword_append (keyword : Bytes) {rest : Bytes} (ended : Ended rest) :
    startsWithKeyword (keyword ++ rest) keyword = true := by
  rw [startsWithKeyword, and_eq_true, isPrefixOf_iff_prefix, drop_left]
  refine ⟨prefix_append _ _, ?_⟩
  cases rest with
  | nil => simp
  | cons c rest => simp [ended c rfl]

theorem startsWithKeyword_other {keyword other : Bytes} (rest : Bytes) (apart : ¬keyword <+: other)
    (apart' : ¬other <+: keyword) : startsWithKeyword (keyword ++ rest) other = false := by
  rw [eq_false_iff]
  intro starts
  rw [startsWithKeyword, and_eq_true, isPrefixOf_iff_prefix] at starts
  exact ( prefix_or_prefix_of_prefix (prefix_append _ _) starts.1).elim apart apart'

theorem classifyLine_yend_render (fields : List Bytes) :
    classifyLine (ascii "=yend" ++ render fields) = (.yend, parseFields (render fields)) := by
  have ended : Ended (render fields) := by
    have := @ended_render [] fields ended_nil
    rwa [append_nil] at this
  rw [classifyLine, startsWithKeyword_other _ (by decide +kernel : ¬_ <+: ascii "=ybegin")
      (by decide +kernel), startsWithKeyword_other _ (by decide +kernel : ¬_ <+: ascii "=ypart")
      (by decide +kernel), startsWithKeyword_append _ ended, if_neg (by simp), if_neg (by simp),
    if_pos rfl, show (5 : ℕ) = (ascii "=yend").length by decide +kernel, drop_left]

theorem classifyLine_yend (all : ∀ token ∈ fields, Checksums part file token) :
    (classifyLine (ascii "=yend" ++ render fields)).1 = .yend ∧
      (classifyLine (ascii "=yend" ++ render fields)).2.hasCrc32 =
        (fields.any (hasKey (ascii "pcrc32=")) || fields.any (hasKey (ascii "crc32="))) ∧
      (classifyLine (ascii "=yend" ++ render fields)).2.crc32 =
        if fields.any (hasKey (ascii "pcrc32=")) then part
        else if fields.any (hasKey (ascii "crc32=")) then file else 0 := by
  have isTokens : ∀ token ∈ fields, IsToken token := fun token member => (all token member).toIsToken
  have text := @cString_render [] fields isTokens nofun
  obtain ⟨has, crc⟩ := @foldl_checksums fields part file {} all
  rw [classifyLine_yend_render, parseFields]
  rw [append_nil] at text has crc
  rw [text]
  exact ⟨rfl, has, crc⟩

end Checksums

section Size

variable {fields front back : List Bytes} {digits name : Bytes} {before : Fields}

def lastSize (tokens : List Bytes) : Option ℤ :=
  (tokens.filter (hasKey (ascii "size="))).getLast?.map fun (token : Bytes) =>
    Numeral.strtol (token.drop 5)

theorem foldl_size (tokens : List Bytes) :
    (tokens.foldl parseToken before).out.size = (lastSize tokens).getD before.out.size ∧
      (tokens.foldl parseToken before).out.hasSize =
        (before.out.hasSize || (lastSize tokens).isSome) := by
  induction tokens using List.reverseRecOn with
  | nil => exact ⟨rfl, (Bool.or_false _).symm⟩
  | append_singleton tokens token ih =>
    rw [foldl_append, foldl_cons, foldl_nil, lastSize, filter_append]
    by_cases isSize : hasKey (ascii "size=") token = true
    · rw [parseToken_size isSize, filter_cons_of_pos isSize, filter_nil,
        getLast?_concat]
      exact ⟨rfl, (Bool.or_true _).symm⟩
    · obtain ⟨hasSize, size⟩ := @parseToken_other token (tokens.foldl parseToken before)
        (Bool.eq_false_iff.mpr isSize)
      rw [hasSize, size, filter_cons_of_neg isSize, filter_nil, append_nil]
      exact ih

def beginLine (fields : List Bytes) (name : Bytes) : Bytes :=
  ascii "=ybegin" ++ (render fields ++ 32 :: (ascii "name=" ++ name))

structure BeginFields (size : ℕ) (fields : List Bytes) : Prop where
  isTokens : ∀ field ∈ fields, IsToken field
  fits : size ≤ longMax
  split : ∃ front digits back, fields = front ++ (ascii "size=" ++ digits) :: back ∧
    (∀ field ∈ front ++ back, hasKey (ascii "size=") field = false) ∧
    digits ≠ [] ∧ (∀ c ∈ digits, isDigit c = true) ∧ value 10 digits = size

def Harmless (size : ℕ) (name : Bytes) : Prop :=
  ∀ number ∈ lastSize (tokens false name), number = size

instance (size : ℕ) (name : Bytes) : Decidable (Harmless size name) :=
  inferInstanceAs (Decidable (∀ number ∈ lastSize (tokens false name), number = (size : ℤ)))

theorem lastSize_append (first second : List Bytes) :
    lastSize (first ++ second) = (lastSize second).or (lastSize first) := by
  rw [lastSize, lastSize, lastSize, filter_append, getLast?_append]
  cases (second.filter (hasKey (ascii "size="))).getLast? <;> rfl

def remainders (rest : Bytes) : List Bytes → List Bytes
  | [] => []
  | field :: fields => (field ++ (render fields ++ rest)) :: remainders rest fields

theorem tokens_render_all (isTokens : ∀ field ∈ fields, IsToken field) (ended : Ended rest) :
    tokens true (render fields ++ rest) = remainders rest fields ++ tokens true rest := by
  induction fields with
  | nil => rfl
  | cons field fields ih =>
    rw [tokens_render (isTokens field (.head _)) fields ended,
      ih fun field later => isTokens field (.tail _ later)]
    rfl

theorem lastSize_remainders (isTokens : ∀ field ∈ fields, IsToken field) (ended : Ended rest)
    (noSize : ∀ field ∈ fields, hasKey (ascii "size=") field = false) :
    lastSize (remainders rest fields) = none := by
  induction fields with
  | nil => rfl
  | cons field fields ih =>
    have here := noSize field (.head _)
    rw [← hasKey_append (isTokens field (.head _)) (ended_render fields ended)] at here
    rw [remainders, lastSize, filter_cons_of_neg (eq_false_iff.mp here)]
    exact ih (fun field later => isTokens field (.tail _ later))
      fun field later => noSize field (.tail _ later)

theorem lastSize_fields {size : ℕ} (valid : BeginFields size fields) (ended : Ended rest) :
    lastSize (remainders rest fields) = some (size : ℤ) := by
  obtain ⟨front, digits, back, rfl, noSize, nonempty, decimal, isValue⟩ := valid.split
  have fits := valid.fits
  have isTokens := valid.isTokens
  clear valid
  induction front with
  | cons field front ih =>
    have here := noSize field (by simp)
    rw [← hasKey_append (isTokens field (by simp))
      (ended_render (front ++ (ascii "size=" ++ digits) :: back) ended)] at here
    rw [cons_append, remainders, lastSize, filter_cons_of_neg (eq_false_iff.mp here)]
    exact ih (fun field later => noSize field (by simp at later ⊢; tauto))
      fun field later => isTokens field (.tail _ later)
  | nil =>
    have isToken := isTokens (ascii "size=" ++ digits) (by simp)
    have isBack : ∀ field ∈ back, IsToken field := fun field member => isTokens field (by simp [member])
    have later := lastSize_remainders isBack ended fun field member => noSize field (by simp [member])
    have isSize : hasKey (ascii "size=") (ascii "size=" ++ digits) = true := by
      have plain : ∀ c ∈ ascii "size=" ++ digits, decide (c ≠ 32) = true := fun c member =>
        decide_eq_true (isToken.plain c member).1
      rw [hasKey, takeWhile_eq_self_iff.mpr plain, and_eq_true, decide_eq_true_eq,
        isPrefixOf_iff_prefix, length_append]
      exact ⟨Nat.lt_add_of_pos_right (length_pos_iff.mpr nonempty), prefix_append _ _⟩
    have blank : ∀ c ∈ (render back ++ rest).head?, isDigit c = false := by
      intro c member
      rw [ended_render back ended c member]
      decide
    have number : Numeral.strtol (((ascii "size=" ++ digits) ++ (render back ++ rest)).drop 5) =
        size := by
      rw [append_assoc, show (5 : ℕ) = (ascii "size=").length by decide +kernel, drop_left,
        strtol_append nonempty decimal blank, isValue, min_eq_right (by exact_mod_cast fits)]
    rw [nil_append, remainders, ← singleton_append, lastSize_append, later, Option.none_or,
      lastSize, filter_cons_of_pos ((hasKey_append isToken (ended_render back ended) _).trans isSize),
      filter_nil, getLast?_singleton, Option.map_some, number]

theorem classifyLine_ybegin {size : ℕ} (valid : BeginFields size fields)
    (text : ∀ c ∈ name, c ≠ 0) :
    (classifyLine (beginLine fields name)).1 = .ybegin ∧
      (classifyLine (beginLine fields name)).2.hasSize = true ∧
      (classifyLine (beginLine fields name)).2.size =
        (lastSize (tokens false name)).getD size := by
  have ended : Ended (32 :: (ascii "name=" ++ name)) := by
    intro c member
    simpa using member.symm
  have plain : ∀ c ∈ 32 :: (ascii "name=" ++ name), c ≠ 0 := by
    intro c member
    rcases mem_cons.mp member with rfl | later
    · decide
    · rcases mem_append.mp later with key | word
      · exact (by decide +kernel : ∀ c ∈ ascii "name=", c ≠ 0) c key
      · exact text c word
  have words : tokens true (32 :: (ascii "name=" ++ name)) =
      (ascii "name=" ++ name) :: tokens false name := by
    rw [show ascii "name=" = 110 :: [97, 109, 101, 61] by decide +kernel, tokens, if_pos rfl,
      cons_append, tokens, if_neg (by decide), if_pos rfl, tokens_skip (by decide)]
  have noSize : hasKey (ascii "size=") (ascii "name=" ++ name) = false := by
    rw [eq_false_iff]
    intro has
    rw [hasKey, and_eq_true, isPrefixOf_iff_prefix] at has
    exact ( prefix_or_prefix_of_prefix has.2 (prefix_append _ _)).elim
      (by decide +kernel) (by decide +kernel)
  obtain ⟨size, hasSize⟩ := @foldl_size {} (tokens true (cString (render fields ++
    32 :: (ascii "name=" ++ name))))
  rw [classifyLine, beginLine, startsWithKeyword_append _ (ended_render fields ended), if_pos rfl,
    show (7 : ℕ) = (ascii "=ybegin").length by decide +kernel, drop_left, parseFields]
  dsimp only
  rw [size, hasSize, cString_render valid.isTokens plain, tokens_render_all valid.isTokens ended, words,
    lastSize_append, lastSize_fields valid ended, lastSize,
    filter_cons_of_neg (eq_false_iff.mp noSize), ← lastSize]
  cases lastSize (tokens false name) <;> exact ⟨rfl, rfl, rfl⟩

end Size

end NzbDownloader.Yenc
