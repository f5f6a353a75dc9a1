import NzbDownloader.Queue.Job

/-!
# Recognising recovery volumes by name

`job_file_is_par2_volume` of `queue/job.c` walks back from the end of the name
with a pointer.  Here the pointer is an offset, and moving it before the start
of the string yields `none`.
-/

namespace NzbDownloader.Queue

open Util List

def back (p k : ℕ) : Option ℕ :=
  if k ≤ p then some (p - k) else none

def charBefore (name : Name) (p : ℕ) : Option Char :=
  (back p 1).bind fun i => name[i]?

def walkDigits (name : Name) : ℕ → Option ℕ
  | 0 => some 0
  | p + 1 =>
      (charBefore name (p + 1)).bind fun c =>
        if c.isDigit then walkDigits name p else some (p + 1)

def volumeWalk (name : Name) : Option Bool := do
  if name.length < 5 then return false
  let digitsEnd ← back name.length 5
  if lower (name.drop digitsEnd) ≠ ".par2".toList then return false
  let p ← walkDigits name digitsEnd
  if p = digitsEnd ∨ p = 0 then return false
  if (← charBefore name p) ≠ '+' then return false
  let digitsEnd ← back p 1
  let p ← walkDigits name digitsEnd
  if p = digitsEnd then return false
  if p < 4 then return false
  let vol ← back p 4
  return lower ((name.drop vol).take 4) = ".vol".toList

theorem charBefore_append (a rest : Name) : charBefore (a ++ rest) a.length = a.getLast? := by
  rcases eq_nil_or_concat' a with rfl | ⟨early, c, rfl⟩
  · rfl
  · simp [charBefore, back]

theorem walkDigits_append (a rest : Name) :
    walkDigits (a ++ rest) a.length = some (beforeDigits a).length := by
  induction a using reverseRecOn generalizing rest with
  | nil => simp [walkDigits, beforeDigits]
  | append_singleton early c ih =>
    have reads := charBefore_append (early ++ [c]) rest
    rw [length_append, length_singleton, getLast?_concat] at reads
    rw [length_append, length_singleton, walkDigits, reads, Option.bind_some, append_assoc, ih,
      beforeDigits, beforeDigits, rdropWhile_concat]
    split
    · rfl
    · simp

theorem beforeDigits_append_endDigits (name : Name) :
    beforeDigits name ++ endDigits name = name :=
  rdropWhile_append_rtakeWhile

theorem length_beforeDigits_eq_iff (name : Name) :
    (beforeDigits name).length = name.length ↔ endDigits name = [] := by
  have whole := congrArg List.length (beforeDigits_append_endDigits name)
  rw [length_append] at whole
  rw [← length_eq_zero_iff]
  omega

theorem hasSuffixCi_append_iff (front : Name) {tail suffix : Name}
    (lengths : tail.length = suffix.length) :
    hasSuffixCi (front ++ tail) suffix = true ↔ lower tail = lower suffix := by
  rw [hasSuffixCi_iff]
  constructor
  · rintro ⟨front', tail', split, same⟩
    have size : tail'.length = suffix.length := by
      simpa [lower] using congrArg List.length same
    rw [(append_inj' split (lengths.trans size.symm)).2, same]
  · exact fun same => ⟨front, tail, rfl, same⟩

theorem not_hasSuffixCi_of_length {name suffix : Name} (short : name.length < suffix.length) :
    hasSuffixCi name suffix = false := by
  rw [Bool.eq_false_iff, Ne, hasSuffixCi_iff]
  rintro ⟨front, tail, rfl, same⟩
  have size : tail.length = suffix.length := by
    simpa [lower] using congrArg List.length same
  rw [length_append] at short
  omega

theorem volumeWalk_eq (name : Name) : volumeWalk name = some (jobFileIsPar2Volume name) := by
  have five : ".par2".toList.length = 5 := by decide
  have four : ".vol".toList.length = 4 := by decide
  have par2Lower : lower ".par2".toList = ".par2".toList := by decide
  have volLower : lower ".vol".toList = ".vol".toList := by decide
  unfold volumeWalk jobFileIsPar2Volume
  generalize ".par2".toList = par2 at five par2Lower ⊢
  generalize ".vol".toList = vol at four volLower ⊢
  by_cases short : name.length < 5
  · simp [short, not_hasSuffixCi_of_length (five ▸ short)]
  obtain ⟨q, s, rfl, size⟩ : ∃ q s, name = q ++ s ∧ s.length = 5 :=
    ⟨_, _, (take_append_drop (name.length - 5) name).symm, by simp; omega⟩
  have sub : (q ++ s).length - 5 = q.length := by simp [size]
  have ends := hasSuffixCi_append_iff q (size.trans five.symm)
  rw [par2Lower] at ends
  by_cases suffixed : lower s = par2
  swap
  · simp [back, size, suffixed, ends]
  simp only [short, back, sub, rdrop, take_left, drop_left, walkDigits_append, suffixed, ends,
    if_pos (Nat.not_lt.mp short), Option.bind_eq_bind, Option.bind_some, if_false, ne_eq,
    not_true_eq_false, length_beforeDigits_eq_iff, true_and]
  by_cases counted : endDigits q = []
  · simp [counted]
  have first := beforeDigits_append_endDigits q
  rcases eq_nil_or_concat' (beforeDigits q) with none | ⟨before, c, start⟩
  · simp [none, counted]
  rw [start] at first ⊢
  have reads := charBefore_append (before ++ [c]) (endDigits q ++ s)
  rw [← append_assoc, first] at reads
  rw [reads]
  by_cases plus : c = '+'
  swap
  · simp [plus, counted]
  have walk := walkDigits_append before (c :: endDigits q ++ s)
  rw [cons_append, ← singleton_append, ← append_assoc, ← append_assoc, first] at walk
  by_cases numbered : endDigits before = []
  · simp [plus, counted, walk, length_beforeDigits_eq_iff, numbered]
  rcases Nat.lt_or_ge (beforeDigits before).length 4 with few | many
  · simp [plus, counted, walk, length_beforeDigits_eq_iff, numbered, few,
      not_hasSuffixCi_of_length (four ▸ few)]
  have second := beforeDigits_append_endDigits before
  obtain ⟨front, tail, split, last⟩ :
      ∃ front tail, beforeDigits before = front ++ tail ∧ tail.length = 4 :=
    ⟨_, _, (take_append_drop ((beforeDigits before).length - 4) _).symm, by simp; omega⟩
  have there : take 4 (drop ((beforeDigits before).length - 4) (q ++ s)) = tail := by
    have whole : q ++ s = front ++ (tail ++ (endDigits before ++ c :: (endDigits q ++ s))) := by
      conv_lhs => rw [← first, ← second, split]
      simp
    rw [whole, split, length_append, last, Nat.add_sub_cancel, drop_left, take_left' last]
  have volume := hasSuffixCi_append_iff front (last.trans four.symm)
  rw [← split, volLower] at volume
  simp [plus, counted, walk, length_beforeDigits_eq_iff, numbered, many, Nat.not_lt.mpr many,
    there, volume]

def VolumeEnding (ending : Name) : Prop :=
  ∃ vol first count par2, ending = vol ++ first ++ '+' :: count ++ par2 ∧
    lower vol = ".vol".toList ∧ lower par2 = ".par2".toList ∧
    first ≠ [] ∧ count ≠ [] ∧ (∀ d ∈ first ++ count, d.isDigit)

theorem all_endDigits (name : Name) : ∀ d ∈ endDigits name, d.isDigit :=
  fun _ => mem_rtakeWhile_imp

theorem rdrop_append_five {q par2 : Name} (cased : lower par2 = lower ".par2".toList) :
    (q ++ par2).rdrop 5 = q := by
  have size : par2.length = 5 := by
    simpa [lower] using congrArg List.length cased
  rw [rdrop, length_append, size, Nat.add_sub_cancel, take_left]

/-- `job_file_is_par2_volume` never moves its pointer before the string, and
recognises exactly the names that end as those of recovery volumes do. -/
theorem volumeWalk_iff (name : Name) :
    volumeWalk name = some (jobFileIsPar2Volume name) ∧
      (jobFileIsPar2Volume name = true ↔ ∃ ending, VolumeEnding ending ∧ ending <:+ name) := by
  refine ⟨volumeWalk_eq name, ?_⟩
  simp only [jobFileIsPar2Volume, decide_eq_true_eq]
  constructor
  · rintro ⟨suffixed, counted, plus, numbered, volume⟩
    obtain ⟨q, par2, rfl, par2Lower⟩ := hasSuffixCi_iff.mp suffixed
    rw [rdrop_append_five par2Lower] at counted plus numbered volume
    have start : (beforeDigits q).dropLast ++ ['+'] = beforeDigits q :=
      dropLast_append_getLast? _ (Option.mem_def.mpr plus)
    generalize (beforeDigits q).dropLast = before at start numbered volume
    obtain ⟨front, vol, split, volLower⟩ := hasSuffixCi_iff.mp volume
    refine ⟨_, ⟨vol, endDigits before, endDigits q, par2, rfl, volLower, par2Lower, numbered,
      counted, ?_⟩, front, ?_⟩
    · intro d member
      rcases mem_append.mp member with inFirst | inCount
      · exact all_endDigits _ d inFirst
      · exact all_endDigits _ d inCount
    · conv_rhs => rw [← beforeDigits_append_endDigits q, ← start,
        ← beforeDigits_append_endDigits before, split]
      simp
  · rintro ⟨_, ⟨vol, first, count, par2, rfl, volLower, par2Lower, numbered, counted, digits⟩,
      front, rfl⟩
    rw [forall_mem_append] at digits
    obtain ⟨counts, start⟩ : endDigits (front ++ vol ++ first ++ '+' :: count) = count ∧
        beforeDigits (front ++ vol ++ first ++ '+' :: count) = front ++ vol ++ first ++ ['+'] :=
      rsplit _ (by decide) digits.2
    have last : (lower (front ++ vol)).getLast? = some 'l' :=
      getLast?_lower_append (by rw [volLower]; decide)
    obtain ⟨firsts, rest⟩ := digits_append last (by decide) digits.1
    have name : front ++ (vol ++ first ++ '+' :: count ++ par2) =
        front ++ vol ++ first ++ '+' :: count ++ par2 := by simp
    rw [name, rdrop_append_five par2Lower, counts, start, dropLast_concat, firsts, rest]
    exact ⟨hasSuffixCi_iff.mpr ⟨_, par2, rfl, par2Lower⟩, counted, getLast?_concat, numbered,
      hasSuffixCi_iff.mpr ⟨front, vol, rfl, volLower⟩⟩

end NzbDownloader.Queue
