import NzbDownloader.Download.Finalize

/-!
# The volumes of an archive

`extract_job` of `extract/extract.c` sorts the files of a job into sets by the kind and the base
that `classify` finds in their names, and the volumes of a set by their numbers.
-/

namespace NzbDownloader.Download

open Util Queue Extract List

structure Sorts (qsort : List Member → List Member) : Prop where
  perm (volumes : List Member) : (qsort volumes).Perm volumes
  ordered (volumes : List Member) :
    (qsort volumes).Pairwise fun first second => first.id.volume ≤ second.id.volume

/-- The calls of `extract_one_archive`.  They end with the first set for which the directory
or the memory is missing or the space does not suffice, or with a call that fails. -/
def extractCalls (prepared extracts : List Member → Bool) :
    List (List Member) → List (List Member)
  | [] => []
  | volumes :: rest =>
      if prepared volumes then
        volumes :: if extracts volumes then extractCalls prepared extracts rest else []
      else []

def decimalValue (digits : Name) : ℕ :=
  digits.foldl (fun value digit => 10 * value + (digit.toNat - '0'.toNat)) 0

inductive VolumeName (base : Name) : ArchiveKind → ℕ → Name → Prop
  | rar {ext : Name} (cased : lower ext = ".rar".toList)
      (plain : ¬(endDigits base ≠ [] ∧ hasSuffixCi (beforeDigits base) ".part".toList = true)) :
      VolumeName base .rar 0 (base ++ ext)
  | continuation {letter tens ones : Char}
      (letters : 'r' ≤ letter.toLower ∧ letter.toLower ≤ 'z')
      (digits : tens.isDigit = true ∧ ones.isDigit = true) :
      VolumeName base .rar
        (1 + (letter.toLower.toNat - 'r'.toNat) * 100 + decimalValue [tens, ones])
        (base ++ ['.', letter, tens, ones])
  | part {mark digits ext : Name} (marked : lower mark = ".part".toList)
      (number : allDigits digits = true) (limit : decimalValue digits ≤ longMax)
      (cased : lower ext = ".rar".toList) :
      VolumeName base .rar (decimalValue digits) (base ++ mark ++ digits ++ ext)
  | sevenz {ext : Name} (cased : lower ext = ".7z".toList) : VolumeName base .sevenz 0 (base ++ ext)
  | sevenzPart {mark digits : Name} (marked : lower mark = ".7z.".toList)
      (number : allDigits digits = true) (limit : decimalValue digits ≤ longMax) :
      VolumeName base .sevenz (decimalValue digits) (base ++ mark ++ digits)
  | zip {ext : Name} (cased : lower ext = ".zip".toList) : VolumeName base .zip 0 (base ++ ext)

structure VolumeSet where
  kind : ArchiveKind
  base : Name
  volumes : List (ℕ × Name)
  short : base.length < 400
  nonempty : volumes ≠ []
  ordered : volumes.Pairwise fun first second => first.1 < second.1
  named : ∀ volume ∈ volumes, VolumeName base kind volume.1 volume.2

namespace VolumeSet

def key (set : VolumeSet) : ArchiveKind × Name :=
  (set.kind, set.base)

def names (set : VolumeSet) : List Name :=
  set.volumes.map (·.2)

def members (set : VolumeSet) : List Member :=
  set.volumes.map fun volume => ⟨⟨set.kind, set.base, volume.1⟩, volume.2⟩

theorem filename_members (set : VolumeSet) : set.members.map (·.filename) = set.names :=
  map_map

end VolumeSet

section Names

variable {c d : Char} {front tail suffix : Name} {p : Char → Bool}

theorem not_hasSuffixCi (last : (lower tail).getLast? = some c)
    (other : (lower suffix).getLast? = some d) (different : c ≠ d) :
    ¬hasSuffixCi (front ++ tail) suffix = true := by
  intro suffixed
  obtain ⟨before, back, split, same⟩ := hasSuffixCi_iff.mp suffixed
  have lasts : (lower (front ++ tail)).getLast? = some d := by
    rw [split]
    exact getLast?_lower_append (same ▸ other)
  exact different (Option.some.inj ((getLast?_lower_append last).symm.trans lasts))

theorem hasSuffixCi_append (cased : lower tail = lower suffix) :
    hasSuffixCi (front ++ tail) suffix = true :=
  hasSuffixCi_iff.mpr ⟨front, tail, rfl, cased⟩

theorem extension_append (front : Name) (noDot : '.' ∉ tail) :
    extension (front ++ '.' :: tail) = tail ∧ beforeExtension (front ++ '.' :: tail) = front := by
  have others : ∀ d ∈ tail, decide (d ≠ '.') = true := fun d member =>
    decide_eq_true fun dot => noDot (dot ▸ member)
  obtain ⟨after, before⟩ := rsplit front (c := '.') (by simp) others
  rw [extension, beforeExtension, after, before]
  simp

theorem digits_of_allDigits (number : allDigits tail) :
    tail ≠ [] ∧ ∀ d ∈ tail, d.isDigit = true := by
  simpa [allDigits] using number

theorem not_hasSuffixCi_digits (number : allDigits tail)
    (other : (lower suffix).getLast? = some d) (letter : d.isDigit = false) :
    ¬hasSuffixCi (front ++ tail) suffix = true := by
  obtain ⟨filled, digits⟩ := digits_of_allDigits number
  obtain ⟨early, digit, rfl⟩ := (eq_nil_or_concat' tail).resolve_left filled
  have isDigit := digits digit (by simp)
  refine not_hasSuffixCi (c := digit) ?_ other ?_
  · simp [lower, toLower_of_isDigit isDigit]
  · rintro rfl
    simp [letter] at isDigit

theorem continuation_eq_none (last : (lower tail).getLast? = some d) (letter : d.isDigit = false) :
    continuation (front ++ tail) = none := by
  unfold continuation
  split
  · split
    · rfl
    rename_i c digits ext
    rw [if_neg]
    rintro ⟨-, -, -, number⟩
    obtain ⟨before, whole⟩ := (front ++ tail).rtakeWhile_suffix (· ≠ '.')
    have ends : hasSuffixCi (front ++ tail) tail = true := hasSuffixCi_append rfl
    rw [← whole, ← extension, ext, append_cons] at ends
    exact not_hasSuffixCi_digits number last letter ends
  · rfl

theorem continuation_digits (front : Name) (number : allDigits tail) :
    continuation (front ++ '.' :: tail) = none := by
  obtain ⟨filled, digits⟩ := digits_of_allDigits number
  have noDot : '.' ∉ tail := fun dot => absurd (digits _ dot) (by decide)
  obtain ⟨digit, rest, rfl⟩ := exists_cons_of_ne_nil filled
  rw [continuation, if_pos (by simp), (extension_append front noDot).1]
  dsimp only
  rw [if_neg]
  rintro ⟨-, letter, -⟩
  have isDigit := digits digit (.head _)
  rw [toLower_of_isDigit isDigit] at letter
  have high := toNat_le_of_isDigit isDigit
  have low : 114 ≤ digit.toNat := letter
  omega

theorem rdrop_append_of_lower {text : Name} (cased : lower tail = text) :
    (front ++ tail).rdrop text.length = front := by
  have length : tail.length = text.length := by simpa [lower] using congrArg List.length cased
  rw [← length, rdrop_append_length]

end Names

theorem strtol_eq {digits : Name} (limit : decimalValue digits ≤ longMax) :
    strtol digits = decimalValue digits :=
  min_eq_right limit

theorem isAlpha_of_toLower {letter : Char} (low : 'r' ≤ letter.toLower)
    (high : letter.toLower ≤ 'z') : letter.isAlpha = true := by
  rcases toNat_of_toLower (c := letter) rfl with same | ⟨upperLow, upperHigh, -⟩
  · rw [← same] at low high
    have lowerLow : 97 ≤ letter.toNat := le_trans (b := 114) (by decide) low
    exact Bool.or_eq_true_iff.mpr (.inr (Bool.and_eq_true_iff.mpr
      ⟨decide_eq_true lowerLow, decide_eq_true high⟩))
  · exact Bool.or_eq_true_iff.mpr (.inl (decide_eq_true ⟨upperLow, upperHigh⟩))

theorem continuation_volume {base : Name} {letter tens ones : Char}
    (letters : 'r' ≤ letter.toLower ∧ letter.toLower ≤ 'z')
    (digits : tens.isDigit ∧ ones.isDigit) :
    continuation (base ++ ['.', letter, tens, ones]) = some ⟨.rar, setBase base,
      1 + (letter.toLower.toNat - 'r'.toNat) * 100 + decimalValue [tens, ones]⟩ := by
  have noDot : '.' ∉ [letter, tens, ones] := by
    rintro (_ | ⟨_, _ | ⟨_, _ | ⟨_, _⟩⟩⟩)
    · exact absurd letters.1 (by decide)
    · exact absurd digits.1 (by decide)
    · exact absurd digits.2 (by decide)
    · contradiction
  have limit : decimalValue [tens, ones] ≤ longMax := by
    have tensHigh := toNat_le_of_isDigit digits.1
    have onesHigh := toNat_le_of_isDigit digits.2
    change 10 * (10 * 0 + (tens.toNat - 48)) + (ones.toNat - 48) ≤ _
    exact le_trans (b := 99) (by omega) (by decide)
  obtain ⟨ext, before⟩ := extension_append base noDot
  rw [continuation, if_pos (by simp), ext]
  dsimp only
  rw [if_pos ⟨isAlpha_of_toLower letters.1 letters.2, letters.1, letters.2,
    by simp [allDigits, digits]⟩, before, strtol_eq limit]

theorem classify_volumeName {base name : Name} {kind : ArchiveKind} {place : ℕ}
    (short : base.length < 400) (named : VolumeName base kind place name) :
    classify name = some ⟨kind, base, place⟩ := by
  have whole : setBase base = base := take_of_length_le (by omega)
  cases named with
  | @rar ext cased plain =>
    have stem : (base ++ ext).rdrop 4 = base := rdrop_append_of_lower cased
    rw [classify, if_pos (hasSuffixCi_append (cased.trans (by decide)))]
    simp only [stem]
    rw [if_neg plain, whole]
  | @continuation letter tens ones letters digits =>
    have number : allDigits [tens, ones] = true := by simp [allDigits, digits]
    have notRar : ¬hasSuffixCi (base ++ ['.', letter, tens, ones]) ".rar".toList = true :=
      append_cons base '.' [letter, tens, ones] ▸
      append_cons (base ++ ['.']) letter [tens, ones] ▸
        not_hasSuffixCi_digits number (d := 'r') (by decide) (by decide)
    rw [classify, if_neg notRar, continuation_volume letters digits, whole]
  | @part mark digits ext marked number limit cased =>
    have stem : (base ++ mark ++ digits ++ ext).rdrop 4 = base ++ mark ++ digits :=
      rdrop_append_of_lower cased
    have last : (lower (base ++ mark)).getLast? = some 't' :=
      getLast?_lower_append (by rw [marked]; decide)
    have split := digits_append last (by decide) (digits_of_allDigits number).2
    have front : (base ++ mark).rdrop 5 = base := rdrop_append_of_lower marked
    rw [classify, if_pos (hasSuffixCi_append (cased.trans (by decide)))]
    simp only [stem]
    rw [split.1, split.2, if_pos ⟨(digits_of_allDigits number).1,
      hasSuffixCi_append (marked.trans (by decide))⟩, front, whole, strtol_eq limit]
  | @sevenz ext cased =>
    have notRar : ¬hasSuffixCi (base ++ ext) ".rar".toList = true :=
      not_hasSuffixCi (c := 'z') (d := 'r') (by rw [cased]; decide) (by decide) (by decide)
    have stem : (base ++ ext).rdrop 3 = base := rdrop_append_of_lower cased
    rw [classify, if_neg notRar,
      continuation_eq_none (d := 'z') (by rw [cased]; decide) (by decide)]
    rw [if_pos (hasSuffixCi_append (cased.trans (by decide))), stem, whole]
  | @sevenzPart mark digits marked number limit =>
    have last : (lower (base ++ mark)).getLast? = some '.' :=
      getLast?_lower_append (by rw [marked]; decide)
    have split := digits_append last (by decide) (digits_of_allDigits number).2
    have front : (base ++ mark).rdrop 4 = base := rdrop_append_of_lower marked
    have discontinued : continuation (base ++ mark ++ digits) = none := by
      obtain ⟨early, dots, rfl, -, dotted⟩ := map_eq_append_iff.mp
        (show lower mark = ".7z".toList ++ ['.'] from marked)
      obtain ⟨dot, rest, rfl, isDot, nothing⟩ := map_eq_cons_iff.mp dotted
      cases map_eq_nil_iff.mp nothing
      cases eq_of_toLower isDot (by decide)
      simpa using continuation_digits (base ++ early) number
    rw [classify, if_neg (not_hasSuffixCi_digits number (d := 'r') (by decide) (by decide)),
      discontinued]
    rw [if_neg (not_hasSuffixCi_digits number (d := 'z') (by decide) (by decide)), split.1, split.2,
      if_pos ⟨(digits_of_allDigits number).1, hasSuffixCi_append (marked.trans (by decide))⟩, front,
      whole, strtol_eq limit]
  | @zip ext cased =>
    have stem : (base ++ ext).rdrop 4 = base := rdrop_append_of_lower cased
    have last : (lower ext).getLast? = some 'p' := by rw [cased]; decide
    have noDigits : endDigits (base ++ ext) = [] := by
      have last : (lower (base ++ ext)).getLast? = some 'p' := getLast?_lower_append last
      simpa using (digits_append last (by decide) (forall_mem_nil _)).1
    rw [classify, if_neg (not_hasSuffixCi last (d := 'r') (by decide) (by decide)),
      continuation_eq_none last (by decide)]
    rw [if_neg (not_hasSuffixCi last (d := 'z') (by decide) (by decide)), noDigits,
      if_neg (by simp), if_pos (hasSuffixCi_append (cased.trans (by decide))), stem, whole]

section Grouping

variable {set : VolumeSet} {others : List VolumeSet}

theorem VolumeSet.key_of_mem {member : Member} (found : member ∈ set.members) :
    member.key = set.key := by
  obtain ⟨volume, -, rfl⟩ := mem_map.mp found
  rfl

theorem filter_members (different : set.key ∉ others.map VolumeSet.key) :
    (set.members ++ others.flatMap VolumeSet.members).filter (·.key = set.key) = set.members ∧
      (set.members ++ others.flatMap VolumeSet.members).filter (·.key ≠ set.key) =
        others.flatMap VolumeSet.members := by
  have own : ∀ member ∈ set.members, member.key = set.key := fun _ => set.key_of_mem
  have other : ∀ member ∈ others.flatMap VolumeSet.members, member.key ≠ set.key := by
    intro member found same
    obtain ⟨set', listed, found⟩ := mem_flatMap.mp found
    exact different (same ▸ VolumeSet.key_of_mem found ▸ mem_map_of_mem listed)
  rw [filter_append, filter_append]
  constructor
  · rw [filter_eq_self.mpr (by simpa using own),
      filter_eq_nil_iff.mpr (by simpa using other), append_nil]
  · rw [filter_eq_nil_iff.mpr (by simpa using own),
      filter_eq_self.mpr (by simpa using other), nil_append]

variable {qsort : List Member → List Member} (sorts : Sorts qsort)

include sorts

theorem Sorts.members {volumes : List Member} (same : volumes.Perm set.members) :
    qsort volumes = set.members := by
  have ordered : set.members.Pairwise fun first second => first.id.volume < second.id.volume :=
    pairwise_map.mpr set.ordered
  have distinct : (set.members.map (·.id.volume)).Nodup :=
    (pairwise_map.mpr ordered).imp fun less => less.ne
  have sorted := (sorts.perm volumes).trans same
  refine sorted.eq_of_pairwise ?_ (sorts.ordered volumes) (ordered.imp fun less => less.le)
  intro first second left right lower upper
  exact inj_on_of_nodup_map distinct (sorted.mem_iff.mp left) right (le_antisymm lower upper)

theorem groupVolumes_perm (volumes : List Member) (sets : List VolumeSet)
    (different : (sets.map VolumeSet.key).Nodup)
    (made : volumes.Perm (sets.flatMap VolumeSet.members)) :
    (groupVolumes qsort volumes).Perm (sets.map VolumeSet.members) := by
  induction volumes using groupVolumes.induct generalizing sets with
  | case1 =>
    have empty := nil_perm.mp made
    cases sets with
    | nil => simp [groupVolumes]
    | cons set _ =>
      exact absurd (map_eq_nil_iff.mp (append_eq_nil_iff.mp empty).1) set.nonempty
  | case2 member rest ih =>
    obtain ⟨set, listed, found⟩ := mem_flatMap.mp (made.subset (.head _))
    have key := set.key_of_mem found
    obtain ⟨before, after, rfl⟩ := append_of_mem listed
    have moved : (before ++ set :: after).Perm (set :: (before ++ after)) := perm_middle
    have split := made.trans (moved.flatMap_right VolumeSet.members)
    have different := (moved.map VolumeSet.key).nodup_iff.mp different
    rw [map_cons, nodup_cons] at different
    rw [flatMap_cons] at split
    obtain ⟨own, other⟩ := filter_members different.1
    have first := (split.filter (·.key = set.key)).trans (.of_eq own)
    have later := (split.filter (·.key ≠ set.key)).trans (.of_eq other)
    rw [filter_cons_of_pos (by simpa using key)] at first
    rw [filter_cons_of_neg (by simpa using key)] at later
    rw [@List.unattach_filter _ _ _ _ (·.key ≠ member.key) fun _ _ => rfl, unattach_attach,
      key] at ih
    rw [groupVolumes, key, sorts.members first]
    exact ((ih _ different.2 later).cons _).trans (moved.map VolumeSet.members).symm

end Grouping

theorem members_perm {sets : List VolumeSet} {others : List Name}
    (rejected : ∀ name ∈ others, classify name = none) {files : List JobFile}
    (made : (files.map (·.filename)).Perm (sets.flatMap VolumeSet.names ++ others)) :
    (members files).Perm (sets.flatMap VolumeSet.members) := by
  have named (set : VolumeSet) : set.names.filterMap (fun name =>
      (classify name).map fun id => (⟨id, name⟩ : Member)) = set.members := by
    rw [VolumeSet.names, filterMap_map, VolumeSet.members, ← filterMap_eq_map]
    refine filterMap_congr fun volume found => ?_
    simp [classify_volumeName set.short (set.named volume found)]
  have found := made.filterMap fun name => (classify name).map fun id => (⟨id, name⟩ : Member)
  have none : others.filterMap (fun name =>
      (classify name).map fun id => (⟨id, name⟩ : Member)) = [] :=
    filterMap_eq_nil_iff.mpr fun name other => by simp [rejected name other]
  rw [filterMap_map, filterMap_append, filterMap_flatMap, none,
    append_nil] at found
  simp only [named] at found
  exact found

theorem extractCalls_eq {prepared extracts : List Member → Bool} (groups : List (List Member))
    (ready : ∀ volumes, prepared volumes) (success : ∀ volumes, extracts volumes) :
    extractCalls prepared extracts groups = groups := by
  induction groups with
  | nil => rfl
  | cons volumes rest ih => rw [extractCalls, if_pos (ready _), if_pos (success _), ih]

/-- Every set is extracted once, with its volumes in their order. -/
theorem extract_calls_sets (qsort : List Member → List Member) (sorts : Sorts qsort)
    (prepared extracts : List Member → Bool) (ready : ∀ volumes, prepared volumes = true)
    (success : ∀ volumes, extracts volumes = true) (sets : List VolumeSet)
    (different : (sets.map VolumeSet.key).Nodup) (others : List Name)
    (rejected : ∀ name ∈ others, classify name = none) (files : List JobFile)
    (made : (files.map (·.filename)).Perm (sets.flatMap VolumeSet.names ++ others)) :
    ((extractCalls prepared extracts (groupVolumes qsort (members files))).map
      fun volumes => volumes.map (·.filename)).Perm (sets.map VolumeSet.names) := by
  have grouped := groupVolumes_perm sorts _ sets different (members_perm rejected made)
  rw [extractCalls_eq _ ready success]
  have named : (fun volumes => volumes.map (·.filename)) ∘ VolumeSet.members = VolumeSet.names :=
    funext VolumeSet.filename_members
  rw [← named, ← map_map]
  exact grouped.map _

def oldStyle : VolumeSet where
  kind := .rar
  base := ['a']
  volumes := [(0, "a.rar".toList), (1, "a.R00".toList)]
  short := by decide
  nonempty := by decide
  ordered := by decide
  named := by
    simp only [List.forall_mem_cons]
    exact ⟨@VolumeName.rar ['a'] ".rar".toList (by decide) (by decide),
      @VolumeName.continuation ['a'] 'R' '0' '0' (by decide) (by decide), by simp⟩

def newStyle : VolumeSet where
  kind := .rar
  base := ['b']
  volumes := [(9, "b.part09.rar".toList), (10, "b.part10.rar".toList)]
  short := by decide
  nonempty := by decide
  ordered := by decide
  named := by
    have part (digits : Name) :=
      @VolumeName.part ['b'] ".part".toList digits ".rar".toList (by decide)
    simp only [List.forall_mem_cons]
    exact ⟨part ['0', '9'] (by decide) (by decide) (by decide),
      part ['1', '0'] (by decide) (by decide) (by decide), by simp⟩

theorem sorts_insertionSort :
    Sorts (·.insertionSort fun first second => first.id.volume ≤ second.id.volume) where
  perm := perm_insertionSort _
  ordered :=
    pairwise_insertionSort _

theorem extract_calls_sets_two :
    ((extractCalls (fun _ => true) (fun _ => true) (groupVolumes
      (·.insertionSort fun first second => first.id.volume ≤ second.id.volume)
      (members (["b.part10.rar", "a.R00", "a.nfo", "a.rar", "b.part09.rar"].map fun name =>
        ⟨name.toList, []⟩)))).map fun volumes => volumes.map (·.filename)).Perm
      [oldStyle.names, newStyle.names] :=
  extract_calls_sets _ sorts_insertionSort _ _ (fun _ => rfl) (fun _ => rfl) [oldStyle, newStyle]
    (by decide) ["a.nfo".toList] (by decide) _ (by decide)

end NzbDownloader.Download
