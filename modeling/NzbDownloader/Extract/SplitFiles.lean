import NzbDownloader.Extract.Rar5Consistent
import NzbDownloader.Extract.Rar5Volumes

/-!
# Files split over volumes

What the cap of an encrypted entry is, by the split flags of the entry, and that
the fragments of a stored file add up to the file.
-/

namespace NzbDownloader.Extract

open Lib Util List VolEntry

inductive Fragment where
  | plain
  | whole
  | first
  | middle
  | final
  deriving DecidableEq

namespace VolEntry

variable (e : VolEntry)

def size : ℕ :=
  Header.dataSize e.header

def unpSize : ℕ :=
  (e.crypt.map (·.unpSize)).getD 0

def unpSizeKnown : Bool :=
  (e.crypt.map (·.unpSizeKnown)).getD false

def fragment : Fragment :=
  match e.crypt, hasFlag (Header.flags e.header) hflSplitBefore,
    hasFlag (Header.flags e.header) hflSplitAfter with
  | none, _, _ => .plain
  | some _, false, false => .whole
  | some _, false, true => .first
  | some _, true, true => .middle
  | some _, true, false => .final

def isSplit : Bool :=
  match e.fragment with
  | .plain | .whole => false
  | .first | .middle | .final => true

def middleSize : ℕ :=
  if e.fragment = .middle then e.size else 0

end VolEntry

variable {entries : List VolEntry}

section Step

variable {e : VolEntry} {split split' : SplitState}

theorem entryCap_eq : entryCap e.header e.crypt split =
    match e.fragment with
    | .plain => (uint64Max, split)
    | .whole =>
      (if e.unpSizeKnown ∧ e.unpSize < e.size then e.unpSize else uint64Max, split)
    | .first => (uint64Max, ⟨true, e.unpSize, e.size⟩)
    | .middle =>
      (uint64Max,
        if split.active then
          { split with writtenSoFar := (split.writtenSoFar + e.size) % 2 ^ 64 }
        else split)
    | .final =>
      if split.active then
        (if split.unpTotal - split.writtenSoFar < e.size then
            split.unpTotal - split.writtenSoFar
          else uint64Max, { split with active := false })
      else (uint64Max, split) := by
  unfold fragment unpSizeKnown unpSize size
  cases crypt : e.crypt with
  | none => rfl
  | some found =>
    rw [entryCap]
    unfold writeCap
    cases hasFlag (Header.flags e.header) hflSplitBefore <;>
      cases hasFlag (Header.flags e.header) hflSplitAfter
    · rfl
    · rfl
    · cases split.active
      · rfl
      · have true' : (if split.unpTotal > split.writtenSoFar then
            split.unpTotal - split.writtenSoFar else 0) =
              split.unpTotal - split.writtenSoFar := by
          split <;> omega
        rw [true']
        rfl
    · rfl

theorem VolEntry.Sized.length_data (sized : e.Sized) : e.data.length = min e.cap e.size := by
  rw [data, length_take, sized.plain]
  rfl

theorem VolEntry.Sized.data_eq_plain (sized : e.Sized) (uncapped : e.cap = uint64Max) :
    e.data = e.plain := by
  rw [data, uncapped]
  exact take_of_length_le (sized.plain.trans_le (dataSize_le e.header))

theorem Chained.filter (chained : Chained split entries split') :
    Chained split (entries.filter isSplit) split' := by
  induction chained with
  | nil split => exact .nil split
  | @cons split next _ e entries sized cap _ ih =>
    rw [filter_cons]
    split
    · exact .cons sized cap ih
    rename_i whole
    have same : next = split := by
      rw [entryCap_eq] at cap
      unfold isSplit at whole
      cases kind : e.fragment <;> rw [kind] at cap whole <;>
        first
          | exact (Prod.mk.inj cap).2.symm
          | exact absurd rfl whole
    rw [same] at ih
    exact ih

theorem Chained.in_flight {n written : ℕ} (chained : Chained ⟨true, n, written⟩ entries split')
    (small : written < 2 ^ 64)
    (between : ∀ e ∈ entries, e.fragment ≠ .first ∧ e.fragment ≠ .final) :
    split' = ⟨true, n, (written + (entries.map middleSize).sum) % 2 ^ 64⟩ := by
  induction entries generalizing written with
  | nil =>
    cases chained
    rw [map_nil, sum_nil, Nat.add_zero, Nat.mod_eq_of_lt small]
  | cons e entries ih =>
    obtain ⟨⟨notFirst, notFinal⟩, others⟩ := forall_mem_cons.mp between
    obtain ⟨sized, next, cap, later⟩ := chained_cons.mp chained
    have after : next = ⟨true, n, (written + e.middleSize) % 2 ^ 64⟩ := by
      rw [entryCap_eq] at cap
      unfold middleSize
      cases kind : e.fragment with
      | first => exact absurd kind notFirst
      | final => exact absurd kind notFinal
      | plain | whole =>
        rw [kind] at cap
        rw [if_neg (by decide), Nat.add_zero, Nat.mod_eq_of_lt small]
        exact (Prod.mk.inj cap).2.symm
      | middle =>
        rw [kind] at cap
        rw [if_pos rfl]
        exact (Prod.mk.inj cap).2.symm
    rw [after] at later
    rw [ih later (Nat.mod_lt _ (by decide)) others, map_cons, sum_cons,
      Nat.mod_add_mod, Nat.add_assoc]

theorem data_eq_plain_of_fragment {next : SplitState} (sized : e.Sized)
    (cap : entryCap e.header e.crypt split = (e.cap, next))
    (kind : e.fragment = .first ∨ e.fragment = .middle) : e.data = e.plain := by
  rw [entryCap_eq] at cap
  rcases kind with kind | kind <;> rw [kind] at cap <;>
    exact sized.data_eq_plain (Prod.mk.inj cap).1.symm

theorem Chained.data_eq_plain (chained : Chained split entries split')
    (middles : ∀ e ∈ entries, e.fragment = .middle) :
    entries.map data = entries.map plain := by
  induction chained with
  | nil => rfl
  | cons sized cap _ ih =>
    obtain ⟨middle, others⟩ := forall_mem_cons.mp middles
    rw [map_cons, map_cons, data_eq_plain_of_fragment sized cap (.inr middle),
      ih others]

theorem Chained.length_plain (chained : Chained split entries split') :
    (entries.map plain).flatten.length = (entries.map size).sum := by
  induction chained with
  | nil => rfl
  | cons sized _ _ ih =>
    rw [map_cons, flatten_cons, length_append, ih, sized.plain, map_cons,
      sum_cons]
    rfl

end Step

/-- The sizes of the fragments of a file of `n` bytes: whole blocks, and in the
last fragment the remainder filled up to whole blocks. -/
structure SplitInto (n : ℕ) (others : List VolEntry) (final : VolEntry) : Prop where
  blocks : ∀ e ∈ others, 16 ∣ e.size
  fits : (others.map size).sum ≤ n
  rest : final.size = wholeBlocks (n - (others.map size).sum + 15)

inductive StoredFile (n : ℕ) : List VolEntry → Prop
  | whole {e : VolEntry} : e.fragment = .whole → e.unpSizeKnown = true → e.unpSize = n →
      SplitInto n [] e → StoredFile n [e]
  | split {first final : VolEntry} {middles : List VolEntry} : first.fragment = .first →
      first.unpSizeKnown = true → first.unpSize = n → (∀ e ∈ middles, e.fragment = .middle) →
      final.fragment = .final → SplitInto n (first :: middles) final →
      StoredFile n (first :: middles ++ [final])

/-- The fragments stand among the entries in this order, and between the first and
the last there is no other encrypted entry with a split flag. -/
def Unbroken (entries fragments : List VolEntry) : Prop :=
  ∃ before window after, entries = before ++ window ++ after ∧ fragments.Sublist window ∧
    window.filter isSplit = fragments.filter isSplit

section Stored

variable {n : ℕ} {split split' : SplitState} {e first final : VolEntry}
  {middles fragments : List VolEntry}

theorem VolEntry.Sized.data_eq_take (sized : e.Sized)
    (cap : e.cap = if n < e.size then n else uint64Max) : e.data = e.plain.take n := by
  split at cap
  · rw [data, cap]
  · rename_i small
    rw [sized.data_eq_plain cap, take_of_length_le]
    exact sized.plain.trans_le (not_lt.mp small)

theorem Chained.data_of_whole (chained : Chained split [e] split') (kind : e.fragment = .whole)
    (known : e.unpSizeKnown = true) : e.data = e.plain.take e.unpSize := by
  obtain ⟨sized, next, cap, _⟩ := chained_cons.mp chained
  rw [entryCap_eq, kind] at cap
  refine sized.data_eq_take ?_
  rw [← (Prod.mk.inj cap).1]
  simp only [known, true_and]

theorem Chained.data_of_final (chained : Chained split (first :: middles ++ [final]) split')
    (begins : first.fragment = .first) (continues : ∀ e ∈ middles, e.fragment = .middle)
    (ends : final.fragment = .final)
    (fits : ((first :: middles).map size).sum ≤ first.unpSize) :
    final.data =
      final.plain.take (first.unpSize - ((first :: middles).map size).sum) := by
  rw [cons_append] at chained
  obtain ⟨sizedFirst, next, cap, later⟩ := chained_cons.mp chained
  rw [entryCap_eq, begins] at cap
  obtain ⟨_, rfl⟩ := Prod.mk.inj cap
  obtain ⟨middle, between, last⟩ := chained_append.mp later
  obtain ⟨sized, _, cap, _⟩ := chained_cons.mp last
  have bound : first.unpSize < 2 ^ 64 := by
    unfold unpSize
    cases crypt : first.crypt with
    | none => exact Nat.two_pow_pos 64
    | some found => exact sizedFirst.unpSize found crypt
  have sizes : middles.map middleSize = middles.map size :=
    map_congr_left fun e member => if_pos (continues e member)
  rw [map_cons, sum_cons] at fits ⊢
  rw [between.in_flight (by omega) fun e member => by simp [continues e member], sizes,
    Nat.mod_eq_of_lt (by omega), entryCap_eq, ends] at cap
  exact sized.data_eq_take (Prod.mk.inj cap).1.symm

theorem Chained.data_of_storedFile (chained : Chained split fragments split')
    (stored : StoredFile n fragments) :
    (fragments.map data).flatten = (fragments.map plain).flatten.take n := by
  cases stored with
  | whole kind known size _ =>
    rw [← size]
    simpa using chained.data_of_whole kind known
  | @split first final middles begins _ size continues ends sizes =>
    subst size
    obtain ⟨middle, others, _⟩ := chained_append.mp chained
    have length := others.length_plain
    have whole : (first :: middles).map data = (first :: middles).map plain := by
      obtain ⟨sized, next, cap, later⟩ := chained_cons.mp others
      rw [map_cons, map_cons, data_eq_plain_of_fragment sized cap (.inl begins),
        later.data_eq_plain continues]
    rw [map_append, map_append, flatten_append, flatten_append, whole,
      take_append, take_of_length_le (length.trans_le sizes.fits), length]
    simpa using chained.data_of_final begins continues ends sizes.fits

theorem Chained.of_unbroken (chained : Chained split entries split')
    (stored : StoredFile n fragments) (unbroken : Unbroken entries fragments) :
    ∃ start stop, Chained start fragments stop := by
  obtain ⟨before, window, after, rfl, sublist, same⟩ := unbroken
  obtain ⟨stop, front, _⟩ := chained_append.mp chained
  obtain ⟨start, _, inside⟩ := chained_append.mp front
  cases stored with
  | whole =>
    obtain ⟨left, right, rfl⟩ := append_of_mem (singleton_sublist.mp sublist)
    obtain ⟨start, _, later⟩ := chained_append.mp inside
    obtain ⟨sized, next, cap, _⟩ := chained_cons.mp later
    exact ⟨start, next, .cons sized cap (.nil next)⟩
  | split begins _ _ continues ends _ =>
    refine ⟨start, stop, ?_⟩
    have all := inside.filter
    rw [same, filter_eq_self.mpr] at all
    · exact all
    intro e member
    unfold isSplit
    rcases mem_append.mp member with inFront | isLast
    · rcases mem_cons.mp inFront with rfl | isMiddle
      · rw [begins]
      · rw [continues e isMiddle]
    · rw [mem_singleton.mp isLast, ends]

end Stored

/-- The data handed on for the fragments of a stored file is the file: the first
`n` bytes of their decrypted data. -/
theorem storedFile_whole {runs : List VolumeRun} {split split' : SplitState}
    (forward : ∀ r ∈ runs, r.env.cipher.Forward) (reads : ReadInOrder split runs split') :
    (∀ r ∈ runs, r.Shows r.entries) ∧ ∀ n fragments, StoredFile n fragments →
      Unbroken (runs.flatMap VolumeRun.entries) fragments →
      (fragments.map data).flatten =
        (fragments.map plain).flatten.take n := by
  refine ⟨reads.shows forward, fun n fragments stored unbroken => ?_⟩
  obtain ⟨_, _, alone⟩ := (reads.chained forward).of_unbroken stored unbroken
  exact alone.data_of_storedFile stored

def partHeader (crc : Bytes) (flags packSize fileFlags unpSize : Byte) : Bytes :=
  crc ++ [0x30, 2, flags, 37, packSize, fileFlags, unpSize, 0, 0, 0, 1, 0x61, 0x24, 1] ++
    replicate 35 0

def partVolume (parts : List (Bytes × Bytes)) : Vol :=
  volumeOf ((parts.flatMap fun part =>
    replicate 16 0 ++ part.1 ++ replicate 11 0 ++ part.2) ++
      replicate 16 0 ++ endHeader ++ replicate 8 0)

theorem opened_partVolume (parts : List (Bytes × Bytes)) : Opened (partVolume parts) :=
  opened_volumeOf _

def partEntry (header packed : Bytes) (cap : ℕ) : VolEntry :=
  ⟨header, cryptOf (calm identityCipher) header, packed, packed, cap⟩

def endEntry : VolEntry :=
  partEntry endHeader [] uint64Max

theorem forward_identityCipher : identityCipher.Forward :=
  fun _ _ _ _ _ _ => rfl

theorem exists_runs {parts : List (List (Bytes × Bytes))} {calls : ℕ}
    (executed : (runVolumes (calm identityCipher) calls ⟨false, 0, 0⟩ (parts.map partVolume)).map
      (·.flatMap VolumeRun.entries) = some entries) :
    ∃ runs split, ReadInOrder ⟨false, 0, 0⟩ runs split ∧
      (∀ r ∈ runs, r.env.cipher.Forward) ∧ runs.flatMap VolumeRun.entries = entries := by
  obtain ⟨runs, read, shown⟩ := Option.map_eq_some_iff.mp executed
  have opened : ∀ v ∈ parts.map partVolume, Opened v :=
    forall_mem_map.mpr fun part _ => opened_partVolume part
  obtain ⟨⟨split, order⟩, same⟩ := readInOrder_of_runVolumes opened read
  refine ⟨runs, split, order, fun r member => ?_, shown⟩
  rw [same r member]
  exact forward_identityCipher

def beginHeader : Bytes :=
  partHeader [0xa4, 0x54, 0x40, 0xc0] 0x13 16 0 20

def finalHeader : Bytes :=
  partHeader [0x1b, 0xaa, 0x4f, 0x1c] 0x0b 16 0 20

def otherHeader : Bytes :=
  partHeader [0x09, 0xbc, 0x28, 0x77] 0x13 16 0 40

def twoFragments (cap : ℕ) : List VolEntry :=
  [partEntry beginHeader (replicate 16 1) uint64Max,
    partEntry finalHeader (replicate 16 2) cap]

theorem storedFile_twoFragments {cap : ℕ}
    (ends : (partEntry finalHeader (replicate 16 2) cap).fragment = .final)
    (size : (partEntry finalHeader (replicate 16 2) cap).size = 16) :
    StoredFile 20 (twoFragments cap) := by
  refine .split (by decide +kernel) (by decide +kernel) (by decide +kernel)
    (forall_mem_nil _) ends ⟨?_, by decide +kernel, ?_⟩
  · exact forall_mem_singleton.mpr (by decide +kernel)
  · exact size.trans (by decide +kernel)

def twoVolumes : List VolEntry :=
  [partEntry beginHeader (replicate 16 1) uint64Max, endEntry,
    partEntry finalHeader (replicate 16 2) 4, endEntry]

theorem executed_twoVolumes : (runVolumes (calm identityCipher) 5 ⟨false, 0, 0⟩
    ([[(beginHeader, replicate 16 1)], [(finalHeader, replicate 16 2)]].map
      partVolume)).map (·.flatMap VolumeRun.entries) = some twoVolumes := by
  decide +kernel

theorem storedFile_whole_two_volumes :
    ∃ runs split, ReadInOrder ⟨false, 0, 0⟩ runs split ∧ StoredFile 20 (twoFragments 4) ∧
      Unbroken (runs.flatMap VolumeRun.entries) (twoFragments 4) ∧
      ((twoFragments 4).map data).flatten =
        ((twoFragments 4).map plain).flatten.take 20 := by
  obtain ⟨runs, split, order, forward, shown⟩ := exists_runs executed_twoVolumes
  have unbroken : Unbroken (runs.flatMap VolumeRun.entries) (twoFragments 4) := by
    rw [shown]
    refine ⟨[], [partEntry beginHeader (replicate 16 1) uint64Max, endEntry,
      partEntry finalHeader (replicate 16 2) 4], [endEntry], rfl, ?_, ?_⟩
    · exact .cons_cons _ (.cons _ (.refl _))
    · decide +kernel
  have stored : StoredFile 20 (twoFragments 4) :=
    storedFile_twoFragments (by decide +kernel) (by decide +kernel)
  exact ⟨runs, split, order, stored, unbroken,
    (storedFile_whole forward order).2 20 _ stored unbroken⟩

/-- A file whose fragments have the beginning of another file between them is not
cut: the state is that of the other file. -/
theorem interleaved_file_not_whole :
    ∃ runs split, ReadInOrder ⟨false, 0, 0⟩ runs split ∧
      (∀ r ∈ runs, r.env.cipher.Forward) ∧ StoredFile 20 (twoFragments uint64Max) ∧
      (twoFragments uint64Max).Sublist (runs.flatMap VolumeRun.entries) ∧
      ((twoFragments uint64Max).map data).flatten ≠
        ((twoFragments uint64Max).map plain).flatten.take 20 := by
  have executed : (runVolumes (calm identityCipher) 7 ⟨false, 0, 0⟩
      ([[(beginHeader, replicate 16 1), (otherHeader, replicate 16 3)],
        [(finalHeader, replicate 16 2)]].map partVolume)).map
          (·.flatMap VolumeRun.entries) =
      some [partEntry beginHeader (replicate 16 1) uint64Max,
        partEntry otherHeader (replicate 16 3) uint64Max, endEntry,
        partEntry finalHeader (replicate 16 2) uint64Max, endEntry] := by
    decide +kernel
  obtain ⟨runs, split, order, forward, shown⟩ := exists_runs executed
  have stored : StoredFile 20 (twoFragments uint64Max) :=
    storedFile_twoFragments (by decide +kernel) (by decide +kernel)
  refine ⟨runs, split, order, forward, stored, ?_, by decide +kernel⟩
  rw [shown]
  exact .cons_cons _ (.cons _ (.cons _ (.cons_cons _ (.cons _ .slnil))))

end NzbDownloader.Extract
