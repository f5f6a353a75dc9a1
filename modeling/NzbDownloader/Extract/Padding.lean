import NzbDownloader.Extract.SplitFiles

/-!
# What the caps drop

How much of an encrypted entry can be missing from the stream.
-/

namespace NzbDownloader.Extract

open Lib Util List VolumeRun Prod

def OnlyPadding (entries : List VolEntry) : Prop :=
  ∀ e ∈ entries, e.crypt.isSome = true → e.size - 15 ≤ e.data.length

/-- The unpacked sizes agree with the packed ones up to padding: that of an entry
that is not split, if it is known, and that of a split file with the fragments
that were counted for it. -/
structure SizesAgree (entries : List VolEntry) : Prop where
  whole : ∀ e ∈ entries, e.fragment = .whole → e.unpSizeKnown = true → e.size ≤ e.unpSize + 15
  final : ∀ before first between last after,
    entries = before ++ first :: (between ++ last :: after) → first.fragment = .first →
    (∀ e ∈ between, e.fragment ≠ .first ∧ e.fragment ≠ .final) → last.fragment = .final →
    last.size ≤
      first.unpSize - (first.size + (between.map VolEntry.middleSize).sum) % 2 ^ 64 + 15

section Dropped

variable {split split' next : SplitState} {e first last : VolEntry}
  {entries between before after : List VolEntry}

theorem size_lt (e : VolEntry) : e.size < 2 ^ 64 := by
  have bound := dataSize_le e.header
  unfold uint64Max at bound
  change Header.dataSize e.header < 2 ^ 64
  omega

theorem isSome_crypt_iff : e.crypt.isSome ↔ e.fragment ≠ .plain := by
  unfold VolEntry.fragment
  cases e.crypt with
  | none => simp
  | some found =>
    cases hasFlag (Header.flags e.header) hflSplitBefore <;>
      cases hasFlag (Header.flags e.header) hflSplitAfter <;> simp

theorem VolEntry.Sized.padding_iff {n : ℕ} (sized : e.Sized)
    (cap : e.cap = if n < e.size then n else uint64Max) :
    e.size - 15 ≤ e.data.length ↔ e.size ≤ n + 15 := by
  have bound := size_lt e
  rw [sized.length_data, cap]
  unfold uint64Max
  split <;> omega

theorem VolEntry.Sized.padding_of_uncapped (sized : e.Sized) (cap : e.cap = uint64Max) :
    e.size - 15 ≤ e.data.length := by
  have bound := size_lt e
  rw [sized.length_data, cap]
  unfold uint64Max
  omega

theorem Chained.state_of_first (chained : Chained split (first :: between) split')
    (begins : first.fragment = .first)
    (inside : ∀ e ∈ between, e.fragment ≠ .first ∧ e.fragment ≠ .final) :
    split' = ⟨true, first.unpSize,
      (first.size + (between.map VolEntry.middleSize).sum) % 2 ^ 64⟩ := by
  obtain ⟨_, next, cap, later⟩ := chained_cons.mp chained
  rw [entryCap_eq, begins] at cap
  obtain ⟨_, rfl⟩ := mk.inj cap
  exact later.in_flight (size_lt first) inside

theorem Chained.active_cases (chained : Chained split entries split')
    (active : split'.active) :
    (split.active ∧ ∀ e ∈ entries, e.fragment ≠ .first ∧ e.fragment ≠ .final) ∨
      ∃ before first between, entries = before ++ first :: between ∧ first.fragment = .first ∧
        ∀ e ∈ between, e.fragment ≠ .first ∧ e.fragment ≠ .final := by
  induction chained with
  | nil => exact .inl ⟨active, forall_mem_nil _⟩
  | @cons split next _ e entries sized cap _ ih =>
    rcases ih active with ⟨running, inside⟩ | ⟨before, first, between, rfl, begins, inside⟩
    · rw [entryCap_eq] at cap
      cases kind : e.fragment with
      | first => exact .inr ⟨[], e, entries, rfl, kind, inside⟩
      | final =>
        rw [kind] at cap
        dsimp only at cap
        split at cap
        · rw [← (mk.inj cap).2] at running
          contradiction
        · rename_i idle
          rw [← (mk.inj cap).2] at running
          exact absurd running idle
      | plain | whole | middle =>
        rw [kind] at cap
        refine .inl ⟨?_, forall_mem_cons.mpr ⟨by rw [kind]; decide, inside⟩⟩
        rw [← (mk.inj cap).2] at running
        first
          | exact running
          | (split at running <;> exact running)
    · exact .inr ⟨e :: before, first, between, rfl, begins, inside⟩

theorem Chained.padding_of_final_iff
    (chained : Chained split (first :: (between ++ last :: after)) split')
    (begins : first.fragment = .first)
    (inside : ∀ e ∈ between, e.fragment ≠ .first ∧ e.fragment ≠ .final)
    (ends : last.fragment = .final) :
    last.size - 15 ≤ last.data.length ↔ last.size ≤
      first.unpSize - (first.size + (between.map VolEntry.middleSize).sum) % 2 ^ 64 + 15 := by
  rw [← cons_append] at chained
  obtain ⟨state, inFlight, later⟩ := chained_append.mp chained
  obtain ⟨sized, _, cap, _⟩ := chained_cons.mp later
  rw [inFlight.state_of_first begins inside, entryCap_eq, ends] at cap
  exact sized.padding_iff (mk.inj cap).1.symm

theorem Chained.padding_of_whole_iff (chained : Chained split (e :: after) split')
    (kind : e.fragment = .whole) :
    e.size - 15 ≤ e.data.length ↔ (e.unpSizeKnown = true → e.size ≤ e.unpSize + 15) := by
  obtain ⟨sized, _, cap, _⟩ := chained_cons.mp chained
  rw [entryCap_eq, kind] at cap
  have capped := (mk.inj cap).1.symm
  cases known : e.unpSizeKnown with
  | false =>
    simp only [known, Bool.false_eq_true, false_and, if_false] at capped
    simpa using sized.padding_of_uncapped capped
  | true =>
    simp only [known, true_and] at capped
    rw [sized.padding_iff capped]
    exact ⟨fun padded _ => padded, fun padded => padded rfl⟩

theorem Chained.onlyPadding_iff (chained : Chained split entries split')
    (start : split.active = false) : OnlyPadding entries ↔ SizesAgree entries := by
  constructor
  · intro only
    constructor
    · intro e member kind
      have emitted := only e member (isSome_crypt_iff.mpr (by rw [kind]; decide))
      obtain ⟨before, after, rfl⟩ := append_of_mem member
      obtain ⟨_, _, later⟩ := chained_append.mp chained
      exact (later.padding_of_whole_iff kind).mp emitted
    · rintro before first between last after rfl begins inside ends
      have emitted := only last (by simp) (isSome_crypt_iff.mpr (by rw [ends]; decide))
      obtain ⟨_, _, later⟩ := chained_append.mp chained
      exact (later.padding_of_final_iff begins inside ends).mp emitted
  · intro agree e member encrypted
    obtain ⟨before, after, rfl⟩ := append_of_mem member
    obtain ⟨state, earlier, later⟩ := chained_append.mp chained
    obtain ⟨sized, next, cap, _⟩ := chained_cons.mp later
    rw [entryCap_eq] at cap
    cases kind : e.fragment with
    | plain => exact absurd kind (isSome_crypt_iff.mp encrypted)
    | whole => exact (later.padding_of_whole_iff kind).mpr (agree.whole e member kind)
    | first | middle =>
      rw [kind] at cap
      exact sized.padding_of_uncapped (mk.inj cap).1.symm
    | final =>
      cases active : state.active with
      | false =>
        rw [kind, active] at cap
        exact sized.padding_of_uncapped (mk.inj cap).1.symm
      | true =>
        rcases earlier.active_cases active with
          ⟨running, _⟩ | ⟨front, first, between, rfl, begins, inside⟩
        · simp [start] at running
        · rw [append_assoc, cons_append] at chained agree
          obtain ⟨_, _, flight⟩ := chained_append.mp chained
          exact (flight.padding_of_final_iff begins inside kind).mpr
            (agree.final front first between e after rfl begins inside kind)

end Dropped

/-- Over all volumes nothing but padding is dropped exactly when the unpacked
sizes agree with the packed ones. -/
theorem onlyPadding_iff_sizesAgree {runs : List VolumeRun} {split split' : SplitState}
    (forward : ∀ r ∈ runs, r.env.cipher.Forward) (start : split.active = false)
    (reads : ReadInOrder split runs split') :
    (∀ r ∈ runs, r.Shows r.entries) ∧ (OnlyPadding (runs.flatMap entries) ↔
      SizesAgree (runs.flatMap entries)) :=
  ⟨reads.shows forward, (reads.chained forward).onlyPadding_iff start⟩

theorem sizesAgree_of_two_volumes :
    ∃ runs split, ReadInOrder ⟨false, 0, 0⟩ runs split ∧
      runs.flatMap entries = twoVolumes ∧
      SizesAgree (runs.flatMap entries) := by
  obtain ⟨runs, split, order, forward, shown⟩ := exists_runs executed_twoVolumes
  refine ⟨runs, split, order, shown, (onlyPadding_iff_sizesAgree forward rfl order).2.mp ?_⟩
  rw [shown]
  refine forall_mem_cons.mpr ⟨?_, forall_mem_cons.mpr ⟨?_,
    forall_mem_cons.mpr ⟨?_, forall_mem_singleton.mpr ?_⟩⟩⟩ <;>
    decide +kernel

def unknownFirst : Bytes :=
  partHeader [0x6e, 0x36, 0x57, 0x27] 0x13 16 8 0

def unknownFinal : Bytes :=
  partHeader [0x03, 0x2d, 0x0d, 0xb1] 0x0b 32 8 0

theorem unknown_size_dropped :
    ∃ runs split, ReadInOrder ⟨false, 0, 0⟩ runs split ∧ (∀ r ∈ runs, r.env.cipher.Forward) ∧
      runs.flatMap entries =
        [partEntry unknownFirst (replicate 16 1) uint64Max, endEntry,
          partEntry unknownFinal (replicate 32 2) 0, endEntry] ∧
      ¬OnlyPadding (runs.flatMap entries) := by
  have executed : (runVolumes (calm identityCipher) 5 ⟨false, 0, 0⟩
      ([[(unknownFirst, replicate 16 1)], [(unknownFinal, replicate 32 2)]].map
        partVolume)).map (·.flatMap entries) =
      some [partEntry unknownFirst (replicate 16 1) uint64Max, endEntry,
        partEntry unknownFinal (replicate 32 2) 0, endEntry] := by
    decide +kernel
  obtain ⟨runs, split, order, forward, shown⟩ := exists_runs executed
  refine ⟨runs, split, order, forward, shown, fun only => ?_⟩
  rw [shown] at only
  have emitted := only (partEntry unknownFinal (replicate 32 2) 0) (by simp)
    (by decide +kernel)
  exact absurd emitted (by decide +kernel)

end NzbDownloader.Extract
