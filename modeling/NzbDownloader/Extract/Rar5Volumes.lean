import NzbDownloader.Extract.Rar5Entries

/-!
# Volumes that are read one after another

The volumes of an archive share the state that follows a split file.  Over all of
them the caps of the entries form one chain.
-/

namespace NzbDownloader.Extract

open Lib Lib.Effect Util List Header

structure VolEntry.Sized (e : VolEntry) : Prop where
  plain : e.plain.length = dataSize e.header
  unpSize : ∀ found, e.crypt = some found → found.unpSize < 2 ^ 64

inductive Chained : SplitState → List VolEntry → SplitState → Prop
  | nil (split : SplitState) : Chained split [] split
  | cons {split next split' : SplitState} {e : VolEntry} {entries : List VolEntry} : e.Sized →
      entryCap e.header e.crypt split = (e.cap, next) → Chained next entries split' →
      Chained split (e :: entries) split'

section Chain

variable {env : CryptEnv} {key password input rest : Bytes} {split split' : SplitState}
  {e : VolEntry} {entries later : List VolEntry}

theorem VolEntry.ReadFrom.sized (read : e.ReadFrom env key password split input rest split') :
    e.Sized where
  plain := read.length_plain
  unpSize found has := unpSize_lt (read.recorded.found found has).2

theorem Serves.chained (serves : Serves env key password split input entries split') :
    Chained split entries split' := by
  induction serves with
  | eof split => exact .nil split
  | last read _ => exact .cons read.sized read.cap (.nil _)
  | next read _ _ ih => exact .cons read.sized read.cap ih

theorem chained_cons : Chained split (e :: entries) split' ↔
    e.Sized ∧ ∃ next, entryCap e.header e.crypt split = (e.cap, next) ∧
      Chained next entries split' := by
  constructor
  · intro chained
    cases chained with
    | cons sized cap later => exact ⟨sized, _, cap, later⟩
  · rintro ⟨sized, next, cap, later⟩
    exact .cons sized cap later

theorem chained_append : Chained split (entries ++ later) split' ↔
    ∃ middle, Chained split entries middle ∧ Chained middle later split' := by
  induction entries generalizing split with
  | nil =>
    constructor
    · exact fun chained => ⟨split, .nil split, chained⟩
    · rintro ⟨middle, first, second⟩
      cases first
      exact second
  | cons e entries ih =>
    rw [cons_append, chained_cons]
    constructor
    · rintro ⟨sized, next, cap, chained⟩
      obtain ⟨middle, first, second⟩ := ih.mp chained
      exact ⟨middle, .cons sized cap first, second⟩
    · rintro ⟨middle, first, second⟩
      obtain ⟨sized, next, cap, first⟩ := chained_cons.mp first
      exact ⟨sized, next, cap, ih.mpr ⟨middle, first, second⟩⟩

end Chain

section Bytes

variable (env : CryptEnv) (key password : Bytes)

def cryptOf (pt : Bytes) : Option FileCrypt :=
  if named pt then
    (findFileCrypt pt env.rounds (extraSize pt) (bodyPos pt)).getD none
  else none

def volEntryOf (pt rest : Bytes) (split : SplitState) : VolEntry :=
  let crypt := cryptOf env pt
  let packed := rest.take (dataSize pt)
  ⟨pt, crypt, packed, decryptData env password crypt packed, (entryCap pt crypt split).1⟩

def volumeEntries : ℕ → SplitState → Bytes → List VolEntry × SplitState
  | 0, split, _ => ([], split)
  | rounds + 1, split, input =>
      if input = [] then ([], split)
      else
        let (pt, rest) := firstHeader env.cipher key input
        let e := volEntryOf env password pt rest split
        let next := (entryCap pt e.crypt split).2
        if type pt = headEndarc then ([e], next)
        else
          let (entries, last) := volumeEntries rounds next (rest.drop (dataSize pt))
          (e :: entries, last)

variable {env key password} {split split' : SplitState} {input rest : Bytes} {e : VolEntry}
  {entries : List VolEntry}

theorem Recorded.eq_cryptOf {pt : Bytes} {crypt : Option FileCrypt}
    (recorded : Recorded env pt crypt) : crypt = cryptOf env pt := by
  unfold Recorded at recorded
  unfold cryptOf
  split at recorded
  · rename_i named
    rw [if_pos named, recorded]
    rfl
  · rename_i nameless
    rwa [if_neg nameless]

theorem VolEntry.ReadFrom.eq_volEntryOf (read : e.ReadFrom env key password split input rest split') :
    e = volEntryOf env password e.header (e.packed ++ rest) split ∧
      split' = (entryCap e.header e.crypt split).2 := by
  obtain ⟨_, _, recorded, cap, packed, plain, _⟩ := read
  refine ⟨?_, by rw [cap]⟩
  unfold volEntryOf
  dsimp only
  rw [← packed, take_left, ← recorded.eq_cryptOf, cap, ← plain]

theorem Serves.eq_volumeEntries {rounds : ℕ} (shows' : env.cipher.ShowsSize)
    (serves : Serves env key password split input entries split') (enough : input.length ≤ rounds) :
    (entries, split') = volumeEntries env key password rounds split input := by
  induction serves generalizing rounds with
  | eof => cases rounds <;> rfl
  | last read endarc =>
    obtain ⟨first, shorter⟩ := read.headerAt.eq_firstHeader shows'
    obtain ⟨same, next⟩ := read.eq_volEntryOf
    obtain ⟨rounds, rfl⟩ := Nat.exists_eq_add_one_of_ne_zero (by omega : rounds ≠ 0)
    rw [volumeEntries, if_neg (ne_nil_of_length_pos (by omega)), first]
    dsimp only
    rw [if_pos endarc, ← same, next]
  | next read other _ ih =>
    obtain ⟨first, shorter⟩ := read.headerAt.eq_firstHeader shows'
    obtain ⟨same, next⟩ := read.eq_volEntryOf
    obtain ⟨rounds, rfl⟩ := Nat.exists_eq_add_one_of_ne_zero (by omega : rounds ≠ 0)
    rw [length_append] at shorter
    rw [volumeEntries, if_neg (ne_nil_of_length_pos (by omega)), first]
    dsimp only
    rw [if_neg other, ← same, read.drop_dataSize, ← next, ← ih (by omega)]

end Bytes

structure VolumeRun where
  env : CryptEnv
  opened : Vol
  chunks : List Bytes
  closed : Vol

structure VolumeRun.Reads (r : VolumeRun) : Prop where
  opened : Opened r.opened
  calls : Calls r.env r.opened (r.chunks ++ [[]]) r.closed

inductive ReadInOrder : SplitState → List VolumeRun → SplitState → Prop
  | nil (split : SplitState) : ReadInOrder split [] split
  | cons {split : SplitState} {r : VolumeRun} {runs : List VolumeRun} : r.Reads →
      ReadInOrder r.closed.splitState runs split →
      ReadInOrder r.opened.splitState (r :: runs) split

structure VolumeRun.Shows (r : VolumeRun) (entries : List VolEntry) : Prop where
  stream : r.chunks.flatten = rar5Sig ++ rendered entries
  serves : Serves r.env r.opened.archiveKey r.opened.confirmedPassword r.opened.splitState
    r.opened.input entries r.closed.splitState

def VolumeRun.entries (r : VolumeRun) : List VolEntry :=
  (volumeEntries r.env r.opened.archiveKey r.opened.confirmedPassword r.opened.input.length
    r.opened.splitState r.opened.input).1

section Runs

variable {r : VolumeRun} {runs : List VolumeRun} {split split' : SplitState}

theorem VolumeRun.Reads.shows (reads : r.Reads) (forward : r.env.cipher.Forward) :
    r.Shows r.entries := by
  obtain ⟨entries, stream, serves⟩ := serves_of_calls forward reads.opened reads.calls
  have same : entries = r.entries := by
    rw [VolumeRun.entries, ← serves.eq_volumeEntries forward.showsSize le_rfl]
  rw [← same]
  exact ⟨stream, serves⟩

theorem ReadInOrder.shows (reads : ReadInOrder split runs split')
    (forward : ∀ r ∈ runs, r.env.cipher.Forward) : ∀ r ∈ runs, r.Shows r.entries := by
  induction reads with
  | nil => exact forall_mem_nil _
  | cons read _ ih =>
    obtain ⟨first, others⟩ := forall_mem_cons.mp forward
    exact forall_mem_cons.mpr ⟨read.shows first, ih others⟩

theorem ReadInOrder.chained (reads : ReadInOrder split runs split')
    (forward : ∀ r ∈ runs, r.env.cipher.Forward) :
    Chained split (runs.flatMap VolumeRun.entries) split' := by
  induction reads with
  | nil split => exact .nil split
  | cons read _ ih =>
    obtain ⟨first, others⟩ := forall_mem_cons.mp forward
    rw [flatMap_cons, chained_append]
    exact ⟨_, (read.shows first).serves.chained, ih others⟩

end Runs

def runVolume (env : CryptEnv) (calls : ℕ) (v : Vol) : Option VolumeRun :=
  match readCalls env calls v with
  | some (chunks, v') =>
      if chunks.getLast? = some [] then some ⟨env, v, chunks.dropLast, v'⟩ else none
  | none => none

def runVolumes (env : CryptEnv) (calls : ℕ) : SplitState → List Vol → Option (List VolumeRun)
  | _, [] => some []
  | split, v :: vs =>
      match runVolume env calls { v with splitState := split } with
      | some r => (runVolumes env calls r.closed.splitState vs).map (r :: ·)
      | none => none

section Executed

variable {env : CryptEnv} {calls : ℕ} {split : SplitState} {v : Vol} {vs : List Vol}
  {r : VolumeRun} {runs : List VolumeRun}

theorem reads_of_runVolume (opened : Opened v) (executed : runVolume env calls v = some r) :
    r.Reads ∧ r.env = env ∧ r.opened = v := by
  unfold runVolume at executed
  split at executed
  · rename_i chunks v' read
    split at executed
    · rename_i last
      cases executed
      refine ⟨⟨opened, ?_⟩, rfl, rfl⟩
      rw [dropLast_append_getLast? [] last]
      exact calls_of_readCalls env read
    · contradiction
  · contradiction

theorem readInOrder_of_runVolumes (opened : ∀ v ∈ vs, Opened v)
    (executed : runVolumes env calls split vs = some runs) :
    (∃ split', ReadInOrder split runs split') ∧ ∀ r ∈ runs, r.env = env := by
  induction vs generalizing split runs with
  | nil =>
    cases executed
    exact ⟨⟨split, .nil split⟩, forall_mem_nil _⟩
  | cons v vs ih =>
    obtain ⟨first, others⟩ := forall_mem_cons.mp opened
    rw [runVolumes] at executed
    split at executed
    · rename_i r read
      obtain ⟨runs, later, rfl⟩ := Option.map_eq_some_iff.mp executed
      have start : Opened { v with splitState := split } :=
        ⟨first.done, first.wroteSig, first.inFiledata⟩
      obtain ⟨reads, same, opened⟩ := reads_of_runVolume start read
      obtain ⟨⟨split', order⟩, sameLater⟩ := ih others later
      refine ⟨⟨split', ?_⟩, forall_mem_cons.mpr ⟨same, sameLater⟩⟩
      have chained := ReadInOrder.cons reads order
      rwa [opened] at chained
    · contradiction

end Executed

end NzbDownloader.Extract
