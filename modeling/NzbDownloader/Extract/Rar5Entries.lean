import NzbDownloader.Extract.Rar5Calls

/-!
# The entries of a volume

A run of the read callback over a volume follows its headers: each is handed on
rewritten, and after it comes the decrypted data of its entry, cut at the cap
that the header and the split state give.
-/

namespace NzbDownloader.Extract

open Lib Lib.Effect Util List Header

structure StreamEntry where
  decrypted : Bytes
  emitted : Bytes
  data : Bytes

def render (entries : List StreamEntry) : Bytes :=
  entries.flatMap fun entry => entry.emitted ++ entry.data

/-- An entry of a volume: its decrypted header, its encryption record, its data as
it is stored and decrypted, and the cap on what is handed on of it. -/
structure VolEntry where
  header : Bytes
  crypt : Option FileCrypt
  packed : Bytes
  plain : Bytes
  cap : ℕ
  deriving DecidableEq

def decryptData (env : CryptEnv) (password : Bytes) (crypt : Option FileCrypt) (packed : Bytes) :
    Bytes :=
  match crypt with
  | some found =>
      env.cipher.decrypt (env.deriveKey password found.salt found.lg2count) found.iv packed
  | none => packed

def VolEntry.data (e : VolEntry) : Bytes :=
  e.plain.take e.cap

def VolEntry.stream (e : VolEntry) : StreamEntry where
  decrypted := e.header
  emitted := rewriteHeader e.header e.crypt e.cap
  data := e.data

structure VolEntry.ReadFrom (env : CryptEnv) (key password : Bytes) (split : SplitState)
    (input : Bytes) (e : VolEntry) (rest : Bytes) (split' : SplitState) : Prop where
  headerAt : HeaderAt env.cipher key input e.header (e.packed ++ rest)
  rewriting : Rewriting env e.header e.crypt e.cap
  recorded : Recorded env e.header e.crypt
  cap : entryCap e.header e.crypt split = (e.cap, split')
  packed : e.packed.length = dataSize e.header
  plain : e.plain = decryptData env password e.crypt e.packed
  blocks : e.crypt.isSome = true → 16 ∣ dataSize e.header

inductive Serves (env : CryptEnv) (key password : Bytes) :
    SplitState → Bytes → List VolEntry → SplitState → Prop
  | eof (split : SplitState) : Serves env key password split [] [] split
  | last {split split' : SplitState} {input rest : Bytes} {e : VolEntry} :
      e.ReadFrom env key password split input rest split' → type e.header = headEndarc →
      Serves env key password split input [e] split'
  | next {split split' split'' : SplitState} {input rest : Bytes} {e : VolEntry}
      {entries : List VolEntry} : e.ReadFrom env key password split input rest split' →
      type e.header ≠ headEndarc → Serves env key password split' rest entries split'' →
      Serves env key password split input (e :: entries) split''

variable {pt input : Bytes} {crypt : Option FileCrypt} {cap : ℕ} {env : CryptEnv} {v : Vol}
  {split : SplitState}

section Entries

variable {password : Bytes}

theorem dataSize_le (pt : Bytes) : dataSize pt ≤ uint64Max := by
  have word := @getVint_lt pt pt.length (dataSizePos pt)
  rw [dataSize, dataField]
  split
  · exact Nat.le_sub_one_of_lt word
  · exact Nat.zero_le _

theorem rewriteHeader_ne_nil (long : 4 ≤ pt.length) : rewriteHeader pt crypt cap ≠ [] := by
  unfold rewriteHeader
  split
  · rw [renewCrc_eq]
    exact ne_nil_of_length_pos (by rw [length_append, length_toLe]; omega)
  · exact ne_nil_of_length_pos (by omega)

theorem VolEntry.ReadFrom.length_plain {key rest : Bytes} {split' : SplitState} {e : VolEntry}
    (read : e.ReadFrom env key password split input rest split') :
    e.plain.length = dataSize e.header := by
  have blocks := read.blocks
  rw [read.plain]
  rw [← read.packed] at blocks ⊢
  unfold decryptData
  split
  · rename_i found
    exact env.cipher.length_decrypt _ _ _ (blocks (by rw [found]; rfl))
  · rfl

theorem VolEntry.ReadFrom.drop_dataSize {key rest : Bytes} {split' : SplitState} {e : VolEntry}
    (read : e.ReadFrom env key password split input rest split') :
    (e.packed ++ rest).drop (dataSize e.header) = rest := by
  rw [← read.packed, drop_left]

theorem Begun.fed_eq_zero (begun : Begun v pt crypt cap) (encrypted : crypt.isSome) :
    v.fed = 0 := by
  obtain ⟨ctx, has, fed⟩ := begun.context encrypted
  rw [Vol.fed, has, Option.map_some, fed]
  rfl

theorem Begun.pending (begun : Begun v pt crypt cap) (rewriting : Rewriting env pt crypt cap) :
    Pending v where
  plain unencrypted := by
    have none : crypt = none := by simpa [begun.haveFileCrypt] using unencrypted
    rw [begun.writeCap, begun.emitted, begun.dataRemaining, Nat.zero_add]
    exact ⟨rewriting.plain none, dataSize_le pt⟩
  context encrypted := by
    rw [begun.haveFileCrypt] at encrypted
    obtain ⟨ctx, has, _⟩ := begun.context encrypted
    rw [begun.fed_eq_zero encrypted, begun.emitted, has]
    exact ⟨rfl, (Nat.min_zero _).symm, fun _ => Nat.dvd_zero _⟩

theorem Started.owedData (started : Started env password v pt crypt cap)
    (rewriting : Rewriting env pt crypt cap) : v.owedData env =
      (decryptData env password crypt (v.input.take (dataSize pt))).take cap := by
  cases crypt with
  | none =>
    have bound := dataSize_le pt
    rw [owedData_of_plain started.haveFileCrypt, started.dataRemaining, rewriting.plain rfl]
    change _ = (v.input.take (dataSize pt)).take uint64Max
    rw [take_take, min_eq_right bound]
  | some found =>
    rw [owedData_of_context started.haveFileCrypt (started.cipher found rfl),
      started.dataRemaining, started.writeCap, started.emitted]
    rfl

theorem length_owedData (pending : Pending v) (whole : Whole v) :
    (v.owedData env).length = v.owed := by
  have enough := whole.enough
  cases crypt : v.haveFileCrypt with
  | false =>
    rw [owedData_of_plain crypt, Vol.owed, crypt, length_take, min_eq_left enough]
    rfl
  | true =>
    obtain ⟨ctx, has⟩ := Option.isSome_iff_exists.mp (pending.context crypt).1
    have fed : v.fed = ctx.fed.length := by rw [Vol.fed, has]; rfl
    have length : (ctx.fed ++ v.input.take v.dataRemaining).length = v.fed + v.dataRemaining := by
      rw [length_append, length_take, min_eq_left enough, fed]
    rw [owedData_of_context crypt has, length_drop, length_take,
      env.cipher.length_decrypt _ _ _ (length ▸ whole.blocks crypt), length, Vol.owed, crypt,
      if_pos rfl]

end Entries

def rendered (entries : List VolEntry) : Bytes :=
  render (entries.map VolEntry.stream)

inductive Delivers (env : CryptEnv) (split : SplitState) (v : Vol) : Bytes → Prop
  | done : v.done = true → v.splitState = split → Delivers env split v []
  | data {entries : List VolEntry} : v.done = false → v.inFiledata = true → Whole v →
      (if v.endarcPending then entries = [] ∧ v.splitState = split
        else Serves env v.archiveKey v.confirmedPassword v.splitState
          (v.input.drop v.dataRemaining) entries split) →
      Delivers env split v (v.owedData env ++ rendered entries)
  | headers {entries : List VolEntry} : v.done = false → v.inFiledata = false →
      Serves env v.archiveKey v.confirmedPassword v.splitState v.input entries split →
      Delivers env split v (rendered entries)

structure Running (v : Vol) : Prop where
  wroteSig : v.wroteSig = true
  pending : v.done = false → v.inFiledata = true → Pending v

section Run

variable {v' v'' : Vol} {chunk out : Bytes}

@[simp]
theorem rendered_cons (e : VolEntry) (entries : List VolEntry) : rendered (e :: entries) =
    rewriteHeader e.header e.crypt e.cap ++ e.data ++ rendered entries :=
  rfl

theorem Serves.cons {key password input rest : Bytes} {first next : SplitState} {e : VolEntry}
    {entries : List VolEntry} (read : e.ReadFrom env key password first input rest next)
    (later : if type e.header = headEndarc then entries = [] ∧ next = split
      else Serves env key password next rest entries split) :
    Serves env key password first input (e :: entries) split := by
  split at later
  · rename_i endarc
    obtain ⟨rfl, rfl⟩ := later
    exact .last read endarc
  · rename_i other
    exact .next read other later

theorem Delivers.eq_nil (delivers : Delivers env split v out) (done : v.done) :
    out = [] ∧ v.splitState = split := by
  cases delivers with
  | done _ same => exact ⟨rfl, same⟩
  | data more | headers more => simp [done] at more

structure HeaderRead (env : CryptEnv) (first : SplitState) (input : Bytes) (v : Vol) (pt : Bytes)
    (crypt : Option FileCrypt) (cap : ℕ) : Prop where
  headerAt : HeaderAt env.cipher v.archiveKey input pt v.input
  rewriting : Rewriting env pt crypt cap
  recorded : Recorded env pt crypt
  cap : entryCap pt crypt first = (cap, v.splitState)

def Vol.entry (env : CryptEnv) (v : Vol) (pt : Bytes) (crypt : Option FileCrypt) (cap : ℕ) :
    VolEntry :=
  let packed := v.input.take (dataSize pt)
  ⟨pt, crypt, packed, decryptData env v.confirmedPassword crypt packed, cap⟩

theorem HeaderRead.readFrom {first : SplitState}
    (header : HeaderRead env first input v pt crypt cap)
    (enough : dataSize pt ≤ v.input.length)
    (blocks : crypt.isSome → 16 ∣ dataSize pt) :
    (v.entry env pt crypt cap).ReadFrom env v.archiveKey v.confirmedPassword first input
      (v.input.drop (dataSize pt)) v.splitState where
  headerAt := by
    change HeaderAt _ _ _ _ (v.input.take (dataSize pt) ++ _)
    rw [take_append_drop]
    exact header.headerAt
  rewriting := header.rewriting
  recorded := header.recorded
  cap := header.cap
  packed := (length_take).trans (min_eq_left enough)
  plain := rfl
  blocks := blocks

theorem Delivers.ofStarted {first : SplitState} (delivers : Delivers env split v out)
    (more : v.done = false) (started : Started env v.confirmedPassword v pt crypt cap)
    (header : HeaderRead env first input v pt crypt cap) :
    ∃ entries, rewriteHeader pt crypt cap ++ out = rendered entries ∧
      Serves env v.archiveKey v.confirmedPassword first input entries split := by
  cases delivers with
  | done done => simp [more] at done
  | headers _ outside => simp [started.inFiledata] at outside
  | @data entries _ _ whole later =>
    have enough := whole.enough
    have blocks : crypt.isSome → 16 ∣ v.fed + v.dataRemaining := fun encrypted =>
      whole.blocks (started.haveFileCrypt.trans encrypted)
    rw [started.dataRemaining] at enough later blocks
    rw [started.endarcPending] at later
    have read := header.readFrom enough fun encrypted => by
      have total := blocks encrypted
      rwa [started.fed_eq_zero encrypted, Nat.zero_add] at total
    simp only [decide_eq_true_eq] at later
    refine ⟨v.entry env pt crypt cap :: entries, ?_, Serves.cons read later⟩
    rw [rendered_cons, started.owedData header.rewriting, append_assoc]
    rfl

theorem Delivers.ofEmpty {first : SplitState} (delivers : Delivers env split v out)
    (empty : dataSize pt = 0) (outside : v.inFiledata = false)
    (ends : v.done = decide (type pt = headEndarc))
    (header : HeaderRead env first input v pt crypt cap) :
    ∃ entries, rewriteHeader pt crypt cap ++ out = rendered entries ∧
      Serves env v.archiveKey v.confirmedPassword first input entries split := by
  have read := header.readFrom (by omega) fun _ => empty ▸ Nat.dvd_zero 16
  have nothing : (v.entry env pt crypt cap).data = [] := by
    rw [VolEntry.data, eq_nil_of_length_eq_zero (read.length_plain.trans empty), take_nil]
  have shown (entries : List VolEntry) : rewriteHeader pt crypt cap ++ rendered entries =
      rendered (v.entry env pt crypt cap :: entries) := by
    rw [rendered_cons, nothing, append_nil]
    rfl
  rw [empty, drop_zero] at read
  cases delivers with
  | done done same =>
    refine ⟨[v.entry env pt crypt cap], shown [], Serves.cons read ?_⟩
    rw [if_pos (of_decide_eq_true (ends ▸ done))]
    exact ⟨rfl, same⟩
  | data _ inside => simp [outside] at inside
  | @headers entries more _ later =>
    refine ⟨v.entry env pt crypt cap :: entries, shown entries, Serves.cons read ?_⟩
    rw [if_neg (of_decide_eq_false (ends ▸ more))]
    exact later

theorem headerStep (forward : env.cipher.Forward) (running : v.wroteSig)
    (more : v.done = false) (outside : v.inFiledata = false)
    (returns : Returns (nextHeaderChunk env) v chunk v') :
    Running v' ∧ (chunk = [] → v'.done) ∧ ∀ split out, Delivers env split v' out →
      ∃ entries, chunk ++ out = rendered entries ∧
        Serves env v.archiveKey v.confirmedPassword v.splitState v.input entries split := by
  obtain ⟨keys, reached⟩ := nextHeaderChunk_spec forward returns
  have sig := keys.wroteSig.trans running
  rw [← keys.archiveKey, ← keys.confirmedPassword] at *
  rcases reached with ⟨empty, rfl, done, same⟩ |
    ⟨pt, crypt, cap, headerAt, rewriting, recorded, capped, rfl, phase⟩
  · refine ⟨⟨sig, fun open' => absurd done (by simp [open'])⟩, fun _ => done, ?_⟩
    intro split out delivers
    obtain ⟨rfl, rfl⟩ := delivers.eq_nil done
    rw [empty, same]
    exact ⟨[], rfl, .eof _⟩
  · have nonempty : rewriteHeader pt crypt cap ≠ [] := rewriteHeader_ne_nil rewriting.credible.long
    have header : HeaderRead env v.splitState v.input v' pt crypt cap :=
      ⟨headerAt, rewriting, recorded, capped⟩
    rcases phase with ⟨_, done, started⟩ | ⟨empty, inside, done⟩
    · exact ⟨⟨sig, fun _ _ => started.pending rewriting⟩, fun no => absurd no nonempty,
        fun split out delivers => delivers.ofStarted (done.trans more) started header⟩
    rw [outside] at inside
    rw [more, Bool.false_or] at done
    exact ⟨⟨sig, fun _ within => absurd within (by simp [inside])⟩,
      fun no => absurd no nonempty,
      fun split out delivers => delivers.ofEmpty empty inside done header⟩

theorem Delivers.piece {k : ℕ} (delivers : Delivers env split v' out) (more : v.done = false)
    (inside : v.inFiledata) (pending : Pending v) (advanced : Advanced v v' k)
    (owed : Whole v → v.owedData env = chunk ++ v'.owedData env) :
    Delivers env split v (chunk ++ out) := by
  have remaining := advanced.remaining
  cases delivers with
  | done done => simp [advanced.done, more] at done
  | headers _ outside => simp [advanced.inFiledata, inside] at outside
  | @data entries _ _ whole later =>
    have before := (advanced.whole_iff pending).mp whole
    rw [advanced.endarcPending, advanced.sameKeys.archiveKey, advanced.confirmedPassword,
      advanced.splitState, advanced.input,
      drop_drop, Nat.add_comm, remaining] at later
    rw [← append_assoc, ← owed before]
    exact .data more inside before later

theorem dataStep (forward : env.cipher.Forward) (running : v.wroteSig)
    (more : v.done = false) (inside : v.inFiledata) (pending : Pending v)
    (returns : Returns (nextFiledataChunk env) v chunk v') :
    Running v' ∧ (chunk = [] → v'.done) ∧
      ∀ split out, Delivers env split v' out → Delivers env split v (chunk ++ out) := by
  rcases nextFiledataChunk_spec forward pending returns with
    ⟨k, advanced, pending', nonempty, _, content⟩ | ⟨owed, whole, ends⟩
  · exact ⟨⟨advanced.wroteSig.trans running, fun _ _ => pending'⟩, fun no => absurd no nonempty,
      fun split out delivers => delivers.piece more inside pending advanced content⟩
  have nothing : v.owedData env = [] :=
    eq_nil_of_length_eq_zero ((length_owedData pending whole).trans owed)
  rcases ends with ⟨endarc, rfl, done, keys, same⟩ |
    ⟨next, w, returns, input, keys, same, open', outside⟩
  · refine ⟨⟨keys.wroteSig.trans running, fun open' => absurd done (by simp [open'])⟩,
      fun _ => done, ?_⟩
    intro split out delivers
    obtain ⟨rfl, rfl⟩ := delivers.eq_nil done
    have last := @Delivers.data env v'.splitState v [] more inside whole
      (by rw [if_pos endarc]; exact ⟨rfl, same.symm⟩)
    rwa [nothing] at last
  · obtain ⟨running', stops, delivered⟩ := headerStep forward (keys.wroteSig.trans running)
      (open'.trans more) outside returns
    refine ⟨running', stops, fun split out delivers => ?_⟩
    obtain ⟨entries, rendered, serves⟩ := delivered split out delivers
    rw [keys.archiveKey, keys.confirmedPassword, input, same] at serves
    rw [rendered]
    have later := @Delivers.data env split v entries more inside whole
      (by rwa [next, if_neg Bool.false_ne_true])
    rwa [nothing] at later

theorem volReadCb_step (forward : env.cipher.Forward) (running : Running v)
    (returns : Returns (volReadCb env) v chunk v') :
    Running v' ∧ (chunk = [] → v'.done) ∧
      ∀ split out, Delivers env split v' out → Delivers env split v (chunk ++ out) := by
  have rest := returns_get_bind.mp returns
  split at rest
  · rename_i done
    obtain ⟨rfl, rfl⟩ := returns_pure.mp rest
    exact ⟨running, fun _ => done, fun split out delivers => delivers⟩
  rename_i open'
  have more : v.done = false := by simpa using open'
  rw [running.wroteSig, if_neg (by decide)] at rest
  split at rest
  · rename_i inside
    exact dataStep forward running.wroteSig more inside (running.pending more inside) rest
  rename_i outside
  have headers : v.inFiledata = false := by simpa using outside
  obtain ⟨running', stops, delivered⟩ :=
    headerStep forward running.wroteSig more headers rest
  refine ⟨running', stops, fun split out delivers => ?_⟩
  obtain ⟨entries, same, serves⟩ := delivered split out delivers
  rw [same]
  exact .headers more headers serves

theorem delivers_of_calls {chunks : List Bytes} (forward : env.cipher.Forward)
    (running : Running v) (calls : Calls env v (chunks ++ [[]]) v') :
    Delivers env v'.splitState v chunks.flatten := by
  induction chunks generalizing v with
  | nil =>
    rcases calls with _ | ⟨last, _ | _⟩
    obtain ⟨_, stops, delivered⟩ := volReadCb_step forward running last
    exact delivered _ [] (.done (stops rfl) rfl)
  | cons chunk rest ih =>
    rcases calls with _ | ⟨first, later⟩
    obtain ⟨running', _, delivered⟩ := volReadCb_step forward running first
    exact delivered _ rest.flatten (ih running' later)

end Run

structure Opened (v : Vol) : Prop where
  done : v.done = false
  wroteSig : v.wroteSig = false
  inFiledata : v.inFiledata = false

theorem Opened.first {v' : Vol} {chunk : Bytes} (opened : Opened v)
    (returns : Returns (volReadCb env) v chunk v') :
    chunk = rar5Sig ∧ v' = { v with wroteSig := true } := by
  have rest := returns_get_bind.mp returns
  rw [opened.done, opened.wroteSig, if_neg Bool.false_ne_true, if_pos (by rfl)] at rest
  have done := returns_modify_bind.mp rest
  obtain ⟨rfl, rfl⟩ := returns_pure.mp done
  exact ⟨rfl, rfl⟩

theorem serves_of_calls {v' : Vol} {chunks : List Bytes} (forward : env.cipher.Forward)
    (opened : Opened v) (calls : Calls env v (chunks ++ [[]]) v') :
    ∃ entries, chunks.flatten = rar5Sig ++ rendered entries ∧
      Serves env v.archiveKey v.confirmedPassword v.splitState v.input entries v'.splitState := by
  cases chunks with
  | nil =>
    rcases calls with _ | ⟨first, _⟩
    obtain ⟨impossible, _⟩ := opened.first first
    contradiction
  | cons chunk rest =>
    rcases calls with _ | ⟨first, later⟩
    obtain ⟨rfl, rfl⟩ := opened.first first
    have running : Running { v with wroteSig := true } :=
      ⟨rfl, fun _ within => absurd within (by simp [opened.inFiledata])⟩
    have delivers := delivers_of_calls forward running later
    rw [flatten_cons]
    generalize rest.flatten = out at delivers
    cases delivers with
    | done done => exact absurd done (by simp [opened.done])
    | data _ within => exact absurd within (by simp [opened.inFiledata])
    | @headers entries _ _ serves => exact ⟨entries, rfl, serves⟩

end NzbDownloader.Extract
