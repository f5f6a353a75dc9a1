import NzbDownloader.Lib.Transition
import NzbDownloader.Queue.Marking
import NzbDownloader.Download.Placement

/-!
# Assembling a file from its segments

Worker threads stream the segments of one file into it at the same time, in as many rounds
of `download_segments` as pauses and retries of the job make necessary.
-/

namespace NzbDownloader.Download

open Lib Util Yenc Queue Transition List Option List.Sublist

inductive FetchPhase
  | streaming
  | judged (accepted : Bool)
  | marked
  deriving DecidableEq, Repr

structure Fetching where
  segment : ℕ
  delivered : ℕ
  ctx : SegmentCtx
  phase : FetchPhase

structure Assembly where
  files : List JobFile
  file : FileDl
  todo : List ℕ
  live : List Fetching

open Assembly

inductive Dispatch
  | outOfMemory
  | accepted
  | refused
  deriving DecidableEq, Repr

inductive AssemblyAct
  | round
  | dispatch (outcome : Dispatch)
  | stop
  | line (k : ℕ) (outcomes : Outcomes)
  | retry (k : ℕ)
  | done (k : ℕ) (status : ℤ) (pwrite : Extent → Option ℕ)
  | mark (k : ℕ)
  | release (k : ℕ)

def FileDl.release (file : FileDl) : FileDl :=
  let remaining := file.remaining - 1
  { file with remaining, fd := file.fd && remaining ≠ 0 }

def missing (files : List JobFile) (f : ℕ) (segments : List ℕ) : ℕ :=
  (segments.filter fun i => !arrivedAt files f i).length

section Step

variable (decode : Bytes → Bytes) (articles : String → Article) (segmentBytes : ℕ → ℤ) (f : ℕ)

def articleOf (files : List JobFile) (i : ℕ) : Option Article :=
  (idAt files f i).map articles

def Assembly.step (s : Assembly) : AssemblyAct → Option Assembly
  | .round => do
      let file ← s.files[f]?
      if s.todo = [] ∧ s.live.isEmpty then
        let todo := List.range file.segments.length
        some { s with
          todo
          file := { s.file with
            fd := false, openFailed := false, remaining := missing s.files f todo } }
      else none
  | .dispatch outcome =>
      match s.todo with
      | [] => none
      | i :: todo =>
          if arrivedAt s.files f i then some { s with todo }
          else
            match outcome with
            | .outOfMemory => some { s with todo }
            | .accepted => some { s with todo, live := s.live ++ [⟨i, 0, {}, .streaming⟩] }
            | .refused => some { s with todo, file := s.file.release }
  | .stop => some { s with todo := [] }
  | .line k outcomes => do
      let fetch ← s.live[k]?
      let article ← articleOf articles f s.files fetch.segment
      let line ← article.lines[fetch.delivered]?
      if fetch.phase = .streaming then
        let (ctx, file) := bodyLineCb decode (segmentBytes fetch.segment) outcomes line fetch.ctx s.file
        some { s with
          file, live := s.live.set k { fetch with ctx, delivered := fetch.delivered + 1 } }
      else none
  | .retry k => do
      let fetch ← s.live[k]?
      if fetch.phase = .streaming then
        some { s with live := s.live.set k { fetch with delivered := 0 } }
      else none
  | .done k status pwrite => do
      let fetch ← s.live[k]?
      if fetch.phase = .streaming then
        let (accepted, file) := segmentDoneCb pwrite status fetch.ctx s.file
        some { s with file, live := s.live.set k { fetch with phase := .judged accepted } }
      else none
  | .mark k => do
      let fetch ← s.live[k]?
      let messageId ← idAt s.files f fetch.segment
      if fetch.phase = .judged true then
        some { s with
          files := Job.markFiles messageId s.files
          live := s.live.set k { fetch with phase := .marked } }
      else none
  | .release k => do
      let fetch ← s.live[k]?
      if fetch.phase = .judged false ∨ fetch.phase = .marked then
        some { s with file := s.file.release, live := s.live.eraseIdx k }
      else none

end Step

def DisjointRanges (a b : ℕ × ℕ) : Prop :=
  ∀ x, a.1 ≤ x → x < a.1 + a.2 → b.1 ≤ x → ¬x < b.1 + b.2

def Declares (article : Article) : Prop :=
  article.partLine ≠ none ∨ (classifyLine article.beginLine).2.hasSize = true

variable {article : Article} {a : ℕ × ℕ} {todo : List ℕ}

theorem Declares.range_eq (declares : Declares article) (a b : ℤ) :
    article.range a = article.range b := by
  unfold Article.range declaredRange
  cases part : article.partLine with
  | some line => rfl
  | none =>
    rcases declares with multi | sized
    · contradiction
    · simp [sized]

theorem DisjointRanges.symm {b : ℕ × ℕ} (disjoint : DisjointRanges a b) : DisjointRanges b a :=
  fun x lowB highB lowA highA => disjoint x lowA highA lowB highB

theorem DisjointRanges.self (disjoint : DisjointRanges a a) : a.2 = 0 := by
  by_contra positive
  exact disjoint a.1 le_rfl (by omega) le_rfl (by omega)

theorem DisjointRanges.agrees {b : ℕ × ℕ} {part other : Extent} (disjoint : DisjointRanges a b)
    (inA : WithinRange a part) (inB : WithinRange b other) : part.Agrees other := by
  intro i within above below
  unfold WithinRange at inA inB
  exact absurd (show part.offset + i < b.1 + b.2 by omega)
    (disjoint (part.offset + i) (by omega) (by omega) (by omega))

structure FileDl.Spares (range : ℕ × ℕ) (file file' : FileDl) : Prop where
  settled : file.fd = true ∨ file.openFailed = true →
    file'.fd = file.fd ∧ file'.openFailed = file.openFailed
  kept : ∀ part, WithinRange range part → part.In file.content → part.In file'.content

section Frame

variable {range other : ℕ × ℕ} {file file' : FileDl}

theorem FileDl.Extends.spares (grown : file.Extends other file')
    (disjoint : DisjointRanges range other) : file.Spares range file' := by
  refine ⟨grown.settled, ?_⟩
  intro part inside held
  obtain ⟨new, writes, within⟩ := grown.writes
  have content : file'.content =
      new.foldr (fun part before => writeAt before part.offset part.data) file.content := by
    rw [FileDl.content, writes, grown.initial, foldr_append]
    rfl
  rw [content]
  clear writes content
  induction new with
  | nil => exact held
  | cons write new ih =>
    have before := ih fun part member => within part (.tail _ member)
    exact before.writeAt (disjoint.agrees inside (within write (.head _)))

theorem FileDl.spares_remaining (file : FileDl) (remaining : ℕ) :
    file.Spares range { file with remaining } :=
  ⟨fun _ => ⟨rfl, rfl⟩, fun _ _ held => held⟩

variable {emitted bytes : Bytes} {ctx : SegmentCtx} {limit : ℕ}

theorem BytesPlaced.spare (placed : BytesPlaced range bytes limit ctx file)
    (spares : file.Spares range file') : BytesPlaced range bytes limit ctx file' := by
  rcases placed with failed | ⟨flushed, buffered, buffers, short⟩
  · rcases failed with failed | failed
    · exact .inl (.inl failed)
    · exact .inl (.inr ((spares.settled (.inr failed)).2.trans failed))
  · obtain ⟨fd, openFailed⟩ := spares.settled (.inl buffers.fd)
    have length := congrArg List.length buffers.total
    rw [length_append] at length
    have fits := buffers.fits
    exact .inr ⟨flushed, buffered, { buffers with
      fd := fd.trans buffers.fd
      opened := openFailed.trans buffers.opened
      held := spares.kept _ ⟨le_rfl, by dsimp only; omega⟩ buffers.held }, short⟩

theorem Streams.spare (streams : Streams range emitted ctx file)
    (spares : file.Spares range file') : Streams range emitted ctx file' :=
  ⟨streams.budget, streams.placed.spare spares⟩

theorem Tracks.spare {decode : Bytes → Bytes} {segmentBytes : ℤ} {n : ℕ}
    (tracks : Tracks decode segmentBytes article n ctx file)
    (spares : file.Spares (article.range segmentBytes) file') :
    Tracks decode segmentBytes article n ctx file' where
  unresolved := tracks.unresolved
  resolved state := by
    obtain ⟨emitted, streams⟩ := tracks.resolved state
    exact ⟨emitted, streams.spare spares⟩
  complete state := (tracks.complete state).spare spares
  begun := tracks.begun
  inBody late more := by
    obtain ⟨state, streams⟩ := tracks.inBody late more
    exact ⟨state, streams.spare spares⟩

end Frame

section Invariant

variable (decode : Bytes → Bytes) (segmentBytes : ℕ → ℤ) (articleAt : ℕ → Option Article) (f : ℕ)

structure DeclaresApart : Prop where
  declares : ∀ i article, articleAt i = some article → Declares article
  disjoint : ∀ i j article article', articleAt i = some article → articleAt j = some article' →
    i ≠ j → DisjointRanges (article.range (segmentBytes i)) (article'.range (segmentBytes j))

def InPlace (i : ℕ) (file : FileDl) : Prop :=
  ∀ article ∈ articleAt i, (article.extent decode (segmentBytes i)).In file.content

/-- A fetch is where its phase says.  A segment that is marked while its article
is still streamed has an empty range. -/
structure FetchSound (files : List JobFile) (file : FileDl) (fetch : Fetching) : Prop where
  tracks : fetch.phase = .streaming → ∀ article ∈ articleAt fetch.segment,
    Tracks decode (segmentBytes fetch.segment) article fetch.delivered fetch.ctx file
  unmarked : fetch.phase = .streaming → arrivedAt files f fetch.segment = true →
    ∀ article ∈ articleAt fetch.segment, (article.range (segmentBytes fetch.segment)).2 = 0
  accepted : fetch.phase = .judged true → InPlace decode segmentBytes articleAt fetch.segment file

structure AssemblySound (articles : String → Article) (s : Assembly) : Prop where
  articles : ∀ i, articleOf articles f s.files i = articleAt i
  held : ∀ i, arrivedAt s.files f i = true → InPlace decode segmentBytes articleAt i s.file
  fetches : ∀ fetch ∈ s.live, FetchSound decode segmentBytes articleAt f s.files s.file fetch
  known : ∀ i ∈ s.live.map (·.segment) ++ s.todo, (articleAt i).isSome
  distinct : (s.live.map (·.segment) ++ s.todo).Nodup
  counted : s.live.length + missing s.files f s.todo ≤ s.file.remaining

variable {decode segmentBytes articleAt f} {articles : String → Article} {s s' : Assembly}
  {file file' : FileDl} {files : List JobFile} {fetch fetch' : Fetching} {i k : ℕ}

theorem withinRange_extent (article : Article) (bytes : ℤ) :
    WithinRange (article.range bytes) (article.extent decode bytes) := by
  refine ⟨le_rfl, ?_⟩
  simp only [Article.extent, length_take]
  omega

theorem inPlace_of_empty (empty : ∀ article ∈ articleAt i, (article.range (segmentBytes i)).2 = 0) :
    InPlace decode segmentBytes articleAt i file := by
  intro article here
  simp [Extent.In, readAt, Article.extent, empty article here]

theorem InPlace.spare (inPlace : InPlace decode segmentBytes articleAt i file)
    (spares : ∀ article ∈ articleAt i, file.Spares (article.range (segmentBytes i)) file') :
    InPlace decode segmentBytes articleAt i file' :=
  fun article here => (spares article here).kept _ (withinRange_extent _ _) (inPlace article here)

theorem FetchSound.spare (sound : FetchSound decode segmentBytes articleAt f files file fetch)
    (spares : ∀ article ∈ articleAt fetch.segment,
      file.Spares (article.range (segmentBytes fetch.segment)) file') :
    FetchSound decode segmentBytes articleAt f files file' fetch where
  tracks streaming article here := (sound.tracks streaming article here).spare (spares article here)
  unmarked := sound.unmarked
  accepted judged := (sound.accepted judged).spare spares

theorem mem_set_cases {α : Type*} {xs : List α} {new x : α} (member : x ∈ xs.set k new) :
    x = new ∨ ∃ k', k' ≠ k ∧ xs[k']? = some x := by
  obtain ⟨k', found⟩ := mem_iff_getElem?.mp member
  rw [getElem?_set] at found
  by_cases here : k = k'
  · rw [if_pos here] at found
    split at found
    · exact .inl (Option.some.inj found).symm
    · contradiction
  · rw [if_neg here] at found
    exact .inr ⟨k', fun same => here same.symm, found⟩

theorem map_segment_set {live : List Fetching} (found : live[k]? = some fetch)
    (segment : fetch'.segment = fetch.segment) :
    (live.set k fetch').map (·.segment) = live.map (·.segment) := by
  apply ext_getElem?
  intro j
  rw [List.getElem?_map, List.getElem?_map, getElem?_set]
  by_cases here : k = j
  · subst here
    rw [if_pos rfl, if_pos (List.getElem?_eq_some_iff.mp found).1, found, map_some,
      map_some, segment]
  · rw [if_neg here]

theorem missing_markFiles_le (messageId : String) (files : List JobFile) (segments : List ℕ) :
    missing (Job.markFiles messageId files) f segments ≤ missing files f segments := by
  apply length_le
  apply monotone_filter_right
  intro i unmarked
  by_contra arrived
  simp only [Bool.not_eq_true', Bool.not_eq_false] at unmarked arrived
  rw [arrivedAt_markFiles.mpr (.inl arrived)] at unmarked
  contradiction

theorem FileDl.spares_release {range : ℕ × ℕ} (used : 1 < file.remaining) :
    file.Spares range file.release := by
  have same : file.release = { file with remaining := file.remaining - 1 } := by
    simp only [FileDl.release]
    have positive : file.remaining - 1 ≠ 0 := by omega
    simp [positive]
  rw [same]
  exact file.spares_remaining _

section Step

variable (sound : AssemblySound decode segmentBytes articleAt f articles s)
include sound

theorem AssemblySound.segment_ne
    {k k' : ℕ} (found : s.live[k]? = some fetch) (found' : s.live[k']? = some fetch')
    (different : k' ≠ k) : fetch'.segment ≠ fetch.segment := by
  intro same
  have nodup := (nodup_append.mp sound.distinct).1
  apply different
  have bound : k' < (s.live.map (·.segment)).length := by
    simpa using (List.getElem?_eq_some_iff.mp found').1
  apply (List.getElem?_inj bound nodup).mp
  rw [List.getElem?_map, List.getElem?_map, found, found', map_some, map_some, same]

theorem AssemblySound.article_of_live
    (found : s.live[k]? = some fetch) : ∃ article, articleAt fetch.segment = some article := by
  apply isSome_iff_exists.mp
  apply sound.known
  exact mem_append_left _ (mem_map_of_mem (mem_of_getElem? found))

theorem AssemblySound.own (apart : DeclaresApart segmentBytes articleAt)
    (found : s.live[k]? = some fetch) (streaming : fetch.phase = .streaming)
    (here : articleAt fetch.segment = some article)
    (grown : s.file.Extends (article.range (segmentBytes fetch.segment)) file')
    (segment : fetch'.segment = fetch.segment)
    (after : FetchSound decode segmentBytes articleAt f s.files file' fetch') :
    AssemblySound decode segmentBytes articleAt f articles
      { s with file := file', live := s.live.set k fetch' } := by
  have others : ∀ i ≠ fetch.segment, ∀ article' ∈ articleAt i,
      s.file.Spares (article'.range (segmentBytes i)) file' := by
    intro i different article' there
    exact grown.spares (apart.disjoint _ _ _ _ there here different)
  constructor
  · exact sound.articles
  · intro i arrived
    by_cases same : i = fetch.segment
    · subst same
      exact inPlace_of_empty ((sound.fetches fetch (mem_of_getElem? found)).unmarked
        streaming arrived)
    · exact (sound.held i arrived).spare (others i same)
  · intro fetch'' member
    rcases mem_set_cases member with rfl | ⟨k', different, found'⟩
    · exact after
    · exact (sound.fetches fetch'' (mem_of_getElem? found')).spare
        (others _ (sound.segment_ne found found' different))
  · rw [map_segment_set found segment]
    exact sound.known
  · rw [map_segment_set found segment]
    exact sound.distinct
  · rw [length_set, grown.remaining]
    exact sound.counted

/-- The segment that a message id marks has its bytes in place: it is the one
fetched, or one with the same article, which then has an empty range. -/
theorem AssemblySound.mark (apart : DeclaresApart segmentBytes articleAt)
    (found : s.live[k]? = some fetch) (accepted : fetch.phase = .judged true) {messageId : String}
    (named : idAt s.files f fetch.segment = some messageId) :
    AssemblySound decode segmentBytes articleAt f articles
      { s with
        files := Job.markFiles messageId s.files
        live := s.live.set k { fetch with phase := .marked } } := by
  -- Another segment of the file with this message id.
  have twin : ∀ i, FirstWith s.files messageId f i → i ≠ fetch.segment →
      ∀ article ∈ articleAt i, (article.range (segmentBytes i)).2 = 0 := by
    intro i first different article here
    have same : articleAt fetch.segment = some article := by
      rw [← sound.articles] at here ⊢
      rw [← here, articleOf, articleOf, named, first.here]
    have disjoint := apart.disjoint _ _ _ _ here same different
    rw [(apart.declares _ _ here).range_eq (segmentBytes fetch.segment) (segmentBytes i)] at disjoint
    exact disjoint.self
  have same : (s.live.set k { fetch with phase := .marked }).map (·.segment) =
      s.live.map (·.segment) := map_segment_set found rfl
  constructor
  · intro i
    rw [← sound.articles, articleOf, articleOf, idAt_markFiles]
  · intro i arrived
    rcases arrivedAt_markFiles.mp arrived with before | first
    · exact sound.held i before
    · by_cases same : i = fetch.segment
      · subst same
        exact (sound.fetches fetch (mem_of_getElem? found)).accepted accepted
      · exact inPlace_of_empty (twin i first same)
  · intro fetch'' member
    rcases mem_set_cases member with rfl | ⟨k', different, found'⟩
    · exact ⟨nofun, nofun, nofun⟩
    have before := sound.fetches fetch'' (mem_of_getElem? found')
    refine ⟨before.tracks, ?_, before.accepted⟩
    intro streaming arrived
    rcases arrivedAt_markFiles.mp arrived with already | first
    · exact before.unmarked streaming already
    · exact twin _ first (sound.segment_ne found found' different)
  · exact same ▸ sound.known
  · exact same ▸ sound.distinct
  · rw [length_set]
    exact (Nat.add_le_add_left (missing_markFiles_le _ _ _) _).trans sound.counted

theorem AssemblySound.release {live : List Fetching} (fewer : live.Sublist s.live)
    (rest : todo.Sublist s.todo)
    (counted : live.length + missing s.files f todo + 1 ≤ s.file.remaining) :
    AssemblySound decode segmentBytes articleAt f articles
      { s with file := s.file.release, live, todo } where
  articles := sound.articles
  held i arrived := sound.held i arrived
  fetches fetch member := by
    have positive : 0 < live.length := length_pos_of_mem member
    exact (sound.fetches fetch (fewer.subset member)).spare fun _ _ =>
      FileDl.spares_release (by omega)
  known i member := sound.known i (((fewer.map _).append rest).subset member)
  distinct := sound.distinct.sublist ((fewer.map _).append rest)
  counted := by
    simp only [FileDl.release]
    omega

theorem AssemblySound.skip (rest : todo.Sublist s.todo) :
    AssemblySound decode segmentBytes articleAt f articles { s with todo } where
  articles := sound.articles
  held := sound.held
  fetches := sound.fetches
  known i member := sound.known i (((refl _).append rest).subset member)
  distinct := sound.distinct.sublist ((refl _).append rest)
  counted := (Nat.add_le_add_left (rest.filter _).length_le _).trans sound.counted

theorem AssemblySound.dispatch (next : s.todo = i :: todo)
    (unmarked : ¬arrivedAt s.files f i = true) :
    AssemblySound decode segmentBytes articleAt f articles
      { s with todo, live := s.live ++ [⟨i, 0, {}, .streaming⟩] } where
  articles := sound.articles
  held := sound.held
  fetches fetch member := by
    rcases mem_append.mp member with old | new
    · exact sound.fetches fetch old
    · obtain rfl := mem_singleton.mp new
      exact ⟨fun _ _ _ => .initial, fun _ arrived => absurd arrived unmarked, nofun⟩
  known := by
    have known := sound.known
    rw [next] at known
    simpa using known
  distinct := by
    have distinct := sound.distinct
    rw [next] at distinct
    simpa using distinct
  counted := by
    have counted := sound.counted
    rw [next] at counted
    simp only [missing, filter_cons, unmarked] at counted
    simpa [missing, Nat.add_assoc, Nat.add_comm, Nat.add_left_comm] using counted

theorem AssemblySound.step (apart : DeclaresApart segmentBytes articleAt) {a : AssemblyAct}
    (taken : s.step decode articles segmentBytes f a = some s') :
    AssemblySound decode segmentBytes articleAt f articles s' := by
  cases a <;> simp only [Assembly.step, bind_eq_bind, bind_eq_some_iff, ite_none_right_eq_some,
    Option.some.injEq, sound.articles] at taken
  case round =>
    obtain ⟨file, found, ⟨idle, quiet⟩, rfl⟩ := taken
    rw [List.isEmpty_iff] at quiet
    refine ⟨sound.articles, sound.held, by simp [quiet], ?_, by simp [quiet, List.nodup_range],
      by simp [quiet]⟩
    intro i member
    rw [quiet, map_nil, nil_append, mem_range] at member
    rw [← sound.articles]
    simp [articleOf, idAt, segmentAt, found, member]
  case dispatch outcome =>
    split at taken
    · contradiction
    rename_i i todo next
    have rest : todo.Sublist s.todo := next ▸ sublist_cons_self i todo
    split at taken
    · cases taken
      exact sound.skip rest
    rename_i unmarked
    cases outcome with
    | outOfMemory =>
      cases taken
      exact sound.skip rest
    | accepted =>
      cases taken
      exact sound.dispatch next unmarked
    | refused =>
      cases taken
      have counted := sound.counted
      rw [next] at counted
      simp only [missing, filter_cons, unmarked] at counted
      refine sound.release (refl _) rest ?_
      simpa [missing, Nat.add_assoc] using counted
  case stop =>
    cases taken
    exact sound.skip (nil_sublist _)
  case line k outcomes =>
    obtain ⟨fetch, found, article, here, line, next, streaming, rfl⟩ := taken
    have before := sound.fetches fetch (mem_of_getElem? found)
    obtain ⟨grown, after⟩ := (before.tracks streaming article here).deliver next
    refine sound.own apart found streaming here grown rfl ⟨fun _ article' here' => ?_, ?_, ?_⟩
    · cases here.symm.trans here'
      exact after
    · exact before.unmarked
    · intro judged
      rw [streaming] at judged
      contradiction
  case retry k =>
    obtain ⟨fetch, found, streaming, rfl⟩ := taken
    obtain ⟨article, here⟩ := sound.article_of_live found
    have before := sound.fetches fetch (mem_of_getElem? found)
    exact sound.own apart found streaming here .refl rfl
      ⟨fun _ article' here' => (before.tracks streaming article' here').retry, before.unmarked,
        before.accepted⟩
  case done k status pwrite =>
    obtain ⟨fetch, found, streaming, rfl⟩ := taken
    obtain ⟨article, here⟩ := sound.article_of_live found
    have before := sound.fetches fetch (mem_of_getElem? found)
    have tracks := before.tracks streaming article here
    refine sound.own apart found streaming here tracks.flush rfl ⟨by simp, by simp, ?_⟩
    intro judged article' here'
    cases here.symm.trans here'
    exact tracks.accepted (FetchPhase.judged.inj judged)
  case mark k =>
    obtain ⟨fetch, found, messageId, named, accepted, rfl⟩ := taken
    exact sound.mark apart found accepted named
  case release k =>
    obtain ⟨fetch, found, _, rfl⟩ := taken
    refine sound.release (List.eraseIdx_sublist _ _) (refl _) ?_
    have inside := (List.getElem?_eq_some_iff.mp found).1
    have counted := sound.counted
    rw [List.length_eraseIdx, if_pos inside]
    omega

end Step

end Invariant

structure Assembly.Idle (decode : Bytes → Bytes) (articles : String → Article)
    (segmentBytes : ℕ → ℤ) (f : ℕ) (s : Assembly) : Prop where
  todo : s.todo = []
  live : s.live = []
  held : ∀ i, arrivedAt s.files f i = true →
    InPlace decode segmentBytes (articleOf articles f s.files) i s.file

theorem assemblySound_of_reachable {decode : Bytes → Bytes} {articles : String → Article}
    {segmentBytes : ℕ → ℤ} {f : ℕ} {s₀ s : Assembly}
    (apart : DeclaresApart segmentBytes (articleOf articles f s₀.files))
    (idle : s₀.Idle decode articles segmentBytes f)
    (reachable : Reachable (Assembly.step decode articles segmentBytes f) Anything s₀ s) :
    AssemblySound decode segmentBytes (articleOf articles f s₀.files) f articles s := by
  apply reachable.invariant
  · exact ⟨fun _ => rfl, idle.held, by simp [idle.live], by simp [idle.live, idle.todo],
      by simp [idle.live, idle.todo], by simp [idle.live, idle.todo, missing]⟩
  · exact fun _ _ _ sound _ taken => sound.step apart taken

/-- Whatever the order in which lines arrive, buffers are flushed, attempts break
off and fetches end, over any number of rounds: each segment that is marked has
its decoded bytes at its own range. -/
theorem assembled_bytes_in_place {decode : Bytes → Bytes} {articles : String → Article}
    {segmentBytes : ℕ → ℤ} {f : ℕ} {s₀ s : Assembly}
    (apart : DeclaresApart segmentBytes (articleOf articles f s₀.files))
    (idle : s₀.Idle decode articles segmentBytes f)
    (reachable : Reachable (Assembly.step decode articles segmentBytes f) Anything s₀ s) :
    ∀ i, arrivedAt s.files f i = true →
      InPlace decode segmentBytes (articleOf articles f s₀.files) i s.file :=
  (assemblySound_of_reachable apart idle reachable).held

def firstPart : Article where
  beginLine := ascii "=ybegin part=1 line=3 size=6 name=a.bin"
  partLine := some (ascii "=ypart begin=1 end=3")
  dataLines := [ascii "xyz"]
  endLine := ascii "=yend size=3 part=1"
  isBegin := by decide +kernel
  isPart := by decide +kernel
  isData := by decide +kernel
  isEnd := by decide +kernel

def twoParts (messageId : String) : Article :=
  if messageId = "1@news" then firstPart else secondPart

def twoSegments : Assembly where
  files := [⟨"a.bin".toList, [⟨"1@news", false⟩, ⟨"2@news", false⟩]⟩]
  file := ⟨false, false, 0, [], []⟩
  todo := []
  live := []

theorem articleOf_twoSegments (i : ℕ) :
    articleOf twoParts 0 twoSegments.files i = [firstPart, secondPart][i]? := by
  rcases i with _ | _ | i
  · exact congrArg some (if_pos rfl)
  · exact congrArg some (if_neg (by decide))
  · rfl

theorem declaresApart_twoSegments :
    DeclaresApart (fun _ => 0) (articleOf twoParts 0 twoSegments.files) := by
  have cut : ∀ i article, articleOf twoParts 0 twoSegments.files i = some article →
      article.partLine ≠ none ∧ article.range 0 = (3 * i, 3) := by
    intro i article here
    rw [articleOf_twoSegments] at here
    rcases i with _ | _ | i
    · cases here
      exact ⟨nofun, by decide +kernel⟩
    · cases here
      exact ⟨nofun, by decide +kernel⟩
    · cases here
  constructor
  · exact fun i article here => .inl (cut i article here).1
  · intro i j article article' here here' different x low high low' high'
    rw [(cut i article here).2] at low high
    rw [(cut j article' here').2] at low' high'
    dsimp only at low high low' high'
    omega

/-- The two articles arrive at the same time, with one attempt that breaks off. -/
theorem twoSegments_arrive : ∃ s : Assembly,
    Reachable (Assembly.step (fun line => line.map (· - 42)) twoParts (fun _ => 0) 0) Anything
      twoSegments s ∧ s.file.content = ascii "NOPABC" ∧ ∀ i < 2, arrivedAt s.files 0 i = true := by
  let line (k : ℕ) : AssemblyAct := .line k .success
  let acts : List AssemblyAct := [.round, .dispatch .accepted, .dispatch .accepted,
    line 0, line 1, line 0, line 1, line 0, line 1, .retry 0, line 1, line 0, line 1, line 0, line 0,
    .done 1 222 (fun _ => none), line 0, .mark 1, .done 0 222 (fun _ => none), .mark 0, .release 1,
    .release 0]
  have runs : ((replay (Assembly.step (fun line => line.map (· - 42)) twoParts (fun _ => 0) 0)
      (fun _ _ => true) twoSegments acts).any fun s => s.file.content = ascii "NOPABC" ∧
        ∀ i : ℕ, i < 2 → arrivedAt s.files 0 i) = true := by
    decide +kernel
  obtain ⟨s, reachable, ends⟩ := exists_reachable (fun _ _ _ => trivial) runs
  exact ⟨s, reachable, of_decide_eq_true ends⟩

theorem idle_twoSegments :
    twoSegments.Idle (fun line => line.map (· - 42)) twoParts (fun _ => 0) 0 :=
  ⟨rfl, rfl, fun _ arrived => absurd arrived (not_arrivedAt (by decide))⟩

theorem assembled_bytes_in_place_parts : ∃ s : Assembly,
    Reachable (Assembly.step (fun line => line.map (· - 42)) twoParts (fun _ => 0) 0) Anything
      twoSegments s ∧ s.file.content = ascii "NOPABC" ∧
      ∀ i, arrivedAt s.files 0 i = true → InPlace (fun line => line.map (· - 42)) (fun _ => 0)
        (articleOf twoParts 0 twoSegments.files) i s.file := by
  obtain ⟨s, reachable, content, _⟩ := twoSegments_arrive
  exact ⟨s, reachable, content,
    assembled_bytes_in_place declaresApart_twoSegments idle_twoSegments reachable⟩

end NzbDownloader.Download
