import NzbDownloader.Download.Assembly
import NzbDownloader.Download.Multipart
import NzbDownloader.Nntp.LongLines

/-!
# From the connection to the file

A file that was posted in parts comes back: `nntp_conn_fetch` hands the lines of each
article to `body_line_cb`, and `segment_done_cb` judges what they have left in the file.
-/

namespace NzbDownloader.Download

open Lib Util Yenc Queue Nntp Transition List

variable {decode : Bytes → Bytes} {parts : List Bytes} {checks : List Bytes → Prop}
  {articleAt : ℕ → Option Article}
  {content before part after rest : Bytes} {fields : List Bytes} {article : Article}

/-- The checksum that `parse_fields` takes from an `=yend` line is that of the part, if there
is one. -/
def PartChecked (fields : List Bytes) : Prop :=
  (∃ field ∈ fields, hasKey (ascii "pcrc32=") field = true) ∨
    ∀ field ∈ fields, hasKey (ascii "crc32=") field = false

/-- The articles of a file that was cut into these parts; `checks` is what holds of the
fields of their `=yend` lines. -/
structure Posted (decode : Bytes → Bytes) (parts : List Bytes) (checks : List Bytes → Prop)
    (articleAt : ℕ → Option Article) : Prop where
  isPart : ∀ {i article}, articleAt i = some article → ∃ part fields, parts[i]? = some part ∧
    checks fields ∧
    IsPart decode (parts.take i).flatten part (parts.drop (i + 1)).flatten fields article
  all : ∀ i < parts.length, (articleAt i).isSome = true

/-- A part stands where it stood in the file. -/
def PartIn (parts : List Bytes) (content : Bytes) (i : ℕ) : Prop :=
  ∀ part ∈ parts[i]?, Extent.In ⟨(parts.take i).flatten.length, part⟩ content

theorem in_flatten {off : ℕ} (all : ∀ i part, parts[i]? = some part →
      Extent.In ⟨off + (parts.take i).flatten.length, part⟩ content) :
    Extent.In ⟨off, parts.flatten⟩ content := by
  induction parts generalizing off with
  | nil => exact take_zero
  | cons part parts ih =>
    apply Extent.In.glue (all 0 part rfl)
    apply ih
    intro i later isLater
    have here := all (i + 1) later isLater
    rwa [take_succ_cons, flatten_cons, length_append, ← Nat.add_assoc] at here

theorem length_flatten_take {i j : ℕ} (here : parts[i]? = some part) (earlier : i < j) :
    (parts.take i).flatten.length + part.length ≤ (parts.take j).flatten.length := by
  have upTo : (parts.take (i + 1)).flatten = (parts.take i).flatten ++ part := by
    rw [take_add_one, here, flatten_append]
    simp
  obtain ⟨others, further⟩ : parts.take (i + 1) <+: parts.take j :=
    take_prefix_take_left (by omega)
  rw [← further, flatten_append, upTo, length_append, length_append]
  omega

theorem disjoint_parts {i j : ℕ} {other : Bytes} (here : parts[i]? = some part)
    (there : parts[j]? = some other) (different : i ≠ j) :
    DisjointRanges ((parts.take i).flatten.length, part.length)
      ((parts.take j).flatten.length, other.length) := by
  intro x low high low' high'
  dsimp only at low high low' high'
  rcases Nat.lt_or_gt_of_ne different with earlier | later
  · have := length_flatten_take here earlier
    omega
  · have := length_flatten_take there later
    omega

theorem IsPart.extent (isPart : IsPart decode before part after fields article)
    (segmentBytes : ℤ) : article.extent decode segmentBytes = ⟨before.length, part⟩ := by
  rw [Article.extent, isPart.range, isPart.decoded, take_length]

theorem Posted.apart (posted : Posted decode parts checks articleAt) (segmentBytes : ℕ → ℤ) :
    DeclaresApart segmentBytes articleAt where
  declares i article here := by
    obtain ⟨part, fields, -, -, isPart⟩ := posted.isPart here
    exact .inl (Option.isSome_iff_ne_none.mp isPart.multi)
  disjoint i j article article' here here' different := by
    obtain ⟨part, fields, isHere, -, isPart⟩ := posted.isPart here
    obtain ⟨part', fields', isHere', -, isPart'⟩ := posted.isPart here'
    rw [isPart.range, isPart'.range]
    exact disjoint_parts isHere isHere' different

theorem Posted.in_iff (posted : Posted decode parts checks articleAt) {i : ℕ} {segmentBytes : ℤ}
    (here : articleAt i = some article) :
    (article.extent decode segmentBytes).In content ↔ PartIn parts content i := by
  obtain ⟨part, fields, isHere, -, isPart⟩ := posted.isPart here
  rw [isPart.extent, PartIn, isHere]
  simp

theorem in_whole (all : ∀ i < parts.length, PartIn parts content i) :
    Extent.In ⟨0, parts.flatten⟩ content := by
  apply in_flatten
  intro i part here
  rw [Nat.zero_add]
  exact all i (List.getElem?_eq_some_iff.mp here).1 part here

/-- Whatever the workers do to the segments of a file at the same time, however often they
retry and whatever fails: once all are marked, the posted file is there. -/
theorem assembled_file_whole {articles : String → Article} {segmentBytes : ℕ → ℤ} {f : ℕ}
    {s₀ s : Assembly} (posted : Posted decode parts checks (articleOf articles f s₀.files))
    (idle : s₀.Idle decode articles segmentBytes f)
    (reachable : Reachable (Assembly.step decode articles segmentBytes f) Anything s₀ s)
    (arrived : ∀ i < parts.length, arrivedAt s.files f i = true) :
    Extent.In ⟨0, parts.flatten⟩ s.file.content := by
  have sound := assemblySound_of_reachable (posted.apart segmentBytes) idle reachable
  apply in_whole
  intro i inside
  obtain ⟨article, here⟩ := Option.isSome_iff_exists.mp (posted.all i inside)
  exact (posted.in_iff here).mp (sound.held i (arrived i inside) article here)

theorem twoSegments_posted : Posted (fun line => line.map (· - 42)) [ascii "NOP", ascii "ABC"]
    PartChecked (articleOf twoParts 0 twoSegments.files) where
  isPart {i article} here := by
    rw [articleOf_twoSegments] at here
    rcases i with _ | _ | i
    · cases here
      refine ⟨_, ["size=3", "part=1"].map ascii, rfl, .inr (by decide +kernel), ?_⟩
      refine ⟨rfl, fun _ => ?_, by decide +kernel, by decide +kernel, by decide +kernel⟩
      rw [Declares.range_eq (.inl (by decide +kernel)) _ 0]
      decide +kernel
    · cases here
      refine ⟨_, ["size=3", "part=2"].map ascii, rfl, .inr (by decide +kernel), ?_⟩
      refine ⟨rfl, fun _ => ?_, by decide +kernel, by decide +kernel, by decide +kernel⟩
      rw [Declares.range_eq (.inl (by decide +kernel)) _ 0]
      decide +kernel
    · cases here
  all i inside := by
    rw [articleOf_twoSegments]
    simpa using inside

theorem assembled_file_whole_parts : ∃ s : Assembly,
    Reachable (Assembly.step (fun line => line.map (· - 42)) twoParts (fun _ => 0) 0) Anything
      twoSegments s ∧ Extent.In ⟨0, ascii "NOPABC"⟩ s.file.content := by
  obtain ⟨s, reachable, _, arrived⟩ := twoSegments_arrive
  exact ⟨s, reachable, assembled_file_whole twoSegments_posted idle_twoSegments reachable arrived⟩

section Session

variable {segmentBytes : ℤ} {c : Conn} {file : FileDl} {response : Response}

/-- A fetch with the callbacks of a segment, where memory and disk suffice. -/
def fetchPart (decode : Bytes → Bytes) (segmentBytes : ℤ) (state : Conn × FileDl) :
    Bool × Conn × FileDl :=
  let fetched := nntpConnFetch true
    ⟨some fun s line => (0, bodyLineCb decode segmentBytes .success line s.1 s.2), ({}, state.2)⟩
    state.1
  let judged := segmentDoneCb (fun _ => none) fetched.status fetched.ctx.1 fetched.ctx.2
  (judged.1, fetched.conn, judged.2)

theorem takesLines_deliver (lines : List Bytes) (state : SegmentCtx × FileDl) :
    (takesLines (fun s line => (0, bodyLineCb decode segmentBytes .success line s.1 s.2))
        state lines).2 =
      deliverLines decode segmentBytes lines state (replicate lines.length .success) := by
  induction lines generalizing state with
  | nil => rfl
  | cons line lines ih =>
    rw [takesLines, if_neg (by simp), ih]
    rfl

/-- The lines of an article to a new segment, one after another. -/
theorem accepts_lines {status : ℤ} (isPart : IsPart decode before part after fields article)
    (checked : PartChecked fields)
    (opened : file.openFailed = false) (found : status = 220 ∨ status = 222) :
    let state := deliverLines decode segmentBytes article.lines ({}, file)
      (replicate article.lines.length .success)
    let judged := segmentDoneCb (fun _ => none) status state.1 state.2
    judged.1 = true ∧ judged.2.openFailed = false ∧
      Extent.In ⟨before.length, part⟩ judged.2.content ∧
      file.Extends (before.length, part.length) judged.2 := by
  intro state judged
  have start : Going decode segmentBytes ({}, file) := ⟨⟨[], .initial⟩, nofun, rfl, opened⟩
  have succeed : ∀ delivery ∈ article.lines.zip (replicate article.lines.length Outcomes.success),
      delivery.2.Succeed := by
    intro delivery member
    rw [eq_of_mem_replicate (of_mem_zip member).2]
    exact ⟨rfl, rfl, fun _ => rfl⟩
  obtain ⟨receives, done, expects⟩ := @Going.complete decode segmentBytes _
    (article.lines.zip (replicate article.lines.length .success)) article start
    (map_fst_zip (by rw [length_replicate]))
  have working : Working state.1 state.2 := deliverTo_working start.working succeed
  have accepted : judged.1 = true := by
    obtain ⟨-, has, crc⟩ := classifyLine_yend isPart.checksums
    refine (receives.accepts_iff done expects working (fun _ => rfl) found).mpr fun stated => ?_
    rw [isPart.endLine, has] at stated
    have ofPart : fields.any (hasKey (ascii "pcrc32=")) = true := by
      rcases checked with given | without
      · exact any_eq_true.mpr given
      · have noFile : fields.any (hasKey (ascii "crc32=")) = false :=
          any_eq_false.mpr fun field member => Bool.eq_false_iff.mp (without field member)
        rwa [noFile, Bool.or_false] at stated
    rw [isPart.endLine, crc, if_pos ofPart, Article.decodeAll_body, isPart.decoded]
  obtain ⟨grown, tracks⟩ := @fetchSegment_tracks decode segmentBytes article file
    [replicate article.lines.length .success]
  have placed := tracks.accepted accepted
  have written : file.Extends (article.range segmentBytes)
      (segmentFlush (fun _ => none) state.1 state.2).2 := grown.trans tracks.flush
  rw [isPart.extent] at placed
  rw [isPart.range] at written
  exact ⟨accepted, (segmentFlush_working (fun _ => rfl) working).2, placed, written⟩

theorem FileDl.Extends.length_le {range : ℕ × ℕ} {file' : FileDl} (grown : file.Extends range file')
    {size : ℕ} (short : file.content.length ≤ size) (fits : range.1 + range.2 ≤ size) :
    file'.content.length ≤ size := by
  obtain ⟨new, writes, within⟩ := grown.writes
  rw [FileDl.content, writes, grown.initial, foldr_append]
  clear writes
  induction new with
  | nil => exact short
  | cons write new ih =>
    have before := ih fun part member => within part (.tail _ member)
    have inside := within write (.head _)
    unfold WithinRange at inside
    rw [foldr_cons]
    by_cases empty : write.data = []
    · rwa [empty, writeAt, if_pos rfl]
    · rw [length_writeAt empty]
      omega

/-- However the stream is split into reads, a fetch takes the article off it and leaves the
part in the file. -/
theorem fetchPart_stores (isPart : IsPart decode before part after fields article)
    (checked : PartChecked fields)
    (lines : response.lines = article.lines) (announced : response.hasBody = true)
    (here : c.Before (response.wire ++ rest)) (opened : file.openFailed = false) :
    ∃ c' file', fetchPart decode segmentBytes (c, file) = (true, c', file') ∧
      c'.Before rest ∧ file'.openFailed = false ∧
      Extent.In ⟨before.length, part⟩ file'.content ∧
      file.Extends (before.length, part.length) file' := by
  rw [Response.wire, append_assoc, if_pos announced] at here
  obtain ⟨c₁, opens, body⟩ := Response.opens
    ⟨some fun s line => (0, bodyLineCb decode segmentBytes .success line s.1 s.2), ({}, file)⟩ here
  obtain ⟨c₂, receives, ended⟩ :=
    bodyLoop_receives _ ⟨response.bodyPlain, response.bodyShort⟩ body
  rw [if_pos announced, receives, Receiver.takes] at opens
  dsimp only at opens
  rw [takesLines_deliver, lines] at opens
  have found : (response.code : ℤ) = 220 ∨ (response.code : ℤ) = 222 := by
    have code := of_decide_eq_true announced
    omega
  obtain ⟨accepted, opened', placed, grown⟩ :=
    @accepts_lines decode before part after fields article segmentBytes file _ isPart checked opened
      found
  refine ⟨c₂, _, ?_, ended, opened', placed, grown⟩
  unfold fetchPart
  dsimp only
  rw [opens]
  dsimp only
  rw [accepted]

/-- Fetches of some parts, and whether all were accepted. -/
def fetchParts (decode : Bytes → Bytes) (segmentBytes : ℕ → ℤ) :
    List ℕ → Conn × FileDl → Bool × Conn × FileDl
  | [], state => (true, state)
  | i :: order, state =>
      let first := fetchPart decode (segmentBytes i) state
      let others := fetchParts decode segmentBytes order first.2
      (first.1 && others.1, others.2)

/-- The answer to the fetch of a part. -/
structure AnswersPart (articleAt : ℕ → Option Article) (answer : ℕ × Response) : Prop where
  article : (articleAt answer.1).map Article.lines = some answer.2.lines
  announced : answer.2.hasBody = true

theorem fetchParts_spec (posted : Posted decode parts PartChecked articleAt) (segmentBytes : ℕ → ℤ)
    {answers : List (ℕ × Response)} {done : List ℕ}
    (answered : ∀ answer ∈ answers, AnswersPart articleAt answer)
    (here : c.Before (answers.flatMap (·.2.wire) ++ rest)) (opened : file.openFailed = false)
    (held : ∀ i ∈ done, PartIn parts file.content i)
    (short : file.content.length ≤ parts.flatten.length) :
    ∃ c' file', fetchParts decode segmentBytes (answers.map (·.1)) (c, file) = (true, c', file') ∧
      c'.Before rest ∧ file'.content.length ≤ parts.flatten.length ∧
      ∀ i ∈ done ++ answers.map (·.1), PartIn parts file'.content i := by
  induction answers generalizing c file done with
  | nil => exact ⟨c, file, rfl, here, short, by simpa using held⟩
  | cons answer answers ih =>
    obtain ⟨isAnswer, announced⟩ := answered answer (.head _)
    obtain ⟨article, isArticle, lines⟩ := Option.map_eq_some_iff.mp isAnswer
    obtain ⟨part, fields, isHere, checked, isPart⟩ := posted.isPart isArticle
    rw [flatMap_cons, append_assoc] at here
    obtain ⟨c₁, file₁, fetches, after, opened₁, placed, grown⟩ :=
      @fetchPart_stores decode _ part _ _ fields article (segmentBytes answer.1) c file answer.2
        isPart checked lines.symm announced here opened
    have kept : ∀ i ∈ done ++ [answer.1], PartIn parts file₁.content i := by
      intro i member
      by_cases same : i = answer.1
      · rw [same, PartIn, isHere]
        simpa using placed
      · have before := held i (by simpa [same] using member)
        intro other isOther
        exact (grown.spares (disjoint_parts isOther isHere same)).kept _ ⟨le_rfl, le_rfl⟩
          (before other isOther)
    have inside : (parts.take answer.1).flatten.length + part.length ≤ parts.flatten.length := by
      have upTo := length_flatten_take isHere (List.getElem?_eq_some_iff.mp isHere).1
      rwa [take_length] at upTo
    obtain ⟨c', file', others, ended, short', all⟩ :=
      ih (fun answer later => answered answer (.tail _ later)) after opened₁ kept
        (grown.length_le short inside)
    refine ⟨c', file', ?_, ended, short', by simpa using all⟩
    rw [map_cons, fetchParts, fetches]
    dsimp only
    rw [others]
    rfl

/-- A session on one connection that fetches all parts in any order, however the stream is
split into reads: every part is accepted, and the file is the one that was posted. -/
theorem session_restores_file (posted : Posted decode parts PartChecked articleAt) (segmentBytes : ℕ → ℤ)
    {answers : List (ℕ × Response)} (answered : ∀ answer ∈ answers, AnswersPart articleAt answer)
    (split : c.WellSplit) (stream : c.unread = answers.flatMap (·.2.wire) ++ rest)
    (opened : file.openFailed = false) (short : file.content.length ≤ parts.flatten.length)
    (all : ∀ i < parts.length, i ∈ answers.map (·.1)) :
    ∃ c' file', fetchParts decode segmentBytes (answers.map (·.1)) (c, file) = (true, c', file') ∧
      c'.unread = rest ∧ file'.content = parts.flatten := by
  obtain ⟨c', file', fetches, ended, short', held⟩ :=
    @fetchParts_spec decode parts articleAt rest c file posted segmentBytes answers [] answered
      ⟨stream, split⟩ opened (fun _ none => absurd none not_mem_nil) short
  have whole : Extent.In ⟨0, parts.flatten⟩ file'.content :=
    in_whole fun i inside => held i (all i inside)
  rw [Extent.In, readAt, drop_zero, take_of_length_le short'] at whole
  exact ⟨c', file', fetches, ended.unread, whole⟩

def partSent (second : Bool) : Response :=
  { bodyFollows with
    lines := (if second then secondPart else firstPart).lines
    bodyPlain := by
      have plain : ((if second then secondPart else firstPart).lines.all fun line =>
          line.all fun b => b ≠ cr ∧ b ≠ lf ∧ b ≠ 0) = true := by
        cases second <;> decide +kernel
      simpa using plain
    bodyShort := by cases second <;> decide +kernel }

/-- The second part comes first, and every read returns one byte. -/
theorem session_restores_file_parts : ∃ c' file',
    fetchParts (fun line => line.map (· - 42)) (fun _ => 0) [1, 0]
      (⟨[], ((partSent true).wire ++ (partSent false).wire).map ([·])⟩, unopened) =
        (true, c', file') ∧ c'.unread = [] ∧ file'.content = ascii "NOPABC" := by
  refine @session_restores_file _ _ _ [] _ unopened twoSegments_posted (fun _ => 0)
    [(1, partSent true), (0, partSent false)] ?_ ?_ ?_ rfl (by decide) (by decide)
  · intro answer member
    rcases mem_cons.mp member with rfl | last
    · exact ⟨by rw [articleOf_twoSegments]; rfl, by decide +kernel⟩
    · cases mem_singleton.mp last
      exact ⟨by rw [articleOf_twoSegments]; rfl, by decide +kernel⟩
  · intro chunk member
    obtain ⟨byte, -, rfl⟩ := mem_map.mp member
    exact cons_ne_nil _ _
  · decide +kernel

end Session

end NzbDownloader.Download
