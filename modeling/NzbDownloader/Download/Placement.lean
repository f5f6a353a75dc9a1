import NzbDownloader.Download.Segment

/-!
# Where the bytes of an article end up

The lines of an article, delivered in order by any number of attempts of which all but the
last break off, put its decoded bytes at the range it declares and nothing anywhere else.
-/

namespace NzbDownloader.Download

open Lib Util Yenc List Article

structure Streams (range : ℕ × ℕ) (emitted : Bytes) (ctx : SegmentCtx) (file : FileDl) : Prop where
  budget : ctx.budget = range.2
  placed : BytesPlaced range (emitted.take range.2) (segWbufSize - 1) ctx file

variable {pwrite : Extent → Option ℕ}

section Stream

variable {decode : Bytes → Bytes} {segmentBytes : ℤ} {outcomes : Outcomes} {range : ℕ × ℕ}
  {ctx : SegmentCtx} {file : FileDl} {emitted data line : Bytes}

theorem Streams.of_eq {ctx' : SegmentCtx} (streams : Streams range emitted ctx file)
    (budget : ctx'.budget = ctx.budget) (offset : ctx'.offset = ctx.offset)
    (writeFailed : ctx'.writeFailed = ctx.writeFailed) (written : ctx'.written = ctx.written)
    (wbuf : ctx'.wbuf = ctx.wbuf) : Streams range emitted ctx' file := by
  refine ⟨budget.trans streams.budget, ?_⟩
  rcases streams.placed with failed | ⟨flushed, buffered, buffers, short⟩
  · rw [Failed, ← writeFailed] at failed
    exact .inl failed
  refine .inr ⟨flushed, buffered, ?_, short⟩
  constructor
  · exact buffers.fd
  · exact buffers.opened
  · exact writeFailed.trans buffers.working
  · exact offset.trans buffers.offset
  · exact wbuf.trans buffers.wbuf
  · exact written.trans buffers.written
  · exact buffers.total
  · exact buffers.fits
  · exact buffers.held

theorem bufferAppend_framing : SameFraming ctx (bufferAppend pwrite data ctx file).1 := by
  unfold bufferAppend
  split
  · exact sameFraming_buffer
  · exact appendLoop_framing

theorem Streams.append {pwrite : Extent → Option ℕ} (streams : Streams range emitted ctx file)
    (data : Bytes) :
    file.Extends range (bufferAppend pwrite data ctx file).2 ∧
      Streams range (emitted ++ data) (bufferAppend pwrite data ctx file).1
        (bufferAppend pwrite data ctx file).2 := by
  suffices places : Places range ((emitted ++ data).take range.2) (segWbufSize - 1) file
      (bufferAppend pwrite data ctx file) from
    ⟨places.grown, bufferAppend_framing.budget.trans streams.budget, places.placed⟩
  unfold bufferAppend
  rcases streams.placed with failed | ⟨flushed, buffered, buffers, short⟩
  · rw [if_pos (by rcases failed with failed | failed <;> simp [failed])]
    exact .of_failed ⟨rfl, failed⟩
  rw [if_neg (by simp [buffers.working, buffers.opened, buffers.fd, buffers.wbuf])]
  have length := congrArg length buffers.total
  rw [length_append, length_take] at length
  have left : ctx.budget - ctx.written - (ctx.wbuf.getD []).length = range.2 - emitted.length := by
    rw [streams.budget, buffers.written, buffers.wbuf, Option.getD_some]
    omega
  have size : 0 < segWbufSize := by decide
  rw [left, take_append]
  apply buffers.loop
  · omega
  · rw [length_take]
    omega
  · rw [length_append, length_take, length_take]
    omega

theorem Streams.empty (budget : ctx.budget = range.2) (offset : ctx.offset = range.1)
    (written : ctx.written = 0) (wbuf : ctx.wbuf = some [])
    (settled : file.fd ∨ file.openFailed) : Streams range [] ctx file := by
  refine ⟨budget, ?_⟩
  rw [take_nil]
  by_cases failed : Failed ctx file
  · exact .inl failed
  simp only [Failed, not_or, Bool.not_eq_true] at failed
  have fd : file.fd = true := by simpa [failed.2] using settled
  refine .inr ⟨[], [], ?_, Nat.zero_le _⟩
  exact ⟨fd, failed.2, failed.1, offset, wbuf, written, rfl, Nat.zero_le _, by
    simp [Extent.In, readAt]⟩

theorem resolveSegmentRange_streams {outcomes : Outcomes} {offset budget : ℤ}
    (range_eq : range = (offset.toNat, budget.toNat)) (fresh : ctx.written = 0) :
    file.Extends range (resolveSegmentRange outcomes offset budget ctx file).2 ∧
      Streams range []
        { (resolveSegmentRange outcomes offset budget ctx file).1 with yencState := .inData }
        (resolveSegmentRange outcomes offset budget ctx file).2 := by
  subst range_eq
  unfold resolveSegmentRange
  split
  · exact ⟨.refl, rfl, .inl (.inl rfl)⟩
  split
  · rename_i unsettled
    have closed : ¬(file.fd = true ∨ file.openFailed) := by
      simpa [not_or] using unsettled
    have settles : ∀ fd openFailed, file.Extends (offset.toNat, budget.toNat)
        { file with fd, openFailed } := fun _ _ =>
      ⟨rfl, rfl, ⟨[], rfl, by simp⟩, fun known => absurd known closed⟩
    split
    · exact ⟨settles _ _, .empty rfl rfl fresh rfl (.inl rfl)⟩
    · exact ⟨settles _ _, rfl, .inl (.inr rfl)⟩
  · rename_i settled
    have known : file.fd ∨ file.openFailed = true := by
      simpa [Classical.or_iff_not_imp_left] using settled
    exact ⟨.refl, .empty rfl rfl fresh rfl known⟩

theorem Streams.dataLine (streams : Streams range emitted ctx file)
    (isData : (classifyLine line).1 = .data) :
    file.Extends range (dataLineCb decode outcomes line ctx file).2 ∧
      (dataLineCb decode outcomes line ctx file).1.yencState = ctx.yencState ∧
      Streams range (emitted ++ decodeLine decode line)
        (dataLineCb decode outcomes line ctx file).1
        (dataLineCb decode outcomes line ctx file).2 := by
  have counted : Streams range emitted
      { ctx with crc := crc32Update ctx.crc (decodeLine decode line) } file :=
    streams.of_eq rfl rfl rfl rfl rfl
  obtain ⟨grown, after⟩ := counted.append (decodeLine decode line)
  rw [dataLineCb_data isData]
  exact ⟨grown, bufferAppend_framing.yencState, after⟩

theorem Streams.endLine (streams : Streams range emitted ctx file)
    (isEnd : (classifyLine line).1 = .yend) :
    (dataLineCb decode outcomes line ctx file).2 = file ∧
      (dataLineCb decode outcomes line ctx file).1.yencState = .done ∧
      Streams range emitted (dataLineCb decode outcomes line ctx file).1 file := by
  rw [dataLineCb_end isEnd]
  split
  · exact ⟨rfl, rfl, streams.of_eq rfl rfl rfl rfl rfl⟩
  · exact ⟨rfl, rfl, streams.of_eq rfl rfl rfl rfl rfl⟩

end Stream

/-- The context and the file after the first `n` lines of an attempt, whatever
earlier attempts left behind. -/
structure Tracks (decode : Bytes → Bytes) (segmentBytes : ℤ) (article : Article) (n : ℕ)
    (ctx : SegmentCtx) (file : FileDl) : Prop where
  unresolved : ctx.yencState = .wantBegin ∨ ctx.yencState = .wantPartOrData →
    ctx.wbuf = none ∧ ctx.written = 0
  resolved : ctx.yencState = .inData → ∃ emitted, Streams (article.range segmentBytes) emitted ctx file
  complete : ctx.yencState = .done →
    Streams (article.range segmentBytes) (article.decoded decode) ctx file
  begun : n = 1 → ctx.yencState ≠ .done → ctx.yencState = .wantPartOrData ∧
    ctx.haveYbeginSize = (classifyLine article.beginLine).2.hasSize ∧
    ctx.ybeginSize = (classifyLine article.beginLine).2.size
  inBody : 2 ≤ n → ctx.yencState ≠ .done → ctx.yencState = .inData ∧
    Streams (article.range segmentBytes) (decodeAll decode (article.body.take (n - 1)))
      ctx file

section Lines

variable {decode : Bytes → Bytes} {segmentBytes : ℤ} {article : Article} {outcomes : Outcomes}
  {ctx : SegmentCtx} {file : FileDl} {line : Bytes} {n : ℕ}

theorem Tracks.initial : Tracks decode segmentBytes article 0 {} file where
  unresolved _ := ⟨rfl, rfl⟩
  resolved impossible := nomatch impossible
  complete impossible := nomatch impossible
  begun impossible := nomatch impossible
  inBody impossible := by omega

theorem Tracks.retry (tracks : Tracks decode segmentBytes article n ctx file) :
    Tracks decode segmentBytes article 0 ctx file where
  unresolved := tracks.unresolved
  resolved := tracks.resolved
  complete := tracks.complete
  begun impossible := nomatch impossible
  inBody impossible := by omega

theorem Tracks.of_done (tracks : Tracks decode segmentBytes article n ctx file)
    (done : ctx.yencState = .done) (m : ℕ) : Tracks decode segmentBytes article m ctx file where
  unresolved := tracks.unresolved
  resolved := tracks.resolved
  complete := tracks.complete
  begun _ more := absurd done more
  inBody _ more := absurd done more

theorem Tracks.of_inData {m : ℕ} (inData : ctx.yencState = .inData)
    (streams : Streams (article.range segmentBytes)
      (decodeAll decode (article.body.take (m + 1))) ctx file) :
    Tracks decode segmentBytes article (m + 2) ctx file where
  unresolved state := by simp [inData] at state
  resolved _ := ⟨_, streams⟩
  complete done := by simp [inData] at done
  begun impossible := by omega
  inBody _ _ := ⟨inData, streams⟩

theorem Tracks.of_complete (done : ctx.yencState = .done)
    (streams : Streams (article.range segmentBytes) (article.decoded decode) ctx file) :
    Tracks decode segmentBytes article n ctx file where
  unresolved state := by simp [done] at state
  resolved state := by simp [done] at state
  complete _ := streams
  begun _ more := absurd done more
  inBody _ more := absurd done more

theorem Tracks.beginLine (tracks : Tracks decode segmentBytes article n ctx file)
    (more : ctx.yencState ≠ .done) :
    (bodyLineCb decode segmentBytes outcomes article.beginLine ctx file).2 = file ∧
      Tracks decode segmentBytes article 1
        (bodyLineCb decode segmentBytes outcomes article.beginLine ctx file).1 file := by
  rw [bodyLineCb_begin more article.isBegin]
  refine ⟨rfl, ?_, nofun, nofun, fun _ _ => ⟨rfl, rfl, rfl⟩, by omega⟩
  intro _
  by_cases first : ctx.yencState = .wantBegin
  · simpa [first] using tracks.unresolved (.inl first)
  · simp [first, SegmentCtx.restart]

theorem Tracks.resolve (tracks : Tracks decode segmentBytes article 1 ctx file)
    (more : ctx.yencState ≠ .done) (single : article.partLine = none)
    (notBegin : (classifyLine line).1 ≠ .ybegin) (notPart : (classifyLine line).1 ≠ .ypart) :
    ∃ ctx' file', file.Extends (article.range segmentBytes) file' ∧ ctx'.yencState = .inData ∧
      Streams (article.range segmentBytes) [] ctx' file' ∧
      bodyLineCb decode segmentBytes outcomes line ctx file =
        dataLineCb decode outcomes line ctx' file' := by
  obtain ⟨state, hasSize, size⟩ := tracks.begun rfl more
  have range : article.range segmentBytes =
      ((0 : ℤ).toNat, (if ctx.haveYbeginSize then ctx.ybeginSize else segmentBytes).toNat) := by
    rw [hasSize, size, Article.range, single, declaredRange]
    rfl
  obtain ⟨grown, streams⟩ := resolveSegmentRange_streams range (tracks.unresolved (.inr state)).2
  exact ⟨_, _, grown, rfl, streams, bodyLineCb_first state notBegin notPart⟩

theorem Tracks.partLine (tracks : Tracks decode segmentBytes article 1 ctx file)
    (more : ctx.yencState ≠ .done) (multi : article.partLine = some line) :
    file.Extends (article.range segmentBytes)
        (bodyLineCb decode segmentBytes outcomes line ctx file).2 ∧
      Tracks decode segmentBytes article 2
        (bodyLineCb decode segmentBytes outcomes line ctx file).1
        (bodyLineCb decode segmentBytes outcomes line ctx file).2 := by
  obtain ⟨state, _⟩ := tracks.begun rfl more
  obtain ⟨isPart, valid⟩ := article.isPart line multi
  have range : article.range segmentBytes =
      (((classifyLine line).2.rangeBegin - 1).toNat,
        ((classifyLine line).2.rangeEnd - (classifyLine line).2.rangeBegin + 1).toNat) := by
    rw [Article.range, multi, declaredRange]
  have nothing : Article.decodeAll decode (article.body.take 1) = [] := by
    simp [Article.body, multi, Article.decodeAll, isPart]
  obtain ⟨grown, streams⟩ := resolveSegmentRange_streams range (tracks.unresolved (.inr state)).2
  rw [bodyLineCb_part state isPart, if_pos valid]
  refine ⟨grown, .of_inData rfl ?_⟩
  rw [nothing]
  exact streams

/-- The first line after the head finds the range; any later one finds it resolved. -/
theorem Tracks.enter (tracks : Tracks decode segmentBytes article (n + 1) ctx file)
    (more : ctx.yencState ≠ .done) (single : n = 0 → article.partLine = none)
    (notBegin : (classifyLine line).1 ≠ .ybegin) (notPart : (classifyLine line).1 ≠ .ypart) :
    ∃ ctx' file', file.Extends (article.range segmentBytes) file' ∧ ctx'.yencState = .inData ∧
      Streams (article.range segmentBytes) (decodeAll decode (article.body.take n)) ctx'
        file' ∧
      bodyLineCb decode segmentBytes outcomes line ctx file =
        dataLineCb decode outcomes line ctx' file' := by
  cases n with
  | zero => exact tracks.resolve more (single rfl) notBegin notPart
  | succ n =>
    obtain ⟨state, streams⟩ := tracks.inBody (by omega) more
    exact ⟨ctx, file, .refl, state, streams, bodyLineCb_inData state notBegin⟩

theorem Tracks.dataLine (tracks : Tracks decode segmentBytes article (n + 1) ctx file)
    (more : ctx.yencState ≠ .done) (found : article.body[n]? = some line)
    (isData : (classifyLine line).1 = .data) :
    file.Extends (article.range segmentBytes)
        (bodyLineCb decode segmentBytes outcomes line ctx file).2 ∧
      Tracks decode segmentBytes article (n + 2)
        (bodyLineCb decode segmentBytes outcomes line ctx file).1
        (bodyLineCb decode segmentBytes outcomes line ctx file).2 := by
  have single (first : n = 0) : article.partLine = none := by
    cases part : article.partLine with
    | none => rfl
    | some partLine =>
      simp only [body, part, first] at found
      cases found
      rw [(article.isPart line part).1] at isData
      contradiction
  have notBegin : (classifyLine line).1 ≠ .ybegin := by simp [isData]
  obtain ⟨ctx', file', entry, state, streams, runs⟩ :=
    tracks.enter more single notBegin (by simp [isData])
  obtain ⟨grown, kept, after⟩ := streams.dataLine isData
  rw [runs]
  refine ⟨entry.trans grown, .of_inData (kept.trans state) ?_⟩
  rw [take_add_one, found, decodeAll_append]
  simpa [decodeAll, isData] using after

theorem Tracks.endLine
    (tracks : Tracks decode segmentBytes article (article.body.length + 1) ctx file)
    (more : ctx.yencState ≠ .done) :
    file.Extends (article.range segmentBytes)
        (bodyLineCb decode segmentBytes outcomes article.endLine ctx file).2 ∧
      Tracks decode segmentBytes article (article.body.length + 2)
        (bodyLineCb decode segmentBytes outcomes article.endLine ctx file).1
        (bodyLineCb decode segmentBytes outcomes article.endLine ctx file).2 := by
  have isEnd := article.isEnd
  have single (empty : article.body.length = 0) : article.partLine = none := by
    cases part : article.partLine with
    | none => rfl
    | some first => simp [body, part] at empty
  have notBegin : (classifyLine article.endLine).1 ≠ .ybegin := by simp [isEnd]
  obtain ⟨ctx', file', entry, _, streams, runs⟩ :=
    tracks.enter more single notBegin (by simp [isEnd])
  rw [take_length, decodeAll_body] at streams
  obtain ⟨unchanged, done, after⟩ := streams.endLine isEnd
  rw [runs, unchanged]
  exact ⟨entry, .of_complete done after⟩

theorem Tracks.deliver (tracks : Tracks decode segmentBytes article n ctx file)
    (found : article.lines[n]? = some line) :
    file.Extends (article.range segmentBytes)
        (bodyLineCb decode segmentBytes outcomes line ctx file).2 ∧
      Tracks decode segmentBytes article (n + 1)
        (bodyLineCb decode segmentBytes outcomes line ctx file).1
        (bodyLineCb decode segmentBytes outcomes line ctx file).2 := by
  by_cases done : ctx.yencState = .done
  · rw [bodyLineCb_done done]
    exact ⟨.refl, tracks.of_done done _⟩
  cases n with
  | zero =>
    cases found
    obtain ⟨unchanged, after⟩ := tracks.beginLine done
    rw [unchanged]
    exact ⟨.refl, after⟩
  | succ n =>
    rw [lines, getElem?_cons_succ] at found
    rcases Nat.lt_or_ge n article.body.length with inside | last
    · rw [getElem?_append_left inside] at found
      by_cases isFirst : 0 < n ∨ article.partLine = none
      · exact tracks.dataLine done found (isData_of_body found isFirst)
      obtain ⟨rfl, multi⟩ : n = 0 ∧ article.partLine ≠ none := by
        simpa [not_or] using isFirst
      obtain ⟨first, part⟩ := Option.ne_none_iff_exists'.mp multi
      simp only [body, part] at found
      cases found
      exact tracks.partLine done part
    · obtain rfl : n = article.body.length := by
        have bound := (List.getElem?_eq_some_iff.mp found).1
        rw [List.length_append, List.length_singleton] at bound
        omega
      rw [List.getElem?_concat_length] at found
      cases found
      exact tracks.endLine done

theorem Tracks.flush {pwrite : Extent → Option ℕ}
    (tracks : Tracks decode segmentBytes article n ctx file) :
    file.Extends (article.range segmentBytes) (segmentFlush pwrite ctx file).2 := by
  cases state : ctx.yencState with
  | wantBegin =>
    rw [segmentFlush, (tracks.unresolved (.inl state)).1]
    exact .refl
  | wantPartOrData =>
    rw [segmentFlush, (tracks.unresolved (.inr state)).1]
    exact .refl
  | inData =>
    obtain ⟨emitted, streams⟩ := tracks.resolved state
    exact streams.placed.flush.grown
  | done => exact (tracks.complete state).placed.flush.grown

theorem Tracks.accepted {status : ℤ} (tracks : Tracks decode segmentBytes article n ctx file)
    (marked : (segmentDoneCb pwrite status ctx file).1) :
    (article.extent decode segmentBytes).In (segmentDoneCb pwrite status ctx file).2.content := by
  simp only [segmentDoneCb, SegmentCtx.accepts, Bool.and_eq_true, Bool.not_eq_true',
    Bool.or_eq_false_iff, decide_eq_false_iff_not, not_not] at marked
  obtain ⟨⟨⟨⟨working, opened⟩, _⟩, ⟨_, done⟩, _⟩, _⟩ := marked
  have complete := tracks.complete (segmentFlush_framing.yencState.symm.trans done)
  rcases complete.placed.flush.placed with failed | ⟨flushed, buffered, buffers, short⟩
  · rcases failed with failed | failed
    · rw [failed] at working
      contradiction
    · rw [failed] at opened
      contradiction
  · obtain rfl : buffered = [] := eq_nil_of_length_eq_zero (by omega)
    have held := buffers.held
    rwa [← append_nil flushed, buffers.total] at held

end Lines

section Attempts

variable (decode : Bytes → Bytes) (segmentBytes : ℤ) (article : Article)

/-- One attempt breaks off where its list of outcomes ends. -/
def deliverLines (lines : List Bytes) (state : SegmentCtx × FileDl) (attempt : List Outcomes) :
    SegmentCtx × FileDl :=
  deliverTo decode segmentBytes state (lines.zip attempt)

/-- `run_job`, as the callback sees it: each attempt delivers the first lines of
the article, to a context that is new only for the first attempt. -/
def fetchSegment (attempts : List (List Outcomes)) (file : FileDl) : SegmentCtx × FileDl :=
  attempts.foldl (deliverLines decode segmentBytes article.lines) ({}, file)

variable {decode segmentBytes article} {file : FileDl} {state : SegmentCtx × FileDl} {n : ℕ}

theorem Tracks.deliverLines (attempt : List Outcomes)
    (tracks : Tracks decode segmentBytes article n state.1 state.2) :
    let after := deliverLines decode segmentBytes (article.lines.drop n) state attempt
    state.2.Extends (article.range segmentBytes) after.2 ∧
      Tracks decode segmentBytes article 0 after.1 after.2 := by
  induction attempt generalizing n state with
  | nil =>
    rw [Download.deliverLines, zip_nil_right, deliverTo]
    exact ⟨.refl, tracks.retry⟩
  | cons outcomes rest ih =>
    rcases Nat.lt_or_ge n article.lines.length with inside | beyond
    · rw [Download.deliverLines, drop_eq_getElem_cons inside, zip_cons_cons, deliverTo,
        foldl_cons]
      obtain ⟨grown, next⟩ := tracks.deliver (getElem?_eq_getElem inside)
      obtain ⟨grown', after⟩ := ih next
      exact ⟨grown.trans grown', after⟩
    · rw [Download.deliverLines, drop_eq_nil_of_le beyond, deliverTo]
      exact ⟨.refl, tracks.retry⟩

theorem fetchSegment_tracks (attempts : List (List Outcomes)) :
    file.Extends (article.range segmentBytes)
        (fetchSegment decode segmentBytes article attempts file).2 ∧
      Tracks decode segmentBytes article 0
        (fetchSegment decode segmentBytes article attempts file).1
        (fetchSegment decode segmentBytes article attempts file).2 := by
  induction attempts using reverseRecOn with
  | nil => exact ⟨.refl, .initial⟩
  | append_singleton attempts last ih =>
    rw [fetchSegment, foldl_append]
    obtain ⟨grown, after⟩ := ih.2.deliverLines last
    exact ⟨ih.1.trans grown, after⟩

/-- However the attempts to fetch an article break off, and wherever writes fail,
a segment that is marked has its decoded bytes in the file, as many as its range
has room for; and all that was ever written for it is in the range. -/
theorem segment_bytes_in_place (decode : Bytes → Bytes) (segmentBytes : ℤ) (article : Article)
    (attempts : List (List Outcomes)) (pwrite : Extent → Option ℕ) (status : ℤ) (file : FileDl) :
    let (ctx, fetched) := fetchSegment decode segmentBytes article attempts file
    let (marked, after) := segmentDoneCb pwrite status ctx fetched
    (marked = true → (article.extent decode segmentBytes).In after.content) ∧
      ∃ new, after.writes = new ++ file.writes ∧
        ∀ part ∈ new, WithinRange (article.range segmentBytes) part := by
  obtain ⟨grown, tracks⟩ : file.Extends (article.range segmentBytes)
        (fetchSegment decode segmentBytes article attempts file).2 ∧
      Tracks decode segmentBytes article 0 _ _ := fetchSegment_tracks attempts
  exact ⟨tracks.accepted, (grown.trans tracks.flush).writes⟩

def Outcomes.success : Outcomes :=
  ⟨true, true, fun _ => none⟩

def secondPart : Article where
  beginLine := ascii "=ybegin part=2 line=2 size=6 name=a.bin"
  partLine := some (ascii "=ypart begin=4 end=6")
  dataLines := [ascii "kl", ascii "m"]
  endLine := ascii "=yend size=3 part=2"
  isBegin := by decide +kernel
  isPart := by decide +kernel
  isData := by decide +kernel
  isEnd := by decide +kernel

example : (fun state => (segmentDoneCb (fun _ => none) 222 state.1 state.2).1 &&
      (segmentDoneCb (fun _ => none) 222 state.1 state.2).2.content = [0, 0, 0] ++ ascii "ABC")
    (fetchSegment (fun line => line.map (· - 42)) 0 secondPart
      [replicate 3 .success, replicate 5 .success] ⟨false, false, 1, [], []⟩) = true := by
  decide +kernel

end Attempts

end NzbDownloader.Download
