import NzbDownloader.Util.Crc32
import NzbDownloader.Yenc.Line

/-!
# Decoding one segment into its file

The callbacks that stream one article into the shared file of its segments:
`body_line_cb` for each line and `segment_done_cb` at the end.  The context of a
segment survives the attempts of the pool to fetch the article; only a second
`=ybegin` line resets it.
-/

namespace NzbDownloader.Download

open Lib Util Yenc List

inductive YencState
  | wantBegin
  | wantPartOrData
  | inData
  | done
  deriving DecidableEq, Repr

structure FileDl where
  fd : Bool
  openFailed : Bool
  remaining : ℕ
  initial : Bytes
  writes : List Extent
  deriving Repr

namespace FileDl

def content (file : FileDl) : Bytes :=
  file.writes.foldr (fun part before => writeAt before part.offset part.data) file.initial

def write (file : FileDl) (part : Extent) : FileDl :=
  { file with writes := part :: file.writes }

end FileDl

structure SegmentCtx where
  yencState : YencState := .wantBegin
  ybeginSize : ℤ := 0
  haveYbeginSize : Bool := false
  crc : BitVec 32 := crc32Init
  expectedCrc : BitVec 32 := 0
  haveExpectedCrc : Bool := false
  yencFailed : Bool := false
  offset : ℕ := 0
  budget : ℕ := 0
  written : ℕ := 0
  rangeResolved : Bool := false
  writeFailed : Bool := false
  wbuf : Option Bytes := none
  deriving Repr

structure Outcomes where
  malloc : Bool
  openFile : Bool
  pwrite : Extent → Option ℕ

def segWbufSize : ℕ :=
  65536

def segmentFlush (pwrite : Extent → Option ℕ) (ctx : SegmentCtx) (file : FileDl) :
    SegmentCtx × FileDl :=
  match ctx.wbuf with
  | none | some [] => (ctx, file)
  | some (byte :: rest) =>
      if ctx.writeFailed || file.openFailed || !file.fd then ({ ctx with wbuf := some [] }, file)
      else
        let part : Extent := ⟨ctx.offset + ctx.written, byte :: rest⟩
        match pwrite part with
        | some taken =>
            ({ ctx with writeFailed := true, wbuf := some [] },
              file.write { part with data := part.data.take taken })
        | none =>
            ({ ctx with written := ctx.written + part.data.length, wbuf := some [] },
              file.write part)

/-- One round of the loop of `buffer_append`: copies the bytes to the buffer and
flushes it if that fills it. -/
def fillBuffer (pwrite : Extent → Option ℕ) (data : Bytes) (ctx : SegmentCtx) (file : FileDl) :
    SegmentCtx × FileDl :=
  let buffered := ctx.wbuf.getD [] ++ data
  let ctx := { ctx with wbuf := some buffered }
  if buffered.length = segWbufSize then segmentFlush pwrite ctx file else (ctx, file)

def appendLoop (pwrite : Extent → Option ℕ) :
    (rounds : ℕ) → Bytes → SegmentCtx → FileDl → SegmentCtx × FileDl
  | 0, _, ctx, file => (ctx, file)
  | rounds + 1, data, ctx, file =>
      if data = [] then (ctx, file)
      else
        let space := segWbufSize - (ctx.wbuf.getD []).length
        let take := min data.length space
        let (ctx, file) := fillBuffer pwrite (data.take take) ctx file
        appendLoop pwrite rounds (data.drop take) ctx file

def bufferAppend (pwrite : Extent → Option ℕ) (data : Bytes) (ctx : SegmentCtx) (file : FileDl) :
    SegmentCtx × FileDl :=
  if ctx.writeFailed || file.openFailed || !file.fd || ctx.wbuf = none then (ctx, file)
  else
    let remainingBudget := ctx.budget - ctx.written - (ctx.wbuf.getD []).length
    appendLoop pwrite data.length (data.take remainingBudget) ctx file

def resolveSegmentRange (outcomes : Outcomes) (offset budget : ℤ) (ctx : SegmentCtx)
    (file : FileDl) : SegmentCtx × FileDl :=
  let ctx := { ctx with
    offset := offset.toNat, budget := budget.toNat, rangeResolved := true }
  if !outcomes.malloc then ({ ctx with writeFailed := true, wbuf := none }, file)
  else
    let ctx := { ctx with wbuf := some [] }
    if !file.fd && !file.openFailed then
      if outcomes.openFile then (ctx, { file with fd := true })
      else (ctx, { file with openFailed := true })
    else (ctx, file)

def SegmentCtx.restart (ctx : SegmentCtx) : SegmentCtx :=
  { ctx with
    wbuf := none
    written := 0
    crc := crc32Init
    haveExpectedCrc := false
    expectedCrc := 0
    yencFailed := false
    rangeResolved := false
    yencState := .wantBegin }

section Callbacks

variable (decode : Bytes → Bytes) (segmentBytes : ℤ)

def dataLineCb (outcomes : Outcomes) (line : Bytes) (ctx : SegmentCtx) (file : FileDl) :
    SegmentCtx × FileDl :=
  match classifyLine line with
  | (.yend, fields) =>
      if fields.hasCrc32 then
        ({ ctx with expectedCrc := fields.crc32, haveExpectedCrc := true, yencState := .done }, file)
      else ({ ctx with yencState := .done }, file)
  | (.data, _) =>
      let data := decodeLine decode line
      bufferAppend outcomes.pwrite data { ctx with crc := crc32Update ctx.crc data } file
  | _ => (ctx, file)

def bodyLineCb (outcomes : Outcomes) (line : Bytes) (ctx : SegmentCtx) (file : FileDl) :
    SegmentCtx × FileDl :=
  if ctx.yencState = .done then (ctx, file)
  else
    let (kind, fields) := classifyLine line
    let ctx := if kind = .ybegin ∧ ctx.yencState ≠ .wantBegin then ctx.restart else ctx
    match ctx.yencState with
    | .wantBegin =>
        if kind ≠ .ybegin then (ctx, file)
        else
          ({ ctx with
            haveYbeginSize := fields.hasSize
            ybeginSize := fields.size
            yencState := .wantPartOrData }, file)
    | .wantPartOrData =>
        if kind = .ypart then
          if !fields.hasRange ∨ fields.rangeBegin < 1 ∨ fields.rangeEnd < fields.rangeBegin then
            ({ ctx with yencFailed := true, yencState := .done }, file)
          else
            let (ctx, file) := resolveSegmentRange outcomes (fields.rangeBegin - 1)
              (fields.rangeEnd - fields.rangeBegin + 1) ctx file
            ({ ctx with yencState := .inData }, file)
        else
          let (ctx, file) := resolveSegmentRange outcomes 0
            (if ctx.haveYbeginSize then ctx.ybeginSize else segmentBytes) ctx file
          dataLineCb decode outcomes line { ctx with yencState := .inData } file
    | .inData | .done => dataLineCb decode outcomes line ctx file

/-- Delivers lines to `body_line_cb`, each with the outcomes of the system calls it makes. -/
def deliverTo (state : SegmentCtx × FileDl) (deliveries : List (Bytes × Outcomes)) :
    SegmentCtx × FileDl :=
  deliveries.foldl
    (fun state delivery => bodyLineCb decode segmentBytes delivery.2 delivery.1 state.1 state.2) state

def SegmentCtx.accepts (ctx : SegmentCtx) (openFailed : Bool) (status : ℤ) : Bool :=
  !(ctx.writeFailed || openFailed) && (status = 220 || status = 222) &&
    !(!ctx.rangeResolved || ctx.yencState ≠ .done || ctx.yencFailed) &&
    !(ctx.haveExpectedCrc && crc32Final ctx.crc ≠ ctx.expectedCrc)

def segmentDoneCb (pwrite : Extent → Option ℕ) (status : ℤ) (ctx : SegmentCtx) (file : FileDl) :
    Bool × FileDl :=
  let (ctx, file) := segmentFlush pwrite ctx file
  (ctx.accepts file.openFailed status, file)

end Callbacks

variable {ctx : SegmentCtx} {file : FileDl} {range : ℕ × ℕ} {bytes : Bytes} {limit : ℕ}

section Cases

variable {decode : Bytes → Bytes} {segmentBytes : ℤ} {outcomes : Outcomes} {line : Bytes}

theorem bodyLineCb_done (done : ctx.yencState = .done) :
    bodyLineCb decode segmentBytes outcomes line ctx file = (ctx, file) :=
  if_pos done

theorem bodyLineCb_begin (more : ctx.yencState ≠ .done) (isBegin : (classifyLine line).1 = .ybegin) :
    bodyLineCb decode segmentBytes outcomes line ctx file =
      ({ (if ctx.yencState = .wantBegin then ctx else ctx.restart) with
        haveYbeginSize := (classifyLine line).2.hasSize
        ybeginSize := (classifyLine line).2.size
        yencState := .wantPartOrData }, file) := by
  unfold bodyLineCb
  rw [if_neg more]
  by_cases first : ctx.yencState = .wantBegin
  · simp [isBegin, first]
  · simp [isBegin, first, SegmentCtx.restart]

theorem bodyLineCb_part (state : ctx.yencState = .wantPartOrData)
    (isPart : (classifyLine line).1 = .ypart) :
    bodyLineCb decode segmentBytes outcomes line ctx file =
      if (classifyLine line).2.validRange then
        ({ (resolveSegmentRange outcomes ((classifyLine line).2.rangeBegin - 1)
            ((classifyLine line).2.rangeEnd - (classifyLine line).2.rangeBegin + 1) ctx file).1 with
            yencState := .inData },
          (resolveSegmentRange outcomes ((classifyLine line).2.rangeBegin - 1)
            ((classifyLine line).2.rangeEnd - (classifyLine line).2.rangeBegin + 1) ctx file).2)
      else ({ ctx with yencFailed := true, yencState := .done }, file) := by
  unfold bodyLineCb
  rw [if_neg (by simp [state])]
  simp only [isPart, state]
  rw [if_neg (by simp), state]
  dsimp only
  rw [if_pos trivial]
  cases valid : (classifyLine line).2.validRange with
  | true =>
    simp only [Line.validRange, Bool.and_eq_true, decide_eq_true_eq] at valid
    rw [if_neg (by simp [valid.1.1, valid.1.2, valid.2])]
    rfl
  | false =>
    rw [if_pos]
    · rfl
    by_contra fine
    simp only [Bool.not_eq_true', not_or, Bool.not_eq_false, not_lt] at fine
    simp [Line.validRange, fine] at valid

theorem bodyLineCb_first (state : ctx.yencState = .wantPartOrData)
    (notBegin : (classifyLine line).1 ≠ .ybegin) (notPart : (classifyLine line).1 ≠ .ypart) :
    bodyLineCb decode segmentBytes outcomes line ctx file =
      dataLineCb decode outcomes line
        { (resolveSegmentRange outcomes 0
            (if ctx.haveYbeginSize then ctx.ybeginSize else segmentBytes) ctx file).1 with
          yencState := .inData }
        (resolveSegmentRange outcomes 0
          (if ctx.haveYbeginSize then ctx.ybeginSize else segmentBytes) ctx file).2 := by
  unfold bodyLineCb
  rw [if_neg (by simp [state])]
  simp only [notBegin, false_and, if_false, state, notPart]

theorem bodyLineCb_junk (state : ctx.yencState = .wantBegin)
    (notBegin : (classifyLine line).1 ≠ .ybegin) :
    bodyLineCb decode segmentBytes outcomes line ctx file = (ctx, file) := by
  unfold bodyLineCb
  rw [if_neg (by simp [state])]
  simp [notBegin, state]

theorem bodyLineCb_inData (state : ctx.yencState = .inData)
    (notBegin : (classifyLine line).1 ≠ .ybegin) :
    bodyLineCb decode segmentBytes outcomes line ctx file =
      dataLineCb decode outcomes line ctx file := by
  unfold bodyLineCb
  rw [if_neg (by simp [state])]
  simp only [notBegin, false_and, if_false, state]

theorem dataLineCb_data (isData : (classifyLine line).1 = .data) :
    dataLineCb decode outcomes line ctx file =
      bufferAppend outcomes.pwrite (decodeLine decode line)
        { ctx with crc := crc32Update ctx.crc (decodeLine decode line) } file := by
  unfold dataLineCb
  generalize classifyLine line = classified at isData
  obtain ⟨kind, fields⟩ := classified
  cases isData
  rfl

theorem dataLineCb_end (isEnd : (classifyLine line).1 = .yend) :
    dataLineCb decode outcomes line ctx file =
      (if (classifyLine line).2.hasCrc32 then
        { ctx with
          expectedCrc := (classifyLine line).2.crc32
          haveExpectedCrc := true
          yencState := .done }
      else { ctx with yencState := .done }, file) := by
  unfold dataLineCb
  generalize classifyLine line = classified at isEnd
  obtain ⟨kind, fields⟩ := classified
  cases isEnd
  dsimp only
  split <;> rfl

theorem dataLineCb_other (notData : (classifyLine line).1 ≠ .data)
    (notEnd : (classifyLine line).1 ≠ .yend) :
    dataLineCb decode outcomes line ctx file = (ctx, file) := by
  unfold dataLineCb
  generalize classifyLine line = classified at notData notEnd
  obtain ⟨kind, fields⟩ := classified
  cases kind with
  | data => exact absurd rfl notData
  | yend => exact absurd rfl notEnd
  | ybegin | ypart => rfl

end Cases

def WithinRange (range : ℕ × ℕ) (part : Extent) : Prop :=
  range.1 ≤ part.offset ∧ part.offset + part.data.length ≤ range.1 + range.2

/-- The file is written in the range only.  Once it is settled whether the file
can be opened, that does not change. -/
structure FileDl.Extends (range : ℕ × ℕ) (file file' : FileDl) : Prop where
  initial : file'.initial = file.initial
  remaining : file'.remaining = file.remaining
  writes : ∃ new, file'.writes = new ++ file.writes ∧ ∀ part ∈ new, WithinRange range part
  settled : file.fd = true ∨ file.openFailed = true →
    file'.fd = file.fd ∧ file'.openFailed = file.openFailed

namespace FileDl.Extends

variable {file' file'' : FileDl}

theorem refl : FileDl.Extends range file file where
  initial := rfl
  remaining := rfl
  writes := ⟨[], rfl, by simp⟩
  settled _ := ⟨rfl, rfl⟩

theorem trans (first : FileDl.Extends range file file')
    (second : FileDl.Extends range file' file'') : FileDl.Extends range file file'' where
  initial := second.initial.trans first.initial
  remaining := second.remaining.trans first.remaining
  writes := by
    obtain ⟨new, grown, inside⟩ := first.writes
    obtain ⟨new', grown', inside'⟩ := second.writes
    refine ⟨new' ++ new, by rw [grown', grown, append_assoc], ?_⟩
    intro part member
    rcases mem_append.mp member with later | earlier
    · exact inside' part later
    · exact inside part earlier
  settled known := by
    obtain ⟨fd, openFailed⟩ := first.settled known
    rw [← fd, ← openFailed]
    apply second.settled
    rw [fd, openFailed]
    exact known

theorem write {part : Extent} (inside : WithinRange range part) :
    FileDl.Extends range file (file.write part) where
  initial := rfl
  remaining := rfl
  writes := ⟨[part], rfl, by simpa using inside⟩
  settled _ := ⟨rfl, rfl⟩

end FileDl.Extends

/-- The contexts differ in the buffer and in what has been written at most. -/
structure SameFraming (ctx ctx' : SegmentCtx) : Prop where
  yencState : ctx'.yencState = ctx.yencState
  offset : ctx'.offset = ctx.offset
  budget : ctx'.budget = ctx.budget
  rangeResolved : ctx'.rangeResolved = ctx.rangeResolved
  crc : ctx'.crc = ctx.crc
  expectedCrc : ctx'.expectedCrc = ctx.expectedCrc
  haveExpectedCrc : ctx'.haveExpectedCrc = ctx.haveExpectedCrc
  yencFailed : ctx'.yencFailed = ctx.yencFailed

theorem sameFraming_buffer {wbuf : Option Bytes} {written : ℕ} {writeFailed : Bool} :
    SameFraming ctx { ctx with wbuf, written, writeFailed } :=
  ⟨rfl, rfl, rfl, rfl, rfl, rfl, rfl, rfl⟩

theorem SameFraming.trans {ctx' ctx'' : SegmentCtx} (first : SameFraming ctx ctx')
    (second : SameFraming ctx' ctx'') : SameFraming ctx ctx'' where
  yencState := second.yencState.trans first.yencState
  offset := second.offset.trans first.offset
  budget := second.budget.trans first.budget
  rangeResolved := second.rangeResolved.trans first.rangeResolved
  crc := second.crc.trans first.crc
  expectedCrc := second.expectedCrc.trans first.expectedCrc
  haveExpectedCrc := second.haveExpectedCrc.trans first.haveExpectedCrc
  yencFailed := second.yencFailed.trans first.yencFailed

def Failed (ctx : SegmentCtx) (file : FileDl) : Prop :=
  ctx.writeFailed = true ∨ file.openFailed = true

/-- The bytes to place at the start of the range are in the file up to some
point, and the others are in the buffer. -/
structure Buffers (range : ℕ × ℕ) (bytes : Bytes) (ctx : SegmentCtx) (file : FileDl)
    (flushed buffered : Bytes) : Prop where
  fd : file.fd = true
  opened : file.openFailed = false
  working : ctx.writeFailed = false
  offset : ctx.offset = range.1
  wbuf : ctx.wbuf = some buffered
  written : ctx.written = flushed.length
  total : flushed ++ buffered = bytes
  fits : bytes.length ≤ range.2
  held : Extent.In ⟨range.1, flushed⟩ file.content

/-- All bytes are placed, with at most `limit` of them still in the buffer, or a
failure has occurred. -/
def BytesPlaced (range : ℕ × ℕ) (bytes : Bytes) (limit : ℕ) (ctx : SegmentCtx) (file : FileDl) : Prop :=
  Failed ctx file ∨
    ∃ flushed buffered, Buffers range bytes ctx file flushed buffered ∧ buffered.length ≤ limit

theorem BytesPlaced.mono {limit' : ℕ} (placed : BytesPlaced range bytes limit ctx file)
    (le : limit ≤ limit') : BytesPlaced range bytes limit' ctx file := by
  rcases placed with failed | ⟨flushed, buffered, buffers, short⟩
  · exact .inl failed
  · exact .inr ⟨flushed, buffered, buffers, short.trans le⟩

structure Places (range : ℕ × ℕ) (bytes : Bytes) (limit : ℕ) (file : FileDl)
    (result : SegmentCtx × FileDl) : Prop where
  grown : file.Extends range result.2
  placed : BytesPlaced range bytes limit result.1 result.2

theorem Places.of_failed {result : SegmentCtx × FileDl}
    (failed : result.2 = file ∧ Failed result.1 file) : Places range bytes limit file result where
  grown := by
    rw [failed.1]
    exact .refl
  placed := by
    rw [failed.1]
    exact .inl failed.2

section Buffer

variable {pwrite : Extent → Option ℕ} {flushed buffered data : Bytes} {rounds : ℕ}

theorem segmentFlush_framing : SameFraming ctx (segmentFlush pwrite ctx file).1 := by
  unfold segmentFlush
  split
  · exact sameFraming_buffer
  · exact sameFraming_buffer
  · split
    · exact sameFraming_buffer
    · dsimp only
      split <;> exact sameFraming_buffer

theorem segmentFlush_of_failed (failed : Failed ctx file) :
    (segmentFlush pwrite ctx file).2 = file ∧ Failed (segmentFlush pwrite ctx file).1 file := by
  unfold segmentFlush
  split
  · exact ⟨rfl, failed⟩
  · exact ⟨rfl, failed⟩
  · rw [if_pos (by rcases failed with failed | failed <;> simp [failed])]
    exact ⟨rfl, failed⟩

theorem Buffers.flush (buffers : Buffers range bytes ctx file flushed buffered) :
    Places range bytes 0 file (segmentFlush pwrite ctx file) := by
  have fits := buffers.fits
  rw [← buffers.total, length_append] at fits
  have inside : ∀ n, WithinRange range ⟨ctx.offset + ctx.written, buffered.take n⟩ := by
    intro n
    simp only [WithinRange, buffers.offset, buffers.written, length_take]
    omega
  unfold segmentFlush
  rw [buffers.wbuf]
  cases buffered with
  | nil => exact ⟨.refl, .inr ⟨flushed, [], buffers, le_rfl⟩⟩
  | cons byte rest =>
    dsimp only
    rw [if_neg (by simp [buffers.working, buffers.opened, buffers.fd])]
    split
    · exact ⟨.write (inside _), .inl (.inl rfl)⟩
    refine ⟨.write (by simpa using inside (rest.length + 1)), .inr ⟨bytes, [], ?_, le_rfl⟩⟩
    have prolonged := Extent.In.append buffers.held (byte :: rest)
    constructor
    · exact buffers.fd
    · exact buffers.opened
    · exact buffers.working
    · exact buffers.offset
    · rfl
    · rw [buffers.written, ← buffers.total, length_append]
    · exact append_nil _
    · exact buffers.fits
    · rw [buffers.offset, buffers.written, ← buffers.total]
      exact prolonged

theorem BytesPlaced.flush (placed : BytesPlaced range bytes limit ctx file) :
    Places range bytes 0 file (segmentFlush pwrite ctx file) := by
  rcases placed with failed | ⟨flushed, buffered, buffers, _⟩
  · exact .of_failed (segmentFlush_of_failed failed)
  · exact buffers.flush

theorem Buffers.add (buffers : Buffers range bytes ctx file flushed buffered)
    (fits : (bytes ++ data).length ≤ range.2) :
    Buffers range (bytes ++ data) { ctx with wbuf := some (buffered ++ data) } file flushed
      (buffered ++ data) where
  fd := buffers.fd
  opened := buffers.opened
  working := buffers.working
  offset := buffers.offset
  wbuf := rfl
  written := buffers.written
  total := by rw [← buffers.total, append_assoc]
  fits := fits
  held := buffers.held

theorem fillBuffer_framing : SameFraming ctx (fillBuffer pwrite data ctx file).1 := by
  have copied : SameFraming ctx { ctx with wbuf := some (ctx.wbuf.getD [] ++ data) } :=
    sameFraming_buffer
  unfold fillBuffer
  dsimp only
  split
  · exact copied.trans segmentFlush_framing
  · exact copied

theorem fillBuffer_of_failed (failed : Failed ctx file) :
    (fillBuffer pwrite data ctx file).2 = file ∧
      Failed (fillBuffer pwrite data ctx file).1 file := by
  have copied : Failed { ctx with wbuf := some (ctx.wbuf.getD [] ++ data) } file := failed
  unfold fillBuffer
  dsimp only
  split
  · exact segmentFlush_of_failed copied
  · exact ⟨rfl, copied⟩

theorem Buffers.fill (buffers : Buffers range bytes ctx file flushed buffered)
    (room : buffered.length + data.length ≤ segWbufSize)
    (fits : (bytes ++ data).length ≤ range.2) :
    Places range (bytes ++ data) (segWbufSize - 1) file (fillBuffer pwrite data ctx file) := by
  have added := buffers.add fits
  unfold fillBuffer
  rw [buffers.wbuf, Option.getD_some]
  dsimp only
  split
  · exact ⟨added.flush.grown, added.flush.placed.mono (Nat.zero_le _)⟩
  · rename_i space
    rw [length_append] at space
    exact ⟨.refl, .inr ⟨flushed, buffered ++ data, added, by rw [length_append]; omega⟩⟩

theorem appendLoop_framing : SameFraming ctx (appendLoop pwrite rounds data ctx file).1 := by
  induction rounds generalizing data ctx file with
  | zero => exact sameFraming_buffer
  | succ rounds ih =>
    unfold appendLoop
    split
    · exact sameFraming_buffer
    · exact fillBuffer_framing.trans ih

theorem appendLoop_of_failed (failed : Failed ctx file) :
    (appendLoop pwrite rounds data ctx file).2 = file ∧
      Failed (appendLoop pwrite rounds data ctx file).1 file := by
  induction rounds generalizing data ctx with
  | zero => exact ⟨rfl, failed⟩
  | succ rounds ih =>
    unfold appendLoop
    split
    · exact ⟨rfl, failed⟩
    · dsimp only
      rw [(fillBuffer_of_failed failed).1]
      exact ih (fillBuffer_of_failed failed).2

theorem Buffers.loop (buffers : Buffers range bytes ctx file flushed buffered)
    (room : buffered.length < segWbufSize) (enough : data.length ≤ rounds)
    (fits : (bytes ++ data).length ≤ range.2) :
    Places range (bytes ++ data) (segWbufSize - 1) file
      (appendLoop pwrite rounds data ctx file) := by
  induction rounds generalizing data ctx file bytes flushed buffered with
  | zero =>
    obtain rfl : data = [] := eq_nil_of_length_eq_zero (by omega)
    rw [append_nil]
    exact ⟨.refl, .inr ⟨flushed, buffered, buffers, by omega⟩⟩
  | succ rounds ih =>
    unfold appendLoop
    split
    · rename_i empty
      rw [empty, append_nil]
      exact ⟨.refl, .inr ⟨flushed, buffered, buffers, by omega⟩⟩
    · rename_i nonempty
      rw [buffers.wbuf, Option.getD_some]
      set taken := min data.length (segWbufSize - buffered.length)
      have split : bytes ++ data = bytes ++ data.take taken ++ data.drop taken := by
        rw [append_assoc, take_append_drop]
      have shorter : (data.drop taken).length ≤ rounds := by
        rw [length_drop]
        omega
      rw [split] at fits ⊢
      have here : Places range (bytes ++ data.take taken) (segWbufSize - 1) file
          (fillBuffer pwrite (data.take taken) ctx file) := by
        apply buffers.fill
        · rw [length_take]
          omega
        · rw [length_append] at fits
          omega
      have later : Places range (bytes ++ data.take taken ++ data.drop taken) (segWbufSize - 1)
          (fillBuffer pwrite (data.take taken) ctx file).2
          (appendLoop pwrite rounds (data.drop taken)
            (fillBuffer pwrite (data.take taken) ctx file).1
            (fillBuffer pwrite (data.take taken) ctx file).2) := by
        rcases here.placed with failed | ⟨flushed', buffered', buffers', short⟩
        · exact .of_failed (appendLoop_of_failed failed)
        · exact ih buffers' (by omega) shorter fits
      exact ⟨here.grown.trans later.grown, later.placed⟩

end Buffer

end NzbDownloader.Download
