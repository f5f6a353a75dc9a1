import NzbDownloader.Download.Placement

/-!
# Which segments are accepted

`segment_done_cb` marks a segment once its framing is complete and the checksum on the
`=yend` line, if there is one, matches.
-/

namespace NzbDownloader.Download

open Lib Util Yenc List Article

theorem resolveSegmentRange_checks {ctx : SegmentCtx} {file : FileDl} {outcomes : Outcomes}
    {offset budget : ℤ} :
    let after := (resolveSegmentRange outcomes offset budget ctx file).1
    after.crc = ctx.crc ∧ after.yencFailed = ctx.yencFailed ∧
      after.haveExpectedCrc = ctx.haveExpectedCrc ∧ after.rangeResolved = true := by
  unfold resolveSegmentRange
  split
  · exact ⟨rfl, rfl, rfl, rfl⟩
  · split
    · split <;> exact ⟨rfl, rfl, rfl, rfl⟩
    · exact ⟨rfl, rfl, rfl, rfl⟩

section Attempt

variable (decode : Bytes → Bytes) (segmentBytes : ℤ)

def declared (beginLine : Bytes) (middle : List Bytes) : ℕ × ℕ :=
  declaredRange segmentBytes beginLine
    (middle.head?.filter fun first => (classifyLine first).1 = .ypart)

structure Blank (ctx : SegmentCtx) : Prop where
  wbuf : ctx.wbuf = none
  written : ctx.written = 0
  crc : ctx.crc = crc32Init
  unchecked : ctx.haveExpectedCrc = false
  intact : ctx.yencFailed = false

structure Begun (beginLine : Bytes) (ctx : SegmentCtx) : Prop extends Blank ctx where
  isBegin : (classifyLine beginLine).1 = .ybegin
  hasSize : ctx.haveYbeginSize = (classifyLine beginLine).2.hasSize
  size : ctx.ybeginSize = (classifyLine beginLine).2.size

structure Decodes (range : ℕ × ℕ) (emitted : Bytes) (ctx : SegmentCtx) (file : FileDl) : Prop where
  streams : Streams range emitted ctx file
  crc : ctx.crc = crc32Update crc32Init emitted
  intact : ctx.yencFailed = false
  resolved : ctx.rangeResolved = true

/-- The context after a `=ybegin` line and lines that neither start the article again nor
end it. -/
structure Receives (beginLine : Bytes) (middle : List Bytes) (ctx : SegmentCtx)
    (file : FileDl) : Prop where
  isBegin : (classifyLine beginLine).1 = .ybegin
  inside : ∀ line ∈ middle, (classifyLine line).1 ≠ .ybegin ∧ (classifyLine line).1 ≠ .yend
  decodes : Decodes (declared segmentBytes beginLine middle) (decodeAll decode middle) ctx file

structure Expects (endLine : Bytes) (ctx : SegmentCtx) : Prop where
  isEnd : (classifyLine endLine).1 = .yend
  checked : ctx.haveExpectedCrc = (classifyLine endLine).2.hasCrc32
  expected : ctx.haveExpectedCrc = true → ctx.expectedCrc = (classifyLine endLine).2.crc32

def Receiving (beginLine : Bytes) (middle : List Bytes) (state : SegmentCtx × FileDl) : Prop :=
  Receives decode segmentBytes beginLine middle state.1 state.2 ∧ state.1.yencState = .inData ∧
    state.1.haveExpectedCrc = false

def Received (beginLine : Bytes) (middle : List Bytes) (endLine : Bytes)
    (state : SegmentCtx × FileDl) : Prop :=
  Receives decode segmentBytes beginLine middle state.1 state.2 ∧ state.1.yencState = .done ∧
    Expects endLine state.1

def Parses (seen : List Bytes) (ctx : SegmentCtx) (file : FileDl) : Prop :=
  match ctx.yencState with
  | .wantBegin => Blank ctx
  | .wantPartOrData => ∃ before beginLine, seen = before ++ [beginLine] ∧ Begun beginLine ctx
  | .inData => ∃ before beginLine middle, seen = before ++ beginLine :: middle ∧ middle ≠ [] ∧
      Receives decode segmentBytes beginLine middle ctx file ∧ ctx.haveExpectedCrc = false
  | .done => ctx.yencFailed = true ∨ ∃ before beginLine middle endLine after,
      seen = before ++ beginLine :: (middle ++ endLine :: after) ∧
      Receives decode segmentBytes beginLine middle ctx file ∧ Expects endLine ctx

end Attempt

section Step

variable {decode : Bytes → Bytes} {segmentBytes : ℤ} {outcomes : Outcomes} {ctx : SegmentCtx}
  {file : FileDl} {line beginLine : Bytes} {middle seen : List Bytes}

theorem declared_singleton (line : Bytes) : declared segmentBytes beginLine [line] =
    declaredRange segmentBytes beginLine
      (if (classifyLine line).1 = .ypart then some line else none) := by
  simp only [declared, head?_cons, Option.filter_some, decide_eq_true_eq]

theorem declared_concat (started : middle ≠ []) (line : Bytes) :
    declared segmentBytes beginLine (middle ++ [line]) = declared segmentBytes beginLine middle := by
  cases middle with
  | nil => contradiction
  | cons first rest => rfl

theorem decodeAll_singleton (line : Bytes) : decodeAll decode [line] =
    if (classifyLine line).1 = .data then decodeLine decode line else [] :=
  flatMap_singleton _ _

theorem begun_of_begin (fresh : ctx.yencState = .wantBegin → Blank ctx)
    (more : ctx.yencState ≠ .done) (isBegin : (classifyLine line).1 = .ybegin) :
    (bodyLineCb decode segmentBytes outcomes line ctx file).1.yencState = .wantPartOrData ∧
      Begun line (bodyLineCb decode segmentBytes outcomes line ctx file).1 := by
  rw [bodyLineCb_begin more isBegin]
  by_cases first : ctx.yencState = .wantBegin
  · obtain ⟨wbuf, written, crc, unchecked, intact⟩ := fresh first
    simp only [first, if_true]
    exact ⟨trivial, ⟨wbuf, written, crc, unchecked, intact⟩, isBegin, rfl, rfl⟩
  · simp only [first, if_false]
    exact ⟨trivial, ⟨rfl, rfl, rfl, rfl, rfl⟩, isBegin, rfl, rfl⟩

section Data

variable {range : ℕ × ℕ} {emitted : Bytes} (decodes : Decodes range emitted ctx file)
  (unchecked : ctx.haveExpectedCrc = false) {ctx' : SegmentCtx} {file' : FileDl}
  (isNext : dataLineCb decode outcomes line ctx file = (ctx', file'))

include decodes unchecked isNext

theorem Decodes.further (inside : (classifyLine line).1 ≠ .ybegin ∧ (classifyLine line).1 ≠ .yend) :
    Decodes range (emitted ++ decodeAll decode [line]) ctx' file' ∧
      ctx'.yencState = ctx.yencState ∧ ctx'.haveExpectedCrc = false := by
  obtain ⟨rfl, rfl⟩ := Prod.ext_iff.mp isNext
  rw [decodeAll_singleton]
  by_cases isData : (classifyLine line).1 = .data
  · obtain ⟨-, state, streams⟩ := @Streams.dataLine decode outcomes _ _ _ _ _ decodes.streams isData
    rw [if_pos isData]
    rw [dataLineCb_data isData] at state streams ⊢
    refine ⟨⟨streams, ?_, ?_, ?_⟩, state, ?_⟩
    · rw [bufferAppend_framing.crc, decodes.crc]
      exact foldl_append.symm
    · exact bufferAppend_framing.yencFailed.trans decodes.intact
    · exact bufferAppend_framing.rangeResolved.trans decodes.resolved
    · exact bufferAppend_framing.haveExpectedCrc.trans unchecked
  · rw [if_neg isData, append_nil, dataLineCb_other isData inside.2]
    exact ⟨decodes, rfl, unchecked⟩

theorem Decodes.ends (isEnd : (classifyLine line).1 = .yend) :
    Decodes range emitted ctx' file' ∧ ctx'.yencState = .done ∧ Expects line ctx' := by
  obtain ⟨rfl, rfl⟩ := Prod.ext_iff.mp isNext
  obtain ⟨same, state, streams⟩ := @Streams.endLine decode outcomes _ _ _ _ _ decodes.streams isEnd
  rw [same]
  rw [dataLineCb_end isEnd] at streams ⊢
  split at streams
  · rename_i checked
    rw [if_pos checked]
    exact ⟨⟨streams, decodes.crc, decodes.intact, decodes.resolved⟩, rfl, isEnd, checked.symm,
      fun _ => rfl⟩
  · rename_i without
    rw [if_neg without]
    refine ⟨⟨streams, decodes.crc, decodes.intact, decodes.resolved⟩, rfl, isEnd, ?_, ?_⟩
    · rw [Bool.eq_false_iff.mpr without]
      exact unchecked
    · exact fun checked => absurd (unchecked.symm.trans checked) nofun

end Data

theorem Blank.resolve (fresh : Blank ctx) (offset budget : ℤ) :
    Decodes (offset.toNat, budget.toNat) []
        { (resolveSegmentRange outcomes offset budget ctx file).1 with yencState := .inData }
        (resolveSegmentRange outcomes offset budget ctx file).2 ∧
      (resolveSegmentRange outcomes offset budget ctx file).1.haveExpectedCrc = false := by
  have streams := (@resolveSegmentRange_streams _ ctx file outcomes offset budget rfl fresh.written).2
  obtain ⟨crc, intact, unchecked, resolved⟩ :=
    @resolveSegmentRange_checks ctx file outcomes offset budget
  exact ⟨⟨streams, crc.trans fresh.crc, intact.trans fresh.intact, resolved⟩,
    unchecked.trans fresh.unchecked⟩

theorem Begun.further (begun : Begun beginLine ctx) (state : ctx.yencState = .wantPartOrData)
    (inside : (classifyLine line).1 ≠ .ybegin ∧ (classifyLine line).1 ≠ .yend)
    (valid : (classifyLine line).1 = .ypart → (classifyLine line).2.validRange = true) :
    Receiving decode segmentBytes beginLine [line]
      (bodyLineCb decode segmentBytes outcomes line ctx file) := by
  have fresh := begun.toBlank
  by_cases isPart : (classifyLine line).1 = .ypart
  · obtain ⟨decodes, unchecked⟩ := @Blank.resolve outcomes ctx file fresh
      ((classifyLine line).2.rangeBegin - 1)
      ((classifyLine line).2.rangeEnd - (classifyLine line).2.rangeBegin + 1)
    rw [bodyLineCb_part state isPart, if_pos (valid isPart)]
    refine ⟨⟨begun.isBegin, by simpa using inside, ?_⟩, rfl, unchecked⟩
    rw [decodeAll_singleton, if_neg (by simp [isPart]), declared_singleton, if_pos isPart,
      declaredRange]
    exact decodes
  · obtain ⟨decodes, unchecked⟩ := @Blank.resolve outcomes ctx file fresh 0
      (if ctx.haveYbeginSize then ctx.ybeginSize else segmentBytes)
    rw [bodyLineCb_first state inside.1 isPart]
    obtain ⟨after, state', unchecked'⟩ := decodes.further unchecked rfl inside
    refine ⟨⟨begun.isBegin, by simpa using inside, ?_⟩, state', unchecked'⟩
    rw [declared_singleton, if_neg isPart, declaredRange, ← begun.hasSize, ← begun.size]
    exact after

theorem Begun.ends (begun : Begun beginLine ctx) (state : ctx.yencState = .wantPartOrData)
    (isEnd : (classifyLine line).1 = .yend) :
    Received decode segmentBytes beginLine [] line
      (bodyLineCb decode segmentBytes outcomes line ctx file) := by
  obtain ⟨decodes, unchecked⟩ := @Blank.resolve outcomes ctx file begun.toBlank 0
    (if ctx.haveYbeginSize then ctx.ybeginSize else segmentBytes)
  rw [bodyLineCb_first state (by simp [isEnd]) (by simp [isEnd])]
  obtain ⟨after, state', expects⟩ := decodes.ends unchecked rfl isEnd
  refine ⟨⟨begun.isBegin, by simp, ?_⟩, state', expects⟩
  rw [declared, head?_nil, Option.filter_none, declaredRange, ← begun.hasSize, ← begun.size]
  exact after

theorem Receives.further (receives : Receives decode segmentBytes beginLine middle ctx file)
    (state : ctx.yencState = .inData) (unchecked : ctx.haveExpectedCrc = false)
    (started : middle ≠ [])
    (inside : (classifyLine line).1 ≠ .ybegin ∧ (classifyLine line).1 ≠ .yend) :
    Receiving decode segmentBytes beginLine (middle ++ [line])
      (bodyLineCb decode segmentBytes outcomes line ctx file) := by
  rw [bodyLineCb_inData state inside.1]
  obtain ⟨after, state', unchecked'⟩ := receives.decodes.further unchecked rfl inside
  refine ⟨⟨receives.isBegin, ?_, ?_⟩, state'.trans state, unchecked'⟩
  · intro other member
    rcases mem_append.mp member with earlier | here
    · exact receives.inside other earlier
    · rw [mem_singleton.mp here]
      exact inside
  · rw [declared_concat started, decodeAll_append]
    exact after

theorem Receives.ends (receives : Receives decode segmentBytes beginLine middle ctx file)
    (state : ctx.yencState = .inData) (unchecked : ctx.haveExpectedCrc = false)
    (isEnd : (classifyLine line).1 = .yend) :
    Received decode segmentBytes beginLine middle line
      (bodyLineCb decode segmentBytes outcomes line ctx file) := by
  rw [bodyLineCb_inData state (by simp [isEnd])]
  obtain ⟨after, ended⟩ := receives.decodes.ends unchecked rfl isEnd
  exact ⟨⟨receives.isBegin, receives.inside, after⟩, ended⟩

end Step

section Run

variable {decode : Bytes → Bytes} {segmentBytes : ℤ} {outcomes : Outcomes} {ctx : SegmentCtx}
  {file : FileDl} {line : Bytes} {seen : List Bytes}

theorem Parses.initial : Parses decode segmentBytes [] {} file :=
  ⟨rfl, rfl, rfl, rfl, rfl⟩

theorem Parses.fresh (parses : Parses decode segmentBytes seen ctx file)
    (state : ctx.yencState = .wantBegin) : Blank ctx := by
  rwa [Parses, state] at parses

variable {state : SegmentCtx × FileDl}

theorem Receiving.parses {beginLine : Bytes} {middle : List Bytes}
    (receiving : Receiving decode segmentBytes beginLine middle state) (started : middle ≠ []) :
    Parses decode segmentBytes (seen ++ beginLine :: middle) state.1 state.2 := by
  rw [Parses, receiving.2.1]
  exact ⟨seen, beginLine, middle, rfl, started, receiving.1, receiving.2.2⟩

theorem Received.parses {beginLine : Bytes} {middle : List Bytes}
    (received : Received decode segmentBytes beginLine middle line state) :
    Parses decode segmentBytes (seen ++ beginLine :: (middle ++ [line])) state.1 state.2 := by
  rw [Parses, received.2.1]
  exact .inr ⟨seen, beginLine, middle, line, [], rfl, received.1, received.2.2⟩

theorem Parses.of_begun (state : ctx.yencState = .wantPartOrData) (begun : Begun line ctx) :
    Parses decode segmentBytes (seen ++ [line]) ctx file := by
  rw [Parses, state]
  exact ⟨seen, line, rfl, begun⟩

theorem Parses.step (parses : Parses decode segmentBytes seen ctx file) :
    Parses decode segmentBytes (seen ++ [line])
      (bodyLineCb decode segmentBytes outcomes line ctx file).1
      (bodyLineCb decode segmentBytes outcomes line ctx file).2 := by
  by_cases done : ctx.yencState = .done
  · rw [bodyLineCb_done done]
    rw [Parses, done] at parses ⊢
    refine parses.imp_right ?_
    rintro ⟨before, beginLine, middle, endLine, after, rfl, receives, expects⟩
    exact ⟨before, beginLine, middle, endLine, after ++ [line], by simp, receives, expects⟩
  by_cases isBegin : (classifyLine line).1 = .ybegin
  · obtain ⟨state, begun⟩ := @begun_of_begin decode segmentBytes outcomes _ file _
      parses.fresh done isBegin
    exact .of_begun state begun
  cases state : ctx.yencState with
  | done => exact absurd state done
  | wantBegin =>
    rw [bodyLineCb_junk state isBegin, Parses, state]
    exact parses.fresh state
  | wantPartOrData =>
    rw [Parses, state] at parses
    obtain ⟨before, beginLine, rfl, begun⟩ := parses
    rw [append_assoc]
    by_cases isEnd : (classifyLine line).1 = .yend
    · exact (begun.ends state isEnd).parses
    · by_cases valid : (classifyLine line).1 = .ypart → (classifyLine line).2.validRange = true
      · exact (begun.further state ⟨isBegin, isEnd⟩ valid).parses (by simp)
      · obtain ⟨isPart, invalid⟩ := Classical.not_imp.mp valid
        rw [bodyLineCb_part state isPart, if_neg invalid]
        exact .inl rfl
  | inData =>
    rw [Parses, state] at parses
    obtain ⟨before, beginLine, middle, rfl, started, receives, unchecked⟩ := parses
    rw [append_assoc]
    by_cases isEnd : (classifyLine line).1 = .yend
    · exact (receives.ends state unchecked isEnd).parses
    · exact (receives.further state unchecked started ⟨isBegin, isEnd⟩).parses (by simp)

/-- Delivers lines to `body_line_cb`, each with the outcome of its system calls: the lines
of all attempts, since the context is new for the first one only. -/
def receiveLines (decode : Bytes → Bytes) (segmentBytes : ℤ) (deliveries : List (Bytes × Outcomes))
    (file : FileDl) : SegmentCtx × FileDl :=
  deliverTo decode segmentBytes ({}, file) deliveries

theorem receiveLines_parses (deliveries : List (Bytes × Outcomes)) :
    Parses decode segmentBytes (deliveries.map (·.1))
      (receiveLines decode segmentBytes deliveries file).1
      (receiveLines decode segmentBytes deliveries file).2 := by
  induction deliveries using reverseRecOn with
  | nil => exact .initial
  | append_singleton deliveries last ih =>
    rw [map_append, receiveLines, deliverTo, foldl_append]
    exact ih.step

structure Accepted (decode : Bytes → Bytes) (segmentBytes : ℤ) (beginLine : Bytes)
    (middle : List Bytes) (endLine : Bytes) (written : ℕ) (content : Bytes) : Prop where
  isBegin : (classifyLine beginLine).1 = .ybegin
  inside : ∀ line ∈ middle, (classifyLine line).1 ≠ .ybegin ∧ (classifyLine line).1 ≠ .yend
  isEnd : (classifyLine endLine).1 = .yend
  written : written =
    min (decodeAll decode middle).length (declared segmentBytes beginLine middle).2
  placed : Extent.In ⟨(declared segmentBytes beginLine middle).1,
    (decodeAll decode middle).take (declared segmentBytes beginLine middle).2⟩ content
  checksum : (classifyLine endLine).2.hasCrc32 = true →
    crc32 (decodeAll decode middle) = (classifyLine endLine).2.crc32

/-- Whatever lines arrive, a segment that is marked has the decoded bytes of one attempt in
its file, up to the declared size, and the checksum on the `=yend` line, if there is one,
is that of all decoded bytes.  Nothing more: there may be fewer bytes than declared. -/
theorem segment_accepted_spec {pwrite : Extent → Option ℕ} {status : ℤ}
    (deliveries : List (Bytes × Outcomes))
    (marked : (segmentDoneCb pwrite status (receiveLines decode segmentBytes deliveries file).1
      (receiveLines decode segmentBytes deliveries file).2).1 = true) :
    ∃ before beginLine middle endLine after,
      deliveries.map (·.1) = before ++ beginLine :: (middle ++ endLine :: after) ∧
      Accepted decode segmentBytes beginLine middle endLine
        (segmentFlush pwrite (receiveLines decode segmentBytes deliveries file).1
          (receiveLines decode segmentBytes deliveries file).2).1.written
        (segmentDoneCb pwrite status (receiveLines decode segmentBytes deliveries file).1
          (receiveLines decode segmentBytes deliveries file).2).2.content := by
  have parses := @receiveLines_parses decode segmentBytes file deliveries
  generalize receiveLines decode segmentBytes deliveries file = state at marked parses ⊢
  simp only [segmentDoneCb, SegmentCtx.accepts, Bool.and_eq_true, Bool.not_eq_true',
    Bool.or_eq_false_iff, decide_eq_false_iff_not, not_not, Bool.and_eq_false_imp] at marked
  obtain ⟨⟨⟨⟨working, opened⟩, -⟩, ⟨-, done⟩, intact⟩, checks⟩ := marked
  rw [Parses, segmentFlush_framing.yencState.symm.trans done] at parses
  rw [segmentFlush_framing.yencFailed] at intact
  rcases parses with failed | ⟨before, beginLine, middle, endLine, after, eq, receives, expects⟩
  · cases intact.symm.trans failed
  refine ⟨before, beginLine, middle, endLine, after, eq, ?_⟩
  rw [segmentFlush_framing.haveExpectedCrc, segmentFlush_framing.crc,
    segmentFlush_framing.expectedCrc, receives.decodes.crc] at checks
  have checksum : (classifyLine endLine).2.hasCrc32 = true →
      crc32 (decodeAll decode middle) = (classifyLine endLine).2.crc32 := by
    intro has
    have checked := expects.checked.trans has
    exact (checks checked).trans (expects.expected checked)
  rcases receives.decodes.streams.placed.flush.placed with failed | ⟨flushed, buffered, buffers, short⟩
  · rcases failed with failed | failed
    · cases working.symm.trans failed
    · cases opened.symm.trans failed
  · obtain rfl : buffered = [] := eq_nil_of_length_eq_zero (by omega)
    have total := buffers.total
    rw [append_nil] at total
    have held := buffers.held
    rw [total] at held
    refine ⟨receives.isBegin, receives.inside, expects.isEnd, ?_, held, checksum⟩
    rw [buffers.written, total, length_take, min_comm]

def arriving (lines : List String) : List (Bytes × Outcomes) :=
  lines.map fun line => (ascii line, .success)

def unopened : FileDl :=
  ⟨false, false, 1, [], []⟩

theorem segment_accepted_spec_checked : ∃ before beginLine middle endLine after,
    (arriving ["=ybegin line=2 size=3 name=a.bin", "kl", "m", "=yend size=3 crc32=a3830348"]).map
      (·.1) = before ++ beginLine :: (middle ++ endLine :: after) ∧
    Accepted (fun line => line.map (· - 42)) 0 beginLine middle endLine 3 (ascii "ABC") :=
  @segment_accepted_spec (fun line => line.map (· - 42)) 0 unopened (fun _ => none) 222
    (arriving ["=ybegin line=2 size=3 name=a.bin", "kl", "m", "=yend size=3 crc32=a3830348"])
    (by decide +kernel)

def AcceptsWrongSize (data : String) (written : ℕ) : Prop :=
  let lines := ["=ybegin line=128 size=6 name=a.bin", data, "=yend size=6"]
  let run := receiveLines (fun line => line.map (· - 42)) 0 (arriving lines) unopened
  (segmentDoneCb (fun _ => none) 222 run.1 run.2).1 = true ∧
    declared 0 (ascii "=ybegin line=128 size=6 name=a.bin") [ascii data] = (0, 6) ∧
    (decodeAll (fun line => line.map (· - 42)) [ascii data]).length ≠ 6 ∧
    (segmentFlush (fun _ => none) run.1 run.2).1.written = written

instance (data : String) (written : ℕ) : Decidable (AcceptsWrongSize data written) :=
  inferInstanceAs (Decidable (_ ∧ _ ∧ _ ∧ _))

theorem wrong_sizes_accepted : AcceptsWrongSize "kl" 2 ∧ AcceptsWrongSize "klmnopq" 6 := by
  decide +kernel

end Run

end NzbDownloader.Download
