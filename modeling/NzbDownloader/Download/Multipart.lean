import NzbDownloader.Download.Acceptance
import NzbDownloader.Yenc.Fields

/-!
# The parts of a file

Where no system call fails, what decides about an article that arrives as a whole is the
checksum on its `=yend` line.
-/

namespace NzbDownloader.Download

open Lib Util Yenc List

structure Outcomes.Succeed (outcomes : Outcomes) : Prop where
  malloc : outcomes.malloc = true
  openFile : outcomes.openFile = true
  pwrite : ∀ part, outcomes.pwrite part = none

def Working (ctx : SegmentCtx) (file : FileDl) : Prop :=
  ctx.writeFailed = false ∧ file.openFailed = false

variable {pwrite : Extent → Option ℕ}

section Working

variable {decode : Bytes → Bytes} {segmentBytes : ℤ} {outcomes : Outcomes} {ctx : SegmentCtx}
  {file : FileDl} {data line : Bytes}

theorem segmentFlush_working (writes : ∀ part, pwrite part = none) (working : Working ctx file) :
    Working (segmentFlush pwrite ctx file).1 (segmentFlush pwrite ctx file).2 := by
  unfold segmentFlush
  split
  · exact working
  · exact working
  · split
    · exact working
    · simp only [writes]
      exact working

theorem fillBuffer_working (writes : ∀ part, pwrite part = none) (working : Working ctx file) :
    Working (fillBuffer pwrite data ctx file).1 (fillBuffer pwrite data ctx file).2 := by
  unfold fillBuffer
  dsimp only
  split
  · exact segmentFlush_working writes working
  · exact working

theorem appendLoop_working {rounds : ℕ} (writes : ∀ part, pwrite part = none)
    (working : Working ctx file) :
    Working (appendLoop pwrite rounds data ctx file).1 (appendLoop pwrite rounds data ctx file).2 := by
  induction rounds generalizing data ctx file with
  | zero => exact working
  | succ rounds ih =>
    unfold appendLoop
    split
    · exact working
    · exact ih (fillBuffer_working writes working)

theorem dataLineCb_working (succeed : outcomes.Succeed) (working : Working ctx file) :
    Working (dataLineCb decode outcomes line ctx file).1
      (dataLineCb decode outcomes line ctx file).2 := by
  unfold dataLineCb
  split
  · split <;> exact working
  · dsimp only
    unfold bufferAppend
    split
    · exact working
    · exact appendLoop_working succeed.pwrite working
  · exact working

theorem resolveSegmentRange_working {offset budget : ℤ} (succeed : outcomes.Succeed)
    (working : Working ctx file) :
    Working (resolveSegmentRange outcomes offset budget ctx file).1
      (resolveSegmentRange outcomes offset budget ctx file).2 := by
  simp only [resolveSegmentRange, succeed.malloc, succeed.openFile, Bool.not_true, Bool.false_eq_true,
    if_false, if_true]
  split <;> exact working

theorem bodyLineCb_working (succeed : outcomes.Succeed) (working : Working ctx file) :
    Working (bodyLineCb decode segmentBytes outcomes line ctx file).1
      (bodyLineCb decode segmentBytes outcomes line ctx file).2 := by
  by_cases done : ctx.yencState = .done
  · rwa [bodyLineCb_done done]
  by_cases isBegin : (classifyLine line).1 = .ybegin
  · rw [bodyLineCb_begin done isBegin]
    split <;> exact working
  cases state : ctx.yencState with
  | done => exact absurd state done
  | wantBegin => rwa [bodyLineCb_junk state isBegin]
  | inData =>
    rw [bodyLineCb_inData state isBegin]
    exact dataLineCb_working succeed working
  | wantPartOrData =>
    by_cases isPart : (classifyLine line).1 = .ypart
    · cases valid : (classifyLine line).2.validRange with
      | false =>
        rw [bodyLineCb_part state isPart, if_neg (Bool.eq_false_iff.mp valid)]
        exact working
      | true =>
        rw [bodyLineCb_part state isPart, if_pos valid]
        exact @resolveSegmentRange_working _ ctx file _ _ succeed working
    · rw [bodyLineCb_first state isBegin isPart]
      exact dataLineCb_working succeed
        (@resolveSegmentRange_working _ ctx file _ _ succeed working)

end Working

section Whole

variable (decode : Bytes → Bytes) (segmentBytes : ℤ)

structure Going (state : SegmentCtx × FileDl) : Prop where
  parses : ∃ seen, Parses decode segmentBytes seen state.1 state.2
  more : state.1.yencState ≠ .done
  working : Working state.1 state.2

def GoesOn (line : Bytes) : Prop :=
  (classifyLine line).1 ≠ .yend ∧
    ((classifyLine line).1 = .ypart → (classifyLine line).2.validRange = true)

variable {decode segmentBytes} {state : SegmentCtx × FileDl} {outcomes : Outcomes}
  {ctx : SegmentCtx} {file : FileDl} {line beginLine : Bytes} {middle : List Bytes}
  {deliveries : List (Bytes × Outcomes)} {article : Article}

theorem dataLineCb_state (notEnd : (classifyLine line).1 ≠ .yend) :
    (dataLineCb decode outcomes line ctx file).1.yencState = ctx.yencState := by
  by_cases isData : (classifyLine line).1 = .data
  · rw [dataLineCb_data isData]
    exact bufferAppend_framing.yencState
  · rw [dataLineCb_other isData notEnd]

theorem bodyLineCb_more (more : ctx.yencState ≠ .done) (goesOn : GoesOn line) :
    (bodyLineCb decode segmentBytes outcomes line ctx file).1.yencState ≠ .done := by
  by_cases isBegin : (classifyLine line).1 = .ybegin
  · rw [bodyLineCb_begin more isBegin]
    exact nofun
  cases state : ctx.yencState with
  | done => exact absurd state more
  | wantBegin => rwa [bodyLineCb_junk state isBegin]
  | inData =>
    rw [bodyLineCb_inData state isBegin, dataLineCb_state goesOn.1]
    exact more
  | wantPartOrData =>
    by_cases isPart : (classifyLine line).1 = .ypart
    · rw [bodyLineCb_part state isPart, if_pos (goesOn.2 isPart)]
      exact nofun
    · rw [bodyLineCb_first state isBegin isPart, dataLineCb_state goesOn.1]
      exact nofun

theorem Going.deliver (going : Going decode segmentBytes state)
    (succeed : ∀ delivery ∈ deliveries, delivery.2.Succeed)
    (goOn : ∀ delivery ∈ deliveries, GoesOn delivery.1) :
    Going decode segmentBytes (deliverTo decode segmentBytes state deliveries) := by
  induction deliveries generalizing state with
  | nil => exact going
  | cons delivery deliveries ih =>
    obtain ⟨seen, parses⟩ := going.parses
    refine ih ⟨⟨_, parses.step⟩, ?_, ?_⟩ (fun d later => succeed d (.tail _ later))
      (fun d later => goOn d (.tail _ later))
    · exact bodyLineCb_more going.more (goOn delivery (.head _))
    · exact bodyLineCb_working (succeed delivery (.head _)) going.working

theorem deliverTo_working (working : Working state.1 state.2)
    (succeed : ∀ delivery ∈ deliveries, delivery.2.Succeed) :
    Working (deliverTo decode segmentBytes state deliveries).1
      (deliverTo decode segmentBytes state deliveries).2 := by
  induction deliveries generalizing state with
  | nil => exact working
  | cons delivery deliveries ih =>
    exact ih (bodyLineCb_working (succeed delivery (.head _)) working)
      fun d later => succeed d (.tail _ later)

theorem Receives.deliver (receives : Receives decode segmentBytes beginLine middle state.1 state.2)
    (inData : state.1.yencState = .inData) (unchecked : state.1.haveExpectedCrc = false)
    (started : middle ≠ [])
    (inside : ∀ delivery ∈ deliveries,
      (classifyLine delivery.1).1 ≠ .ybegin ∧ (classifyLine delivery.1).1 ≠ .yend) :
    let after := deliverTo decode segmentBytes state deliveries
    Receives decode segmentBytes beginLine (middle ++ deliveries.map (·.1)) after.1 after.2 ∧
      after.1.yencState = .inData ∧ after.1.haveExpectedCrc = false := by
  induction deliveries generalizing state middle with
  | nil =>
    rw [map_nil, append_nil]
    exact ⟨receives, inData, unchecked⟩
  | cons delivery deliveries ih =>
    obtain ⟨receives', inData', unchecked'⟩ := @Receives.further decode segmentBytes delivery.2
      state.1 state.2 delivery.1 beginLine middle receives inData unchecked started
      (inside delivery (.head _))
    have rest := @ih (bodyLineCb decode segmentBytes delivery.2 delivery.1 state.1 state.2)
      (middle ++ [delivery.1]) receives' inData' unchecked' (by simp)
      fun d later => inside d (.tail _ later)
    rw [append_assoc, singleton_append] at rest
    exact rest

theorem article_inside (article : Article) {line : Bytes} (member : line ∈ article.body) :
    ((classifyLine line).1 ≠ .ybegin ∧ (classifyLine line).1 ≠ .yend) ∧
      ((classifyLine line).1 = .ypart → (classifyLine line).2.validRange) := by
  rcases mem_append.mp member with isPart | isData
  · obtain ⟨kind, valid⟩ := article.isPart line (Option.mem_toList.mp isPart)
    exact ⟨by simp [kind], fun _ => valid⟩
  · have kind := article.isData line isData
    exact ⟨by simp [kind], fun part => absurd (kind.symm.trans part) nofun⟩

theorem Going.complete (going : Going decode segmentBytes state)
    (whole : deliveries.map (·.1) = article.lines) :
    let after := deliverTo decode segmentBytes state deliveries
    Receives decode segmentBytes article.beginLine article.body after.1 after.2 ∧
      after.1.yencState = .done ∧ Expects article.endLine after.1 := by
  obtain ⟨first, others, rfl, isFirst, split⟩ := map_eq_cons_iff.mp whole
  obtain ⟨inner, ends, rfl, isInner, isEnds⟩ := map_eq_append_iff.mp split
  obtain ⟨last, rfl, isLast⟩ := map_eq_singleton_iff.mp isEnds
  obtain ⟨seen, parses⟩ := going.parses
  have isEnd : (classifyLine last.1).1 = .yend := by
    rw [isLast]
    exact article.isEnd
  obtain ⟨begunState, begun⟩ := @begun_of_begin decode segmentBytes first.2 state.1 state.2 first.1
    parses.fresh going.more (by rw [isFirst]; exact article.isBegin)
  rw [deliverTo, foldl_cons, foldl_append, ← isLast, ← isFirst, ← isInner]
  generalize bodyLineCb decode segmentBytes first.2 first.1 state.1 state.2 = state₁ at begunState begun ⊢
  have inside : ∀ delivery ∈ inner, delivery.1 ∈ article.body := by
    intro delivery member
    rw [← isInner]
    exact mem_map_of_mem member
  cases inner with
  | nil => exact begun.ends begunState isEnd
  | cons second inner =>
    have here := article_inside article (inside second (.head _))
    obtain ⟨receives, inData, unchecked⟩ := @Begun.further decode segmentBytes second.2 state₁.1
      state₁.2 second.1 first.1 begun begunState here.1 here.2
    obtain ⟨receives', inData', unchecked'⟩ := @Receives.deliver decode segmentBytes
      (bodyLineCb decode segmentBytes second.2 second.1 state₁.1 state₁.2) first.1 [second.1] inner
      receives inData unchecked (by simp) fun delivery member =>
        (article_inside article (inside delivery (.tail _ member))).1
    exact receives'.ends inData' unchecked' isEnd

theorem Receives.accepts_iff {status : ℤ} {endLine : Bytes}
    (receives : Receives decode segmentBytes beginLine middle ctx file)
    (done : ctx.yencState = .done) (expects : Expects endLine ctx) (working : Working ctx file)
    (writes : ∀ part, pwrite part = none) (found : status = 220 ∨ status = 222) :
    (segmentDoneCb pwrite status ctx file).1 = true ↔
      ((classifyLine endLine).2.hasCrc32 →
        (classifyLine endLine).2.crc32 = crc32 (Article.decodeAll decode middle)) := by
  obtain ⟨unfailed, opened⟩ := segmentFlush_working writes working
  have judged : (segmentDoneCb pwrite status ctx file).1 =
      !(ctx.haveExpectedCrc && crc32Final ctx.crc ≠ ctx.expectedCrc) := by
    simp only [segmentDoneCb, SegmentCtx.accepts, unfailed, opened,
      segmentFlush_framing.rangeResolved, segmentFlush_framing.yencState,
      segmentFlush_framing.yencFailed, segmentFlush_framing.crc, segmentFlush_framing.haveExpectedCrc,
      segmentFlush_framing.expectedCrc, done, receives.decodes.resolved, receives.decodes.intact]
    rcases found with rfl | rfl <;> simp
  rw [judged, receives.decodes.crc, ← expects.checked]
  cases checked : ctx.haveExpectedCrc with
  | false => simp
  | true =>
    rw [expects.expected checked]
    simp only [Bool.true_and, Bool.not_eq_true', decide_eq_false_iff_not, not_not, true_imp_iff]
    exact eq_comm

end Whole

/-- An article for the part of a file between `before` and `after`, with these fields on its
`=yend` line. -/
structure IsPart (decode : Bytes → Bytes) (before part after : Bytes) (fields : List Bytes)
    (article : Article) : Prop where
  multi : article.partLine.isSome = true
  range : ∀ segmentBytes, article.range segmentBytes = (before.length, part.length)
  decoded : article.decoded decode = part
  endLine : article.endLine = ascii "=yend" ++ render fields
  checksums : ∀ field ∈ fields, Checksums (crc32 part) (crc32 (before ++ part ++ after)) field

section Parts

variable {decode : Bytes → Bytes} {segmentBytes : ℤ} {before part after : Bytes}
  {fields : List Bytes} {article : Article} {attempts : List (List (Bytes × Outcomes))}
  {last : List (Bytes × Outcomes)} {file : FileDl} {status : ℤ}

structure Arrives (article : Article) (attempts : List (List (Bytes × Outcomes)))
    (last : List (Bytes × Outcomes)) : Prop where
  broken : ∀ attempt ∈ attempts, ∃ n < article.lines.length,
    attempt.map (·.1) = article.lines.take n
  whole : last.map (·.1) = article.lines
  succeed : ∀ delivery ∈ attempts.flatten ++ last, delivery.2.Succeed

theorem article_goesOn {n : ℕ} (short : n < article.lines.length) :
    ∀ line ∈ article.lines.take n, GoesOn line := by
  intro line member
  rw [Article.length_lines] at short
  have inner : line ∈ article.beginLine :: article.body := by
    rw [Article.lines, ← cons_append,
      take_append_of_le_length (by rw [length_cons]; omega)] at member
    exact mem_of_mem_take member
  rcases mem_cons.mp inner with rfl | inside
  · have kind := article.isBegin
    exact ⟨by simp [kind], by simp [kind]⟩
  · have here := article_inside article inside
    exact ⟨here.1.2, here.2⟩

theorem receiveLines_append (first second : List (Bytes × Outcomes)) :
    receiveLines decode segmentBytes (first ++ second) file =
      deliverTo decode segmentBytes (receiveLines decode segmentBytes first file) second :=
  foldl_append

/-- An article that arrives as a whole is accepted, unless its `=yend` line has no checksum
but that of the whole file, which is compared with the part. -/
theorem part_accepted_iff (isPart : IsPart decode before part after fields article)
    (arrives : Arrives article attempts last) (opened : file.openFailed = false)
    (writes : ∀ extent, pwrite extent = none) (found : status = 220 ∨ status = 222) :
    let state := receiveLines decode segmentBytes (attempts.flatten ++ last) file
    (segmentDoneCb pwrite status state.1 state.2).1 = true ↔
      (∃ field ∈ fields, hasKey (ascii "pcrc32=") field = true) ∨
        (∀ field ∈ fields, hasKey (ascii "crc32=") field = false) ∨
        crc32 (before ++ part ++ after) = crc32 part := by
  have start : Going decode segmentBytes ({}, file) := ⟨⟨[], .initial⟩, nofun, rfl, opened⟩
  have going : Going decode segmentBytes
      (receiveLines decode segmentBytes attempts.flatten file) := by
    refine start.deliver (fun d member => arrives.succeed d (mem_append_left _ member)) ?_
    intro delivery member
    obtain ⟨attempt, isAttempt, here⟩ := mem_flatten.mp member
    obtain ⟨n, short, eq⟩ := arrives.broken attempt isAttempt
    exact article_goesOn short _ (eq ▸ mem_map_of_mem here)
  obtain ⟨receives, done, expects⟩ := going.complete arrives.whole
  have working := @deliverTo_working decode segmentBytes _ last going.working
    fun d member => arrives.succeed d (mem_append_right _ member)
  obtain ⟨-, has, crc⟩ := classifyLine_yend isPart.checksums
  intro state
  rw [show state = _ from receiveLines_append _ _,
    receives.accepts_iff done expects working writes found, isPart.endLine, has, crc,
    Article.decodeAll_body, isPart.decoded]
  by_cases hasPart : fields.any (hasKey (ascii "pcrc32=")) = true
  · simp only [hasPart, if_true, implies_true, true_iff]
    exact .inl (any_eq_true.mp hasPart)
  rw [if_neg hasPart, Bool.eq_false_iff.mpr hasPart, Bool.false_or]
  have noPart : ¬∃ field ∈ fields, hasKey (ascii "pcrc32=") field = true := fun some =>
    hasPart (any_eq_true.mpr some)
  by_cases hasFile : fields.any (hasKey (ascii "crc32=")) = true
  · have someFile : ¬∀ field ∈ fields, hasKey (ascii "crc32=") field = false := by
      intro none
      obtain ⟨field, member, has⟩ := any_eq_true.mp hasFile
      exact absurd ((none field member).symm.trans has) nofun
    simp only [hasFile, if_true, true_imp_iff, noPart, someFile, false_or]
  · refine iff_of_true (fun has => absurd has hasFile) (.inr (.inl fun field member => ?_))
    rw [Bool.eq_false_iff]
    exact fun has => hasFile (any_eq_true.mpr ⟨field, member, has⟩)

def secondHalf (fields : List String) : Article where
  beginLine := ascii "=ybegin part=2 total=2 line=128 size=6 name=a.bin"
  partLine := some (ascii "=ypart begin=4 end=6")
  dataLines := [ascii "nop"]
  endLine := ascii "=yend" ++ render (fields.map ascii)
  isBegin := by decide +kernel
  isPart := secondPart.isPart
  isData := by decide +kernel
  isEnd := by rw [classifyLine_yend_render]

theorem secondHalf_isPart {fields : List String}
    (checksums : ∀ field ∈ fields.map ascii,
      Checksums (crc32 (ascii "DEF")) (crc32 (ascii "ABCDEF")) field) :
    IsPart (fun line => line.map (· - 42)) (ascii "ABC") (ascii "DEF") [] (fields.map ascii)
      (secondHalf fields) where
  multi := rfl
  range := by
    intro segmentBytes
    simp only [Article.range, declaredRange, secondHalf]
    decide +kernel
  decoded := by
    simp only [Article.decoded, secondHalf]
    decide +kernel
  endLine := rfl
  checksums := checksums

theorem arrives_at_once (article : Article) :
    Arrives article [] (article.lines.map (·, .success)) where
  broken := nofun
  whole := map_map.trans (map_id _)
  succeed := by
    intro delivery member
    obtain ⟨line, -, rfl⟩ := mem_map.mp member
    exact ⟨rfl, rfl, fun _ => rfl⟩

theorem part_accepted_both_checksums :
    let state := receiveLines (fun line => line.map (· - 42)) 0
      ((secondHalf ["size=3", "crc32=bb76fe69", "pcrc32=9a63a3eb"]).lines.map (·, .success)) unopened
    (segmentDoneCb (fun _ => none) 222 state.1 state.2).1 = true :=
  (part_accepted_iff (secondHalf_isPart (by decide +kernel)) (arrives_at_once _) rfl (fun _ => rfl)
    (.inr rfl)).mpr (.inl (by decide +kernel))

theorem part_rejected_file_checksum : ∃ (decode : Bytes → Bytes) (before part after : Bytes)
    (fields : List Bytes) (article : Article),
    IsPart decode before part after fields article ∧
    let state := receiveLines decode 0 (article.lines.map (·, .success)) unopened
    (segmentDoneCb (fun _ => none) 222 state.1 state.2).1 = false :=
  ⟨_, _, _, _, _, secondHalf ["size=3", "part=2", "crc32=bb76fe69"],
    secondHalf_isPart (by decide +kernel), by decide +kernel⟩

end Parts

end NzbDownloader.Download
