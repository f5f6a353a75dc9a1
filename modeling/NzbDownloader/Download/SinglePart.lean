import NzbDownloader.Download.Acceptance
import NzbDownloader.Yenc.Fields

/-!
# The name of a single-part article

The budget of an article without a `=ypart` line is the size on its `=ybegin` line.
-/

namespace NzbDownloader.Download

open Lib Util Yenc

variable {decode : Bytes → Bytes} {segmentBytes : ℤ} {outcomes outcomes' : Outcomes}
  {ctx : SegmentCtx} {file : FileDl} {fields : List Bytes} {name : Bytes} {size : ℕ}

theorem budget_of_begin {seen : List Bytes} {first data : Bytes}
    (parses : Parses decode segmentBytes seen ctx file) (more : ctx.yencState ≠ .done)
    (isBegin : (classifyLine first).1 = .ybegin) (hasSize : (classifyLine first).2.hasSize = true)
    (isData : (classifyLine data).1 = .data) :
    let begun := bodyLineCb decode segmentBytes outcomes first ctx file
    (bodyLineCb decode segmentBytes outcomes' data begun.1 begun.2).1.budget =
      (classifyLine first).2.size.toNat := by
  obtain ⟨state, begun⟩ := @begun_of_begin decode segmentBytes outcomes ctx file first parses.fresh
    more isBegin
  obtain ⟨receives, -⟩ := @Begun.further decode segmentBytes outcomes' _
    (bodyLineCb decode segmentBytes outcomes first ctx file).2 data first begun state
    (by simp [isData]) (by simp [isData])
  refine receives.decodes.streams.budget.trans ?_
  simp [declared_singleton, declaredRange, isData, hasSize]

/-- The size on the line is the one of its fields, and the budget with it, exactly if the
last `size=` among the words of the name, if there is one, says the same. -/
theorem begin_size_iff (valid : BeginFields size fields) (text : ∀ c ∈ name, c ≠ 0) :
    (classifyLine (beginLine fields name)).1 = .ybegin ∧
    (classifyLine (beginLine fields name)).2.hasSize = true ∧
    ((classifyLine (beginLine fields name)).2.size = size ↔ Harmless size name) ∧
    (Harmless size name → ∀ decode segmentBytes outcomes outcomes' seen ctx file data,
      Parses decode segmentBytes seen ctx file → ctx.yencState ≠ .done →
      (classifyLine data).1 = .data →
      let begun := bodyLineCb decode segmentBytes outcomes (beginLine fields name) ctx file
      (bodyLineCb decode segmentBytes outcomes' data begun.1 begun.2).1.budget = size) := by
  obtain ⟨isBegin, hasSize, isSize⟩ := classifyLine_ybegin valid text
  have same : (classifyLine (beginLine fields name)).2.size = size ↔ Harmless size name := by
    rw [isSize, Harmless]
    cases lastSize (tokens false name) with
    | none | some => simp
  refine ⟨isBegin, hasSize, same, ?_⟩
  intro harmless decode segmentBytes outcomes outcomes' seen ctx file data parses more isData
  refine (budget_of_begin parses more isBegin hasSize isData).trans ?_
  rw [same.mpr harmless, Int.toNat_natCast]

def sixBytes : List Bytes :=
  ["line=128", "size=6"].map ascii

theorem sixBytes_valid : BeginFields 6 sixBytes where
  isTokens := by decide +kernel
  fits := by decide
  split := ⟨[ascii "line=128"], ascii "6", [], by decide +kernel⟩

theorem begin_size_of_name :
    (classifyLine (beginLine sixBytes (ascii "my film (line=2).mkv"))).2.size = (6 : ℕ) :=
  (begin_size_iff sixBytes_valid (by decide +kernel)).2.2.1.mpr (by decide +kernel)

/-- Two names.  With the second one the first two bytes of the file are all that is written,
and the checksum of the six bytes still matches. -/
theorem name_changes_size :
    BeginFields 6 sixBytes ∧
    (classifyLine (beginLine sixBytes (ascii "a.bin"))).2.size = 6 ∧
    (classifyLine (beginLine sixBytes (ascii "a size=2 b.bin"))).2.size = 2 ∧
    let deliveries := [(beginLine sixBytes (ascii "a size=2 b.bin"), Outcomes.success),
      (ascii "klmnop", .success), (ascii "=yend size=6 crc32=bb76fe69", .success)]
    let (ctx, file) := receiveLines (fun line => line.map (· - 42)) 0 deliveries unopened
    (segmentDoneCb (fun _ => none) 222 ctx file).1 = true ∧
      (segmentDoneCb (fun _ => none) 222 ctx file).2.content = ascii "AB" := by
  exact ⟨sixBytes_valid, by decide +kernel⟩

end NzbDownloader.Download
