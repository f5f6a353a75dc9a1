import NzbDownloader.Nzb.MessageIds

/-!
# Character data in pieces

expat may hand over the text of an element in any number of pieces.  The handlers make the
same job of them; for a document with the elements of an NZB file the module says which one.
-/

namespace NzbDownloader.Nzb

open Lib Util Queue.Persist List

inductive Chunked : List (Event × Bool) → List (Event × Bool) → Prop
  | nil : Chunked [] []
  | whole (call : Event × Bool) {document calls : List (Event × Bool)} :
      Chunked document calls → Chunked (call :: document) (call :: calls)
  | pieces (pieces : List (Name × Bool)) (memory : Bool) {document calls : List (Event × Bool)} :
      Chunked document calls →
        Chunked ((.text (pieces.map (·.1)).flatten, memory) :: document)
          (pieces.map (fun piece => (.text piece.1, piece.2)) ++ calls)

theorem append_room (limit : ℕ) (text first second : Name) :
    text ++ (first ++ second).take (limit - text.length) =
      text ++ first.take (limit - text.length) ++
        second.take (limit - (text ++ first.take (limit - text.length)).length) := by
  rw [take_append, append_assoc, length_append, length_take]
  congr 3
  omega

theorem charData_append (first second : Name) (ctx : ParseCtx) :
    charData (first ++ second) ctx = charData second (charData first ctx) := by
  unfold charData
  split_ifs with inSegment inMeta
  · simp only [append_room segTextMax]
  · simp only [append_room metaTextMax]
  · rfl

theorem charData_nil (ctx : ParseCtx) : charData [] ctx = ctx := by
  simp [charData]

theorem foldl_pieces (pieces : List (Name × Bool)) (ctx : ParseCtx) :
    (pieces.map fun piece => (Event.text piece.1, piece.2)).foldl handle ctx =
      charData (pieces.map (·.1)).flatten ctx := by
  induction pieces generalizing ctx with
  | nil => exact (charData_nil ctx).symm
  | cons piece pieces ih =>
    rw [map_cons, foldl_cons, ih, map_cons, flatten_cons, charData_append]
    rfl

theorem Chunked.foldl {document calls : List (Event × Bool)} (chunked : Chunked document calls)
    (ctx : ParseCtx) : calls.foldl handle ctx = document.foldl handle ctx := by
  induction chunked generalizing ctx with
  | nil => rfl
  | whole call _ ih => exact ih _
  | pieces pieces memory _ ih =>
    rw [foldl_append, foldl_pieces, ih]
    rfl

/-- What stands in a `<file>` element or beside it: an element with text, or a tag of another
element or text that means nothing. -/
inductive Leaf
  | segment (attrs : List (Name × Name)) (data : Name)
  | password (attrs : List (Name × Name)) (data : Name)
  | chars (data : Name)
  | opening (name : Name) (attrs : List (Name × Name)) (other : tagOf name = .other)
  | closing (name : Name) (other : tagOf name = .other)

open Leaf

inductive Part
  | outside (leaf : Leaf)
  | file (attrs : List (Name × Name)) (leaves : List Leaf)

def Leaf.events : Leaf → List Event
  | .segment attrs data => [.start "segment".toList attrs, .text data, .stop "segment".toList]
  | .password attrs data => [.start "meta".toList attrs, .text data, .stop "meta".toList]
  | .chars data => [.text data]
  | .opening name attrs _ => [.start name attrs]
  | .closing name _ => [.stop name]

def Part.events : Part → List Event
  | .outside leaf => leaf.events
  | .file attrs leaves =>
      .start "file".toList attrs :: leaves.flatMap Leaf.events ++ [.stop "file".toList]

def document (parts : List Part) : List (Event × Bool) :=
  (parts.flatMap Part.events).map fun event => (event, true)

def Leaf.segment? : Leaf → Option SegmentData
  | .segment attrs data =>
      if segmentNumber attrs < 1 ∨ trimmed data = [] then none
      else some ⟨storedId (trimmed data), ((findAttr attrs "bytes".toList).map fun text =>
        Numeral.strtol (bytesOf text)).getD 0, segmentNumber attrs, false⟩
  | _ => none

def Leaf.password? : Leaf → Option Name
  | .password attrs data =>
      if ((findAttr attrs "type".toList).map fun type =>
          decide (lower type = "password".toList)).getD false then
        some (trimWs (data.take metaTextMax))
      else none
  | _ => none

def Part.leaves : Part → List Leaf
  | .outside leaf => [leaf]
  | .file _ leaves => leaves

def fileWith (filename subject : Name) (segments : List SegmentData) : FileData :=
  ⟨filename, subject, segments, totalBytes segments, rfl⟩

def Part.file? : Part → Option FileData
  | .outside _ => none
  | .file attrs leaves =>
      let subject := (findAttr attrs "subject".toList).getD []
      some (fileWith (snprintf 512 (extractFilename subject)) (snprintf 1024 subject)
        (leaves.filterMap segment?))

def passwordsOf (parts : List Part) : List Name :=
  ((parts.flatMap Part.leaves).filterMap password?).foldl jobAddPassword []

structure Resting (ctx : ParseCtx) (files : List FileData) (passwords : List Name)
    (current : Option ℕ) : Prop where
  files_eq : ctx.files = files
  passwords_eq : ctx.passwords = passwords
  current_eq : ctx.currentFile = current
  noSegment : ctx.inSegment = false
  noMeta : ctx.inPasswordMeta = false
  noError : ctx.error = false

def handleAll (events : List Event) (ctx : ParseCtx) : ParseCtx :=
  (events.map fun event => (event, true)).foldl handle ctx

theorem handleAll_append (first second : List Event) (ctx : ParseCtx) :
    handleAll (first ++ second) ctx = handleAll second (handleAll first ctx) := by
  simp [handleAll]

section Parts

variable {ctx : ParseCtx} {files : List FileData} {passwords : List Name} {current : Option ℕ}

def addSegment (current : Option ℕ) (files : List FileData) (segment : SegmentData) :
    List FileData :=
  match current with
  | none => files
  | some index => files.modify index fun file =>
      fileWith file.filename file.subject (file.segments ++ [segment])

theorem add_eq_fileWith (file : FileData) (messageId : Name) (bytes number : ℤ) :
    jobFileAddSegment file messageId bytes number false =
      fileWith file.filename file.subject
        (file.segments ++ [⟨snprintf 512 messageId, bytes, number, false⟩]) := by
  simp [jobFileAddSegment, fileWith, totalBytes, file.bytes_eq]

theorem Resting.leaf (resting : Resting ctx files passwords current) (leaf : Leaf) :
    Resting (handleAll leaf.events ctx) (leaf.segment?.toList.foldl (addSegment current) files)
      (leaf.password?.toList.foldl jobAddPassword passwords) current := by
  obtain ⟨rfl, rfl, rfl, noSegment, noMeta, noError⟩ := resting
  cases leaf with
  | segment attrs data =>
    have tag : tagOf "segment".toList = .segment := rfl
    have text : trimWs ([] ++ data.take (segTextMax - ([] : Name).length)) = trimmed data := rfl
    simp only [handleAll, events, map_cons, map_nil, foldl_cons, foldl_nil,
      handle, startElement, charData, endElement, tag, if_true, text, segment?]
    cases ctx.currentFile with
    | none => split_ifs <;> exact ⟨rfl, rfl, rfl, rfl, noMeta, noError⟩
    | some index =>
      dsimp only
      split_ifs
      · exact ⟨rfl, rfl, rfl, rfl, noMeta, noError⟩
      · refine ⟨?_, rfl, rfl, rfl, noMeta, noError⟩
        exact congrArg (ctx.files.modify index) (funext fun file => add_eq_fileWith file _ _ _)
  | password attrs data =>
    have tag : tagOf "meta".toList = .password := rfl
    simp only [handleAll, events, map_cons, map_nil, foldl_cons, foldl_nil,
      handle, startElement, charData, endElement, tag, noSegment, Bool.false_eq_true, if_false,
      password?]
    split_ifs with isPassword
    · exact ⟨rfl, rfl, rfl, rfl, rfl, noError⟩
    · exact ⟨rfl, rfl, rfl, rfl, Bool.eq_false_iff.mpr isPassword, noError⟩
  | chars data =>
    have ignored : charData data ctx = ctx := by simp [charData, noSegment, noMeta]
    change Resting (charData data ctx) _ _ _
    rw [ignored]
    exact ⟨rfl, rfl, rfl, noSegment, noMeta, noError⟩
  | opening name attrs other =>
    have ignored : startElement true name attrs ctx = ctx := by simp [startElement, other]
    change Resting (startElement true name attrs ctx) _ _ _
    rw [ignored]
    exact ⟨rfl, rfl, rfl, noSegment, noMeta, noError⟩
  | closing name other =>
    have ignored : endElement true name ctx = ctx := by simp [endElement, other]
    change Resting (endElement true name ctx) _ _ _
    rw [ignored]
    exact ⟨rfl, rfl, rfl, noSegment, noMeta, noError⟩

theorem modify_last {α : Type} (items : List α) (last : α) (f : α → α) :
    (items ++ [last]).modify items.length f = items ++ [f last] := by
  induction items with
  | nil => rfl
  | cons item items ih => simpa using ih

theorem Resting.leaves {filename subject : Name} (leaves : List Leaf)
    (segments : List SegmentData)
    (resting : Resting ctx (files ++ [fileWith filename subject segments]) passwords
      (some files.length)) :
    Resting (handleAll (leaves.flatMap events) ctx)
      (files ++ [fileWith filename subject (segments ++ leaves.filterMap segment?)])
      ((leaves.filterMap password?).foldl jobAddPassword passwords) (some files.length) := by
  induction leaves generalizing ctx passwords segments with
  | nil => simpa [handleAll] using resting
  | cons leaf leaves ih =>
    have first := resting.leaf leaf
    have added : leaf.segment?.toList.foldl (addSegment (some files.length))
        (files ++ [fileWith filename subject segments]) =
          files ++ [fileWith filename subject (segments ++ leaf.segment?.toList)] := by
      cases leaf.segment? with
      | none => simp
      | some segment => exact modify_last files _ _
    rw [added] at first
    have later := ih _ first
    rw [flatMap_cons, handleAll_append]
    cases segment : leaf.segment? <;> cases password : leaf.password? <;>
      simpa [segment, password] using later

theorem Resting.part (resting : Resting ctx files passwords none) (part : Part) :
    Resting (handleAll part.events ctx) (files ++ part.file?.toList)
      ((part.leaves.filterMap Leaf.password?).foldl jobAddPassword passwords) none := by
  cases part with
  | outside leaf =>
    have read := resting.leaf leaf
    have unchanged : leaf.segment?.toList.foldl (addSegment none) files = files := by
      cases leaf.segment? <;> rfl
    rw [unchanged] at read
    cases password : leaf.password? <;> simpa [Part.events, Part.file?, Part.leaves, password] using read
  | file attrs leaves =>
    obtain ⟨rfl, rfl, -, noSegment, noMeta, noError⟩ := resting
    let opening := startElement true "file".toList attrs ctx
    have opened := Resting.leaves leaves [] (show Resting opening _ _ _ from
      ⟨rfl, rfl, rfl, noSegment, noMeta, noError⟩)
    obtain ⟨files, passwords, -, noSegment, noMeta, noError⟩ := opened
    change Resting (handleAll (.start "file".toList attrs :: leaves.flatMap Leaf.events ++
      [.stop "file".toList]) ctx) _ _ _
    rw [handleAll_append]
    exact ⟨files, passwords, rfl, noSegment, noMeta, noError⟩

theorem Resting.parts (resting : Resting ctx files passwords none) (parts : List Part) :
    Resting (handleAll (parts.flatMap Part.events) ctx) (files ++ parts.filterMap Part.file?)
      (((parts.flatMap Part.leaves).filterMap password?).foldl jobAddPassword passwords)
      none := by
  induction parts generalizing ctx files passwords with
  | nil => simpa [handleAll] using resting
  | cons part parts ih =>
    have later := ih (resting.part part)
    rw [flatMap_cons, handleAll_append, flatMap_cons, filterMap_append,
      foldl_append]
    cases file : part.file? <;> simpa [file] using later

end Parts

/-- The job does not depend on how the texts are split.  For an NZB document it has the files
in their order, each with the segments of its elements in theirs: those with a number and a
text that is not blank as far as the buffer holds it. -/
theorem nzbParseFile_chunked (path id : Name) :
    (∀ document calls calls', Chunked document calls → Chunked document calls' →
      nzbParseFile path id calls = nzbParseFile path id calls') ∧
    ∀ parts calls, Chunked (document parts) calls →
      nzbParseFile path id calls = some { jobCreate id (basenameOf path) with
        files := parts.filterMap Part.file?, passwords := passwordsOf parts } := by
  constructor
  · intro document calls calls' chunked chunked'
    rw [nzbParseFile, chunked.foldl, ← chunked'.foldl, nzbParseFile]
  intro parts calls chunked
  have start : Resting {} [] [] none := ⟨rfl, rfl, rfl, rfl, rfl, rfl⟩
  have read := start.parts parts
  change Resting ((document parts).foldl handle {}) _ _ none at read
  rw [nzbParseFile, chunked.foldl]
  simp only [read.noError, read.files_eq, read.passwords_eq]
  rfl

theorem nzbParseFile_chunked_pieces :
    (nzbParseFile "a.nzb".toList "a3f9c1e08b47".toList
      [(.start "file".toList [], true), (.start "segment".toList [("number".toList, "1".toList)], true),
        (.text "<a@".toList, true), (.text "b>".toList, true), (.stop "segment".toList, true),
        (.stop "file".toList, true)]).map (fun job => job.files.map (·.segments)) =
      some [[⟨"<a@b>".toList, 0, 1, false⟩]] := by
  have job := (nzbParseFile_chunked "a.nzb".toList "a3f9c1e08b47".toList).2
    [.file [] [.segment [("number".toList, "1".toList)] "<a@b>".toList]] _
    (.whole _ (.whole _ (.pieces [("<a@".toList, true), ("b>".toList, true)] true
      (.whole _ (.whole _ .nil)))))
  refine (congrArg (Option.map fun job => job.files.map (·.segments)) job).trans ?_
  decide +kernel

def indentedSegment : Leaf :=
  .segment [("number".toList, "1".toList)] (List.replicate 511 ' ' ++ "id".toList)

theorem indented_segment_left_out :
    ¬(List.replicate 511 ' ' ++ "id".toList).all isSpace ∧
      (nzbParseFile [] [] (document [.file [] [indentedSegment]])).map (fun job =>
        job.files.map (·.segments)) = some [[]] := by
  decide +kernel

end NzbDownloader.Nzb
