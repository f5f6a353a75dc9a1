import NzbDownloader.Nzb.Parse
import NzbDownloader.Nntp.Connection

/-!
# The message ids of a document

A segment's message id is the character data of its element, cut and trimmed.
-/

namespace NzbDownloader.Nzb

open Lib Util Queue.Persist List

structure Scan where
  inFile : Bool := false
  inSegment : Bool := false
  number : ℤ := 0
  text : Name := []
  found : List Name := []

def Scan.next (s : Scan) : Event → Scan
  | .start name attrs =>
      match tagOf name with
      | .file => { s with inFile := true }
      | .segment => { s with inSegment := true, number := segmentNumber attrs, text := [] }
      | .password | .other => s
  | .text data => if s.inSegment then { s with text := s.text ++ data } else s
  | .stop name =>
      match tagOf name with
      | .file => { s with inFile := false }
      | .segment =>
          { s with
            inSegment := false
            found := if s.inFile ∧ 1 ≤ s.number then s.found ++ [s.text] else s.found }
      | .password | .other => s

def segmentTexts (document : List Event) : List Name :=
  (document.foldl Scan.next {}).found

def messageIds (files : List FileData) : List Name :=
  files.flatMap fun file => file.segments.map (·.messageId)

def trimmed (text : Name) : Name :=
  trimWs (text.take segTextMax)

def storedId (text : Name) : Name :=
  snprintf 512 (snprintf (segTextMax + 3) (bracketed text))

theorem messageIds_newFile (files : List FileData) (filename subject : Name) :
    messageIds (files ++ [newFile filename subject]) = messageIds files := by
  simp [messageIds, newFile]

theorem mem_messageIds_modify {files : List FileData} {index : ℕ} (valid : index < files.length)
    (messageId text : Name) (bytes number : ℤ) :
    messageId ∈ messageIds (files.modify index fun file =>
        jobFileAddSegment file text bytes number false) ↔
      messageId ∈ messageIds files ∨ messageId = snprintf 512 text := by
  induction files generalizing index with
  | nil => contradiction
  | cons file rest ih =>
    cases index with
    | zero =>
      simp [messageIds, jobFileAddSegment, or_comm, or_left_comm]
    | succ index =>
      have shorter := ih (Nat.lt_of_succ_lt_succ valid)
      simp only [messageIds, modify_succ_cons, flatMap_cons, mem_append]
        at shorter ⊢
      rw [shorter, or_assoc]

theorem trimWs_trimWs (text : Name) : trimWs (trimWs text) = trimWs text := by
  obtain ⟨blanks, split⟩ := rdropWhile_prefix isSpace (l := text.dropWhile isSpace)
  have begins : (trimWs text).dropWhile isSpace = trimWs text := by
    change trimWs text ++ blanks = _ at split
    cases front : trimWs text with
    | nil => rfl
    | cons c rest =>
      -- The first character is the one at which the leading blanks end.
      have stopped := dropWhile_idempotent isSpace text
      rw [← split, front, cons_append, dropWhile_cons] at stopped
      split_ifs at stopped with blank
      · have shorter := (dropWhile_sublist isSpace (l := rest ++ blanks)).length_le
        rw [stopped] at shorter
        exact absurd shorter (by simp)
      · rw [dropWhile_cons_of_neg blank]
  rw [trimWs, begins, trimWs, rdropWhile_idempotent]

theorem trimWs_trimmed (text : Name) : trimWs (trimmed text) = trimmed text :=
  trimWs_trimWs _

theorem take_append_room (text data : Name) (limit : ℕ) :
    text.take limit ++ data.take (limit - (text.take limit).length) =
      (text ++ data).take limit := by
  rw [take_append, length_take]
  congr 2
  omega

def Stored (found : List Name) (files : List FileData) : Prop :=
  ∀ messageId, messageId ∈ messageIds files ↔
    ∃ text ∈ found, trimmed text ≠ [] ∧ messageId = storedId (trimmed text)

theorem Stored.blank {found : List Name} {files : List FileData} (stored : Stored found files)
    {text : Name} (blank : trimmed text = []) : Stored (found ++ [text]) files := by
  intro messageId
  rw [stored messageId]
  simp [mem_append, or_and_right, exists_or, blank]

theorem Stored.add {found : List Name} {files : List FileData} (stored : Stored found files)
    {text : Name} (filled : trimmed text ≠ []) {index : ℕ} (valid : index < files.length)
    (bytes number : ℤ) :
    Stored (found ++ [text]) (files.modify index fun file =>
      jobFileAddSegment file (snprintf (segTextMax + 3) (bracketed (trimmed text))) bytes number
        false) := by
  intro messageId
  rw [mem_messageIds_modify valid, stored messageId]
  simp [mem_append, or_and_right, exists_or, filled, storedId]

structure Agrees (s : Scan) (ctx : ParseCtx) : Prop where
  file : s.inFile = ctx.currentFile.isSome
  segment : s.inSegment = ctx.inSegment
  number : s.number = ctx.segNumber
  -- After the end of the element the text has been trimmed in its buffer.
  text : ctx.inSegment = true → ctx.segText = s.text.take segTextMax
  content : trimWs ctx.segText = trimmed s.text
  valid : ∀ index ∈ ctx.currentFile, index < ctx.files.length
  stored : Stored s.found ctx.files

variable {s : Scan} {ctx : ParseCtx} {calls : List (Event × Bool)}

theorem Agrees.start (agrees : Agrees s ctx) (memory : Bool) (name : Name)
    (attrs : List (Name × Name)) (sound : (startElement memory name attrs ctx).error = false) :
    Agrees (s.next (.start name attrs)) (startElement memory name attrs ctx) := by
  unfold startElement at sound ⊢
  simp only [Scan.next]
  cases tag : tagOf name with
  | file =>
    cases memory with
    | false => simp [tag] at sound
    | true =>
      refine ⟨rfl, agrees.segment, agrees.number, agrees.text, agrees.content, ?_, ?_⟩
      · simp
      · intro messageId
        exact (messageIds_newFile ..).symm ▸ agrees.stored messageId
  | segment =>
    exact ⟨agrees.file, rfl, rfl, fun _ => rfl, rfl, agrees.valid, agrees.stored⟩
  | password =>
    exact ⟨agrees.file, agrees.segment, agrees.number, agrees.text, agrees.content,
      agrees.valid, agrees.stored⟩
  | other => exact agrees

theorem Agrees.data {s : Scan} {ctx : ParseCtx} (agrees : Agrees s ctx) (data : Name) :
    Agrees (s.next (.text data)) (charData data ctx) := by
  unfold charData
  simp only [Scan.next, agrees.segment]
  split_ifs with inside inMeta
  · have grown : ctx.segText ++ data.take (segTextMax - ctx.segText.length) =
        (s.text ++ data).take segTextMax := by
      rw [agrees.text inside, take_append_room]
    exact ⟨agrees.file, rfl, agrees.number, fun _ => grown, congrArg trimWs grown, agrees.valid,
      agrees.stored⟩
  · exact ⟨agrees.file, agrees.segment, agrees.number, agrees.text, agrees.content, agrees.valid,
      agrees.stored⟩
  · exact agrees

theorem Agrees.close (agrees : Agrees s ctx) {found : List Name} {files : List FileData}
    (same : files.length = ctx.files.length) (error : Bool) (stored : Stored found files) :
    Agrees { s with inSegment := false, found }
      { ctx with segText := trimWs ctx.segText, inSegment := false, files, error } where
  file := agrees.file
  segment := rfl
  number := agrees.number
  text := nofun
  content := by rw [agrees.content, trimWs_trimmed]
  valid index current := same ▸ agrees.valid index current
  stored := stored

theorem Agrees.stop (agrees : Agrees s ctx) (memory : Bool) (name : Name)
    (sound : (endElement memory name ctx).error = false) :
    Agrees (s.next (.stop name)) (endElement memory name ctx) := by
  unfold endElement at sound ⊢
  simp only [Scan.next]
  cases tag : tagOf name with
  | file =>
    exact ⟨rfl, agrees.segment, agrees.number, agrees.text, agrees.content, by simp,
      agrees.stored⟩
  | segment =>
    have closed {found : List Name} (stored : Stored found ctx.files) :=
      agrees.close rfl ctx.error stored
    simp only [tag] at sound ⊢
    cases current : ctx.currentFile with
    | none =>
      have outside : ¬(s.inFile = true ∧ 1 ≤ s.number) := by simp [agrees.file, current]
      rw [current] at closed
      rw [if_neg outside]
      exact closed agrees.stored
    | some index =>
      have inside : s.inFile = true := by simp [agrees.file, current]
      simp only [current] at sound closed ⊢
      by_cases numbered : ctx.segNumber < 1
      · rw [if_neg (by rw [agrees.number]; omega), if_pos (.inl numbered)]
        exact closed agrees.stored
      rw [if_pos ⟨inside, by rw [agrees.number]; omega⟩]
      by_cases blank : trimWs ctx.segText = []
      · rw [if_pos (.inr blank)]
        exact closed (agrees.stored.blank (agrees.content ▸ blank))
      rw [if_neg (not_or.mpr ⟨numbered, blank⟩)] at sound ⊢
      cases memory with
      | false => contradiction
      | true =>
        have added := agrees.stored.add (agrees.content ▸ blank)
          (agrees.valid index current) ctx.segBytes ctx.segNumber
        have closed := agrees.close (length_modify ..) ctx.error added
        simpa only [current, ← agrees.content, if_true] using closed
  | password =>
    dsimp only
    split_ifs
    · exact ⟨agrees.file, agrees.segment, agrees.number, agrees.text, agrees.content,
        agrees.valid, agrees.stored⟩
    · exact agrees
  | other => exact agrees

theorem error_of_handle (call : Event × Bool) (sound : (handle ctx call).error = false) :
    ctx.error = false := by
  unfold handle startElement charData endElement at sound
  dsimp only at sound
  repeat' split at sound
  all_goals first | exact sound | contradiction

theorem error_of_foldl (sound : (calls.foldl handle ctx).error = false) : ctx.error = false := by
  induction calls generalizing ctx with
  | nil => exact sound
  | cons call rest ih => exact error_of_handle call (ih sound)

theorem Agrees.handle (agrees : Agrees s ctx) (call : Event × Bool)
    (sound : (handle ctx call).error = false) : Agrees (s.next call.1) (handle ctx call) := by
  obtain ⟨event, memory⟩ := call
  cases event with
  | start name attrs => exact agrees.start memory name attrs sound
  | text data => exact agrees.data data
  | stop name => exact agrees.stop memory name sound

theorem Agrees.foldl (agrees : Agrees s ctx) (sound : (calls.foldl Nzb.handle ctx).error = false) :
    Agrees ((calls.map Prod.fst).foldl Scan.next s) (calls.foldl Nzb.handle ctx) := by
  induction calls generalizing s ctx with
  | nil => exact agrees
  | cons call rest ih => exact ih (agrees.handle call (error_of_foldl sound)) sound

theorem agrees_init : Agrees {} {} where
  file := rfl
  segment := rfl
  number := rfl
  text := nofun
  content := rfl
  valid := nofun
  stored messageId := by simp [messageIds]

theorem stored_of_nzbParseFile {path id : Name} {job : JobData}
    (parsed : nzbParseFile path id calls = some job) :
    Stored (segmentTexts (calls.map Prod.fst)) job.files := by
  unfold nzbParseFile at parsed
  dsimp only at parsed
  split_ifs at parsed with failed
  cases parsed
  exact (agrees_init.foldl (Bool.not_eq_true _ ▸ failed)).stored

def isControl (c : Char) : Bool :=
  c.toNat < 32 ∨ c.toNat = 127

def Printable (text : Name) : Prop :=
  ∀ c ∈ text, isControl c = false

instance (text : Name) : Decidable (Printable text) :=
  List.decidableBAll (fun c => isControl c = false) text

def fetchCommand (messageId : Name) : Name :=
  "BODY ".toList ++ messageId

structure OneCommand (messageId : Name) : Prop where
  printable : Printable messageId
  sent : Nntp.nntpConnCmd (fetchCommand messageId) =
    some (fetchCommand messageId ++ ['\r', '\n'])
  returns : (fetchCommand messageId ++ ['\r', '\n']).count '\r' = 1
  feeds : (fetchCommand messageId ++ ['\r', '\n']).count '\n' = 1
  fits : (fetchCommand messageId ++ ['\r', '\n', '\x00']).length ≤ 1024

/-- The characters of a text that are part of its message id: of its first 511 the trimmed
ones, and without the last of them where the brackets leave no room for it. -/
def idText (text : Name) : Name :=
  if (trimmed text).head? = some '<' then trimmed text else (trimmed text).take 510

theorem length_trimmed (text : Name) : (trimmed text).length ≤ segTextMax := by
  have shorter : (trimmed text).length ≤ ((text.take segTextMax).dropWhile isSpace).length :=
    ( rdropWhile_prefix isSpace _).length_le
  have dropped := (dropWhile_sublist isSpace (l := text.take segTextMax)).length_le
  have cut := length_take_le segTextMax text
  exact shorter.trans (dropped.trans cut)

theorem length_storedId (text : Name) : (storedId text).length ≤ 511 :=
  length_take_le ..

theorem storedId_eq (text : Name) : storedId text = (bracketed text).take 511 := by
  rw [storedId, snprintf, snprintf, take_take]
  rfl

theorem storedId_opened {text : Name} (opened : text.head? = some '<')
    (short : text.length ≤ segTextMax) : storedId text = text := by
  rw [storedId_eq, bracketed, if_pos opened]
  exact take_of_length_le short

theorem storedId_plain {text : Name} (plain : text.head? ≠ some '<') :
    storedId text = '<' :: (text.take 510 ++ ['>'].take (510 - text.length)) := by
  rw [storedId_eq, bracketed, if_neg plain, cons_append, take_succ_cons, take_append]

theorem printable_storedId_iff (text : Name) :
    Printable (storedId (trimmed text)) ↔ Printable (idText text) := by
  unfold idText
  split_ifs with opened
  · rw [storedId_opened opened (length_trimmed text)]
  rw [storedId_plain opened]
  constructor
  · intro printable c member
    exact printable c (.tail _ (mem_append_left _ member))
  intro printable c member
  rcases mem_cons.mp member with rfl | member
  · rfl
  rcases mem_append.mp member with member | member
  · exact printable c member
  · rw [mem_singleton.mp (mem_of_mem_take member)]
    rfl

theorem count_fetchCommand {messageId : Name} (printable : Printable messageId) {c : Char}
    (control : isControl c = true) : (fetchCommand messageId).count c = 0 := by
  apply count_eq_zero_of_not_mem
  intro member
  rcases mem_append.mp member with member | member
  · have plain : Printable "BODY ".toList := by decide
    exact absurd control (by simp [plain c member])
  · exact absurd control (by simp [printable c member])

theorem oneCommand_iff {messageId : Name} (short : messageId.length ≤ 511) :
    OneCommand messageId ↔ Printable messageId := by
  have length : (fetchCommand messageId).length ≤ 516 := by
    rw [fetchCommand, length_append]
    exact Nat.add_le_add_left short 5
  constructor
  · exact OneCommand.printable
  intro printable
  have returns := count_fetchCommand printable (c := '\r') rfl
  have feeds := count_fetchCommand printable (c := '\n') rfl
  refine ⟨printable, if_pos (length.trans (by decide)), ?_, ?_, ?_⟩
  · rw [count_append, returns]
    rfl
  · rw [count_append, feeds]
    rfl
  · rw [length_append]
    exact (Nat.add_le_add_right length 3).trans (by decide)

/-- Every id of a parsed job makes one command exactly when the texts that the ids are made
of have no control character. -/
theorem messageIds_oneCommand_iff {path id : Name} {calls : List (Event × Bool)} {job : JobData}
    (parsed : nzbParseFile path id calls = some job) :
    (∀ messageId ∈ messageIds job.files, OneCommand messageId) ↔
      ∀ text ∈ segmentTexts (calls.map Prod.fst), Printable (idText text) := by
  have stored := stored_of_nzbParseFile parsed
  constructor
  · intro commands text found
    by_cases blank : trimmed text = []
    · simp [idText, blank, Printable]
    · have command := commands _ ((stored _).mpr ⟨text, found, blank, rfl⟩)
      exact (printable_storedId_iff text).mp command.printable
  · intro printable messageId member
    obtain ⟨text, found, _, rfl⟩ := (stored messageId).mp member
    exact (oneCommand_iff (length_storedId _)).mpr
      ((printable_storedId_iff text).mpr (printable text found))

def oneSegment (pieces : List Name) : List (Event × Bool) :=
  let events : List Event :=
    [.start "file".toList [("subject".toList, "\"a.rar\" yEnc (1/1)".toList)],
      .start "segment".toList [("bytes".toList, "500".toList), ("number".toList, "1".toList)]] ++
    pieces.map Event.text ++
    [.stop "segment".toList, .stop "file".toList]
  events.map (·, true)

def oneSegmentJob (messageId : Name) : JobData :=
  { jobCreate [] "a.nzb".toList with
    files := [⟨"a.rar".toList, "\"a.rar\" yEnc (1/1)".toList, [⟨messageId, 500, 1, false⟩], 500,
      rfl⟩] }

theorem messageIds_oneCommand_indented :
    nzbParseFile "/data/a.nzb".toList []
        (oneSegment ["\n  part1".toList, "@news \n".toList]) =
      some (oneSegmentJob "<part1@news>".toList) ∧
    ∀ messageId ∈ messageIds (oneSegmentJob "<part1@news>".toList).files,
      OneCommand messageId := by
  have parsed : nzbParseFile "/data/a.nzb".toList []
      (oneSegment ["\n  part1".toList, "@news \n".toList]) =
        some (oneSegmentJob "<part1@news>".toList) := by
    decide +kernel
  exact ⟨parsed, (messageIds_oneCommand_iff parsed).mpr (by decide +kernel)⟩

/-- A line break between two characters of the text ends the command, and the rest of the
text is sent as a command of its own. -/
theorem line_break_sends_two_commands :
    nzbParseFile "/data/a.nzb".toList []
        (oneSegment ["<part1@news>".toList, "\r\n".toList, "QUIT".toList]) =
      some (oneSegmentJob "<part1@news>\r\nQUIT".toList) ∧
    Nntp.nntpConnCmd (fetchCommand "<part1@news>\r\nQUIT".toList) =
      some "BODY <part1@news>\r\nQUIT\r\n".toList ∧
    ¬∀ messageId ∈ messageIds (oneSegmentJob "<part1@news>\r\nQUIT".toList).files,
      OneCommand messageId := by
  refine ⟨by decide +kernel, by decide +kernel, ?_⟩
  intro commands
  have printable := (commands _ (mem_singleton.mpr rfl)).printable
  exact absurd printable (by decide)

end NzbDownloader.Nzb
