import NzbDownloader.Util.Numeral

/-!
# Lines of a yEnc article

The classification of `yenc/yenc.c`: a line is one of the three control lines,
with the fields the downloader reads from it, or encoded data.
-/

namespace NzbDownloader.Yenc

open Lib Util Numeral

inductive LineKind
  | data
  | ybegin
  | ypart
  | yend
  deriving DecidableEq, Repr

structure Line where
  size : ℤ := 0
  rangeBegin : ℤ := 0
  rangeEnd : ℤ := 0
  crc32 : BitVec 32 := 0
  hasSize : Bool := false
  hasRange : Bool := false
  hasCrc32 : Bool := false
  deriving DecidableEq, Repr

def startsWithKeyword (line keyword : Bytes) : Bool :=
  keyword.isPrefixOf line &&
    (line.length = keyword.length || (line.drop keyword.length).head? = some 32)

structure Fields where
  out : Line := {}
  haveBegin : Bool := false
  haveEnd : Bool := false

def tokens : (blankBefore : Bool) → Bytes → List Bytes
  | _, [] => []
  | blankBefore, c :: rest =>
      if c = 32 then tokens true rest
      else if blankBefore then (c :: rest) :: tokens false rest
      else tokens false rest

def hasKey (key token : Bytes) : Bool :=
  key.length < (token.takeWhile (· ≠ 32)).length && key.isPrefixOf token

/-- One round of the loop of `parse_fields`.  A number is read from the string,
not from the token. -/
def parseToken (fields : Fields) (token : Bytes) : Fields :=
  let out := fields.out
  if hasKey (ascii "size=") token then
    { fields with out := { out with size := strtol (token.drop 5), hasSize := true } }
  else if hasKey (ascii "begin=") token then
    { fields with out := { out with rangeBegin := strtol (token.drop 6) }, haveBegin := true }
  else if hasKey (ascii "end=") token then
    { fields with out := { out with rangeEnd := strtol (token.drop 4) }, haveEnd := true }
  else if hasKey (ascii "pcrc32=") token then
    { fields with out := { out with
        crc32 := (strtoulHex (token.drop 7)).setWidth 32, hasCrc32 := true } }
  else if hasKey (ascii "crc32=") token && !out.hasCrc32 then
    { fields with out := { out with
        crc32 := (strtoulHex (token.drop 6)).setWidth 32, hasCrc32 := true } }
  else fields

def parseFields (text : Bytes) : Line :=
  let fields := (tokens true (cString text)).foldl parseToken {}
  { fields.out with hasRange := fields.haveBegin && fields.haveEnd }

def classifyLine (line : Bytes) : LineKind × Line :=
  if startsWithKeyword line (ascii "=ybegin") then (.ybegin, parseFields (line.drop 7))
  else if startsWithKeyword line (ascii "=ypart") then (.ypart, parseFields (line.drop 6))
  else if startsWithKeyword line (ascii "=yend") then (.yend, parseFields (line.drop 5))
  else (.data, {})

example : classifyLine (ascii "=ypart begin=11 end=20") =
    (.ypart, { rangeBegin := 11, rangeEnd := 20, hasRange := true }) := by
  decide +kernel

example : ["=yend size=3 pcrc32=ab crc32=cd", "=yend crc32=cd pcrc32=ab"].map
    (fun line => (classifyLine (ascii line)).2.crc32) = [0xab, 0xab] := by
  decide +kernel

def Line.validRange (line : Line) : Bool :=
  line.hasRange && 1 ≤ line.rangeBegin && line.rangeBegin ≤ line.rangeEnd

/-- The offset of an article's bytes in the file and how many there may be: the
range of the `=ypart` line, or the size on the `=ybegin` line, in place of which
the size declared by the NZB serves if it is missing. -/
def declaredRange (segmentBytes : ℤ) (beginLine : Bytes) : Option Bytes → ℕ × ℕ
  | some line =>
      let fields := (classifyLine line).2
      ((fields.rangeBegin - 1).toNat, (fields.rangeEnd - fields.rangeBegin + 1).toNat)
  | none =>
      let fields := (classifyLine beginLine).2
      (0, (if fields.hasSize then fields.size else segmentBytes).toNat)

def decodeLine (decode : Bytes → Bytes) (line : Bytes) : Bytes :=
  if line = [] then [] else decode line

/-- A yEnc article: a `=ybegin` line, a `=ypart` line with a valid range unless
the article is the whole file, data lines and a `=yend` line. -/
structure Article where
  beginLine : Bytes
  partLine : Option Bytes
  dataLines : List Bytes
  endLine : Bytes
  isBegin : (classifyLine beginLine).1 = .ybegin
  isPart : ∀ line ∈ partLine,
    (classifyLine line).1 = .ypart ∧ (classifyLine line).2.validRange = true
  isData : ∀ line ∈ dataLines, (classifyLine line).1 = .data
  isEnd : (classifyLine endLine).1 = .yend

namespace Article

def body (article : Article) : List Bytes :=
  article.partLine.toList ++ article.dataLines

def lines (article : Article) : List Bytes :=
  article.beginLine :: (article.body ++ [article.endLine])

def decodeAll (decode : Bytes → Bytes) (lines : List Bytes) : Bytes :=
  lines.flatMap fun line =>
    if (classifyLine line).1 = .data then decodeLine decode line else []

def decoded (decode : Bytes → Bytes) (article : Article) : Bytes :=
  decodeAll decode article.dataLines

def range (article : Article) (segmentBytes : ℤ) : ℕ × ℕ :=
  declaredRange segmentBytes article.beginLine article.partLine

def extent (decode : Bytes → Bytes) (article : Article) (segmentBytes : ℤ) : Extent :=
  ⟨(article.range segmentBytes).1, (article.decoded decode).take (article.range segmentBytes).2⟩

variable {decode : Bytes → Bytes} {article : Article}

theorem decodeAll_append (front back : List Bytes) :
    decodeAll decode (front ++ back) = decodeAll decode front ++ decodeAll decode back :=
  List.flatMap_append

theorem decodeAll_body : decodeAll decode article.body = article.decoded decode := by
  have part : decodeAll decode article.partLine.toList = [] := by
    cases here : article.partLine with
    | none => rfl
    | some line => simp [decodeAll, (article.isPart line here).1]
  rw [body, decodeAll_append, part, List.nil_append, decoded]

theorem length_lines : article.lines.length = article.body.length + 2 := by
  simp [lines]

theorem isData_of_body {n : ℕ} {line : Bytes} (found : article.body[n]? = some line)
    (later : 0 < n ∨ article.partLine = none) : (classifyLine line).1 = .data := by
  apply article.isData
  unfold body at found
  cases part : article.partLine with
  | none =>
    rw [part] at found
    exact List.mem_of_getElem? found
  | some first =>
    rw [part] at found later
    obtain ⟨k, rfl⟩ : ∃ k, n = k + 1 := by
      rcases later with positive | absent
      · exact ⟨n - 1, by omega⟩
      · contradiction
    exact List.mem_of_getElem? found

end Article

end NzbDownloader.Yenc
