import NzbDownloader.Queue.Persist
import NzbDownloader.Storage.Layout
import NzbDownloader.Util.Numeral

/-!
# Parsing an NZB document

The handlers of `nzb/nzb_parse.c`, as expat calls them: at the start and the end of an
element, and for character data, of which an element may get any number of pieces.
-/

namespace NzbDownloader.Nzb

open Lib Util Queue.Persist

def bytesOf (text : Name) : Bytes :=
  text.map fun c => BitVec.ofNat 8 c.toNat

def isSpace (c : Char) : Bool :=
  c.toNat = 32 ∨ (9 ≤ c.toNat ∧ c.toNat ≤ 13)

def trimWs (text : Name) : Name :=
  (text.dropWhile isSpace).rdropWhile isSpace

def findAttr (attrs : List (Name × Name)) (name : Name) : Option Name :=
  (attrs.find? fun attr => attr.1 = name).map (·.2)

def isPartCount (text : Name) : Bool :=
  match text.dropWhile Char.isDigit with
  | '/' :: total =>
      text.head? ≠ some '/' && total ≠ [] && total.all Char.isDigit
  | _ => false

def stripTrailingPartSuffix (text : Name) : Name :=
  -- What precedes the last opening parenthesis, and what is between it and the end.
  let front := text.dropLast.rdropWhile (· ≠ '(')
  let count := text.dropLast.rtakeWhile (· ≠ '(')
  let before := front.dropLast
  if text.getLast? = some ')' ∧ front ≠ [] ∧ isPartCount count = true ∧
      before.getLast?.all isSpace = true then
    let name := trimWs before
    if hasSuffixCi name "yenc".toList ∧ (name.rdrop 4).getLast?.all isSpace = true then
      trimWs (name.rdrop 4)
    else name
  else text

def extractFilename (subject : Name) : Name :=
  let quoted := (subject.dropWhile (· ≠ '"')).tail
  let name := quoted.takeWhile (· ≠ '"')
  Storage.pathSanitizeComponent <|
    if '"' ∈ quoted ∧ name ≠ [] then snprintf 512 name
    else stripTrailingPartSuffix (snprintf 512 subject)

inductive Tag
  | file
  | segment
  | password
  | other
  deriving DecidableEq, Repr

def tagOf (name : Name) : Tag :=
  if name = "file".toList then .file
  else if name = "segment".toList then .segment
  else if name = "meta".toList then .password
  else .other

inductive Event
  | start (name : Name) (attrs : List (Name × Name))
  | text (data : Name)
  | stop (name : Name)
  deriving DecidableEq, Repr

structure ParseCtx where
  files : List FileData := []
  passwords : List Name := []
  currentFile : Option ℕ := none
  inSegment : Bool := false
  segBytes : ℤ := 0
  segNumber : ℤ := 0
  segText : Name := []
  inPasswordMeta : Bool := false
  metaText : Name := []
  error : Bool := false

def segTextMax : ℕ :=
  511

def metaTextMax : ℕ :=
  255

def segmentNumber (attrs : List (Name × Name)) : ℤ :=
  ((findAttr attrs "number".toList).map fun text => Numeral.atoi (bytesOf text)).getD 0

def startElement (memory : Bool) (name : Name) (attrs : List (Name × Name)) (ctx : ParseCtx) :
    ParseCtx :=
  match tagOf name with
  | .file =>
      let subject := (findAttr attrs "subject".toList).getD []
      if memory then
        { ctx with
          files := ctx.files ++ [newFile (extractFilename subject) subject]
          currentFile := some ctx.files.length }
      else { ctx with currentFile := none, error := true }
  | .segment =>
      { ctx with
        inSegment := true
        segBytes := ((findAttr attrs "bytes".toList).map fun text =>
          Numeral.strtol (bytesOf text)).getD 0
        segNumber := segmentNumber attrs
        segText := [] }
  | .password =>
      { ctx with
        inPasswordMeta := ((findAttr attrs "type".toList).map fun type =>
          decide (lower type = "password".toList)).getD false
        metaText := [] }
  | .other => ctx

def charData (data : Name) (ctx : ParseCtx) : ParseCtx :=
  if ctx.inSegment then
    { ctx with segText := ctx.segText ++ data.take (segTextMax - ctx.segText.length) }
  else if ctx.inPasswordMeta then
    { ctx with metaText := ctx.metaText ++ data.take (metaTextMax - ctx.metaText.length) }
  else ctx

def bracketed (text : Name) : Name :=
  if text.head? = some '<' then text else '<' :: text ++ ['>']

def endElement (memory : Bool) (name : Name) (ctx : ParseCtx) : ParseCtx :=
  match tagOf name with
  | .file => { ctx with currentFile := none }
  | .segment =>
      let text := trimWs ctx.segText
      let ctx := { ctx with segText := text, inSegment := false }
      match ctx.currentFile with
      | none => ctx
      | some index =>
          if ctx.segNumber < 1 ∨ text = [] then ctx
          else if memory then
            { ctx with
              files := ctx.files.modify index fun file =>
                jobFileAddSegment file (snprintf (segTextMax + 3) (bracketed text)) ctx.segBytes
                  ctx.segNumber false }
          else { ctx with error := true }
  | .password =>
      if ctx.inPasswordMeta then
        { ctx with
          metaText := trimWs ctx.metaText
          passwords := jobAddPassword ctx.passwords (trimWs ctx.metaText)
          inPasswordMeta := false }
      else ctx
  | .other => ctx

def handle (ctx : ParseCtx) (call : Event × Bool) : ParseCtx :=
  match call.1 with
  | .start name attrs => startElement call.2 name attrs ctx
  | .text data => charData data ctx
  | .stop name => endElement call.2 name ctx

def basenameOf (path : Name) : Name :=
  path.rtakeWhile fun c => c ≠ '/' ∧ c ≠ '\\'

def jobCreate (id name : Name) : JobData :=
  { JobData.blank with id, name := Storage.pathSanitizeComponent (snprintf 256 name) }

def nzbParseFile (path id : Name) (calls : List (Event × Bool)) : Option JobData :=
  let ctx := calls.foldl handle {}
  if ctx.error then none
  else some { jobCreate id (basenameOf path) with files := ctx.files, passwords := ctx.passwords }

end NzbDownloader.Nzb
