import NzbDownloader.Util.Name
import NzbDownloader.Util.Numeral

/-!
# An NNTP connection

`nntp/nntp_conn.c`: the command that is sent, and the receiving side, with a refill buffer
over the transport, lines without their terminator, dot-unstuffing, and the fetch of an
article.
-/

namespace NzbDownloader.Nntp

open Lib Util

/-- `nntp_conn_cmd`: what is sent for a formatted command, from a buffer of 1024 bytes whose
last three are kept from `vsnprintf`. The length is that of the whole command, so a command
of 1021 bytes is sent with the terminator of its cut text, and the line end of a longer
one is written past the buffer. -/
def nntpConnCmd (command : Name) : Option Name :=
  let crlf := ['\r', '\n']
  if command.length ≤ 1020 then some (command ++ crlf)
  else if command.length = 1021 then some (command.take 1020 ++ '\x00' :: crlf)
  else none

def cr : Byte :=
  13

def lf : Byte :=
  10

def dot : Byte :=
  46

structure Conn where
  rbuf : Bytes
  incoming : List Bytes
  deriving DecidableEq, Repr

namespace Conn

def unread (c : Conn) : Bytes :=
  c.rbuf ++ c.incoming.flatten

def fillBuffer (c : Conn) : Option Conn :=
  match c.incoming with
  | [] | [] :: _ => none
  | (byte :: chunk) :: rest => some ⟨byte :: chunk, rest⟩

def nextByte (c : Conn) : Option (Byte × Conn) := do
  let c ← if c.rbuf = [] then c.fillBuffer else some c
  match c.rbuf with
  | [] => none
  | byte :: rest => some (byte, { c with rbuf := rest })

def readLoop (size : ℕ) : (bytes : ℕ) → Bytes → Conn → Option (Bytes × Conn)
  | 0, _, _ => none
  | bytes + 1, buf, c =>
      if buf.length + 1 < size then do
        let (ch, c) ← c.nextByte
        if ch = cr then readLoop size bytes buf c
        else if ch = lf then some (buf, c)
        else readLoop size bytes (buf ++ [ch]) c
      else some (buf, c)

def rawReadLine (size : ℕ) (c : Conn) : Option (Bytes × Conn) :=
  c.readLoop size (c.unread.length + 1) []

def readBodyLine (size : ℕ) (c : Conn) : Option (Option Bytes × Conn) := do
  let (buf, c) ← c.rawReadLine size
  if byteAt buf 0 = dot ∧ byteAt buf 1 = 0 then some (none, c)
  else if byteAt buf 0 = dot ∧ byteAt buf 1 = dot then some (some buf.tail, c)
  else some (some buf, c)

end Conn

structure Receiver (σ : Type*) where
  bodyCb : Option (σ → Bytes → ℤ × σ)
  ctx : σ

structure Fetched (σ : Type*) where
  status : ℤ
  conn : Conn
  ctx : σ
  calls : List Bytes

def lineSize : ℕ :=
  8192

section Fetch

variable {σ : Type*}

def bodyLoop (bodyCb : Option (σ → Bytes → ℤ × σ)) (code : ℤ) :
    (lines : ℕ) → (aborted : Bool) → Conn → σ → List Bytes → Fetched σ
  | 0, _, c, ctx, calls => ⟨-1, c, ctx, calls⟩
  | lines + 1, aborted, c, ctx, calls =>
      match c.readBodyLine lineSize with
      | none => ⟨-1, c, ctx, calls⟩
      | some (none, c) => ⟨code, c, ctx, calls⟩
      | some (some line, c) =>
          match bodyCb, aborted with
          | some cb, false =>
              let (answer, ctx) := cb ctx line
              bodyLoop bodyCb code lines (answer ≠ 0) c ctx (calls ++ [line])
          | _, _ => bodyLoop bodyCb code lines aborted c ctx calls

def nntpConnFetch (sent : Bool) (receiver : Receiver σ) (c : Conn) : Fetched σ :=
  if !sent then ⟨-1, c, receiver.ctx, []⟩
  else
    match c.rawReadLine lineSize with
    | none => ⟨-1, c, receiver.ctx, []⟩
    | some (line, c) =>
        let code := Numeral.atoi (cString line)
        if code ≠ 220 ∧ code ≠ 222 then ⟨code, c, receiver.ctx, []⟩
        else bodyLoop receiver.bodyCb code (c.unread.length + 1) false c receiver.ctx []

def fetchAll : Conn → List (Receiver σ) → List (Fetched σ)
  | _, [] => []
  | c, receiver :: rest =>
      let fetched := nntpConnFetch true receiver c
      fetched :: fetchAll fetched.conn rest

end Fetch

end NzbDownloader.Nntp
