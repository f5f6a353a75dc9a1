import NzbDownloader.Nntp.Connection

/-!
# NNTP framing stays in sync

A server answers each fetch with a status line and, for an article or a body, with
dot-stuffed lines and a lone dot.
-/

namespace NzbDownloader.Nntp

open Lib Util Numeral List

def crlf : Bytes :=
  [cr, lf]

def stuff (line : Bytes) : Bytes :=
  if line.head? = some dot then dot :: line else line

structure Response where
  digits : Bytes
  text : Bytes
  lines : List Bytes
  nonempty : digits ≠ []
  decimal : ∀ c ∈ digits, isDigit c = true
  small : value 10 digits ≤ 0x7fffffff
  ended : ∀ c ∈ text.head?, isDigit c = false
  plain : ∀ c ∈ text, c ≠ cr ∧ c ≠ lf
  statusShort : (digits ++ text).length ≤ 8190
  bodyPlain : ∀ line ∈ lines, ∀ c ∈ line, c ≠ cr ∧ c ≠ lf ∧ c ≠ 0
  bodyShort : ∀ line ∈ lines, (stuff line).length ≤ 8190

open Response

namespace Response

def code (response : Response) : ℕ :=
  value 10 response.digits

def hasBody (response : Response) : Bool :=
  response.code = 220 ∨ response.code = 222

def body (response : Response) : List Bytes :=
  if response.hasBody then response.lines else []

def encodeBody (lines : List Bytes) : Bytes :=
  lines.flatMap (fun line => stuff line ++ crlf) ++ (dot :: crlf)

def wire (response : Response) : Bytes :=
  response.digits ++ response.text ++ crlf ++
    if response.hasBody then encodeBody response.lines else []

end Response

def takesLines {σ : Type*} (cb : σ → Bytes → ℤ × σ) : σ → List Bytes → List Bytes × σ
  | ctx, [] => ([], ctx)
  | ctx, line :: rest =>
      if (cb ctx line).1 ≠ 0 then ([line], (cb ctx line).2)
      else (line :: (takesLines cb (cb ctx line).2 rest).1, (takesLines cb (cb ctx line).2 rest).2)

def Receiver.takes {σ : Type*} (receiver : Receiver σ) (lines : List Bytes) : List Bytes × σ :=
  match receiver.bodyCb with
  | none => ([], receiver.ctx)
  | some cb => takesLines cb receiver.ctx lines

theorem Receiver.takes_all {σ : Type*} {receiver : Receiver σ} {cb : σ → Bytes → ℤ × σ}
    (isCb : receiver.bodyCb = some cb) (goesOn : ∀ ctx line, (cb ctx line).1 = 0)
    (lines : List Bytes) : (receiver.takes lines).1 = lines := by
  rw [Receiver.takes, isCb]
  dsimp only
  generalize receiver.ctx = ctx
  induction lines generalizing ctx with
  | nil => rfl
  | cons line rest ih =>
    rw [takesLines, if_neg (by simp [goesOn]), ih]

namespace Conn

def WellSplit (c : Conn) : Prop :=
  ∀ chunk ∈ c.incoming, chunk ≠ []

variable {c c' : Conn} {byte : Byte} {rest line buf : Bytes} {size bytes : ℕ}

structure Before (c : Conn) (stream : Bytes) : Prop where
  unread : c.unread = stream
  split : c.WellSplit

theorem nextByte_eq (here : c.Before (byte :: rest)) :
    ∃ c', c.nextByte = some (byte, c') ∧ c'.Before rest := by
  obtain ⟨unread, split⟩ := here
  obtain ⟨rbuf, incoming⟩ := c
  cases rbuf with
  | cons first others =>
    cases unread
    exact ⟨⟨others, incoming⟩, rfl, rfl, split⟩
  | nil =>
    cases incoming with
    | nil => contradiction
    | cons chunk later =>
      have nonempty := split chunk (.head _)
      obtain ⟨first, others, rfl⟩ := exists_cons_of_ne_nil nonempty
      cases unread
      exact ⟨⟨others, later⟩, rfl, rfl, fun chunk member => split chunk (.tail _ member)⟩

theorem readLoop_eq (here : c.Before (line ++ lf :: rest)) (noLf : lf ∉ line)
    (enough : line.length < bytes) (fits : buf.length + (line.filter (· ≠ cr)).length + 1 < size) :
    ∃ c', c.readLoop size bytes buf = some (buf ++ line.filter (· ≠ cr), c') ∧ c'.Before rest := by
  induction line generalizing c buf bytes with
  | nil =>
    obtain ⟨bytes, rfl⟩ : ∃ n, bytes = n + 1 := ⟨bytes - 1, by omega⟩
    obtain ⟨c', read, after⟩ := nextByte_eq here
    refine ⟨c', ?_, after⟩
    have room : buf.length + 1 < size := by simpa using fits
    simp [readLoop, room, read, lf, cr]
  | cons first line ih =>
    obtain ⟨bytes, rfl⟩ : ∃ n, bytes = n + 1 := ⟨bytes - 1, by omega⟩
    obtain ⟨c', read, after⟩ := nextByte_eq here
    have different : first ≠ lf := fun same => noLf (by simp [same])
    have later : lf ∉ line := fun member => noLf (.tail _ member)
    have shorter : line.length < bytes := by simpa using enough
    have room : buf.length + 1 < size := by omega
    by_cases isCr : first = cr
    · have fits' : buf.length + (line.filter (· ≠ cr)).length + 1 < size := by
        simpa [isCr] using fits
      obtain ⟨c'', reads, after'⟩ := ih after later shorter fits'
      refine ⟨c'', ?_, after'⟩
      simpa [readLoop, room, read, isCr] using reads
    · have fits' : (buf ++ [first]).length + (line.filter (· ≠ cr)).length + 1 < size := by
        simp [isCr] at fits ⊢
        omega
      obtain ⟨c'', reads, after'⟩ := ih after later shorter fits'
      refine ⟨c'', ?_, after'⟩
      simpa [readLoop, room, read, isCr, different] using reads

theorem rawReadLine_eq (here : c.Before (line ++ crlf ++ rest))
    (plain : ∀ b ∈ line, b ≠ cr ∧ b ≠ lf) (fits : line.length + 2 ≤ size) :
    ∃ c', c.rawReadLine size = some (line, c') ∧ c'.Before rest := by
  have here' : c.Before ((line ++ [cr]) ++ lf :: rest) := by
    simpa [crlf] using here
  have kept : (line ++ [cr]).filter (· ≠ cr) = line := by
    rw [filter_append, filter_eq_self.mpr fun b member => by simpa using (plain b member).1]
    simp
  have noLf : lf ∉ line ++ [cr] := by
    intro member
    rcases mem_append.mp member with inside | last
    · exact (plain lf inside).2 rfl
    · simp [lf, cr] at last
  have enough : (line ++ [cr]).length < c.unread.length + 1 := by
    rw [here'.unread]
    simp
  have reads := @readLoop_eq c rest (line ++ [cr]) [] size _ here' noLf enough
    (by rw [kept, length_nil]; omega)
  rwa [kept, nil_append] at reads

theorem readBodyLine_eq (reads : c.rawReadLine size = some (line, c')) :
    c.readBodyLine size = some ((if byteAt line 0 = dot ∧ byteAt line 1 = 0 then none
      else if byteAt line 0 = dot ∧ byteAt line 1 = dot then some line.tail
      else some line), c') := by
  simp only [readBodyLine, reads, Option.bind_eq_bind, Option.bind_some]
  split
  · rfl
  · split <;> rfl

def Plain (line : Bytes) : Prop :=
  ∀ b ∈ line, b ≠ cr ∧ b ≠ lf ∧ b ≠ 0

theorem plain_stuff (plain : Plain line) : Plain (stuff line) := by
  intro b member
  unfold stuff at member
  split at member
  · rcases mem_cons.mp member with rfl | inside
    · decide
    · exact plain b inside
  · exact plain b member

theorem readBodyLine_line (here : c.Before (stuff line ++ crlf ++ rest)) (plain : Plain line)
    (fits : (stuff line).length + 2 ≤ size) :
    ∃ c', c.readBodyLine size = some (some line, c') ∧ c'.Before rest := by
  obtain ⟨c', reads, after⟩ := rawReadLine_eq here
    (fun b member => (plain_stuff plain b member).imp_right And.left) fits
  refine ⟨c', ?_, after⟩
  rw [readBodyLine_eq reads]
  cases line with
  | nil => rfl
  | cons first others =>
    by_cases stuffed : first = dot
    · subst stuffed
      have doubled : stuff (dot :: others) = dot :: dot :: others := if_pos rfl
      rw [doubled, if_neg (by simp [byteAt, dot]), if_pos (by simp [byteAt])]
      rfl
    · have same : stuff (first :: others) = first :: others := if_neg (by simpa using stuffed)
      rw [same, if_neg (by simp [byteAt, stuffed]), if_neg (by simp [byteAt, stuffed])]

theorem readBodyLine_end (here : c.Before (dot :: crlf ++ rest)) :
    ∃ c', c.readBodyLine lineSize = some (none, c') ∧ c'.Before rest := by
  obtain ⟨c', reads, after⟩ := @rawReadLine_eq c rest [dot] lineSize here (by decide) (by decide)
  exact ⟨c', readBodyLine_eq reads, after⟩

end Conn

section Fetches

variable {σ : Type*} {c : Conn} {rest : Bytes} {bodyCb : Option (σ → Bytes → ℤ × σ)} {code : ℤ}
  {ctx : σ} {calls : List Bytes} {lines : List Bytes} {fuel : ℕ} {aborted : Bool}

theorem encodeBody_cons (line : Bytes) (lines : List Bytes) :
    encodeBody (line :: lines) = stuff line ++ crlf ++ encodeBody lines := by
  simp [encodeBody]

theorem length_lt_encodeBody (lines : List Bytes) :
    lines.length < (encodeBody lines).length := by
  induction lines with
  | nil => decide
  | cons line lines ih =>
    rw [encodeBody_cons, length_append, length_append, length_cons]
    have two : crlf.length = 2 := rfl
    omega

structure BodyFits (lines : List Bytes) : Prop where
  plain : ∀ line ∈ lines, Conn.Plain line
  short : ∀ line ∈ lines, (stuff line).length ≤ 8190

theorem BodyFits.tail {line : Bytes} (fits : BodyFits (line :: lines)) : BodyFits lines :=
  ⟨fun line member => fits.plain line (.tail _ member),
    fun line member => fits.short line (.tail _ member)⟩

theorem BodyFits.read {line : Bytes} (fits : BodyFits (line :: lines))
    (here : c.Before (encodeBody (line :: lines) ++ rest)) :
    ∃ c', c.readBodyLine lineSize = some (some line, c') ∧
      c'.Before (encodeBody lines ++ rest) := by
  rw [encodeBody_cons, append_assoc] at here
  apply Conn.readBodyLine_line here (fits.plain line (.head _))
  have short := fits.short line (.head _)
  unfold lineSize
  omega

theorem bodyLoop_drains (fits : BodyFits lines) (silent : bodyCb = none ∨ aborted)
    (here : c.Before (encodeBody lines ++ rest)) (enough : lines.length < fuel) :
    ∃ c', bodyLoop bodyCb code fuel aborted c ctx calls = ⟨code, c', ctx, calls⟩ ∧
      c'.Before rest := by
  induction lines generalizing c fuel with
  | nil =>
    obtain ⟨fuel, rfl⟩ : ∃ n, fuel = n + 1 := ⟨fuel - 1, by omega⟩
    obtain ⟨c', reads, after⟩ := Conn.readBodyLine_end here
    refine ⟨c', ?_, after⟩
    rw [bodyLoop, reads]
  | cons line lines ih =>
    obtain ⟨fuel, rfl⟩ : ∃ n, fuel = n + 1 := ⟨fuel - 1, by omega⟩
    obtain ⟨c', reads, after⟩ := fits.read here
    obtain ⟨c'', drains, end'⟩ := ih fits.tail after (by simpa using enough)
    refine ⟨c'', ?_, end'⟩
    rw [bodyLoop, reads, ← drains]
    rcases silent with rfl | rfl
    · rfl
    · cases bodyCb <;> rfl

theorem bodyLoop_takes {cb : σ → Bytes → ℤ × σ} (fits : BodyFits lines)
    (here : c.Before (encodeBody lines ++ rest)) (enough : lines.length < fuel) :
    ∃ c', bodyLoop (some cb) code fuel false c ctx calls =
        ⟨code, c', (takesLines cb ctx lines).2, calls ++ (takesLines cb ctx lines).1⟩ ∧
      c'.Before rest := by
  induction lines generalizing c fuel ctx calls with
  | nil =>
    obtain ⟨fuel, rfl⟩ : ∃ n, fuel = n + 1 := ⟨fuel - 1, by omega⟩
    obtain ⟨c', reads, after⟩ := Conn.readBodyLine_end here
    refine ⟨c', ?_, after⟩
    rw [bodyLoop, reads, takesLines, append_nil]
  | cons line lines ih =>
    obtain ⟨fuel, rfl⟩ : ∃ n, fuel = n + 1 := ⟨fuel - 1, by omega⟩
    obtain ⟨c', reads, after⟩ := fits.read here
    have shorter : lines.length < fuel := by simpa using enough
    have steps : bodyLoop (some cb) code (fuel + 1) false c ctx calls =
        bodyLoop (some cb) code fuel ((cb ctx line).1 ≠ 0) c' (cb ctx line).2 (calls ++ [line]) := by
      rw [bodyLoop, reads]
    rw [steps, takesLines]
    by_cases aborts : (cb ctx line).1 ≠ 0
    · rw [if_pos aborts, decide_eq_true aborts]
      exact bodyLoop_drains fits.tail (.inr rfl) after shorter
    · rw [if_neg aborts, decide_eq_false aborts]
      rw [append_cons calls line (takesLines cb (cb ctx line).2 lines).1]
      exact ih fits.tail after shorter

theorem bodyLoop_receives (receiver : Receiver σ) (fits : BodyFits lines)
    (here : c.Before (encodeBody lines ++ rest)) :
    ∃ c', bodyLoop receiver.bodyCb code (c.unread.length + 1) false c receiver.ctx [] =
      ⟨code, c', (receiver.takes lines).2, (receiver.takes lines).1⟩ ∧ c'.Before rest := by
  have enough : lines.length < c.unread.length + 1 := by
    have shorter := length_lt_encodeBody lines
    rw [here.unread, length_append]
    omega
  rw [Receiver.takes]
  cases receiver.bodyCb with
  | none => exact bodyLoop_drains fits (.inl rfl) here enough
  | some cb => exact bodyLoop_takes fits here enough

variable {response : Response}

theorem plain_of_isDigit : ∀ b : Byte, isDigit b → b ≠ cr ∧ b ≠ lf ∧ b ≠ 0 := by
  decide +kernel

theorem Response.opens (receiver : Receiver σ)
    (here : c.Before (response.digits ++ response.text ++ crlf ++ rest)) :
    ∃ c' : Conn, nntpConnFetch true receiver c =
        (if response.hasBody then
          bodyLoop receiver.bodyCb response.code (c'.unread.length + 1) false c' receiver.ctx []
        else ⟨response.code, c', receiver.ctx, []⟩) ∧ c'.Before rest := by
  have plain : ∀ b ∈ response.digits ++ response.text, b ≠ cr ∧ b ≠ lf := by
    intro b member
    rcases mem_append.mp member with inDigits | inText
    · exact (plain_of_isDigit b (response.decimal b inDigits)).imp_right And.left
    · exact response.plain b inText
  have short := response.statusShort
  obtain ⟨c', reads, after⟩ := Conn.rawReadLine_eq here plain
    (show _ + 2 ≤ lineSize by unfold lineSize; omega)
  refine ⟨c', ?_, after⟩
  have cut : cString (response.digits ++ response.text) =
      response.digits ++ cString response.text := by
    apply takeWhile_append_of_pos
    intro b member
    simpa using (plain_of_isDigit b (response.decimal b member)).2.2
  have code : atoi (cString (response.digits ++ response.text)) = response.code := by
    rw [cut]
    apply atoi_append response.nonempty response.decimal _ response.small
    intro b first
    apply response.ended
    cases text : response.text with
    | nil =>
      rw [text] at first
      exact first
    | cons head others =>
      rw [text, cString, takeWhile_cons] at first
      split at first
      · exact first
      · contradiction
  rw [nntpConnFetch, if_neg (by decide), reads]
  simp only [code, hasBody, decide_eq_true_eq]
  split_ifs
  · omega
  · rfl
  · rfl
  · omega

theorem Response.fetch (receiver : Receiver σ) (here : c.Before (response.wire ++ rest)) :
    let fetched := nntpConnFetch true receiver c
    fetched.status = response.code ∧ fetched.calls = (receiver.takes response.body).1 ∧
      fetched.conn.Before rest := by
  rw [wire, append_assoc] at here
  obtain ⟨c', opens, after⟩ := opens receiver here
  rw [opens, body]
  by_cases hasBody : response.hasBody = true
  · rw [if_pos hasBody] at after ⊢
    obtain ⟨c'', receives, end'⟩ :=
      bodyLoop_receives receiver ⟨response.bodyPlain, response.bodyShort⟩ after
    rw [if_pos hasBody, receives]
    exact ⟨rfl, rfl, end'⟩
  · rw [if_neg hasBody] at after ⊢
    have nothing : (receiver.takes []).1 = [] := by
      rw [Receiver.takes]
      cases receiver.bodyCb <;> rfl
    rw [if_neg hasBody, nothing]
    exact ⟨rfl, rfl, after⟩

end Fetches

/-- However the stream of responses is split into reads: each fetch returns the
code of its response, hands the original lines to its callback until that asks to
abort, and leaves the stream at the start of the next response. -/
theorem framing_in_sync {σ : Type*} {c : Conn} {rest : Bytes}
    {exchanges : List (Response × Receiver σ)} (split : c.WellSplit)
    (stream : c.unread = exchanges.flatMap (·.1.wire) ++ rest) (k : ℕ) (response : Response)
    (receiver : Receiver σ) (answered : exchanges[k]? = some (response, receiver)) :
    ∃ fetched, (fetchAll c (exchanges.map Prod.snd))[k]? = some fetched ∧
      fetched.status = response.code ∧ fetched.calls = (receiver.takes response.body).1 ∧
      (∀ cb, receiver.bodyCb = some cb → (∀ ctx line, (cb ctx line).1 = 0) →
        fetched.calls = response.body) ∧
      fetched.conn.unread = (exchanges.drop (k + 1)).flatMap (·.1.wire) ++ rest := by
  induction exchanges generalizing c k with
  | nil => contradiction
  | cons exchange exchanges ih =>
    rw [flatMap_cons, append_assoc] at stream
    obtain ⟨status, calls, after, split'⟩ := fetch exchange.2 ⟨stream, split⟩
    cases k with
    | zero =>
      cases answered
      refine ⟨_, rfl, status, calls, ?_, after⟩
      intro cb isCb goesOn
      rw [calls, Receiver.takes_all isCb goesOn]
    | succ k => exact ih split' after k answered

def dottedBody : Response where
  digits := ascii "222"
  text := ascii " 0 <a@news>"
  lines := [ascii ".x", [], ascii "y"]
  nonempty := by decide +kernel
  decimal := by decide +kernel
  small := by decide +kernel
  ended := by decide +kernel
  plain := by decide +kernel
  statusShort := by decide +kernel
  bodyPlain := by decide +kernel
  bodyShort := by decide +kernel

def noArticle : Response where
  digits := ascii "430"
  text := ascii " no such article"
  lines := []
  nonempty := by decide +kernel
  decimal := by decide +kernel
  small := by decide +kernel
  ended := by decide +kernel
  plain := by decide +kernel
  statusShort := by decide +kernel
  bodyPlain := nofun
  bodyShort := nofun

/-- Two responses, with reads that end inside a line terminator, between two dots
and inside the end of the body.  The callback aborts at the second line. -/
theorem framing_in_sync_chunks :
    let chunks := ["222 0 <a@ne", "ws>\r", "\n.", ".x\r\n\r\ny\r\n.", "\r\n43", "0 no such article\r\n"]
    let receiver : Receiver ℕ := ⟨some fun calls _ => (if calls = 1 then 1 else 0, calls + 1), 0⟩
    ∃ first second : Fetched ℕ,
      fetchAll ⟨[], chunks.map ascii⟩ [receiver, receiver] = [first, second] ∧
      first.calls = [ascii ".x", []] ∧ second.status = 430 ∧
      first.conn.unread = ascii "430 no such article\r\n" := by
  intro chunks receiver
  have split : (⟨[], chunks.map ascii⟩ : Conn).WellSplit := by
    unfold Conn.WellSplit
    decide +kernel
  have stream : (⟨[], chunks.map ascii⟩ : Conn).unread =
      [(dottedBody, receiver), (noArticle, receiver)].flatMap (·.1.wire) ++ [] := by
    decide +kernel
  obtain ⟨first, isFirst, _, calls, _, after⟩ :=
    framing_in_sync split stream 0 dottedBody receiver rfl
  obtain ⟨second, isSecond, status, _⟩ :=
    framing_in_sync split stream 1 noArticle receiver rfl
  refine ⟨first, second, ?_, ?_, ?_, ?_⟩
  · cases isFirst
    cases isSecond
    rfl
  · rw [calls]
    decide +kernel
  · rw [status]
    decide +kernel
  · rw [after]
    decide +kernel

end NzbDownloader.Nntp
