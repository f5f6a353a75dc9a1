import NzbDownloader.Nntp.Framing

/-!
# Lines longer than the buffer

`raw_read_line` returns in the middle of a line when its buffer is full, and its callers
take every return for a line.
-/

namespace NzbDownloader.Nntp

open Lib Util Numeral List Response

namespace Conn

variable {c : Conn} {piece rest line buf : Bytes} {size bytes : ℕ}

theorem readLoop_full (here : c.Before (piece ++ rest)) (plain : Plain piece)
    (enough : piece.length < bytes) (full : buf.length + piece.length + 1 = size) :
    ∃ c', c.readLoop size bytes buf = some (buf ++ piece, c') ∧ c'.Before rest := by
  induction piece generalizing c buf bytes with
  | nil =>
    obtain ⟨bytes, rfl⟩ : ∃ n, bytes = n + 1 := ⟨bytes - 1, by omega⟩
    refine ⟨c, ?_, here⟩
    rw [readLoop, if_neg (by simp at full; omega), append_nil]
  | cons first piece ih =>
    obtain ⟨bytes, rfl⟩ : ∃ n, bytes = n + 1 := ⟨bytes - 1, by omega⟩
    obtain ⟨c', read, after⟩ := nextByte_eq here
    obtain ⟨notCr, notLf, -⟩ := plain first (.head _)
    rw [length_cons] at full enough
    obtain ⟨c'', reads, after'⟩ := @ih c' (buf ++ [first]) bytes after
      (fun b later => plain b (.tail _ later)) (by omega)
      (by rw [length_append, length_singleton]; omega)
    refine ⟨c'', ?_, after'⟩
    rw [readLoop, if_pos (by omega), read]
    simpa [notCr, notLf] using reads

theorem readBodyLine_full (here : c.Before (piece ++ rest)) (plain : Plain piece)
    (full : piece.length + 1 = size) (two : 3 ≤ size) :
    ∃ c', c.readBodyLine size =
        some (some (if byteAt piece 0 = dot ∧ byteAt piece 1 = dot then piece.tail else piece), c') ∧
      c'.Before rest := by
  have reads : ∃ c', c.rawReadLine size = some (piece, c') ∧ c'.Before rest := by
    refine readLoop_full here plain ?_ (by simpa using full)
    rw [here.unread, length_append]
    omega
  obtain ⟨c', reads, after⟩ := reads
  refine ⟨c', ?_, after⟩
  have notEnd : ¬(byteAt piece 0 = dot ∧ byteAt piece 1 = 0) := by
    match piece, full, plain with
    | [], full, _ => simp at full; omega
    | [_], full, _ => simp at full; omega
    | _ :: second :: _, _, plain => exact fun both => (plain second (by simp)).2.2 both.2
  rw [readBodyLine_eq reads, if_neg notEnd]
  split <;> rfl

theorem length_stuff (line : Bytes) :
    line.length ≤ (stuff line).length ∧ (stuff line).length ≤ line.length + 1 := by
  unfold stuff
  split
  · exact ⟨Nat.le_succ _, le_rfl⟩
  · exact ⟨le_rfl, Nat.le_succ _⟩

theorem unstuff_take {n : ℕ} (two : 2 ≤ n) (long : n ≤ (stuff line).length) :
    (if byteAt ((stuff line).take n) 0 = dot ∧ byteAt ((stuff line).take n) 1 = dot then
        ((stuff line).take n).tail else (stuff line).take n) =
      line.take (n - ((stuff line).length - line.length)) := by
  obtain ⟨n, rfl⟩ : ∃ m, n = m + 2 := ⟨n - 2, by omega⟩
  match line with
  | [] => simp [stuff] at long
  | first :: others =>
    by_cases stuffed : first = dot
    · subst stuffed
      have doubled : stuff (dot :: others) = dot :: dot :: others := if_pos rfl
      rw [doubled, if_pos (by simp [byteAt])]
      simp
    · have same : stuff (first :: others) = first :: others := if_neg (by simpa using stuffed)
      rw [same, if_neg (by simp [byteAt, stuffed])]
      simp

theorem readBodyLine_long (here : c.Before (stuff line ++ rest)) (plain : Plain line)
    (long : 8191 ≤ (stuff line).length) :
    ∃ c', c.readBodyLine lineSize =
        some (some (line.take (8191 - ((stuff line).length - line.length))), c') ∧
      c'.Before ((stuff line).drop 8191 ++ rest) := by
  rw [← unstuff_take (by omega) long]
  refine readBodyLine_full ?_ (fun b member => plain_stuff plain b (mem_of_mem_take member))
    ?_ (by decide)
  · rwa [← append_assoc, take_append_drop]
  · rw [length_take, min_eq_left long]
    rfl

end Conn

section Bodies

variable {σ : Type*} {c c' : Conn} {rest line : Bytes} {cb : σ → Bytes → ℤ × σ} {code : ℤ}
  {ctx : σ} {calls lines : List Bytes} {fuel : ℕ}

theorem bodyLoop_calls {bodyCb : Option (σ → Bytes → ℤ × σ)} {aborted : Bool} :
    calls <+: (bodyLoop bodyCb code fuel aborted c ctx calls).calls := by
  induction fuel generalizing aborted c ctx calls with
  | zero => exact prefix_refl _
  | succ fuel ih =>
    rw [bodyLoop]
    split
    · exact prefix_refl _
    · exact prefix_refl _
    · split
      · exact (prefix_append _ _).trans ih
      · exact ih

theorem bodyLoop_next (goesOn : ∀ ctx line, (cb ctx line).1 = 0)
    (reads : c.readBodyLine lineSize = some (some line, c')) :
    bodyLoop (some cb) code (fuel + 1) false c ctx calls =
      bodyLoop (some cb) code fuel false c' (cb ctx line).2 (calls ++ [line]) := by
  rw [bodyLoop, reads]
  simp only [goesOn, ne_eq, not_true_eq_false, decide_false]

def Delivers (code : ℤ) (lines : List Bytes) (fetched : Fetched σ) : Prop :=
  fetched.status = code ∧ fetched.calls = lines

theorem Delivers.next (goesOn : ∀ ctx line, (cb ctx line).1 = 0) (notFailed : code ≠ -1)
    (reads : c.readBodyLine lineSize = some (some line, c'))
    (delivers : Delivers code (calls ++ lines)
      (bodyLoop (some cb) code fuel false c ctx calls)) :
    ∃ later fuel', lines = line :: later ∧ Delivers code (calls ++ [line] ++ later)
      (bodyLoop (some cb) code fuel' false c' (cb ctx line).2 (calls ++ [line])) := by
  obtain ⟨ended, delivered⟩ := delivers
  cases fuel with
  | zero => exact absurd ended.symm notFailed
  | succ fuel =>
    rw [bodyLoop_next goesOn reads] at ended delivered
    obtain ⟨later, made⟩ := @bodyLoop_calls σ c' code (cb ctx line).2 (calls ++ [line]) fuel
      (some cb) false
    have same : lines = line :: later := by
      rw [delivered, append_assoc] at made
      exact (append_cancel_left made).symm
    exact ⟨later, fuel, same, ended, made.symm⟩

theorem bodyLoop_extra (goesOn : ∀ ctx line, (cb ctx line).1 = 0) (notFailed : code ≠ -1)
    (here : c.Before (crlf ++ (encodeBody lines ++ rest))) :
    ¬Delivers code (calls ++ lines) (bodyLoop (some cb) code fuel false c ctx calls) := by
  induction lines generalizing c ctx calls fuel with
  | nil =>
    intro delivers
    obtain ⟨c', reads, -⟩ := @Conn.readBodyLine_line c _ [] lineSize here nofun (by decide)
    obtain ⟨_, _, impossible, -⟩ := delivers.next goesOn notFailed reads
    contradiction
  | cons line lines ih =>
    intro delivers
    obtain ⟨c', reads, after⟩ := @Conn.readBodyLine_line c _ [] lineSize here nofun (by decide)
    obtain ⟨_, fuel', same, later⟩ := delivers.next goesOn notFailed reads
    cases same
    -- The next line is empty as well, so that the argument goes on with what follows.
    rw [encodeBody_cons, append_assoc] at after
    exact ih after later

theorem bodyLoop_long (goesOn : ∀ ctx line, (cb ctx line).1 = 0) (notFailed : code ≠ -1)
    (plain : ∀ line ∈ lines, Conn.Plain line)
    (long : ∃ line ∈ lines, 8191 ≤ (stuff line).length)
    (here : c.Before (encodeBody lines ++ rest)) :
    ¬Delivers code (calls ++ lines) (bodyLoop (some cb) code fuel false c ctx calls) := by
  induction lines generalizing c ctx calls fuel with
  | nil => exact absurd long (by simp)
  | cons line lines ih =>
    intro delivers
    have plain' := plain line (.head _)
    rw [encodeBody_cons, append_assoc] at here
    rcases Nat.lt_or_ge (stuff line).length 8191 with short | full
    · obtain ⟨c', reads, after⟩ := @Conn.readBodyLine_line c _ line lineSize here plain'
        (by unfold lineSize; omega)
      obtain ⟨_, fuel', same, later⟩ := delivers.next goesOn notFailed reads
      cases same
      refine ih (fun line later => plain line (.tail _ later)) ?_ after later
      obtain ⟨line', member, full⟩ := long
      rcases mem_cons.mp member with rfl | later
      · omega
      · exact ⟨line', later, full⟩
    · rw [append_assoc] at here
      obtain ⟨c', reads, after⟩ := Conn.readBodyLine_long here plain' full
      obtain ⟨_, fuel', same, later⟩ := delivers.next goesOn notFailed reads
      obtain ⟨piece, rfl⟩ := cons.inj same
      -- The piece is the whole line only if nothing but its end is left.
      have whole : (stuff line).length = 8191 := by
        have length := congrArg List.length piece
        have grown := Conn.length_stuff line
        rw [length_take] at length
        omega
      rw [drop_eq_nil_of_le whole.le, nil_append] at after
      exact bodyLoop_extra goesOn notFailed after later

end Bodies

section Fetches

variable {status : Response} {lines : List Bytes}

def sent (status : Response) (lines : List Bytes) : Bytes :=
  status.digits ++ status.text ++ crlf ++ encodeBody lines

/-- However the stream is split into reads and whatever follows the body: a callback that
takes every line gets the lines of the body, and the fetch ends where the body ends. -/
def DeliversBody (status : Response) (lines : List Bytes) : Prop :=
  ∀ (c : Conn) (rest : Bytes) (σ : Type) (receiver : Receiver σ) (cb : σ → Bytes → ℤ × σ),
    c.WellSplit → c.unread = sent status lines ++ rest → receiver.bodyCb = some cb →
    (∀ ctx line, (cb ctx line).1 = 0) →
    Delivers status.code lines (nntpConnFetch true receiver c) ∧
      (nntpConnFetch true receiver c).conn.unread = rest

theorem fetch_body {σ : Type*} {c : Conn} {rest : Bytes} (announced : status.hasBody)
    (here : c.Before (sent status lines ++ rest)) (receiver : Receiver σ) :
    ∃ c' : Conn, nntpConnFetch true receiver c =
        bodyLoop receiver.bodyCb status.code (c'.unread.length + 1) false c' receiver.ctx [] ∧
      c'.Before (encodeBody lines ++ rest) := by
  rw [sent, append_assoc] at here
  obtain ⟨c', opens, after⟩ := opens receiver here
  rw [if_pos announced] at opens
  exact ⟨c', opens, after⟩

/-- A body is delivered as it was sent, and its end is recognised, exactly if each of its
lines has room in the buffer as it is sent. -/
theorem deliversBody_iff (announced : status.hasBody = true)
    (plain : ∀ line ∈ lines, ∀ b ∈ line, b ≠ cr ∧ b ≠ lf ∧ b ≠ 0) :
    DeliversBody status lines ↔ ∀ line ∈ lines, (stuff line).length ≤ 8190 := by
  constructor
  · intro delivers line member
    by_contra long
    let c : Conn := ⟨sent status lines, []⟩
    have split : c.WellSplit := fun _ member => absurd member not_mem_nil
    have unread : c.unread = sent status lines ++ [] := rfl
    let receiver : Receiver Unit := ⟨some fun _ _ => (0, ()), ()⟩
    obtain ⟨c', fetch, after⟩ := fetch_body announced ⟨unread, split⟩ receiver
    have notFailed : (status.code : ℤ) ≠ -1 := by omega
    refine @bodyLoop_long Unit c' [] (fun _ _ => (0, ())) status.code () [] lines
      (c'.unread.length + 1) (fun _ _ => rfl) notFailed plain ⟨line, member, by omega⟩ after ?_
    rw [← fetch]
    exact (delivers c [] Unit receiver _ split unread rfl fun _ _ => rfl).1
  · intro short c rest σ receiver cb split unread isCb goesOn
    obtain ⟨c', fetch, after⟩ := fetch_body announced ⟨unread, split⟩ receiver
    obtain ⟨c'', receives, ended⟩ := bodyLoop_receives receiver ⟨plain, short⟩ after
    rw [fetch, receives]
    exact ⟨⟨rfl, Receiver.takes_all isCb goesOn _⟩, ended.unread⟩

def bodyFollows : Response where
  digits := ascii "222"
  text := ascii " body follows"
  lines := []
  nonempty := dottedBody.nonempty
  decimal := dottedBody.decimal
  small := dottedBody.small
  ended := by decide +kernel
  plain := by decide +kernel
  statusShort := by decide +kernel
  bodyPlain := noArticle.bodyPlain
  bodyShort := noArticle.bodyShort

theorem deliversBody_dotted : DeliversBody bodyFollows [ascii ".x", [], ascii "y"] :=
  (deliversBody_iff (by decide +kernel) (by decide +kernel)).mpr (by decide +kernel)

theorem fetch_cut {σ : Type*} {c : Conn} {rest piece : Bytes} {cb : σ → Bytes → ℤ × σ} {ctx : σ}
    (announced : status.hasBody)
    (here : c.Before (sent status ((piece ++ [dot]) :: lines) ++ rest))
    (plain : Conn.Plain piece) (full : piece.length = 8191)
    (start : byteAt piece 0 ≠ dot) (goesOn : ∀ ctx line, (cb ctx line).1 = 0) :
    Delivers status.code [piece] (nntpConnFetch true ⟨some cb, ctx⟩ c) ∧
      (nntpConnFetch true ⟨some cb, ctx⟩ c).conn.unread = encodeBody lines ++ rest := by
  obtain ⟨c₁, fetch, after⟩ := fetch_body announced here ⟨some cb, ctx⟩
  have unstuffed : stuff (piece ++ [dot]) = piece ++ [dot] := by
    match piece, full, start with
    | first :: others, _, start => exact if_neg fun same => start (Option.some.inj same)
  have pieces : c₁.Before (piece ++ ((dot :: crlf) ++ (encodeBody lines ++ rest))) := by
    rw [encodeBody_cons, unstuffed] at after
    simpa only [append_assoc, cons_append, nil_append] using after
  obtain ⟨c₂, reads, after₂⟩ := @Conn.readBodyLine_full c₁ _ _ lineSize pieces plain
    (by rw [full]; rfl) (by decide)
  rw [if_neg fun both => start both.1] at reads
  obtain ⟨c₃, ends, after₃⟩ := Conn.readBodyLine_end after₂
  obtain ⟨fuel, enough⟩ : ∃ fuel, c₁.unread.length + 1 = fuel + 2 := by
    refine ⟨c₁.unread.length - 1, ?_⟩
    rw [pieces.unread, length_append, full]
    omega
  rw [fetch, enough, bodyLoop_next goesOn reads, bodyLoop, ends]
  exact ⟨⟨rfl, rfl⟩, after₃.unread⟩

/-- A line of 8192 bytes whose last one is a dot: the body seems to end with it, and the next
line would be taken for the answer to the next command. -/
theorem overlong_ends_body : ∃ (lines : List Bytes) (c : Conn) (receiver : Receiver Unit),
    (∀ line ∈ lines, ∀ b ∈ line, b ≠ cr ∧ b ≠ lf ∧ b ≠ 0) ∧ c.WellSplit ∧
    c.unread = sent bodyFollows lines ∧ lines.length = 2 ∧
    (nntpConnFetch true receiver c).status = 222 ∧
    (nntpConnFetch true receiver c).calls.length = 1 ∧
    (nntpConnFetch true receiver c).conn.unread = ascii "205 bye\r\n.\r\n" := by
  obtain ⟨piece, isPiece⟩ : ∃ piece : Bytes, piece = List.replicate 8191 120 := ⟨_, rfl⟩
  have plain : Conn.Plain piece := by
    rw [isPiece]
    intro b member
    rw [eq_of_mem_replicate member]
    decide
  have full : piece.length = 8191 := by rw [isPiece, length_replicate]
  have start : byteAt piece 0 ≠ dot := by
    rw [isPiece, replicate_succ]
    decide
  let c : Conn := ⟨sent bodyFollows [piece ++ [dot], ascii "205 bye"], []⟩
  have split : c.WellSplit := fun _ member => absurd member not_mem_nil
  obtain ⟨⟨ended, calls⟩, left⟩ := @fetch_cut bodyFollows [ascii "205 bye"] Unit c [] piece
    (fun _ _ => (0, ())) () (by decide +kernel) ⟨rfl, split⟩ plain full start fun _ _ => rfl
  refine ⟨[piece ++ [dot], ascii "205 bye"], c, _, ?_, split, append_nil _, rfl,
    ended.trans (by decide +kernel), ?_, left.trans (by decide +kernel)⟩
  · refine forall_mem_cons.mpr ⟨fun b member => ?_, by decide +kernel⟩
    rcases mem_append.mp member with inside | last
    · exact plain b inside
    · rw [mem_singleton.mp last]
      decide
  · rw [calls]
    rfl

end Fetches

end NzbDownloader.Nntp
