import NzbDownloader.Lib.ByteFile
import NzbDownloader.Util.Name

/-!
# Uploads that arrive in pieces

`upload_iterator` and `buf_append` of `web/httpd.c`.  libmicrohttpd takes a form apart and
hands over the value of each field in any number of pieces, with the offset of each.
-/

namespace NzbDownloader.Web

open Lib Util List

/-- A buffer that grows; a capacity of zero is the null pointer. -/
structure Buffer where
  bytes : Bytes := []
  cap : ℕ := 0

/-- The loop of `buf_append` on a `size_t`; `none` if so many rounds do not end it. -/
def doubleCap (need : ℕ) : ℕ → ℕ → Option ℕ
  | 0, _ => none
  | rounds + 1, cap =>
      if cap < need then doubleCap need rounds (cap * 2 % 2 ^ 64) else some cap

/-- `buf_append`: whether it returned 0.  After 64 rounds of its loop the capacity is zero
and stays so. -/
def bufAppend (memory : Bool) (data : Bytes) (buf : Buffer) : Option (Bool × Buffer) :=
  let need := (buf.bytes.length + data.length) % 2 ^ 64
  if buf.cap < need then
    (doubleCap need 65 (if buf.cap = 0 then 4096 else buf.cap * 2 % 2 ^ 64)).map fun cap =>
      if memory then (true, ⟨buf.bytes ++ data, cap⟩) else (false, buf)
  else some (true, ⟨buf.bytes ++ data, buf.cap⟩)

/-- The names of form fields that `upload_iterator` knows, and all others. -/
inductive Key
  | displayName | outputDir | addToShadowmount | autoInstallPkgs | nzb | other
  deriving DecidableEq

/-- The fields of `conn_ctx_t` that a form fills, apart from the upload. -/
structure FormFields where
  uploadFilename : Name := []
  displayName : Bytes := []
  outputDir : Bytes := []
  addToShadowmount : Bool := false
  autoInstallPkgs : Bool := false

open FormFields

structure ConnCtx where
  upload : Buffer := {}
  form : FormFields := {}

/-- A call of `upload_iterator`, and whether there is memory for it. -/
structure PieceCall where
  key : Key
  filename : Option Name
  value : Bytes
  off : ℕ
  memory : Bool

open PieceCall

def FormFields.note (form : FormFields) (call : PieceCall) : FormFields :=
  if call.off = 0 then
    match call.key with
    | .displayName => { form with displayName := call.value.take 255 }
    | .outputDir => { form with outputDir := call.value.take 511 }
    | .addToShadowmount =>
        if call.value = [] then form
        else { form with addToShadowmount := call.value.head? = some 49 }
    | .autoInstallPkgs =>
        if call.value = [] then form
        else { form with autoInstallPkgs := call.value.head? = some 49 }
    | .nzb => call.filename.elim form fun name => { form with uploadFilename := name.take 255 }
    | .other => form
  else form

/-- `upload_iterator`: whether it returned `MHD_YES`. -/
def uploadIterator (call : PieceCall) (ctx : ConnCtx) : Option (Bool × ConnCtx) :=
  let form := ctx.form.note call
  if call.key = .nzb then
    (bufAppend call.memory call.value ctx.upload).map fun result => (result.1, ⟨result.2, form⟩)
  else some (true, ⟨ctx.upload, form⟩)

/-- Calls one after another, until one returns `MHD_NO`. -/
def receive : List PieceCall → ConnCtx → Option (Bool × ConnCtx)
  | [], ctx => some (true, ctx)
  | call :: rest, ctx =>
      (uploadIterator call ctx).bind fun result =>
        if result.1 then receive rest result.2 else some result

/-- A field of a form with the pieces of its value. -/
structure Part where
  key : Key
  filename : Option Name
  pieces : List (Bytes × Bool)
  nonempty : pieces ≠ []

def callsFrom (key : Key) (filename : Option Name) : ℕ → List (Bytes × Bool) → List PieceCall
  | _, [] => []
  | off, (value, memory) :: rest =>
      ⟨key, filename, value, off, memory⟩ :: callsFrom key filename (off + value.length) rest

namespace Part

def calls (p : Part) : List PieceCall := callsFrom p.key p.filename 0 p.pieces

def value (p : Part) : Bytes := (p.pieces.map Prod.fst).flatten

/-- The first piece that is not empty. -/
def lead (p : Part) : Bytes := ((p.pieces.map Prod.fst).find? (· ≠ [])).getD []

end Part

/-- The contents of the file fields. -/
def uploaded (parts : List Part) : Bytes :=
  (parts.filter (·.key = .nzb)).flatMap Part.value

/-- What a form leaves: of every field but the file its first piece. -/
def noted (parts : List Part) (form : FormFields) : FormFields :=
  parts.foldl (fun form p => form.note ⟨p.key, p.filename, p.lead, 0, true⟩) form

theorem doubleCap_spec {need rounds cap : ℕ} (small : need ≤ 2 ^ 62)
    (reach : need ≤ cap * 2 ^ rounds) :
    ∃ grown, doubleCap need (rounds + 1) cap = some grown ∧ need ≤ grown := by
  induction rounds generalizing cap with
  | zero => exact ⟨cap, if_neg (by omega), by omega⟩
  | succ rounds ih =>
    rw [doubleCap]
    by_cases less : cap < need
    · rw [if_pos less, Nat.mod_eq_of_lt (by omega)]
      exact ih (by rwa [pow_succ', ← mul_assoc] at reach)
    · exact ⟨cap, if_neg less, by omega⟩

/-- What was stored is inside the block. -/
def Buffer.Fits (buf : Buffer) : Prop := buf.bytes.length ≤ buf.cap

theorem bufAppend_spec (memory : Bool) {data : Bytes} {buf : Buffer} (fits : buf.Fits)
    (small : (buf.bytes ++ data).length ≤ 2 ^ 62) :
    ∃ ok buf', bufAppend memory data buf = some (ok, buf') ∧ buf'.Fits ∧
      buf'.bytes = buf.bytes ++ (if ok then data else []) ∧ (memory = true → ok = true) := by
  have sum : (buf.bytes.length + data.length) % 2 ^ 64 = (buf.bytes ++ data).length := by
    rw [length_append] at small ⊢
    exact Nat.mod_eq_of_lt (by omega)
  unfold bufAppend
  simp only [sum]
  by_cases full : buf.cap < (buf.bytes ++ data).length
  · obtain ⟨cap, grown, enough⟩ : ∃ cap, doubleCap (buf.bytes ++ data).length 65
        (if buf.cap = 0 then 4096 else buf.cap * 2 % 2 ^ 64) = some cap ∧
          (buf.bytes ++ data).length ≤ cap := by
      apply doubleCap_spec small
      split <;> omega
    rw [if_pos full, grown]
    cases memory with
    | true => exact ⟨true, _, rfl, enough, rfl, id⟩
    | false => exact ⟨false, buf, rfl, fits, (append_nil _).symm, id⟩
  · rw [if_neg full]
    exact ⟨true, _, rfl, not_lt.mp full, rfl, fun _ => rfl⟩

/-- What a call adds to the upload. -/
def PieceCall.content (call : PieceCall) : Bytes := if call.key = .nzb then call.value else []

theorem uploadIterator_spec (call : PieceCall) {ctx : ConnCtx} (fits : ctx.upload.Fits)
    (small : (ctx.upload.bytes ++ call.content).length ≤ 2 ^ 62) :
    ∃ ok buf, uploadIterator call ctx = some (ok, ⟨buf, ctx.form.note call⟩) ∧
      buf.Fits ∧ buf.bytes = ctx.upload.bytes ++ (if ok then call.content else []) ∧
      (call.memory = true → ok = true) := by
  unfold uploadIterator
  unfold content at small ⊢
  by_cases file : call.key = .nzb
  · rw [if_pos file] at small
    obtain ⟨ok, buf, run, fits', bytes, enough⟩ := bufAppend_spec call.memory fits small
    rw [if_pos file, if_pos file, run]
    exact ⟨ok, buf, rfl, fits', bytes, enough⟩
  · rw [if_neg file, if_neg file]
    exact ⟨true, ctx.upload, rfl, fits, (append_nil _).symm, fun _ => rfl⟩

/-- Over any calls: the bytes of an interrupted upload are a start of the whole one. -/
theorem receive_spec (calls : List PieceCall) (ctx : ConnCtx) (fits : ctx.upload.Fits)
    (small : (ctx.upload.bytes ++ calls.flatMap content).length ≤ 2 ^ 62) :
    ∃ ok ctx', receive calls ctx = some (ok, ctx') ∧ ctx'.upload.Fits ∧
      ctx'.upload.bytes <+: ctx.upload.bytes ++ calls.flatMap content ∧
      (ok = true → ctx'.upload.bytes = ctx.upload.bytes ++ calls.flatMap content ∧
        ctx'.form = calls.foldl note ctx.form) ∧
      ((∀ call ∈ calls, call.memory = true) → ok = true) := by
  induction calls generalizing ctx with
  | nil => exact ⟨true, ctx, rfl, fits, by simp, fun _ => ⟨by simp, rfl⟩, fun _ => rfl⟩
  | cons call rest ih =>
    rw [flatMap_cons, ← append_assoc] at small ⊢
    obtain ⟨ok, buf, run, fits', bytes, enough⟩ := uploadIterator_spec call fits (by
      rw [length_append] at small
      omega)
    rw [receive, run, Option.bind_some]
    cases ok with
    | false =>
      refine ⟨false, _, rfl, fits', ?_, fun done => (Bool.false_ne_true done).elim,
        fun all => enough (all call mem_cons_self)⟩
      rw [bytes, append_assoc]
      simp
    | true =>
      rw [if_pos rfl] at bytes
      rw [if_pos rfl, ← bytes]
      rw [← bytes] at small
      obtain ⟨ok, ctx', run', fits'', start, whole, enough'⟩ :=
        ih ⟨buf, ctx.form.note call⟩ fits' small
      exact ⟨ok, ctx', run', fits'', start, whole,
        fun all => enough' fun c mem => all c (mem_cons_of_mem _ mem)⟩

/-- An empty piece at the start leaves the field to the next one. -/
theorem FormFields.note_nil_note (form : FormFields) (key : Key) (filename : Option Name)
    (value : Bytes) (memory memory' : Bool) :
    (form.note ⟨key, filename, [], 0, memory⟩).note ⟨key, filename, value, 0, memory'⟩ =
      form.note ⟨key, filename, value, 0, true⟩ := by
  unfold note
  cases filename <;> cases key <;> simp

theorem foldl_note_of_pos {off : ℕ} (late : off ≠ 0) (key : Key) (filename : Option Name)
    (pieces : List (Bytes × Bool)) (form : FormFields) :
    (callsFrom key filename off pieces).foldl note form = form := by
  induction pieces generalizing off with
  | nil => rfl
  | cons piece rest ih =>
    rw [callsFrom, foldl_cons, note, if_neg late]
    exact ih (by omega)

variable {pieces : List (Bytes × Bool)}

/-- The calls of one field: only its first piece with bytes counts. -/
theorem foldl_note_callsFrom (nonempty : pieces ≠ []) (key : Key) (filename : Option Name)
    (form : FormFields) :
    (callsFrom key filename 0 pieces).foldl note form =
      form.note ⟨key, filename, ((pieces.map Prod.fst).find? (· ≠ [])).getD [], 0, true⟩ := by
  induction pieces generalizing form with
  | nil => exact absurd rfl nonempty
  | cons piece rest ih =>
    rw [callsFrom, foldl_cons]
    by_cases empty : piece.1 = []
    · rw [empty, map_cons, find?_cons_of_neg (by simp [empty])]
      cases rest with
      | nil => rfl
      | cons next rest =>
        rw [length_nil, ih (cons_ne_nil _ _), note_nil_note]
    · have later : 0 + piece.1.length ≠ 0 := by simp [empty]
      rw [foldl_note_of_pos later, map_cons, find?_cons_of_pos (by simp [empty])]
      rfl

theorem content_callsFrom (key : Key) (filename : Option Name) (off : ℕ)
    (pieces : List (Bytes × Bool)) :
    (callsFrom key filename off pieces).flatMap content =
      if key = .nzb then (pieces.map Prod.fst).flatten else [] := by
  induction pieces generalizing off with
  | nil => simp [callsFrom]
  | cons piece rest ih =>
    rw [callsFrom, flatMap_cons, ih, content]
    split <;> simp

theorem content_calls (parts : List Part) :
    (parts.flatMap Part.calls).flatMap content = uploaded parts := by
  unfold uploaded
  induction parts with
  | nil => rfl
  | cons p parts ih =>
    rw [flatMap_cons, flatMap_append, ih, Part.calls, content_callsFrom]
    by_cases file : p.key = .nzb
    · simp [file, Part.value]
    · simp [file]

theorem foldl_note_calls (parts : List Part) (form : FormFields) :
    (parts.flatMap Part.calls).foldl note form = noted parts form := by
  induction parts generalizing form with
  | nil => rfl
  | cons p parts ih =>
    rw [flatMap_cons, foldl_append, Part.calls, foldl_note_callsFrom p.nonempty, ih]
    rfl

theorem memory_of_mem_callsFrom {key : Key} {filename : Option Name} {off : ℕ} {call : PieceCall}
    (mem : call ∈ callsFrom key filename off pieces) : (call.value, call.memory) ∈ pieces := by
  induction pieces generalizing off with
  | nil => exact absurd mem not_mem_nil
  | cons piece rest ih =>
    rw [callsFrom] at mem
    rcases mem_cons.mp mem with rfl | mem
    · exact mem_cons_self
    · exact mem_cons_of_mem _ (ih mem)

/-- However a form is cut into pieces, the upload is the contents of its file fields in
order, and of any other field only the first piece with bytes is kept.  An upload that runs
out of memory holds a start of the contents. -/
theorem receive_form (parts : List Part) (small : (uploaded parts).length ≤ 2 ^ 62) :
    ∃ ok ctx, receive (parts.flatMap Part.calls) {} = some (ok, ctx) ∧
      ctx.upload.Fits ∧ ctx.upload.bytes <+: uploaded parts ∧
      (ok = true → ctx.upload.bytes = uploaded parts ∧ ctx.form = noted parts {}) ∧
      ((∀ p ∈ parts, ∀ piece ∈ p.pieces, piece.2 = true) → ok = true) := by
  have run := receive_spec (parts.flatMap Part.calls) {} (Nat.zero_le _)
  rw [content_calls, foldl_note_calls] at run
  obtain ⟨ok, ctx, run, fits, start, whole, enough⟩ := run small
  refine ⟨ok, ctx, run, fits, start, whole, fun all => enough fun call mem => ?_⟩
  obtain ⟨p, inside, mem⟩ := mem_flatMap.mp mem
  exact all p inside _ (memory_of_mem_callsFrom mem)

/-- A form whose fields arrive in two pieces each. -/
def twoPieces : List Part :=
  [⟨.nzb, some ['a'], [([60], true), ([62], true)], cons_ne_nil _ _⟩,
    ⟨.displayName, none, [([65], true), ([66], true)], cons_ne_nil _ _⟩]

theorem receive_form_twoPieces :
    ∃ ok ctx, receive (twoPieces.flatMap Part.calls) {} = some (ok, ctx) ∧
      ctx.upload.Fits ∧ ctx.upload.bytes <+: uploaded twoPieces ∧
      (ok = true → ctx.upload.bytes = uploaded twoPieces ∧ ctx.form = noted twoPieces {}) ∧
      ((∀ p ∈ twoPieces, ∀ piece ∈ p.pieces, piece.2 = true) → ok = true) :=
  receive_form twoPieces (by decide)

end NzbDownloader.Web
