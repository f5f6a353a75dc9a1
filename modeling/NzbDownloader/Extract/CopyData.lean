import NzbDownloader.Lib.ByteFile

/-!
# Writing the data of an entry

`copy_data` of `extract/extract.c` collects the blocks of an entry in a buffer and writes the
buffer when a block does not continue it or does not fit.
-/

namespace NzbDownloader.Extract

open Lib List

/-- What a call of `archive_read_data_block` returns, a warning counting as success, and
whether the progress callback stops the extraction after it. -/
inductive BlockRead
  | block (part : Extent) (aborts : Bool)
  | eof
  | error

structure WriteBuf where
  part : Extent
  calls : List Extent

def writeCoalesceSize : ℕ :=
  1024 * 1024

section Copy

-- The capacity of the buffer, and the calls that fail.
variable (cap : ℕ) (fails : ℕ → Bool)

def archiveWriteDataBlock (wb : WriteBuf) (part : Extent) : Option WriteBuf :=
  if fails wb.calls.length then none else some { wb with calls := wb.calls ++ [part] }

def writeBufFlush (wb : WriteBuf) : Option WriteBuf :=
  if wb.part.data = [] then some wb
  else (archiveWriteDataBlock fails wb wb.part).map fun wb =>
    { wb with part := ⟨wb.part.offset, []⟩ }

def copyBlock (wb : WriteBuf) (part : Extent) : Option WriteBuf :=
  (if wb.part.data ≠ [] ∧ part.offset ≠ wb.part.offset + wb.part.data.length then
    writeBufFlush fails wb
  else some wb).bind fun wb =>
  if cap ≤ part.data.length then
    (writeBufFlush fails wb).bind fun wb => archiveWriteDataBlock fails wb part
  else
    (if cap < wb.part.data.length + part.data.length then writeBufFlush fails wb
    else some wb).bind fun wb =>
    let offset := if wb.part.data = [] then part.offset else wb.part.offset
    some { wb with part := ⟨offset, wb.part.data ++ part.data⟩ }

def copyData (wb : WriteBuf) : List BlockRead → Option WriteBuf
  | [] | .error :: _ => none
  | .eof :: _ => writeBufFlush fails wb
  | .block part aborts :: rest =>
      (copyBlock cap fails wb part).bind fun wb => if aborts then none else copyData wb rest

end Copy

def blocks : List BlockRead → List Extent
  | .block part _ :: rest => part :: blocks rest
  | _ => []

def placed (part : Extent) : List (ℕ × Byte) :=
  part.data.mapIdx fun i byte => (part.offset + i, byte)

def writePlaced (content : Bytes) (byte : ℕ × Byte) : Bytes :=
  writeAt content byte.1 [byte.2]

theorem placed_append (offset : ℕ) (first second : Bytes) :
    placed ⟨offset, first ++ second⟩ =
      placed ⟨offset, first⟩ ++ placed ⟨offset + first.length, second⟩ := by
  simp [placed, mapIdx_append, Nat.add_assoc, Nat.add_comm first.length]

theorem writeAt_append (content : Bytes) (offset : ℕ) (first second : Bytes) :
    writeAt content offset (first ++ second) =
      writeAt (writeAt content offset first) (offset + first.length) second := by
  by_cases none : second = []
  · simp [none, writeAt]
  apply eq_of_byteAt
  · by_cases empty : first = []
    · simp [empty, writeAt]
    · rw [length_writeAt (by simp [none]), length_writeAt none, length_writeAt empty,
        length_append]
      omega
  · intro i _
    simp only [byteAt_writeAt, byteAt_append, length_append]
    split_ifs <;> first | rfl | omega | congr 1; omega

theorem foldl_placed (content : Bytes) (part : Extent) :
    (placed part).foldl writePlaced content = writeAt content part.offset part.data := by
  obtain ⟨offset, data⟩ := part
  induction data using reverseRecOn with
  | nil => rfl
  | append_singleton data byte ih =>
    rw [placed_append, foldl_append, ih, writeAt_append]
    rfl

theorem foldl_flatMap_placed (parts : List Extent) (content : Bytes) :
    (parts.flatMap placed).foldl writePlaced content =
      parts.foldl (fun content part => writeAt content part.offset part.data) content := by
  induction parts generalizing content with
  | nil => rfl
  | cons part parts ih => rw [flatMap_cons, foldl_append, foldl_placed, ih, foldl_cons]

def WriteBuf.taken (wb : WriteBuf) : List (ℕ × Byte) :=
  wb.calls.flatMap placed ++ placed wb.part

section Steps

variable {cap : ℕ} {fails : ℕ → Bool} {wb wb' : WriteBuf}

theorem writeBufFlush_spec (flushed : writeBufFlush fails wb = some wb') :
    wb'.taken = wb.taken ∧ wb'.part.data = [] := by
  unfold writeBufFlush archiveWriteDataBlock at flushed
  split_ifs at flushed with empty fails
  · cases flushed
    exact ⟨rfl, empty⟩
  · contradiction
  · cases flushed
    simp [WriteBuf.taken, placed]

theorem flushIf_spec {condition : Prop} [Decidable condition]
    (flushed : (if condition then writeBufFlush fails wb else some wb) = some wb') :
    wb'.taken = wb.taken ∧ (wb'.part.data = [] ∨ ¬condition ∧ wb' = wb) := by
  split_ifs at flushed with needed
  · obtain ⟨same, empty⟩ := writeBufFlush_spec flushed
    exact ⟨same, .inl empty⟩
  · cases flushed
    exact ⟨rfl, .inr ⟨needed, rfl⟩⟩

theorem copyBlock_spec {part : Extent} (copied : copyBlock cap fails wb part = some wb') :
    wb'.taken = wb.taken ++ placed part := by
  obtain ⟨first, joined, rest⟩ := Option.bind_eq_some_iff.mp copied
  obtain ⟨same, continues⟩ := flushIf_spec joined
  rw [← same]
  by_cases large : cap ≤ part.data.length
  · rw [if_pos large] at rest
    obtain ⟨second, flushed, written⟩ := Option.bind_eq_some_iff.mp rest
    obtain ⟨same, empty⟩ := writeBufFlush_spec flushed
    unfold archiveWriteDataBlock at written
    split_ifs at written
    cases written
    rw [← same]
    simp [WriteBuf.taken, placed, empty]
  · rw [if_neg large] at rest
    obtain ⟨second, flushed, ⟨⟩⟩ := Option.bind_eq_some_iff.mp rest
    obtain ⟨same, room⟩ := flushIf_spec flushed
    rw [← same, WriteBuf.taken, WriteBuf.taken, append_assoc]
    by_cases empty : second.part.data = []
    · simp [empty, placed]
    -- The buffer was not written, so that the block continues it.
    obtain ⟨-, rfl⟩ := room.resolve_left empty
    obtain ⟨inPlace, rfl⟩ := continues.resolve_left empty
    have offset : part.offset = second.part.offset + second.part.data.length := by
      by_contra apart
      exact inPlace ⟨empty, apart⟩
    rw [if_neg empty, placed_append, ← offset]

theorem copyData_taken {reads : List BlockRead} (copied : copyData cap fails wb reads = some wb') :
    wb'.part.data = [] ∧ wb'.taken = wb.taken ++ (blocks reads).flatMap placed := by
  induction reads generalizing wb with
  | nil => contradiction
  | cons read rest ih =>
    cases read with
    | block part aborts =>
      obtain ⟨next, stepped, later⟩ := Option.bind_eq_some_iff.mp copied
      split_ifs at later
      obtain ⟨empty, taken⟩ := ih later
      refine ⟨empty, ?_⟩
      rw [taken, copyBlock_spec stepped, blocks, flatMap_cons, append_assoc]
    | eof =>
      obtain ⟨same, empty⟩ := writeBufFlush_spec copied
      exact ⟨empty, by simp [same, blocks]⟩
    | error => contradiction

end Steps

/-- If `copy_data` returns 0, the calls it has made write every byte of every block once, in
order and at its position, the file is what direct writes would have made it, and the buffer
is empty again. -/
theorem copyData_writes_blocks (fails : ℕ → Bool) (offset : ℕ) (reads : List BlockRead)
    (wb : WriteBuf) (copied : copyData writeCoalesceSize fails ⟨⟨offset, []⟩, []⟩ reads = some wb) :
    wb.calls.flatMap placed = (blocks reads).flatMap placed ∧
      (∀ content, wb.calls.foldl (fun content part => writeAt content part.offset part.data) content =
        (blocks reads).foldl (fun content part => writeAt content part.offset part.data) content) ∧
      wb.part.data = [] := by
  obtain ⟨empty, taken⟩ := copyData_taken copied
  have same : wb.calls.flatMap placed = (blocks reads).flatMap placed := by
    simpa [WriteBuf.taken, placed, empty] using taken
  refine ⟨same, fun content => ?_, empty⟩
  rw [← foldl_flatMap_placed, same, foldl_flatMap_placed]

theorem copyData_writes_blocks_sparse : ∃ wb : WriteBuf,
    wb.calls.map (·.offset) = [0, 9] ∧ wb.calls.flatMap placed = [(0, 1), (1, 2), (9, 3)] := by
  have copied : ((copyData writeCoalesceSize (fun _ => false) ⟨⟨0, []⟩, []⟩ [.block ⟨0, [1]⟩ false,
      .block ⟨1, [2]⟩ false, .block ⟨9, [3]⟩ false, .eof]).map fun wb =>
        wb.calls.map (·.offset)) = some [0, 9] := by
    decide +kernel
  obtain ⟨wb, copied, offsets⟩ := Option.map_eq_some_iff.mp copied
  exact ⟨wb, offsets, (copyData_writes_blocks _ _ _ wb copied).1⟩

end NzbDownloader.Extract
