import Mathlib.Data.List.Basic
import Mathlib.Data.Set.Operations

/-!
# Files replaced by several writers, and crashes

Writers replace files one after the other under a lock: each writes a temporary file, syncs
it, renames it and syncs the directory.
-/

namespace NzbDownloader.Lib

open List Function

universe u v w

structure Replacement (ν : Type u) (α : Type v) where
  path : ν
  data : α
  deriving DecidableEq

inductive WriteStage
  | opened
  | synced
  | renamed
  deriving DecidableEq

structure Writers (ν : Type u) (α : Type v) (τ : Type w) where
  files : ν → Option α
  older : ν → List (Option α)
  lock : Option (τ × WriteStage)
  todo : τ → List (Replacement ν α)

inductive WriterStep (τ : Type w)
  | create (t : τ)
  | flush (t : τ)
  | rename (t : τ)
  | syncDir (t : τ)
  | fail (t : τ)
  deriving DecidableEq

namespace Writers

variable {ν : Type u} {α : Type v} {τ : Type w}

def contents (s : Writers ν α τ) (name : ν) : List (Option α) :=
  s.files name :: s.older name

def crash (s : Writers ν α τ) (keep : ν → ℕ) (name : ν) : Option α :=
  ((s.older name)[keep name]?).getD (s.files name)

theorem crash_mem_contents (s : Writers ν α τ) (keep : ν → ℕ) (name : ν) :
    s.crash keep name ∈ s.contents name := by
  rw [crash, contents]
  cases kept : (s.older name)[keep name]? with
  | none => exact .head _
  | some content => exact .tail _ (mem_of_getElem? kept)

def starting (files : ν → Option α) : Writers ν α τ :=
  ⟨files, fun _ => [], none, fun _ => []⟩

variable [DecidableEq ν] [DecidableEq τ] (tmp : ν → ν) (torn : α)

def step (s : Writers ν α τ) : WriterStep τ → Option (Writers ν α τ)
  | .create t =>
      match s.lock, s.todo t with
      | none, write :: _ =>
          some { s with
            files := update s.files (tmp write.path) (some torn)
            lock := some (t, .opened) }
      | _, _ => none
  | .flush t =>
      match s.todo t with
      | write :: _ =>
          if s.lock = some (t, .opened) then
            some { s with
              files := update s.files (tmp write.path) (some write.data)
              lock := some (t, .synced) }
          else none
      | [] => none
  | .rename t =>
      match s.todo t with
      | write :: _ =>
          if s.lock = some (t, .synced) then
            some { s with
              files := update (update s.files (tmp write.path) none) write.path
                (s.files (tmp write.path))
              older := update s.older write.path (s.contents write.path)
              lock := some (t, .renamed) }
          else none
      | [] => none
  | .syncDir t =>
      if s.lock = some (t, .renamed) then
        some { s with
          older := fun _ => []
          lock := none
          todo := update s.todo t (s.todo t).tail }
      else none
  | .fail t =>
      match s.todo t with
      | _ :: rest =>
          if s.lock = none ∨ s.lock = some (t, .opened) ∨ s.lock = some (t, .synced) then
            some { s with lock := none, todo := update s.todo t rest }
          else none
      | [] => none

inductive Moves (s : Writers ν α τ) : WriterStep τ → Writers ν α τ → Prop
  | create {t write rest} (free : s.lock = none) (next : s.todo t = write :: rest) :
      Moves s (.create t) { s with
        files := update s.files (tmp write.path) (some torn)
        lock := some (t, .opened) }
  | flush {t write rest} (held : s.lock = some (t, .opened)) (next : s.todo t = write :: rest) :
      Moves s (.flush t) { s with
        files := update s.files (tmp write.path) (some write.data)
        lock := some (t, .synced) }
  | rename {t write rest} (held : s.lock = some (t, .synced)) (next : s.todo t = write :: rest) :
      Moves s (.rename t) { s with
        files := update (update s.files (tmp write.path) none) write.path
          (s.files (tmp write.path))
        older := update s.older write.path (s.contents write.path)
        lock := some (t, .renamed) }
  | syncDir {t} (held : s.lock = some (t, .renamed)) :
      Moves s (.syncDir t) { s with
        older := fun _ => []
        lock := none
        todo := update s.todo t (s.todo t).tail }
  | fail {t write rest} (next : s.todo t = write :: rest)
      (held : s.lock = none ∨ s.lock = some (t, .opened) ∨ s.lock = some (t, .synced)) :
      Moves s (.fail t) { s with lock := none, todo := update s.todo t rest }

theorem moves_of_step {s s' : Writers ν α τ} {a : WriterStep τ}
    (taken : s.step tmp torn a = some s') : Moves tmp torn s a s' := by
  cases a with
  | create t =>
    rw [step] at taken
    split at taken
    · rename_i free next
      cases taken
      exact .create free next
    · contradiction
  | flush t =>
    rw [step] at taken
    split at taken
    · rename_i next
      obtain ⟨held, ⟨⟩⟩ := Option.ite_none_right_eq_some.mp taken
      exact .flush held next
    · contradiction
  | rename t =>
    rw [step] at taken
    split at taken
    · rename_i next
      obtain ⟨held, ⟨⟩⟩ := Option.ite_none_right_eq_some.mp taken
      exact .rename held next
    · contradiction
  | syncDir t =>
    obtain ⟨held, ⟨⟩⟩ := Option.ite_none_right_eq_some.mp taken
    exact .syncDir held
  | fail t =>
    rw [step] at taken
    split at taken
    · rename_i next
      obtain ⟨held, ⟨⟩⟩ := Option.ite_none_right_eq_some.mp taken
      exact .fail next held
    · contradiction

structure Orderly (own : Set ν) (s : Writers ν α τ) : Prop where
  holder : ∀ {t stage}, s.lock = some (t, stage) → s.todo t ≠ []
  flushed : ∀ {t write rest}, s.lock = some (t, .synced) → s.todo t = write :: rest →
    s.files (tmp write.path) = some write.data
  placed : ∀ {t write rest}, s.lock = some (t, .renamed) → s.todo t = write :: rest →
    s.files write.path = some write.data
  clean : ∀ {name}, s.older name ≠ [] →
    ∃ t write rest, s.lock = some (t, .renamed) ∧ s.todo t = write :: rest ∧ write.path = name
  named : ∀ {t write}, write ∈ s.todo t → write.path ∈ own

variable {tmp torn} {own : Set ν} {s s' : Writers ν α τ} {a : WriterStep τ} {t : τ} {name : ν} {data : α}

omit [DecidableEq ν] [DecidableEq τ] in
theorem Orderly.older_eq_nil (orderly : s.Orderly tmp own) (settled : ∀ t, s.lock ≠ some (t, .renamed))
    (name : ν) : s.older name = [] := by
  by_contra dirty
  obtain ⟨t, _, _, renamed, -, -⟩ := orderly.clean dirty
  exact settled t renamed

variable {write : Replacement ν α} {files : ν → Option α} {first second : ν}

omit [DecidableEq ν] in
theorem mem_update_todo {rest : List (Replacement ν α)} {u : τ}
    (shorter : ∀ write ∈ rest, write ∈ s.todo t)
    (member : write ∈ update s.todo t rest u) : write ∈ s.todo u := by
  rcases eq_or_ne u t with rfl | different
  · rw [update_self] at member
    exact shorter write member
  · rwa [update_of_ne different] at member

theorem mem_todo_of_step (taken : s.step tmp torn a = some s') (member : write ∈ s'.todo t) :
    write ∈ s.todo t := by
  cases moves_of_step tmp torn taken with
  | create | flush | rename => exact member
  | syncDir => exact mem_update_todo (fun _ => mem_of_mem_tail) member
  | fail next => exact mem_update_todo (fun _ later => next ▸ .tail _ later) member

theorem Orderly.step (orderly : s.Orderly tmp own) (taken : s.step tmp torn a = some s') :
    s'.Orderly tmp own := by
  have named : ∀ {u write}, write ∈ s'.todo u → write.path ∈ own :=
    fun member => orderly.named (mem_todo_of_step taken member)
  cases moves_of_step tmp torn taken with
  | @create t write rest free next =>
    have nothing := orderly.older_eq_nil (by simp [free])
    refine ⟨?_, ?_, ?_, ?_, named⟩
    · rintro u stage ⟨⟩
      rw [next]
      exact cons_ne_nil _ _
    · rintro u other later ⟨⟩
    · rintro u other later ⟨⟩
    · exact fun dirty => absurd (nothing _) dirty
  | @flush t write rest held next =>
    have nothing := orderly.older_eq_nil (by simp [held])
    refine ⟨?_, ?_, ?_, ?_, named⟩
    · rintro u stage ⟨⟩
      exact orderly.holder held
    · rintro u other later ⟨⟩ again
      obtain ⟨rfl, rfl⟩ := List.cons.inj (next.symm.trans again)
      exact update_self _ _ _
    · rintro u other later ⟨⟩
    · exact fun dirty => absurd (nothing _) dirty
  | @rename t write rest held next =>
    have nothing := orderly.older_eq_nil (by simp [held])
    refine ⟨?_, ?_, ?_, ?_, named⟩
    · rintro u stage ⟨⟩
      exact orderly.holder held
    · rintro u other later ⟨⟩
    · rintro u other later ⟨⟩ again
      obtain ⟨rfl, rfl⟩ := List.cons.inj (next.symm.trans again)
      exact (update_self _ _ _).trans (orderly.flushed held next)
    · intro name dirty
      refine ⟨t, write, rest, rfl, next, ?_⟩
      by_contra different
      exact dirty ((update_of_ne (Ne.symm different) _ _).trans (nothing name))
  | @syncDir t held =>
    refine ⟨?_, ?_, ?_, ?_, named⟩
    · rintro u stage ⟨⟩
    · rintro u other later ⟨⟩
    · rintro u other later ⟨⟩
    · exact fun dirty => absurd rfl dirty
  | @fail t write rest next held =>
    have nothing := orderly.older_eq_nil (by rcases held with h | h | h <;> simp [h])
    refine ⟨?_, ?_, ?_, ?_, named⟩
    · rintro u stage ⟨⟩
    · rintro u other later ⟨⟩
    · rintro u other later ⟨⟩
    · exact fun dirty => absurd (nothing _) dirty

def Possible (s : Writers ν α τ) (name : ν) (data : α) : Prop :=
  some data ∈ s.contents name ∨ ∃ t, ⟨name, data⟩ ∈ s.todo t

section Place

variable (orderly : s.Orderly tmp own) (taken : s.step tmp torn a = some s')
  (named : name ∉ Set.range tmp)
include orderly taken named

/-- What a step does to the contents of a file that is not a temporary one: the current write
may be added, and others may be settled. -/
theorem mem_contents_of_step {content : Option α} (member : content ∈ s'.contents name) :
    content ∈ s.contents name ∨
      ∃ t write rest, s.lock = some (t, .synced) ∧ s.todo t = write :: rest ∧ write.path = name ∧
        content = some write.data := by
  have apart (path : ν) : name ≠ tmp path := fun same => named ⟨path, same.symm⟩
  cases moves_of_step tmp torn taken with
  | create | flush =>
    simp only [contents, update_of_ne (apart _)] at member
    exact .inl member
  | @rename t write rest held next =>
    rcases eq_or_ne name write.path with rfl | different
    · simp only [contents, update_self, orderly.flushed held next] at member
      rcases mem_cons.mp member with rfl | before
      · exact .inr ⟨t, write, rest, held, next, rfl, rfl⟩
      · exact .inl before
    · simp only [contents, update_of_ne different, update_of_ne (apart _)]
        at member
      exact .inl member
  | syncDir =>
    rw [contents, mem_singleton] at member
    exact .inl (member ▸ (.head _))
  | fail => exact .inl member

theorem possible_of_step (possible : s'.Possible name data) : s.Possible name data := by
  rcases possible with member | ⟨t, member⟩
  · rcases mem_contents_of_step orderly taken named member with before | written
    · exact .inl before
    · obtain ⟨t, write, rest, -, next, rfl, same⟩ := written
      cases same
      exact .inr ⟨t, next ▸ (.head _)⟩
  · exact .inr ⟨t, mem_todo_of_step taken member⟩

theorem files_of_step : s'.files name = s.files name ∨
      ∃ t write rest, s.lock = some (t, .synced) ∧ s.todo t = write :: rest ∧ write.path = name ∧
        s'.files name = some write.data := by
  have apart (path : ν) : name ≠ tmp path := fun same => named ⟨path, same.symm⟩
  cases moves_of_step tmp torn taken with
  | create | flush => exact .inl (update_of_ne (apart _) _ _)
  | @rename t write rest held next =>
    rcases eq_or_ne name write.path with rfl | different
    · refine .inr ⟨t, write, rest, held, next, rfl, ?_⟩
      exact (update_self _ _ _).trans (orderly.flushed held next)
    · refine .inl ((update_of_ne different _ _).trans ?_)
      exact update_of_ne (apart _) _ _
  | syncDir | fail => exact .inl rfl

theorem isSome_of_step (there : (s.files name).isSome) : (s'.files name).isSome = true := by
  rcases files_of_step orderly taken named with same | ⟨_, _, _, -, -, -, written⟩
  · rwa [same]
  · rw [written]
    rfl

end Place

structure Ordered (first second : ν) (s : Writers ν α τ) : Prop where
  durable : ∀ {data}, some data ∈ s.contents second → none ∉ s.contents first
  /-- The second file is only written when the first is there, or is written before. -/
  queued : ∀ {t before write later}, s.todo t = before ++ write :: later → write.path = second →
    (s.files first).isSome = true ∨ first ∈ before.map (·.path)

theorem Ordered.step {first second : ν} (ordered : s.Ordered first second)
    (orderly : s.Orderly tmp own) (taken : s.step tmp torn a = some s')
    (firstNamed : first ∉ Set.range tmp) (secondNamed : second ∉ Set.range tmp)
    (written : ∀ t write rest, a = .fail t → s.todo t = write :: rest → write.path ≠ first) :
    s'.Ordered first second := by
  have kept := isSome_of_step orderly taken firstNamed
  constructor
  · intro data member missing
    have before : none ∈ s.contents first := by
      rcases mem_contents_of_step orderly taken firstNamed missing with before | ⟨_, _, _, -, -, -, ⟨⟩⟩
      exact before
    rcases mem_contents_of_step orderly taken secondNamed member with old | new
    · exact ordered.durable old before
    -- The second file is being written, so that the first is there and has been synced.
    obtain ⟨t, write, rest, held, next, path, -⟩ := new
    have nothing := orderly.older_eq_nil (by simp [held]) first
    rcases @ordered.queued t [] write rest next path with there | ⟨⟨⟩⟩
    rw [contents, nothing, mem_singleton] at before
    rw [← before] at there
    contradiction
  · intro u before write later next path
    cases moves_of_step tmp torn taken with
    | create | flush | rename => exact (ordered.queued next path).imp_left kept
    | @syncDir t held =>
      rcases eq_or_ne u t with rfl | different
      · obtain ⟨current, rest, current_eq⟩ := exists_cons_of_ne_nil (orderly.holder held)
        simp only [update_self, current_eq, tail_cons] at next
        rcases @ordered.queued u (current :: before) write later (by rw [current_eq, next]; rfl) path
          with there | member
        · exact .inl there
        rcases mem_cons.mp member with rfl | member
        · left
          rw [orderly.placed held current_eq]
          rfl
        · exact .inr member
      · simp only [update_of_ne different] at next
        exact ordered.queued next path
    | @fail t current rest current_eq held =>
      rcases eq_or_ne u t with rfl | different
      · simp only [update_self] at next
        rcases @ordered.queued u (current :: before) write later (by rw [current_eq, next]; rfl) path
          with there | member
        · exact .inl there
        rcases mem_cons.mp member with rfl | member
        · exact absurd rfl (written u current rest rfl current_eq)
        · exact .inr member
      · simp only [update_of_ne different] at next
        exact ordered.queued next path

omit [DecidableEq ν] [DecidableEq τ] in
theorem orderly_starting (files : ν → Option α) :
    (starting files : Writers ν α τ).Orderly tmp own where
  holder := fun held => nomatch held
  flushed := fun held => nomatch held
  placed := fun held => nomatch held
  clean := fun dirty => absurd rfl dirty
  named := fun member => nomatch member

omit [DecidableEq ν] [DecidableEq τ] in
theorem possible_starting (possible : (starting files : Writers ν α τ).Possible name data) :
    files name = some data := by
  rcases possible with member | ⟨_, ⟨⟩⟩
  exact (mem_singleton.mp member).symm

omit [DecidableEq ν] [DecidableEq τ] in
theorem ordered_starting (there : (files second).isSome → (files first).isSome) :
    (starting files : Writers ν α τ).Ordered first second where
  durable {data} member missing := by
    have second_eq : files second = some data := (mem_singleton.mp member).symm
    have first_eq : files first = none := (mem_singleton.mp missing).symm
    rw [second_eq, first_eq] at there
    exact absurd (there rfl) Bool.false_ne_true
  queued next := absurd next.symm (append_ne_nil_of_right_ne_nil _ (cons_ne_nil _ _))

def assign (s : Writers ν α τ) (t : τ) (writes : List (Replacement ν α)) : Writers ν α τ :=
  { s with todo := update s.todo t writes }

section Assign

variable {writes : List (Replacement ν α)}

omit [DecidableEq ν] in
theorem mem_todo_assign {u : τ} (member : write ∈ (s.assign t writes).todo u) :
    u = t ∧ write ∈ writes ∨ write ∈ s.todo u := by
  rcases eq_or_ne u t with rfl | different
  · simp only [assign, update_self] at member
    exact .inl ⟨rfl, member⟩
  · simp only [assign, update_of_ne different] at member
    exact .inr member

omit [DecidableEq ν] in
theorem Orderly.assign (orderly : s.Orderly tmp own) (free : s.todo t = [])
    (named : ∀ write ∈ writes, write.path ∈ own) : (s.assign t writes).Orderly tmp own := by
  have same {u : τ} {stage : WriteStage} (held : s.lock = some (u, stage)) :
      (s.assign t writes).todo u = s.todo u := by
    refine update_of_ne ?_ _ _
    rintro rfl
    exact orderly.holder held free
  refine ⟨?_, ?_, ?_, ?_, ?_⟩
  · intro u stage held
    rw [same held]
    exact orderly.holder held
  · intro u write rest held next
    exact orderly.flushed held (same held ▸ next)
  · intro u write rest held next
    exact orderly.placed held (same held ▸ next)
  · intro name dirty
    obtain ⟨u, write, rest, held, next, path⟩ := orderly.clean dirty
    exact ⟨u, write, rest, held, (same held).trans next, path⟩
  · intro u write member
    rcases mem_todo_assign member with ⟨-, new⟩ | old
    · exact named write new
    · exact orderly.named old

omit [DecidableEq ν] in
theorem possible_assign (possible : (s.assign t writes).Possible name data) :
    s.Possible name data ∨ ⟨name, data⟩ ∈ writes := by
  rcases possible with member | ⟨u, member⟩
  · exact .inl (.inl member)
  · rcases mem_todo_assign member with ⟨-, new⟩ | old
    · exact .inr new
    · exact .inl (.inr ⟨u, old⟩)

omit [DecidableEq ν] in
theorem Ordered.assign (ordered : s.Ordered first second)
    (queued : ∀ before write later, writes = before ++ write :: later → write.path = second →
      (s.files first).isSome = true ∨ first ∈ before.map (·.path)) :
    (s.assign t writes).Ordered first second where
  durable := ordered.durable
  queued {u before write later} next path := by
    rcases eq_or_ne u t with rfl | different
    · simp only [Writers.assign, update_self] at next
      exact queued before write later next path
    · simp only [Writers.assign, update_of_ne different] at next
      exact ordered.queued next path

end Assign

def put (s : Writers ν α τ) (name : ν) (content : Option α) : Writers ν α τ :=
  { s with files := update s.files name content }

section Put

variable {content : Option α} {other : ν}

omit [DecidableEq τ] in
theorem put_files (different : other ≠ name) : (s.put name content).files other = s.files other :=
  update_of_ne different _ _

omit [DecidableEq τ] in
theorem put_contents (different : other ≠ name) :
    (s.put name content).contents other = s.contents other := by
  rw [contents, put_files different]
  rfl

omit [DecidableEq τ] in
theorem Orderly.put (orderly : s.Orderly tmp own) (foreign : ∀ path ∈ own, path ≠ name ∧ tmp path ≠ name) :
    (s.put name content).Orderly tmp own where
  holder := orderly.holder
  flushed {t write rest} held next := by
    have mine := foreign _ (orderly.named (next ▸ (.head _) : write ∈ s.todo t))
    rw [put_files mine.2]
    exact orderly.flushed held next
  placed {t write rest} held next := by
    have mine := foreign _ (orderly.named (next ▸ (.head _) : write ∈ s.todo t))
    rw [put_files mine.1]
    exact orderly.placed held next
  clean := orderly.clean
  named := orderly.named

omit [DecidableEq τ] in
theorem possible_put (different : other ≠ name) (possible : (s.put name content).Possible other data) :
    s.Possible other data := by
  rwa [Possible, put_contents different] at possible

omit [DecidableEq τ] in
theorem Ordered.put (ordered : s.Ordered first second) (notFirst : first ≠ name)
    (notSecond : second ≠ name) : (s.put name content).Ordered first second where
  durable member := by
    rw [put_contents notFirst]
    exact ordered.durable (put_contents notSecond ▸ member)
  queued next path := by
    rw [put_files notFirst]
    exact ordered.queued next path

end Put

end Writers

end NzbDownloader.Lib
