import NzbDownloader.Download.Assembly
import NzbDownloader.Lib.Tally

/-!
# The bookkeeping of a download

`download_segments` with the callbacks of the pool's workers: the counter of pending
segments, and for each file the descriptor that its segments share and the counter that
tells when to close it. A step is one critical section or one access of the source, and
steps of the dispatching thread and of the workers come in any order.

A segment counts as dispatched from `dl_state_add` on and as finished with the
`dl_state_done` that ends its callback; the descriptor it has no use for any more from
`file_dl_release` on.
-/

namespace NzbDownloader.Download.Accounting

open Lib Queue Transition List Option Function Nat

structure FileSlot where
  fd : Option ℕ := none
  openFailed : Bool := false
  remaining : ℤ := 0
  deriving DecidableEq, Repr

inductive Stage
  | fetching
  | judged (accepted : Bool)
  | marked
  | released
  deriving DecidableEq, Repr

structure SegmentFetch where
  slot : ℕ
  index : ℕ
  messageId : String
  stage : Stage := .fetching
  deriving DecidableEq, Repr

open SegmentFetch

inductive Point
  | starting
  | atFile (fi : ℕ)
  /-- The loop that counts the segments; `missing` of the first `si` have not arrived. -/
  | counting (fi si missing : ℕ)
  | atSegment (fi si : ℕ)
  | submitting (fi si : ℕ)
  | refused (fi si : ℕ)
  | withdrawn (fi si : ℕ)
  | waiting
  | closing (fi : ℕ)
  | returned
  deriving DecidableEq, Repr

open Point

structure Round where
  job : List JobFile
  chosen : List ℕ
  point : Point := .starting
  pending : ℤ := 0
  slots : ℕ → FileSlot := fun _ => {}
  live : List SegmentFetch := []
  opened : List ℕ := []
  closed : List ℕ := []

open Round

inductive Act
  | allocate (memory : Bool)
  | file (goesOn : Bool)
  | count
  | segment (goesOn memory : Bool)
  | submit (accepted : Bool)
  | withdraw
  | discount
  | resolve (k : ℕ) (success : Bool)
  | judge (k : ℕ) (accepted : Bool)
  | mark (k : ℕ)
  | release (k : ℕ)
  | finish (k : ℕ)
  | wait
  | close
  deriving DecidableEq, Repr

namespace Round

def fileOf (s : Round) (fi : ℕ) : ℕ :=
  s.chosen.getD fi 0

def segmentCount (s : Round) (fi : ℕ) : ℕ :=
  ((s.job[s.fileOf fi]?).map (·.segments.length)).getD 0

def releaseSlot (s : Round) (fi : ℕ) : Round :=
  let slot := s.slots fi
  let remaining := slot.remaining - 1
  { s with
    slots := update s.slots fi
      { slot with remaining, fd := if remaining = 0 then none else slot.fd }
    closed := if remaining = 0 then s.closed ++ slot.fd.toList else s.closed }

def openSlot (s : Round) (fi : ℕ) (success : Bool) : Round :=
  let slot := s.slots fi
  if slot.fd.isNone ∧ slot.openFailed = false then
    if success then
      { s with
        slots := update s.slots fi { slot with fd := some s.opened.length }
        opened := s.opened ++ [fi] }
    else { s with slots := update s.slots fi { slot with openFailed := true } }
  else s

def dispatch (s : Round) : Act → Option Round
  | .allocate memory =>
      match s.point with
      | .starting => some { s with point := if memory then .atFile 0 else .returned }
      | _ => none
  | .file goesOn =>
      match s.point with
      | .atFile fi =>
          some { s with
            point := if fi < s.chosen.length ∧ goesOn then .counting fi 0 0 else .waiting }
      | _ => none
  | .count =>
      match s.point with
      | .counting fi si missing =>
          if si < s.segmentCount fi then
            let missing := if arrivedAt s.job (s.fileOf fi) si then missing else missing + 1
            some { s with point := .counting fi (si + 1) missing }
          else
            some { s with
              point := .atSegment fi 0
              slots := update s.slots fi { s.slots fi with remaining := missing } }
      | _ => none
  | .segment goesOn memory =>
      match s.point with
      | .atSegment fi si =>
          if si < s.segmentCount fi ∧ goesOn then
            if arrivedAt s.job (s.fileOf fi) si ∨ memory = false then
              some { s with point := .atSegment fi (si + 1) }
            else some { s with point := .submitting fi si, pending := s.pending + 1 }
          else some { s with point := .atFile (fi + 1) }
      | _ => none
  | .submit accepted =>
      match s.point with
      | .submitting fi si =>
          if accepted then
            let messageId := (idAt s.job (s.fileOf fi) si).getD ""
            some { s with
              point := .atSegment fi (si + 1)
              live := s.live ++ [⟨fi, si, messageId, .fetching⟩] }
          else some { s with point := .refused fi si }
      | _ => none
  | .withdraw =>
      match s.point with
      | .refused fi si => some (releaseSlot { s with point := .withdrawn fi si } fi)
      | _ => none
  | .discount =>
      match s.point with
      | .withdrawn fi si =>
          some { s with point := .atSegment fi (si + 1), pending := s.pending - 1 }
      | _ => none
  | .wait =>
      match s.point with
      | .waiting => if s.pending > 0 then none else some { s with point := .closing 0 }
      | _ => none
  | .close =>
      match s.point with
      | .closing fi =>
          if fi < s.chosen.length then
            some { s with point := .closing (fi + 1), closed := s.closed ++ (s.slots fi).fd.toList }
          else some { s with point := .returned }
      | _ => none
  | _ => none

def setStage (s : Round) (k : ℕ) (fetch : SegmentFetch) (stage : Stage) : Round :=
  { s with live := s.live.set k { fetch with stage } }

def work (s : Round) (k : ℕ) (fetch : SegmentFetch) : Act → Option Round
  | .resolve _ success =>
      if fetch.stage = .fetching then some (s.openSlot fetch.slot success) else none
  | .judge _ accepted =>
      if fetch.stage = .fetching then some (s.setStage k fetch (.judged accepted)) else none
  | .mark _ =>
      if fetch.stage = .judged true then
        some { s with
          live := s.live.set k { fetch with stage := .marked }
          job := Job.markFiles fetch.messageId s.job }
      else none
  | .release _ =>
      if fetch.stage = .judged false ∨ fetch.stage = .marked then
        some ((s.setStage k fetch .released).releaseSlot fetch.slot)
      else none
  | .finish _ =>
      if fetch.stage = .released then
        some { s with live := s.live.eraseIdx k, pending := s.pending - 1 }
      else none
  | _ => none

def step (s : Round) (a : Act) : Option Round :=
  match a with
  | .resolve k _ | .judge k _ | .mark k | .release k | .finish k =>
      (s.live[k]?).bind fun fetch => s.work k fetch a
  | _ => s.dispatch a

end Round

/-- Every descriptor is the one its slot holds, or it was closed when the slot had no
segment left; `swept` slots have been visited by the closing loop. -/
structure Descriptors (slots : ℕ → FileSlot) (opened closed : List ℕ) (swept : ℕ) : Prop where
  held : ∀ f d, (slots f).fd = some d → opened[d]? = some f ∧ (d ∈ closed ↔ f < swept)
  known : ∀ d f, opened[d]? = some f →
    (slots f).fd = some d ∨ d ∈ closed ∧ (slots f).remaining = 0
  once : closed.Nodup
  bounded : ∀ d ∈ closed, d < opened.length

variable {fi : ℕ} {s : Round} {point : Point} {pending : ℤ} {closed : List ℕ} {s' : Round}

namespace Descriptors

variable {slots : ℕ → FileSlot} {opened : List ℕ} {swept : ℕ}

theorem init (swept : ℕ) : Descriptors (fun _ => {}) [] [] swept where
  held f d holds := by contradiction
  known d f isOpen := by contradiction
  once := nodup_nil
  bounded d member := absurd member not_mem_nil

theorem setSlot (descriptors : Descriptors slots opened closed swept) {slot : FileSlot}
    (fd : slot.fd = (slots fi).fd)
    (count : fi ∈ opened → (slots fi).remaining = 0 → slot.remaining = 0) :
    Descriptors (update slots fi slot) opened closed swept := by
  refine { descriptors with held := fun f d holds => ?_, known := fun d f isOpen => ?_ }
  · apply descriptors.held f d
    by_cases same : f = fi
    · subst same
      rwa [update_self, fd] at holds
    · rwa [update_of_ne same] at holds
  · have before := descriptors.known d f isOpen
    by_cases same : f = fi
    · subst same
      rw [update_self, fd]
      exact before.imp_right fun gone => ⟨gone.1, count (mem_of_getElem? isOpen) gone.2⟩
    · rwa [update_of_ne same]

theorem openNew (descriptors : Descriptors slots opened closed 0) (absent : (slots fi).fd = none)
    (used : (slots fi).remaining ≠ 0) :
    Descriptors (update slots fi { slots fi with fd := some opened.length })
      (opened ++ [fi]) closed 0 where
  held f d holds := by
    by_cases same : f = fi
    · subst same
      rw [update_self] at holds
      obtain rfl : opened.length = d := Option.some.inj holds
      refine ⟨by simp, fun member => ?_, by simp⟩
      exact absurd (descriptors.bounded _ member) (Nat.lt_irrefl _)
    · rw [update_of_ne same] at holds
      obtain ⟨isOpen, swept⟩ := descriptors.held f d holds
      exact ⟨List.getElem?_append_left (List.getElem?_eq_some_iff.mp isOpen).1 ▸ isOpen, swept⟩
  known d f isOpen := by
    rcases Nat.lt_or_ge d opened.length with old | new
    · rw [List.getElem?_append_left old] at isOpen
      have before := descriptors.known d f isOpen
      have other : f ≠ fi := by
        rintro rfl
        simp [absent, used] at before
      rwa [update_of_ne other]
    · rw [List.getElem?_append_right new] at isOpen
      obtain ⟨inside, rfl⟩ := List.getElem?_eq_some_iff.mp isOpen
      have last : d = opened.length := by
        rw [List.length_singleton] at inside
        omega
      simp [last]
  once := descriptors.once
  bounded d member := by
    rw [length_append]
    exact Nat.lt_add_right _ (descriptors.bounded d member)

theorem disjoint_fd (descriptors : Descriptors slots opened closed swept) (unswept : swept ≤ fi) :
    (closed ++ (slots fi).fd.toList).Nodup ∧
      ∀ d ∈ closed ++ (slots fi).fd.toList, d < opened.length := by
  cases fd : (slots fi).fd with
  | none => simpa using ⟨descriptors.once, descriptors.bounded⟩
  | some d =>
    obtain ⟨isOpen, gone⟩ := descriptors.held fi d fd
    constructor
    · refine nodup_append.mpr ⟨descriptors.once, by simp, ?_⟩
      rintro other member _ new rfl
      rw [List.mem_singleton.mp new] at member
      exact absurd (gone.mp member) (not_lt.mpr unswept)
    · intro other member
      rcases mem_append.mp member with old | new
      · exact descriptors.bounded other old
      · rw [List.mem_singleton.mp new]
        exact (List.getElem?_eq_some_iff.mp isOpen).1

theorem closeLast (descriptors : Descriptors slots opened closed 0)
    (used : (slots fi).remaining ≠ 0) :
    Descriptors (update slots fi { slots fi with remaining := 0, fd := none }) opened
      (closed ++ (slots fi).fd.toList) 0 where
  held f d holds := by
    have other : f ≠ fi := by
      rintro rfl
      rw [update_self] at holds
      contradiction
    rw [update_of_ne other] at holds
    obtain ⟨isOpen, gone⟩ := descriptors.held f d holds
    refine ⟨isOpen, fun member => ?_, fun below => absurd below (not_lt_zero f)⟩
    rcases mem_append.mp member with old | new
    · exact gone.mp old
    · have here := (descriptors.held fi d (mem_toList.mp new)).1
      exact absurd (Option.some.inj (isOpen.symm.trans here)) other
  known d f isOpen := by
    have before := descriptors.known d f isOpen
    by_cases same : f = fi
    · subst same
      have holds := before.resolve_right fun gone => used gone.2
      rw [update_self]
      exact .inr ⟨mem_append_right _ (mem_toList.mpr holds), rfl⟩
    · rw [update_of_ne same]
      exact before.imp_right fun gone => ⟨mem_append_left _ gone.1, gone.2⟩
  once := (descriptors.disjoint_fd (zero_le fi)).1
  bounded := (descriptors.disjoint_fd (zero_le fi)).2

theorem sweep (descriptors : Descriptors slots opened closed fi) :
    Descriptors slots opened (closed ++ (slots fi).fd.toList) (fi + 1) where
  held f d holds := by
    obtain ⟨isOpen, gone⟩ := descriptors.held f d holds
    refine ⟨isOpen, fun member => ?_, fun below => ?_⟩
    · rcases mem_append.mp member with old | new
      · exact lt_succ_of_lt (gone.mp old)
      · have here := (descriptors.held fi d (mem_toList.mp new)).1
        rw [Option.some.inj (isOpen.symm.trans here)]
        exact lt_succ_self fi
    · rcases lt_or_eq_of_le (le_of_lt_succ below) with earlier | rfl
      · exact mem_append_left _ (gone.mpr earlier)
      · exact mem_append_right _ (mem_toList.mpr holds)
  known d f isOpen :=
    (descriptors.known d f isOpen).imp_right fun gone => ⟨mem_append_left _ gone.1, gone.2⟩
  once := (descriptors.disjoint_fd le_rfl).1
  bounded := (descriptors.disjoint_fd le_rfl).2

end Descriptors

def Point.counted : Point → ℕ
  | .submitting .. | .refused .. | .withdrawn .. => 1
  | _ => 0

def Point.ending : Point → Bool
  | .closing _ | .returned => true
  | _ => false

def Point.slot : Point → Option ℕ
  | .atSegment fi _ | .submitting fi _ | .refused fi _ | .withdrawn fi _ => some fi
  | _ => none

def Round.swept (s : Round) : ℕ :=
  match s.point with
  | .closing fi => fi
  | .returned => s.chosen.length
  | _ => 0

def Round.untouched (s : Round) : ℕ :=
  match s.point with
  | .starting => 0
  | .atFile fi | .counting fi .. => fi
  | .atSegment fi _ | .submitting fi _ | .refused fi _ | .withdrawn fi _ => fi + 1
  | .waiting | .closing _ | .returned => s.chosen.length

def SegmentFetch.uses (f : ℕ) (fetch : SegmentFetch) : ℕ :=
  if fetch.slot = f ∧ fetch.stage ≠ .released then 1 else 0

def Round.missingFrom (s : Round) (fi si : ℕ) : ℕ :=
  missing s.job (s.fileOf fi) (range' si (s.segmentCount fi - si))

def Round.ahead (s : Round) (f : ℕ) : ℕ :=
  match s.point with
  | .atSegment fi si => if fi = f then s.missingFrom fi si else 0
  | .submitting fi si | .refused fi si => if fi = f then 1 + s.missingFrom fi (si + 1) else 0
  | .withdrawn fi si => if fi = f then s.missingFrom fi (si + 1) else 0
  | _ => 0

def Round.demand (s : Round) (f : ℕ) : ℕ :=
  tally (uses f) s.live + s.ahead f

def Round.CountedWell (s : Round) : Prop :=
  ∀ fi si count, s.point = .counting fi si count → fi < s.chosen.length ∧
    si ≤ s.segmentCount fi ∧ missing s.job (s.fileOf fi) (range si) ≤ count

structure Sound (s : Round) : Prop where
  pending : s.pending = s.live.length + s.point.counted
  enough : ∀ f, (s.demand f : ℤ) ≤ (s.slots f).remaining
  fresh : ∀ f, s.untouched ≤ f →
    s.slots f = {} ∧ f ∉ s.opened ∧ ∀ fetch ∈ s.live, fetch.slot ≠ f
  within : s.untouched ≤ s.chosen.length
  counted : s.CountedWell
  descriptors : Descriptors s.slots s.opened s.closed s.swept
  drained : s.point.ending = true → s.live = []

section Update

variable (sound : Sound s)
include sound

theorem Sound.move (balance : pending = s.live.length + point.counted)
    (ahead : ∀ f, ahead { s with point, pending } f ≤ s.ahead f)
    (begun : s.untouched ≤ untouched { s with point, pending })
    (within : untouched { s with point, pending } ≤ s.chosen.length)
    (counted : Round.CountedWell { s with point, pending })
    (swept : swept { s with point, pending } = s.swept)
    (drained : point.ending → s.live = []) : Sound { s with point, pending } where
  pending := balance
  enough f := by
    have before := sound.enough f
    have less := ahead f
    simp only [demand] at before ⊢
    omega
  fresh f above := sound.fresh f (begun.trans above)
  within := within
  counted := counted
  descriptors := by
    rw [swept]
    exact sound.descriptors
  drained := drained

theorem Sound.setSlot (begun : fi < s.untouched) {slot : FileSlot}
    (enough : (s.demand fi : ℤ) ≤ slot.remaining) {opened : List ℕ}
    (listed : ∀ f ∈ opened, f ∈ s.opened ∨ f = fi)
    (descriptors : Descriptors (update s.slots fi slot) opened closed s.swept) :
    Sound { s with slots := update s.slots fi slot, opened, closed } := by
  refine { sound with enough := fun f => ?_, fresh := fun f above => ?_, descriptors }
  · change (s.demand f : ℤ) ≤ (update s.slots fi slot f).remaining
    by_cases here : f = fi
    · subst here
      rwa [update_self]
    · rw [update_of_ne here]
      exact sound.enough f
  · have other : f ≠ fi := (begun.trans_le above).ne'
    obtain ⟨empty, never, unused⟩ := sound.fresh f above
    refine ⟨(update_of_ne other ..).trans empty, fun isOpen => ?_, unused⟩
    exact never ((listed f isOpen).resolve_right other)

theorem Sound.releaseSlot (spare : (s.demand fi : ℤ) < (s.slots fi).remaining)
    (begun : fi < s.untouched) (unswept : s.swept = 0) : Sound (s.releaseSlot fi) := by
  have used : (s.slots fi).remaining ≠ 0 := by omega
  have before := sound.descriptors
  refine sound.setSlot begun (Int.le_sub_one_of_lt spare) (fun _ => .inl) ?_
  rw [unswept] at before ⊢
  by_cases last : (s.slots fi).remaining - 1 = 0
  · simp only [last, if_true]
    exact before.closeLast used
  · simp only [last, if_false]
    exact before.setSlot rfl fun _ zero => absurd zero used

end Update

theorem Round.missingFrom_succ (s : Round) {si : ℕ} (below : si < s.segmentCount fi) :
    s.missingFrom fi si =
      (if arrivedAt s.job (s.fileOf fi) si then 0 else 1) + s.missingFrom fi (si + 1) := by
  have left : s.segmentCount fi - si = s.segmentCount fi - (si + 1) + 1 := by omega
  rw [missingFrom, missingFrom, left, range'_succ, missing, missing, filter_cons]
  cases arrivedAt s.job (s.fileOf fi) si with
  | true => simp
  | false => simp [add_comm]

theorem Round.missing_range_succ (s : Round) (fi si : ℕ) :
    missing s.job (s.fileOf fi) (range (si + 1)) =
      missing s.job (s.fileOf fi) (range si) +
        if arrivedAt s.job (s.fileOf fi) si then 0 else 1 := by
  rw [missing, missing, range_succ, filter_append, length_append]
  cases arrived : arrivedAt s.job (s.fileOf fi) si with
  | true | false => simp [arrived]

section Dispatch

variable {si count : ℕ} (sound : Sound s)
include sound

theorem Sound.empty_of_untouched (none : s.untouched = 0) :
    s.slots = (fun _ => {}) ∧ s.opened = [] ∧ s.closed = [] ∧ s.live = [] := by
  have fresh f := sound.fresh f (none ▸ zero_le f)
  have opened : s.opened = [] := eq_nil_iff_forall_not_mem.mpr fun f => (fresh f).2.1
  refine ⟨funext fun f => (fresh f).1, opened, ?_, ?_⟩
  · apply eq_nil_iff_forall_not_mem.mpr
    intro d member
    have bound := sound.descriptors.bounded d member
    rw [opened] at bound
    exact absurd bound (not_lt_zero d)
  · apply eq_nil_iff_forall_not_mem.mpr
    intro fetch member
    exact (fresh fetch.slot).2.2 fetch member rfl

theorem Sound.allocate (here : s.point = .starting) (memory : Bool) :
    Sound { s with point := if memory then .atFile 0 else .returned } := by
  have none : s.untouched = 0 := by rw [untouched, here]
  obtain ⟨slots, opened, closed, live⟩ := sound.empty_of_untouched none
  have balance := sound.pending
  rw [here] at balance
  cases memory with
  | true =>
    apply sound.move
    · exact balance
    · exact fun _ => zero_le _
    · exact none.le
    · exact zero_le _
    · simp [Round.CountedWell]
    · simp [swept, here]
    · simp [ending]
  | false =>
    exact {
      pending := balance
      enough := fun f => by simp [demand, ahead, live, slots]
      fresh := fun f _ => sound.fresh f (none ▸ zero_le f)
      within := le_rfl
      counted := by simp [Round.CountedWell]
      descriptors := by
        simp only [slots, opened, closed]
        exact .init _
      drained := fun _ => live }

theorem Sound.file (here : s.point = .atFile fi) (goesOn : Bool) : Sound { s with
      point := if fi < s.chosen.length ∧ goesOn then .counting fi 0 0 else .waiting } := by
  have balance := sound.pending
  have within := sound.within
  rw [here] at balance
  rw [untouched, here] at within
  split
  · rename_i inside
    refine sound.move balance (fun _ => zero_le _) ?_ within ?_ ?_ ?_
    · simp [untouched, here]
    · rintro _ _ _ ⟨⟩
      exact ⟨inside.1, zero_le _, le_rfl⟩
    · simp [swept, here]
    · simp [ending]
  · apply sound.move
    · exact balance
    · exact fun _ => zero_le _
    · simpa [untouched, here] using within
    · exact le_rfl
    · simp [Round.CountedWell]
    · simp [swept, here]
    · simp [ending]

theorem Sound.countNext (here : s.point = .counting fi si count) (inside : si < s.segmentCount fi) :
    let count := if arrivedAt s.job (s.fileOf fi) si then count else count + 1
    Sound { s with point := .counting fi (si + 1) count } := by
  have balance := sound.pending
  have within := sound.within
  obtain ⟨isFile, -, covered⟩ := sound.counted fi si count here
  rw [here] at balance
  rw [untouched, here] at within
  refine sound.move balance (fun _ => zero_le _) ?_ within ?_ ?_ ?_
  · simp [untouched, here]
  · rintro _ _ _ ⟨⟩
    refine ⟨isFile, inside, ?_⟩
    change missing s.job (s.fileOf fi) _ ≤ _
    rw [s.missing_range_succ]
    split <;> omega
  · simp [swept, here]
  · simp [ending]

theorem Sound.countDone (here : s.point = .counting fi si count) (all : ¬si < s.segmentCount fi) :
    Sound { s with
      point := .atSegment fi 0
      slots := update s.slots fi { s.slots fi with remaining := count } } := by
  have balance := sound.pending
  obtain ⟨isFile, reached, covered⟩ := sound.counted fi si count here
  obtain ⟨-, never, unused⟩ := sound.fresh fi (by rw [untouched, here])
  have others f (above : fi < f) := sound.fresh f (by rw [untouched, here]; exact above.le)
  rw [here] at balance
  have unswept : s.swept = 0 := by rw [swept, here]
  exact {
    pending := balance
    enough := by
      intro f
      by_cases same : f = fi
      · subst same
        have idle : tally (uses f) s.live = 0 := by
          rw [tally_eq_zero]
          intro fetch member
          rw [uses, if_neg fun used => unused fetch member used.1]
        have range : range' 0 (s.segmentCount f - 0) = range si := by
          rw [range_eq_range']
          congr
          omega
        simp only [demand, ahead, update_self, idle, if_true]
        change ((0 + missing s.job (s.fileOf f) (range' 0 (s.segmentCount f - 0)) : ℕ) : ℤ) ≤ _
        rw [range]
        omega
      · have before := sound.enough f
        simp only [demand, ahead, here] at before
        simp only [demand, ahead, update_of_ne same, if_neg (Ne.symm same)]
        exact before
    fresh := by
      intro f above
      have before := others f above
      exact ⟨(update_of_ne (ne_of_gt above) ..).trans before.1, before.2⟩
    within := isFile
    counted := by simp [Round.CountedWell]
    descriptors := by
      have before := sound.descriptors
      rw [unswept] at before
      exact before.setSlot rfl fun isOpen => absurd isOpen never
    drained := by simp [ending] }

omit sound in
theorem Round.of_slot (here : s.point.slot = some fi) : s.untouched = fi + 1 ∧ s.swept = 0 := by
  unfold untouched swept
  cases at' : s.point <;> simp_all [Point.slot]

theorem Sound.moveWithin (here : s.point.slot = some fi) (there : point.slot = some fi)
    (balance : pending + s.point.counted = s.pending + point.counted)
    (ahead : ∀ f, ahead { s with point, pending } f ≤ s.ahead f) :
    Sound { s with point, pending } := by
  have before := sound.pending
  obtain ⟨begun, unswept⟩ := of_slot here
  obtain ⟨begun', unswept'⟩ := @of_slot _ { s with point, pending } there
  refine sound.move (by omega) ahead (begun.trans begun'.symm).le ?_ ?_ ?_ ?_
  · rw [begun', ← begun]
    exact sound.within
  · rintro _ _ _ rfl
    contradiction
  · rw [unswept, unswept']
  · cases point <;> first | contradiction | simp [ending]

theorem Sound.segment (here : s.point = .atSegment fi si)
    (goesOn memory : Bool) (taken : s.dispatch (.segment goesOn memory) = some s') : Sound s' := by
  have isSlot : s.point.slot = some fi := by rw [here, Point.slot]
  simp only [dispatch, here] at taken
  split at taken
  · rename_i inside
    have next := s.missingFrom_succ inside.1
    split at taken
    · cases taken
      refine sound.moveWithin isSlot rfl (by rw [here]; rfl) fun f => ?_
      simp only [ahead, here]
      split
      · change s.missingFrom fi (si + 1) ≤ _
        omega
      · exact le_rfl
    · rename_i fetched
      cases taken
      have absent : arrivedAt s.job (s.fileOf fi) si = false := by
        simpa using (not_or.mp fetched).1
      rw [absent] at next
      refine sound.moveWithin isSlot rfl (by simp [here, Point.counted]) fun f => ?_
      simp only [ahead, here]
      split
      · exact next.ge
      · exact le_rfl
  · cases taken
    obtain ⟨begun, unswept⟩ := of_slot isSlot
    have balance := sound.pending
    rw [here] at balance
    apply sound.move
    · exact balance
    · exact fun _ => zero_le _
    · exact begun.le
    · exact begun.ge.trans sound.within
    · simp [Round.CountedWell]
    · exact unswept.symm
    · simp [Point.ending]

theorem Sound.refuse (here : s.point = .submitting fi si) :
    Sound { s with point := .refused fi si } := by
  refine sound.moveWithin (by rw [here]; rfl) rfl (by rw [here]; rfl) fun f => ?_
  simp only [ahead, here]
  exact le_rfl

theorem Sound.accept (here : s.point = .submitting fi si) (messageId : String) : Sound { s with
      point := .atSegment fi (si + 1), live := s.live ++ [⟨fi, si, messageId, .fetching⟩] } where
  pending := by
    have balance := sound.pending
    rw [here] at balance
    simp only [length_append, length_singleton, Point.counted] at balance ⊢
    omega
  enough f := by
    have before := sound.enough f
    have uses : uses f ⟨fi, si, messageId, .fetching⟩ = if fi = f then 1 else 0 := by
      simp [uses]
    simp only [demand, ahead, here] at before
    simp only [demand, ahead, tally_append, tally_cons, tally_nil, uses]
    change ((tally _ s.live + (_ + 0) +
      if fi = f then s.missingFrom fi (si + 1) else 0 : ℕ) : ℤ) ≤ _
    split_ifs at before ⊢ <;> omega
  fresh f above := by
    have before := sound.fresh f (by rw [untouched, here]; exact above)
    refine ⟨before.1, before.2.1, fun fetch member => ?_⟩
    rcases mem_append.mp member with old | new
    · exact before.2.2 fetch old
    · rw [mem_singleton.mp new]
      exact Nat.ne_of_lt above
  within := by
    have before := sound.within
    rw [untouched, here] at before
    exact before
  counted := by simp [Round.CountedWell]
  descriptors := by
    have before := sound.descriptors
    rw [swept, here] at before
    exact before
  drained := by simp [Point.ending]

theorem Sound.withdraw (here : s.point = .refused fi si) :
    Sound (Round.releaseSlot { s with point := .withdrawn fi si } fi) := by
  have spare := sound.enough fi
  simp only [Round.demand, Round.ahead, here, if_true] at spare
  have moved : Sound { s with point := .withdrawn fi si } := by
    refine sound.moveWithin (by rw [here]; rfl) rfl (by rw [here]; rfl) fun f => ?_
    simp only [Round.ahead, here]
    split
    · exact le_add_left _ _
    · exact le_rfl
  refine moved.releaseSlot ?_ (lt_succ_self fi) rfl
  simp only [Round.demand, Round.ahead, if_true]
  change ((tally _ s.live + s.missingFrom fi (si + 1) : ℕ) : ℤ) < (s.slots fi).remaining
  omega

theorem Sound.discount (here : s.point = .withdrawn fi si) :
    Sound { s with point := .atSegment fi (si + 1), pending := s.pending - 1 } := by
  refine sound.moveWithin (by rw [here]; rfl) rfl (by simp [here, Point.counted]) fun f => ?_
  simp only [ahead, here]
  exact le_rfl

theorem Sound.wait (here : s.point = .waiting) (none : ¬s.pending > 0) :
    Sound { s with point := .closing 0 } := by
  have balance := sound.pending
  rw [here] at balance
  refine sound.move balance (fun _ => zero_le _) ?_ le_rfl ?_ ?_ fun _ => ?_
  · simp [untouched, here]
  · simp [Round.CountedWell]
  · simp [swept, here]
  · exact eq_nil_of_length_eq_zero (by omega)

theorem Sound.sweep (here : s.point = .closing fi) (ending : point.ending)
    (descriptors : Descriptors s.slots s.opened closed (swept { s with point })) :
    Sound { s with point, closed } := by
  have live : s.live = [] := sound.drained (by rw [here]; rfl)
  have balance := sound.pending
  have enough := sound.enough
  have fresh := sound.fresh
  rw [here] at balance
  rw [untouched, here] at fresh
  simp only [demand, ahead, here] at enough
  cases point <;> first | contradiction | skip
  all_goals exact {
    pending := balance
    enough := enough
    fresh := fresh
    within := le_rfl
    counted := by simp [Round.CountedWell]
    descriptors := descriptors
    drained := fun _ => live }

theorem Sound.isFile (ended : s.untouched = s.chosen.length) {f d : ℕ}
    (holds : (s.slots f).fd = some d) : f < s.chosen.length := by
  by_contra outside
  rw [(sound.fresh f (ended ▸ not_lt.mp outside)).1] at holds
  contradiction

theorem Sound.close (taken : s.dispatch .close = some s') : Sound s' := by
  simp only [dispatch] at taken
  split at taken
  · rename_i fi here
    have begun : s.untouched = s.chosen.length := by rw [untouched, here]
    have swept : s.swept = fi := by rw [swept, here]
    have before := sound.descriptors
    rw [swept] at before
    split at taken
    · cases taken
      exact sound.sweep here rfl before.sweep
    rename_i last
    cases taken
    refine sound.sweep here rfl { before with held := fun f d holds => ?_ }
    obtain ⟨isOpen, gone⟩ := before.held f d holds
    have isFile := sound.isFile begun holds
    exact ⟨isOpen, gone.trans ⟨fun _ => isFile, fun _ => isFile.trans_le (not_lt.mp last)⟩⟩
  · contradiction

theorem Sound.dispatch {a : Act} (taken : s.dispatch a = some s') : Sound s' := by
  cases a with
  | segment goesOn memory =>
    have point := taken
    simp only [Round.dispatch] at point
    split at point
    · rename_i here
      exact sound.segment here goesOn memory taken
    · contradiction
  | close => exact sound.close taken
  | allocate memory =>
    simp only [Round.dispatch] at taken
    split at taken
    · rename_i here
      cases taken
      exact sound.allocate here memory
    · contradiction
  | file goesOn =>
    simp only [Round.dispatch] at taken
    split at taken
    · rename_i here
      cases taken
      exact sound.file here goesOn
    · contradiction
  | count =>
    simp only [Round.dispatch] at taken
    split at taken
    · rename_i here
      split at taken
      · rename_i inside
        cases taken
        exact sound.countNext here inside
      · rename_i all
        cases taken
        exact sound.countDone here all
    · contradiction
  | submit accepted =>
    simp only [Round.dispatch] at taken
    split at taken
    · rename_i here
      split at taken
      · cases taken
        exact sound.accept here _
      · cases taken
        exact sound.refuse here
    · contradiction
  | withdraw =>
    simp only [Round.dispatch] at taken
    split at taken
    · rename_i here
      cases taken
      exact sound.withdraw here
    · contradiction
  | discount =>
    simp only [Round.dispatch] at taken
    split at taken
    · rename_i here
      cases taken
      exact sound.discount here
    · contradiction
  | wait =>
    simp only [Round.dispatch] at taken
    split at taken
    · rename_i here
      split at taken
      · contradiction
      · rename_i none
        cases taken
        exact sound.wait here none
    · contradiction
  | _ => contradiction

end Dispatch

section Work

variable {k : ℕ} {fetch : SegmentFetch} (sound : Sound s)
include sound

theorem Sound.unswept (found : s.live[k]? = some fetch) : s.swept = 0 ∧ s.point.ending = false := by
  have unending : s.point.ending = false := by
    by_contra ending
    rw [sound.drained (by simpa using ending)] at found
    contradiction
  refine ⟨?_, unending⟩
  rw [swept]
  revert unending
  cases s.point <;> simp [ending]

theorem Sound.begun (found : s.live[k]? = some fetch) : fetch.slot < s.untouched := by
  by_contra fresh
  exact (sound.fresh fetch.slot (not_lt.mp fresh)).2.2 fetch (mem_of_getElem? found) rfl

theorem Sound.used (found : s.live[k]? = some fetch)
    (needed : fetch.stage ≠ .released) : 0 < (s.slots fetch.slot).remaining := by
  have removed := tally_eraseIdx (uses fetch.slot) found
  have one : uses fetch.slot fetch = 1 := by simp [uses, needed]
  have enough := sound.enough fetch.slot
  rw [demand] at enough
  omega

theorem Sound.openSlot (found : s.live[k]? = some fetch)
    (needed : fetch.stage ≠ .released) (success : Bool) :
    Sound (s.openSlot fetch.slot success) := by
  have used := sound.used found needed
  have begun := sound.begun found
  have before := sound.descriptors
  have unswept := (sound.unswept found).1
  unfold Round.openSlot
  dsimp only
  split
  · rename_i absent
    cases success with
    | true =>
      rw [if_pos rfl]
      refine sound.setSlot begun ?_ ?_ ?_
      · exact sound.enough _
      · simp
      · rw [unswept] at before ⊢
        exact before.openNew (by simpa using absent.1) used.ne'
    | false =>
      rw [if_neg Bool.false_ne_true]
      refine sound.setSlot begun ?_ (fun _ => .inl) (before.setSlot rfl fun _ => id)
      exact sound.enough _
  · exact sound

theorem Sound.setLive {live : List SegmentFetch} (balance : pending = live.length + s.point.counted)
    (uses : ∀ f, tally (SegmentFetch.uses f) live ≤ tally (SegmentFetch.uses f) s.live)
    (slots : ∀ fetch ∈ live, ∃ old ∈ s.live, fetch.slot = old.slot) :
    Sound { s with live, pending } := by
  refine { sound with
    pending := balance, enough := fun f => ?_, fresh := fun f above => ?_,
    drained := fun ending => ?_ }
  · have before := sound.enough f
    have less := uses f
    change ((tally (SegmentFetch.uses f) live + s.ahead f : ℕ) : ℤ) ≤ (s.slots f).remaining
    rw [demand] at before
    omega
  · obtain ⟨empty, never, unused⟩ := sound.fresh f above
    refine ⟨empty, never, fun fetch member => ?_⟩
    obtain ⟨old, isOld, same⟩ := slots fetch member
    rw [same]
    exact unused old isOld
  · have none := sound.drained ending
    apply eq_nil_iff_forall_not_mem.mpr
    intro fetch member
    obtain ⟨old, isOld, -⟩ := slots fetch member
    rw [none] at isOld
    exact absurd isOld not_mem_nil

theorem Sound.setStage (found : s.live[k]? = some fetch) {stage : Stage}
    (needed : fetch.stage ≠ .released) : Sound (s.setStage k fetch stage) := by
  apply sound.setLive
  · rw [length_set]
    exact sound.pending
  · intro f
    have replaced := tally_set (uses f) found { fetch with stage }
    have less : uses f { fetch with stage } ≤ uses f fetch := by
      unfold uses
      split_ifs with new old <;> first | omega | exact absurd ⟨new.1, needed⟩ old
    omega
  · intro other member
    rcases mem_or_eq_of_mem_set member with old | rfl
    · exact ⟨other, old, rfl⟩
    · exact ⟨fetch, mem_of_getElem? found, rfl⟩

omit sound in
theorem Round.segmentCount_markFiles (s : Round) (messageId : String) (fi : ℕ) :
    segmentCount { s with job := Job.markFiles messageId s.job } fi = s.segmentCount fi := by
  change ((Job.markFiles messageId s.job)[s.fileOf fi]?.map (·.segments.length)).getD 0 = _
  rw [← getElem?_map, markFiles_segmentCount, getElem?_map]
  rfl

theorem Sound.markFiles (messageId : String) :
    Sound { s with job := Job.markFiles messageId s.job } := by
  have counts := s.segmentCount_markFiles messageId
  have fewer fi si :
      missingFrom { s with job := Job.markFiles messageId s.job } fi si ≤
        s.missingFrom fi si := by
    unfold missingFrom
    rw [counts]
    exact missing_markFiles_le messageId s.job _
  have ahead f : ahead { s with job := Job.markFiles messageId s.job } f ≤ s.ahead f := by
    unfold ahead
    dsimp only
    split <;> first | exact le_rfl | (split_ifs <;> first | exact le_rfl | exact fewer _ _ |
      exact Nat.add_le_add_left (fewer _ _) 1)
  refine { sound with enough := fun f => ?_, counted := fun fi si count here => ?_ }
  · have before := sound.enough f
    have less := ahead f
    simp only [demand] at before ⊢
    omega
  · obtain ⟨isFile, inside, covered⟩ := sound.counted fi si count here
    refine ⟨isFile, (counts fi).symm ▸ inside, le_trans ?_ covered⟩
    exact missing_markFiles_le messageId s.job _

theorem Sound.work {a : Act} (found : s.live[k]? = some fetch)
    (taken : s.work k fetch a = some s') : Sound s' := by
  cases a with
  | resolve _ success =>
    obtain ⟨stage, ⟨⟩⟩ := ite_none_right_eq_some.mp taken
    exact sound.openSlot found (by simp [stage]) success
  | judge _ accepted =>
    obtain ⟨stage, ⟨⟩⟩ := ite_none_right_eq_some.mp taken
    exact sound.setStage found (by simp [stage])
  | mark _ =>
    obtain ⟨stage, ⟨⟩⟩ := ite_none_right_eq_some.mp taken
    exact (sound.setStage found (by simp [stage])).markFiles fetch.messageId
  | release _ =>
    obtain ⟨stage, ⟨⟩⟩ := ite_none_right_eq_some.mp taken
    have needed : fetch.stage ≠ .released := by
      rintro released
      simp [released] at stage
    refine (sound.setStage found needed).releaseSlot ?_ (sound.begun found)
      (sound.unswept found).1
    have replaced :=
      tally_set (uses fetch.slot) found { fetch with stage := .released }
    have old : uses fetch.slot fetch = 1 := by simp [uses, needed]
    have new : uses fetch.slot { fetch with stage := .released } = 0 := by
      simp [uses]
    have enough := sound.enough fetch.slot
    rw [demand] at enough
    change ((tally _ (s.live.set k _) + s.ahead fetch.slot : ℕ) : ℤ) <
      (s.slots fetch.slot).remaining
    omega
  | finish _ =>
    obtain ⟨stage, ⟨⟩⟩ := ite_none_right_eq_some.mp taken
    have removed f := tally_eraseIdx (uses f) found
    apply sound.setLive
    · rw [sound.pending, List.length_eraseIdx_of_lt (List.getElem?_eq_some_iff.mp found).1]
      have positive := (List.getElem?_eq_some_iff.mp found).1
      omega
    · intro f
      exact le.intro (removed f)
    · intro other member
      exact ⟨other, mem_of_mem_eraseIdx member, rfl⟩
  | _ => contradiction

end Work

def Round.begin (job : List JobFile) (chosen : List ℕ) : Round where
  job := job
  chosen := chosen

theorem sound_begin (job : List JobFile) (chosen : List ℕ) : Sound (begin job chosen) where
  pending := rfl
  enough f := le_rfl
  fresh f _ := ⟨rfl, not_mem_nil, fun _ member => absurd member not_mem_nil⟩
  within := zero_le _
  counted fi si count here := by contradiction
  descriptors := .init 0
  drained ending := rfl

theorem Sound.step {s : Round} (sound : Sound s) {a : Act} (taken : s.step a = some s') :
    Sound s' := by
  unfold Round.step at taken
  split at taken
  case h_6 => exact sound.dispatch taken
  all_goals
    obtain ⟨fetch, found, taken⟩ := bind_eq_some_iff.mp taken
    exact sound.work found taken

def Round.Unfinished (s : Round) (f : ℕ) : Prop :=
  (∃ fetch ∈ s.live, fetch.slot = f ∧ fetch.stage ≠ .released) ∨
    ∃ si, s.point = .submitting f si ∨ s.point = .refused f si

/-- The counter of pending segments is right, a descriptor in use is open, none is closed
twice, and after the return nothing is outstanding and every descriptor is closed. -/
structure Round.Balanced (s : Round) : Prop where
  pending : s.pending = s.live.length + s.point.counted
  kept : ∀ d f, s.opened[d]? = some f → s.Unfinished f → d ∉ s.closed
  once : ∀ d, s.closed.count d ≤ 1
  returned : s.point = .returned →
    s.live = [] ∧ s.pending = 0 ∧ ∀ d < s.opened.length, s.closed.count d = 1

theorem Sound.remaining_pos (sound : Sound s) {f : ℕ} (unfinished : s.Unfinished f) :
    0 < (s.slots f).remaining ∧ s.swept = 0 := by
  rcases unfinished with ⟨fetch, member, rfl, needed⟩ | ⟨si, here⟩
  · obtain ⟨k, found⟩ := getElem?_of_mem member
    exact ⟨sound.used found needed, (sound.unswept found).1⟩
  have enough := sound.enough f
  rcases here with here | here
  all_goals
    rw [demand, ahead, here] at enough
    simp only [if_true] at enough
    exact ⟨by omega, by rw [swept, here]⟩

theorem Sound.balanced (sound : Sound s) : s.Balanced where
  pending := sound.pending
  kept d f isOpen unfinished := by
    obtain ⟨positive, unswept⟩ := sound.remaining_pos unfinished
    have holds := (sound.descriptors.known d f isOpen).resolve_right fun gone => positive.ne' gone.2
    intro gone
    have below := (sound.descriptors.held f d holds).2.mp gone
    rw [unswept] at below
    exact absurd below (not_lt_zero f)
  once := nodup_iff_count_le_one.mp sound.descriptors.once
  returned here := by
    have live : s.live = [] := sound.drained (by rw [here]; rfl)
    have balance := sound.pending
    rw [live, here] at balance
    refine ⟨live, balance, fun d below => ?_⟩
    apply count_eq_one_of_mem sound.descriptors.once
    have isOpen := getElem?_eq_getElem below
    rcases sound.descriptors.known d _ isOpen with holds | gone
    · apply (sound.descriptors.held _ d holds).2.mpr
      rw [swept, here]
      exact sound.isFile (by rw [untouched, here]) holds
    · exact gone.1

/-- Every segment and every descriptor is accounted for, in every state of every run. -/
theorem download_accounts {job : List JobFile} {chosen : List ℕ} {s : Round}
    (reachable : Reachable Round.step Anything (begin job chosen) s) : s.Balanced := by
  have sound : Sound s :=
    reachable.invariant (sound_begin job chosen) fun _ _ _ sound _ taken => sound.step taken
  exact sound.balanced

/-- Two files of two segments: one fetch of the first is refused; the job is paused when
one segment of the second is on its way, so that the closing loop finds its descriptor. -/
theorem download_accounts_paused : ∃ s : Round,
    s.point = .returned ∧ s.opened = [0, 1] ∧ s.closed = [0, 1] ∧ s.Balanced := by
  let file : JobFile := ⟨['a'], [⟨"1", false⟩, ⟨"2", false⟩]⟩
  have runs : (replay Round.step (fun _ _ => true) (begin [file, file] [0, 1])
      [.allocate true, .file true, .count, .count, .count, .segment true true, .submit true,
        .resolve 0 true, .segment true true, .submit false, .withdraw, .judge 0 false, .discount,
        .release 0, .finish 0, .segment true true, .file true, .count, .count, .count,
        .segment true true, .submit true, .segment false true, .file false, .resolve 0 true,
        .judge 0 true, .mark 0, .release 0, .finish 0, .wait, .close, .close, .close]).any
      (fun s => s.point = .returned ∧ s.opened = [0, 1] ∧ s.closed = [0, 1]) = true := by
    decide +kernel
  obtain ⟨s, reachable, ends⟩ := exists_reachable (fun _ _ _ => trivial) runs
  rw [decide_eq_true_eq] at ends
  exact ⟨s, ends.1, ends.2.1, ends.2.2, download_accounts reachable⟩

end NzbDownloader.Download.Accounting
