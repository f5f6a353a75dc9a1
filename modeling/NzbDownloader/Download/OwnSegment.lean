import NzbDownloader.Download.Accounting

/-!
# Which segment a fetch marks

`segment_done_cb` marks by message id, and the first segment of the job with that id is
the one marked.
-/

namespace NzbDownloader.Download.Accounting

open Lib Queue Transition List Option Round

structure MarksOwn (before after : List JobFile) (f i : ℕ) : Prop where
  own : arrivedAt after f i = true
  others : ∀ f' i', ¬(f' = f ∧ i' = i) → arrivedAt after f' i' = arrivedAt before f' i'

variable {f fi si : ℕ} {messageId : String} {s s' : Round} {a : Act} {fetch : SegmentFetch}
  {live : List SegmentFetch}

theorem marksOwn_markFiles {files : List JobFile} {i : ℕ} (first : FirstWith files messageId f i) :
    MarksOwn files (Job.markFiles messageId files) f i where
  own := arrivedAt_markFiles.mpr (.inr first)
  others f' i' other := by
    rw [Bool.eq_iff_iff, arrivedAt_markFiles]
    constructor
    · rintro (arrived | first')
      · exact arrived
      · exact absurd (first'.unique first) other
    · exact .inl

theorem MarksOwn.firstWith {files : List JobFile} {i : ℕ}
    (marks : MarksOwn files (Job.markFiles messageId files) f i)
    (missing : arrivedAt files f i = false) : FirstWith files messageId f i := by
  refine (arrivedAt_markFiles.mp marks.own).resolve_left ?_
  rw [missing]
  exact Bool.false_ne_true

def Round.Passed (s : Round) (fi si : ℕ) : Prop :=
  match s.point with
  | .starting => False
  | .atFile n | .counting n .. => fi < n
  | .atSegment n m | .submitting n m => fi < n ∨ fi = n ∧ si < m
  | .refused n m | .withdrawn n m => fi < n ∨ fi = n ∧ si < m + 1
  | .waiting | .closing _ | .returned => True

def Act.succeeds : Act → Bool
  | .allocate memory => memory
  | .file goesOn => goesOn
  | .segment goesOn memory => goesOn && memory
  | .submit accepted | .judge _ accepted => accepted
  | _ => true

def Accepting (_ : Round) (a : Act) : Prop :=
  a.succeeds = true

structure Dispatches (s : Round) (a : Act) (s' : Round) : Prop where
  job : s'.job = s.job
  chosen : s'.chosen = s.chosen
  live : s'.live = s.live ∨ ∃ fi si, s.point = .submitting fi si ∧
    s'.live = s.live ++ [⟨fi, si, (idAt s.job (s.fileOf fi) si).getD "", .fetching⟩]
  submits : ∀ fi si, s'.point = .submitting fi si → s.point = .atSegment fi si ∧
    si < s.segmentCount fi ∧ arrivedAt s.job (s.fileOf fi) si = false
  passed : Accepting s a → ∀ fi si, fi < s.chosen.length → si < s.segmentCount fi →
    s'.Passed fi si → s.Passed fi si ∨ arrivedAt s.job (s.fileOf fi) si = true ∨
      ∃ fetch ∈ s'.live, fetch.slot = fi ∧ fetch.index = si ∧ fetch.stage = .fetching

theorem dispatches_move (job : s'.job = s.job) (chosen : s'.chosen = s.chosen)
    (live : s'.live = s.live) (idle : ∀ fi si, s'.point ≠ .submitting fi si)
    (passed : Accepting s a → ∀ fi si, fi < s.chosen.length → si < s.segmentCount fi →
      s'.Passed fi si → s.Passed fi si ∨ arrivedAt s.job (s.fileOf fi) si) :
    Dispatches s a s' where
  job := job
  chosen := chosen
  live := .inl live
  submits fi si here := absurd here (idle fi si)
  passed allowed fi si isFile inside after :=
    (passed allowed fi si isFile inside after).imp_right .inl

section Dispatch

theorem dispatches_segment (here : s.point = .atSegment fi si) (goesOn memory : Bool)
    (taken : s.dispatch (.segment goesOn memory) = some s') :
    Dispatches s (.segment goesOn memory) s' := by
  simp only [dispatch, here] at taken
  split_ifs at taken with more skip
  · cases taken
    refine dispatches_move rfl rfl rfl (by simp) fun allowed f i _ _ after => ?_
    simp only [Round.Passed, here] at after ⊢
    by_cases same : f = fi ∧ i = si
    · right
      rw [same.1, same.2]
      exact skip.resolve_right (by simp [(Bool.and_eq_true_iff.mp allowed).2])
    · omega
  · cases taken
    exact
      { job := rfl
        chosen := rfl
        live := .inl rfl
        submits := by
          rintro f i ⟨⟩
          exact ⟨here, more.1, by simpa using (not_or.mp skip).1⟩
        passed := fun _ f i _ _ after => .inl (by simpa only [Round.Passed, here] using after) }
  · cases taken
    refine dispatches_move rfl rfl rfl (by simp) fun allowed f i _ inside after => ?_
    left
    simp only [Round.Passed, here] at after ⊢
    have counted : s.segmentCount fi ≤ si := by
      have all := not_and.mp more
      exact Nat.not_lt.mp fun below => all below (Bool.and_eq_true_iff.mp allowed).1
    by_cases same : f = fi
    · subst same
      exact .inr ⟨rfl, inside.trans_le counted⟩
    · omega

theorem dispatches_submit (here : s.point = .submitting fi si) (accepted : Bool)
    (taken : s.dispatch (.submit accepted) = some s') : Dispatches s (.submit accepted) s' := by
  simp only [dispatch, here] at taken
  cases accepted with
  | true =>
    cases taken
    exact
      { job := rfl
        chosen := rfl
        live := .inr ⟨fi, si, here, rfl⟩
        submits := by rintro f i ⟨⟩
        passed := by
          intro _ f i _ _ after
          simp only [Round.Passed, here] at after ⊢
          by_cases same : f = fi ∧ i = si
          · obtain ⟨rfl, rfl⟩ := same
            exact .inr (.inr ⟨_, mem_append_right _ (.head _), rfl, rfl, rfl⟩)
          · omega }
  | false =>
    cases taken
    exact dispatches_move rfl rfl rfl (by simp) fun allowed => by cases allowed

theorem Round.dispatches (taken : s.dispatch a = some s') : Dispatches s a s' := by
  have found := taken
  cases a with
  | allocate memory =>
    simp only [dispatch] at taken
    split at taken
    · cases taken
      refine dispatches_move rfl rfl rfl (by split <;> simp) fun allowed f i _ _ after => ?_
      have begun : memory = true := allowed
      simp [Round.Passed, begun] at after
    · contradiction
  | file goesOn =>
    simp only [dispatch] at taken
    split at taken
    · rename_i fi here
      cases taken
      refine dispatches_move rfl rfl rfl (by split <;> simp) fun allowed f i isFile _ after => ?_
      left
      have going : goesOn = true := allowed
      simp only [Round.Passed, here, going, and_true] at after ⊢
      by_cases more : fi < s.chosen.length
      · simpa only [more, if_true] using after
      · omega
    · contradiction
  | count =>
    simp only [dispatch] at taken
    split at taken
    · rename_i here
      split_ifs at taken
      all_goals
        cases taken
        refine dispatches_move rfl rfl rfl (by simp) fun _ f i _ _ after => .inl ?_
        simpa [Round.Passed, here] using after
    · contradiction
  | segment goesOn memory =>
    simp only [dispatch] at taken
    split at taken
    · rename_i here
      exact dispatches_segment here goesOn memory found
    · contradiction
  | submit accepted =>
    simp only [dispatch] at taken
    split at taken
    · rename_i here
      exact dispatches_submit here accepted found
    · contradiction
  | withdraw | discount =>
    simp only [dispatch] at taken
    split at taken
    · rename_i here
      cases taken
      refine dispatches_move rfl rfl rfl (by simp [releaseSlot])
        fun _ f i _ _ after => .inl ?_
      simp only [Round.Passed, here]
      exact after
    · contradiction
  | wait | close =>
    simp only [dispatch] at taken
    split at taken
    · rename_i here
      split_ifs at taken
      all_goals
        cases taken
        refine dispatches_move rfl rfl rfl (by simp) fun _ f i _ _ _ => .inl ?_
        simp [Round.Passed, here]
    · contradiction
  | _ => contradiction

end Dispatch

structure Works (s : Round) (a : Act) (fetch : SegmentFetch) (s' : Round) : Prop where
  point : s'.point = s.point
  chosen : s'.chosen = s.chosen
  live : ∀ new ∈ s'.live, ∃ stage, { new with stage } ∈ s.live
  job : if fetch.stage = .judged true then s'.job = Job.markFiles fetch.messageId s.job
    else s'.job = s.job
  others : ∀ old ∈ s.live, old ∈ s'.live ∨ old = fetch
  kept : Accepting s a → fetch.stage = .fetching → ∃ new ∈ s'.live, new.slot = fetch.slot ∧
    new.index = fetch.index ∧ (new.stage = .fetching ∨ new.stage = .judged true)

section Work

variable {k : ℕ}

theorem mem_set_stage {stage : Stage} (found : live[k]? = some fetch) (new : SegmentFetch)
    (member : new ∈ live.set k { fetch with stage }) : ∃ stage, { new with stage } ∈ live := by
  rcases mem_or_eq_of_mem_set member with old | rfl
  · exact ⟨new.stage, old⟩
  · exact ⟨fetch.stage, List.mem_of_getElem? found⟩

theorem mem_or_eq_set (found : live[k]? = some fetch) (new old : SegmentFetch)
    (member : old ∈ live) : old ∈ live.set k new ∨ old = fetch := by
  obtain ⟨j, there⟩ := List.getElem?_of_mem member
  by_cases same : k = j
  · subst same
    right
    exact Option.some.inj (there.symm.trans found)
  · left
    exact List.mem_of_getElem? ((getElem?_set_ne same).trans there)

theorem mem_or_eq_eraseIdx (found : live[k]? = some fetch) (old : SegmentFetch)
    (member : old ∈ live) : old ∈ live.eraseIdx k ∨ old = fetch := by
  obtain ⟨j, there⟩ := List.getElem?_of_mem member
  by_cases same : j = k
  · subst same
    right
    exact Option.some.inj (there.symm.trans found)
  · left
    exact mem_eraseIdx_iff_getElem?.mpr ⟨j, same, there⟩

theorem Round.openSlot_frame (s : Round) (fi : ℕ) (success : Bool) :
    (s.openSlot fi success).job = s.job ∧ (s.openSlot fi success).chosen = s.chosen ∧
      (s.openSlot fi success).point = s.point ∧ (s.openSlot fi success).live = s.live := by
  simp only [openSlot]
  split_ifs <;> exact ⟨rfl, rfl, rfl, rfl⟩

theorem Round.works (found : s.live[k]? = some fetch) (taken : s.work k fetch a = some s') :
    Works s a fetch s' := by
  have member := List.mem_of_getElem? found
  have below := (List.getElem?_eq_some_iff.mp found).1
  cases a with
  | resolve _ success =>
    obtain ⟨stage, ⟨⟩⟩ := ite_none_right_eq_some.mp taken
    obtain ⟨job, chosen, point, live⟩ := s.openSlot_frame fetch.slot success
    exact
      { point := point
        chosen := chosen
        live := fun new isNew => ⟨new.stage, live ▸ isNew⟩
        job := by rw [stage]; exact job
        others := fun old isOld => .inl (live.symm ▸ isOld)
        kept := fun _ _ => ⟨fetch, live.symm ▸ member, rfl, rfl, .inl stage⟩ }
  | judge _ accepted =>
    obtain ⟨stage, ⟨⟩⟩ := ite_none_right_eq_some.mp taken
    exact
      { point := rfl
        chosen := rfl
        live := mem_set_stage found
        job := by rw [stage]; rfl
        others := mem_or_eq_set found _
        kept := fun allowed _ =>
          ⟨_, mem_set below _, rfl, rfl, .inr (congrArg Stage.judged allowed)⟩ }
  | mark _ =>
    obtain ⟨stage, ⟨⟩⟩ := ite_none_right_eq_some.mp taken
    exact
      { point := rfl
        chosen := rfl
        live := mem_set_stage found
        job := by rw [stage]; rfl
        others := mem_or_eq_set found _
        kept := by simp [stage] }
  | release _ =>
    obtain ⟨stage, ⟨⟩⟩ := ite_none_right_eq_some.mp taken
    exact
      { point := rfl
        chosen := rfl
        live := mem_set_stage found
        job := by rcases stage with stage | stage <;> rw [stage] <;> rfl
        others := mem_or_eq_set found _
        kept := fun _ fetching => by simp [fetching] at stage }
  | finish _ =>
    obtain ⟨stage, ⟨⟩⟩ := ite_none_right_eq_some.mp taken
    exact
      { point := rfl
        chosen := rfl
        live := fun new isNew => ⟨new.stage, mem_of_mem_eraseIdx isNew⟩
        job := by rw [stage]; rfl
        others := mem_or_eq_eraseIdx found
        kept := by simp [stage] }
  | _ => contradiction

end Work

def Wanted (job : List JobFile) (chosen : List ℕ) (fi si : ℕ) (messageId : String) : Prop :=
  ∃ f, chosen[fi]? = some f ∧ idAt job f si = some messageId ∧ arrivedAt job f si = false

structure Traced (job : List JobFile) (chosen : List ℕ) (s : Round) : Prop where
  sound : Sound s
  files : s.chosen = chosen
  ids : idAt s.job = idAt job
  grown : ∀ f i, arrivedAt job f i = true → arrivedAt s.job f i = true
  fetches : ∀ fetch ∈ s.live, Wanted job chosen fetch.slot fetch.index fetch.messageId
  submits : ∀ fi si, s.point = .submitting fi si → ∃ messageId, Wanted job chosen fi si messageId

theorem traced_begin (job : List JobFile) (chosen : List ℕ) :
    Traced job chosen (begin job chosen) where
  sound := sound_begin job chosen
  files := rfl
  ids := rfl
  grown _ _ arrived := arrived
  fetches _ member := absurd member not_mem_nil
  submits fi si here := by contradiction

theorem Round.lt_segmentCount (s : Round) :
    si < s.segmentCount fi ↔ ∃ messageId, idAt s.job (s.fileOf fi) si = some messageId := by
  rw [segmentCount, idAt, segmentAt]
  cases s.job[s.fileOf fi]? with
  | none => simp
  | some file => simp [← isSome_iff_exists]

section Traced

variable {job : List JobFile} {chosen : List ℕ}

section

variable (traced : Traced job chosen s)

include traced

theorem Traced.fileOf (isFile : chosen[fi]? = some f) : s.fileOf fi = f := by
  rw [Round.fileOf, traced.files, getD_eq_getElem?_getD, isFile]
  rfl

theorem Traced.dispatch (taken : s.dispatch a = some s') : Traced job chosen s' := by
  have does := Round.dispatches taken
  exact
    { sound := traced.sound.dispatch taken
      files := does.chosen.trans traced.files
      ids := by rw [does.job, traced.ids]
      grown := by rw [does.job]; exact traced.grown
      fetches := by
        intro fetch member
        rcases does.live with same | ⟨fi, si, here, added⟩
        · exact traced.fetches fetch (same ▸ member)
        rw [added] at member
        rcases mem_append.mp member with old | new
        · exact traced.fetches fetch old
        · obtain ⟨messageId, f, isFile, found, missing⟩ := traced.submits fi si here
          rw [mem_singleton.mp new, traced.fileOf isFile, traced.ids, found]
          exact ⟨f, isFile, found, missing⟩
      submits := by
        intro fi si here
        obtain ⟨before, inside, missing⟩ := does.submits fi si here
        obtain ⟨messageId, found⟩ := s.lt_segmentCount.mp inside
        have isFile : fi < s.chosen.length := by
          have within := traced.sound.within
          rwa [Round.untouched, before] at within
        have same : chosen[fi]? = some (s.fileOf fi) := by
          rw [Round.fileOf, ← traced.files, getD_eq_getElem?_getD,
            getElem?_eq_getElem isFile]
          rfl
        refine ⟨messageId, _, same, traced.ids ▸ found, Bool.eq_false_iff.mpr fun arrived => ?_⟩
        rw [traced.grown _ _ arrived] at missing
        contradiction }

theorem Traced.work {k : ℕ} (found : s.live[k]? = some fetch) (taken : s.work k fetch a = some s') :
    Traced job chosen s' := by
  have does := works found taken
  have marked : s'.job = s.job ∨ s'.job = Job.markFiles fetch.messageId s.job := by
    have job := does.job
    split at job
    · exact .inr job
    · exact .inl job
  exact
    { sound := traced.sound.work found taken
      files := does.chosen.trans traced.files
      ids := by
        rcases marked with same | marked
        · rw [same, traced.ids]
        · rw [marked, idAt_markFiles, traced.ids]
      grown := by
        intro f i arrived
        rcases marked with same | marked
        · rw [same]
          exact traced.grown f i arrived
        · rw [marked]
          exact arrivedAt_markFiles.mpr (.inl (traced.grown f i arrived))
      fetches := by
        intro new member
        obtain ⟨stage, old⟩ := does.live new member
        exact traced.fetches { new with stage } old
      submits := by
        rw [does.point]
        exact traced.submits }

theorem Traced.step {a : Act} (taken : s.step a = some s') : Traced job chosen s' := by
  unfold Round.step at taken
  split at taken
  case h_6 => exact traced.dispatch taken
  all_goals
    obtain ⟨fetch, found, taken⟩ := bind_eq_some_iff.mp taken
    exact traced.work found taken

end

def MissingFirst (job : List JobFile) (chosen : List ℕ) : Prop :=
  ∀ f ∈ chosen, ∀ i messageId, idAt job f i = some messageId → arrivedAt job f i = false →
    FirstWith job messageId f i

theorem Traced.firstWith (traced : Traced job chosen s) (first : MissingFirst job chosen)
    (member : fetch ∈ s.live) :
    FirstWith s.job fetch.messageId (s.fileOf fetch.slot) fetch.index := by
  obtain ⟨f, isFile, found, missing⟩ := traced.fetches fetch member
  rw [traced.fileOf isFile]
  exact (first f (List.mem_of_getElem? isFile) _ _ found missing).of_ids traced.ids

def Round.Covered (s : Round) : Prop :=
  ∀ fi si, fi < s.chosen.length → si < s.segmentCount fi → s.Passed fi si →
    arrivedAt s.job (s.fileOf fi) si = true ∨ ∃ fetch ∈ s.live, fetch.slot = fi ∧
      fetch.index = si ∧ (fetch.stage = .fetching ∨ fetch.stage = .judged true)

theorem Dispatches.covered {a : Act} (does : Dispatches s a s') (allowed : Accepting s a)
    (covered : s.Covered) : s'.Covered := by
  intro fi si isFile inside after
  have file : s'.fileOf fi = s.fileOf fi := by rw [fileOf, fileOf, does.chosen]
  have count : s'.segmentCount fi = s.segmentCount fi := by
    rw [segmentCount, segmentCount, does.job, file]
  rw [does.chosen] at isFile
  rw [count] at inside
  rw [does.job, file]
  have stays : ∀ fetch ∈ s.live, fetch ∈ s'.live := by
    intro fetch member
    rcases does.live with same | ⟨_, _, _, added⟩
    · rwa [same]
    · rw [added]
      exact mem_append_left _ member
  rcases does.passed allowed fi si isFile inside after with
    before | arrived | ⟨fetch, member, slot, index, stage⟩
  · refine (covered fi si isFile inside before).imp_right ?_
    rintro ⟨fetch, member, rest⟩
    exact ⟨fetch, stays fetch member, rest⟩
  · exact .inl arrived
  · exact .inr ⟨fetch, member, slot, index, .inl stage⟩

theorem Traced.work_covered (traced : Traced job chosen s) (first : MissingFirst job chosen) {k : ℕ}
    (found : s.live[k]? = some fetch) (taken : s.work k fetch a = some s') (allowed : Accepting s a)
    (covered : s.Covered) : s'.Covered := by
  intro fi si isFile inside after
  have does := Round.works found taken
  have traced' := traced.work found taken
  have file : s'.fileOf fi = s.fileOf fi := by rw [Round.fileOf, Round.fileOf, does.chosen]
  have arrives : arrivedAt s.job (s.fileOf fi) si →
      arrivedAt s'.job (s.fileOf fi) si = true := by
    intro arrived
    have job := does.job
    split at job
    · rw [job]
      exact arrivedAt_markFiles.mpr (.inl arrived)
    · rwa [job]
  rw [does.chosen] at isFile
  rw [s'.lt_segmentCount, file, traced'.ids, ← traced.ids, ← s.lt_segmentCount] at inside
  rw [Round.Passed, does.point] at after
  rw [file]
  rcases covered fi si isFile inside after with arrived | ⟨old, member, slot, index, stage⟩
  · exact .inl (arrives arrived)
  rcases does.others old member with kept | rfl
  · exact .inr ⟨old, kept, slot, index, stage⟩
  · rcases stage with fetching | judged
    · obtain ⟨new, isNew, slot', index', stage⟩ := does.kept allowed fetching
      exact .inr ⟨new, isNew, slot'.trans slot, index'.trans index, stage⟩
    · -- The step marks this fetch, and what it marks is its own segment.
      left
      have own := (marksOwn_markFiles (traced.firstWith first member)).own
      rw [slot, index] at own
      have job := does.job
      rw [if_pos judged] at job
      rwa [job]

theorem Traced.step_covered (traced : Traced job chosen s) (first : MissingFirst job chosen)
    (taken : s.step a = some s') (allowed : Accepting s a) (covered : s.Covered) : s'.Covered := by
  unfold Round.step at taken
  split at taken
  case h_6 => exact (Round.dispatches taken).covered allowed covered
  all_goals
    obtain ⟨fetch, found, taken⟩ := bind_eq_some_iff.mp taken
    exact traced.work_covered first found taken allowed covered

end Traced

structure Skips (s s' : Round) : Prop where
  run : Reachable Round.step Anything s s'
  job : s'.job = s.job
  chosen : s'.chosen = s.chosen
  live : s'.live = s.live

theorem Skips.trans {t u : Round} (first : Skips s t) (second : Skips t u) : Skips s u where
  run := first.run.trans second.run
  job := second.job.trans first.job
  chosen := second.chosen.trans first.chosen
  live := second.live.trans first.live

theorem skips_step (a : Act) (taken : s.step a = some s') (job : s'.job = s.job)
    (chosen : s'.chosen = s.chosen) (live : s'.live = s.live) : Skips s s' :=
  ⟨.tail a .refl trivial taken, job, chosen, live⟩

theorem skips_refl (s : Round) : Skips s s :=
  ⟨.refl, rfl, rfl, rfl⟩

section Reach

variable {count : ℕ}

theorem step_count_next (here : s.point = .counting fi si count)
    (more : si < s.segmentCount fi) : ∃ count', s.step .count =
      some { s with point := .counting fi (si + 1) count' } := by
  simp only [Round.step, dispatch, here, more, if_true]
  exact ⟨_, rfl⟩

theorem step_count_done (here : s.point = .counting fi si count)
    (done : ¬si < s.segmentCount fi) : s.step .count = some { s with
      point := .atSegment fi 0
      slots := Function.update s.slots fi { s.slots fi with remaining := count } } := by
  simp only [Round.step, dispatch, here, done, if_false]

theorem skips_counting (left : ℕ) (here : s.point = .counting fi si count)
    (bound : s.segmentCount fi ≤ si + left) :
    ∃ s', Skips s s' ∧ s'.point = .atSegment fi 0 := by
  induction left generalizing s si count with
  | zero => exact ⟨_, skips_step _ (step_count_done here (Nat.not_lt.mpr bound)) rfl rfl rfl, rfl⟩
  | succ left ih =>
    by_cases more : si < s.segmentCount fi
    · obtain ⟨count', taken⟩ := step_count_next here more
      obtain ⟨s', skips, there⟩ := ih (s := { s with point := .counting fi (si + 1) count' }) rfl
        (by change s.segmentCount fi ≤ si + 1 + left; omega)
      exact ⟨s', (skips_step _ taken rfl rfl rfl).trans skips, there⟩
    · exact ⟨_, skips_step _ (step_count_done here more) rfl rfl rfl, rfl⟩

theorem skips_atFile (here : s.point = .atFile fi) (isFile : fi < s.chosen.length) :
    ∃ s', Skips s s' ∧ s'.point = .atSegment fi 0 := by
  have taken : s.step (.file true) = some { s with point := .counting fi 0 0 } := by
    simp only [Round.step, dispatch, here, isFile, and_self, if_true]
  obtain ⟨s', skips, there⟩ := skips_counting (s := { s with point := .counting fi 0 0 })
    (segmentCount { s with point := .counting fi 0 0 } fi) rfl (Nat.le_add_left ..)
  exact ⟨s', (skips_step _ taken rfl rfl rfl).trans skips, there⟩

theorem skips_segments (here : s.point = .atSegment fi 0) (inside : si ≤ s.segmentCount fi) :
    ∃ s', Skips s s' ∧ s'.point = .atSegment fi si := by
  induction si with
  | zero => exact ⟨s, skips_refl s, here⟩
  | succ si ih =>
    obtain ⟨t, skips, there⟩ := ih (Nat.le_of_succ_le inside)
    have more : si < t.segmentCount fi := by
      rwa [segmentCount, fileOf, skips.job, skips.chosen]
    have taken : t.step (.segment true false) = some { t with point := .atSegment fi (si + 1) } := by
      simp only [Round.step, dispatch, there, more, and_self, if_true, or_true]
    exact ⟨_, skips.trans (skips_step _ taken rfl rfl rfl), rfl⟩

theorem skips_begin (job : List JobFile) (chosen : List ℕ) (below : fi ≤ chosen.length) :
    ∃ s', Skips (begin job chosen) s' ∧ s'.point = .atFile fi := by
  induction fi with
  | zero => exact ⟨_, skips_step (.allocate true) rfl rfl rfl rfl, rfl⟩
  | succ fi ih =>
    obtain ⟨t, skips, there⟩ := ih (Nat.le_of_succ_le below)
    obtain ⟨u, further, here⟩ := skips_atFile there (by rwa [skips.chosen])
    have taken : u.step (.segment false true) = some { u with point := .atFile (fi + 1) } := by
      simp only [Round.step, dispatch, here, Bool.false_eq_true, and_false, if_false]
    exact ⟨_, (skips.trans further).trans (skips_step _ taken rfl rfl rfl), rfl⟩

theorem exists_fetch {job : List JobFile} {chosen : List ℕ} (member : f ∈ chosen)
    (found : idAt job f si = some messageId) (missing : arrivedAt job f si = false) :
    ∃ (s s' : Round) (fetch : SegmentFetch),
      Reachable Round.step Anything (begin job chosen) s ∧ s.live[0]? = some fetch ∧
      s.step (.mark 0) = some s' ∧ s.job = job ∧ s'.job = Job.markFiles messageId job ∧
      s.fileOf fetch.slot = f ∧ fetch.index = si := by
  obtain ⟨fi, isFile⟩ := List.getElem?_of_mem member
  have below := (List.getElem?_eq_some_iff.mp isFile).1
  obtain ⟨t, toFile, atFile⟩ := skips_begin job chosen below.le
  obtain ⟨u, toSegments, atSegments⟩ := skips_atFile atFile (by rwa [toFile.chosen])
  have before := toFile.trans toSegments
  have file : u.fileOf fi = f := by
    rw [fileOf, before.chosen, getD_eq_getElem?_getD, begin, isFile]
    rfl
  have inside : si < u.segmentCount fi :=
    u.lt_segmentCount.mpr ⟨messageId, by rw [file, before.job]; exact found⟩
  obtain ⟨v, toSegment, atSegment⟩ := skips_segments atSegments inside.le
  have skips := before.trans toSegment
  have file' : v.fileOf fi = f := by
    rw [fileOf, toSegment.chosen]
    exact file
  have inside' : si < v.segmentCount fi := by
    rwa [segmentCount, fileOf, toSegment.job, toSegment.chosen]
  have arrived : arrivedAt v.job (v.fileOf fi) si = false := by
    rw [file', skips.job]
    exact missing
  have live : v.live = [] := skips.live
  have ids : idAt v.job (v.fileOf fi) si = some messageId := by
    rw [file', skips.job]
    exact found
  let submitting : Round := { v with point := .submitting fi si, pending := v.pending + 1 }
  let fetching : Round :=
    { submitting with
      point := .atSegment fi (si + 1)
      live := [⟨fi, si, messageId, .fetching⟩] }
  let judged : Round := { fetching with live := [⟨fi, si, messageId, .judged true⟩] }
  have submits : v.step (.segment true true) = some submitting := by
    simp [Round.step, dispatch, atSegment, inside', arrived, submitting]
  have fetches : submitting.step (.submit true) = some fetching := by
    have started : submitting.step (.submit true) = some { submitting with
        point := .atSegment fi (si + 1)
        live := v.live ++ [⟨fi, si, (idAt v.job (v.fileOf fi) si).getD "", .fetching⟩] } := rfl
    rw [started, ids, live]
    rfl
  have judges : fetching.step (.judge 0 true) = some judged := rfl
  have run := (((skips.run.tail _ trivial submits).tail _ trivial fetches).tail _ trivial judges)
  exact ⟨judged, _, _, run, rfl, rfl, skips.job,
    congrArg (Job.markFiles messageId) skips.job, file', rfl⟩

end Reach

/-- Every accepted fetch marks the segment it was dispatched for and no other, and with
all fetches accepted nothing remains unmarked, exactly if every missing segment is the
first of the job with its message id. -/
theorem accepted_fetch_marks_own_iff (job : List JobFile) (chosen : List ℕ) :
    (∀ s s' k fetch, Reachable Round.step Anything (begin job chosen) s →
        s.live[k]? = some fetch → s.step (.mark k) = some s' →
        MarksOwn s.job s'.job (s.fileOf fetch.slot) fetch.index) ∧
      (∀ s, Reachable Round.step Accepting (begin job chosen) s → s.point = .returned →
        ∀ f ∈ chosen, ∀ i messageId, idAt job f i = some messageId →
          arrivedAt s.job f i = true) ↔
    MissingFirst job chosen := by
  constructor
  · rintro ⟨marks, -⟩ f member i messageId found missing
    obtain ⟨s, s', fetch, run, live, taken, same, after, file, index⟩ :=
      exists_fetch member found missing
    have own := marks s s' 0 fetch run live taken
    rw [file, index, same, after] at own
    exact own.firstWith missing
  · intro first
    constructor
    · intro s s' k fetch run live taken
      have traced : Traced job chosen s :=
        run.invariant (traced_begin job chosen) fun _ _ _ traced _ taken => traced.step taken
      simp only [Round.step, work, live, bind_some] at taken
      obtain ⟨-, ⟨⟩⟩ := ite_none_right_eq_some.mp taken
      exact marksOwn_markFiles (traced.firstWith first (List.mem_of_getElem? live))
    · intro s run here f member i messageId found
      have both : Traced job chosen s ∧ s.Covered := by
        refine run.invariant (I := fun t => Traced job chosen t ∧ t.Covered)
          ⟨traced_begin job chosen, ?_⟩ ?_
        · intro fi si _ _ passed
          contradiction
        · intro t a t' before allowed taken
          exact ⟨before.1.step taken, before.1.step_covered first taken allowed before.2⟩
      obtain ⟨traced, covered⟩ := both
      obtain ⟨fi, isFile⟩ := List.getElem?_of_mem member
      have file := traced.fileOf isFile
      have inside : i < s.segmentCount fi :=
        s.lt_segmentCount.mpr ⟨messageId, by rw [file, traced.ids]; exact found⟩
      have below : fi < s.chosen.length := by
        rw [traced.files]
        exact (List.getElem?_eq_some_iff.mp isFile).1
      have arrived := covered fi i below inside (by rw [Round.Passed, here]; trivial)
      rw [file, traced.sound.drained (by rw [here]; rfl)] at arrived
      exact arrived.resolve_right (by simp)

def sameArticleTwice : List JobFile :=
  [⟨['a'], [⟨"1", false⟩, ⟨"1", false⟩]⟩]

theorem same_article_stays_unmarked :
    (∃ s s' : Round, Reachable Round.step Accepting (begin sameArticleTwice [0]) s ∧
      s.live[0]? = some ⟨0, 1, "1", .judged true⟩ ∧ s.step (.mark 0) = some s' ∧
      arrivedAt s'.job 0 1 = false) ∧
    ∃ s : Round, Reachable Round.step Accepting (begin sameArticleTwice [0]) s ∧
      s.point = .returned ∧ arrivedAt s.job 0 1 = false := by
  constructor
  · have runs : (replay Round.step (fun _ a => a.succeeds) (begin sameArticleTwice [0])
        [.allocate true, .file true, .count, .count, .count, .segment true true, .submit true,
          .judge 0 true, .mark 0, .release 0, .finish 0, .segment true true, .submit true,
          .judge 0 true]).any
        (fun s => s.live[0]? = some ⟨0, 1, "1", .judged true⟩ ∧
          (s.step (.mark 0)).any fun s' => arrivedAt s'.job 0 1 = false) = true := by
      decide +kernel
    obtain ⟨s, reachable, ends⟩ := exists_reachable (fun _ _ succeeds => succeeds) runs
    rw [decide_eq_true_eq] at ends
    obtain ⟨s', taken, unmarked⟩ := (any_eq_true _ _).mp ends.2
    exact ⟨s, s', reachable, ends.1, taken, of_decide_eq_true unmarked⟩
  · have runs : (replay Round.step (fun _ a => a.succeeds) (begin sameArticleTwice [0])
        [.allocate true, .file true, .count, .count, .count, .segment true true, .submit true,
          .segment true true, .submit true, .segment true true, .file true,
          .judge 0 true, .mark 0, .release 0, .finish 0, .judge 0 true, .mark 0, .release 0,
          .finish 0, .wait, .close, .close]).any
        (fun s => s.point = .returned ∧ arrivedAt s.job 0 1 = false) = true := by
      decide +kernel
    obtain ⟨s, reachable, ends⟩ := exists_reachable (fun _ _ succeeds => succeeds) runs
    rw [decide_eq_true_eq] at ends
    exact ⟨s, reachable, ends⟩

end NzbDownloader.Download.Accounting
