import NzbDownloader.Lib.Runs
import NzbDownloader.Par2.RepairSteps

/-!
# The recovery slices that a repair takes

The loop of `par2_repair_set` over the sorted slices tries the first slice of each
exponent only: if it has the wrong length or fails its hash, a later slice with the same
exponent is not tried.
-/

namespace NzbDownloader.Par2

open Lib Lib.Effect List Par2Slice

def Par2Slice.declared (s : Par2Slice) : ℕ :=
  s.exponent.toNat

def Steady (env : Env) (disk : String → Option Bytes) (passes : Par2Slice → Bool) : Prop :=
  ∀ s, Answers (fun w => w.disk = disk) (sliceHashOk env s) (passes s)

def usable (set : Par2Set) (passes : Par2Slice → Bool) (s : Par2Slice) : Bool :=
  s.dataLen = set.blockSize ∧ passes s

def Par2Slice.accept (s : Par2Slice) : AcceptedSlice :=
  ⟨s.path, s.dataOffset, s.exponent.setWidth 16⟩

variable {s : Par2Slice} {env : Env} {accepted : List AcceptedSlice}

theorem declared_eq_iff {t : Par2Slice} : s.declared = t.declared ↔ s.exponent = t.exponent :=
  BitVec.toNat_inj

section Loop

variable {set : Par2Set} {disk : String → Option Bytes} {passes : Par2Slice → Bool} {need : ℕ}

variable (set passes need) in
def takeUsable (accepted : List AcceptedSlice) (slices : List Par2Slice) : List AcceptedSlice :=
  accepted ++ ((slices.filter (usable set passes)).take (need - accepted.length)).map
    accept

theorem takeUsable_nil (accepted : List AcceptedSlice) :
    takeUsable set passes need accepted [] = accepted := by
  rw [takeUsable, filter_nil, take_nil, map_nil, append_nil]

theorem takeUsable_full (full : ¬accepted.length < need) (slices : List Par2Slice) :
    takeUsable set passes need accepted slices = accepted := by
  rw [takeUsable, Nat.sub_eq_zero_of_le (Nat.not_lt.mp full), take_zero, map_nil,
    append_nil]

theorem takeUsable_skip (unusable : usable set passes s = false) (accepted : List AcceptedSlice)
    (slices : List Par2Slice) :
    takeUsable set passes need accepted (s :: slices) =
      takeUsable set passes need accepted slices := by
  rw [takeUsable, filter_cons_of_neg (by simp [unusable])]
  rfl

theorem takeUsable_take (good : usable set passes s) (room : accepted.length < need)
    (slices : List Par2Slice) :
    takeUsable set passes need accepted (s :: slices) =
      takeUsable set passes need (accepted ++ [s.accept]) slices := by
  have left : need - accepted.length = need - (accepted.length + 1) + 1 := by omega
  rw [takeUsable, filter_cons_of_pos good, left, take_succ_cons, map_cons, takeUsable,
    length_append, length_singleton, append_assoc, singleton_append]

theorem selectSlices_try (steady : Steady env disk passes) {rest tried : List Par2Slice}
    {prev : Option (BitVec 32)} (fresh : prev ≠ some s.exponent)
    (later : ∀ accepted, Answers (fun w => w.disk = disk)
      (selectSlices env set need rest (some s.exponent) accepted)
      (takeUsable set passes need accepted tried)) :
    Answers (fun w => w.disk = disk) (selectSlices env set need (s :: rest) prev accepted)
      (takeUsable set passes need accepted (s :: tried)) := by
  rw [selectSlices]
  by_cases room : accepted.length < need
  · rw [if_pos room, if_neg fresh]
    by_cases sized : s.dataLen = set.blockSize
    · rw [if_neg (not_not.mpr sized)]
      apply (steady s).bind
      cases passed : passes s with
      | true =>
        rw [takeUsable_take (by simp [usable, sized, passed]) room]
        exact later (accepted ++ [s.accept])
      | false =>
        rw [takeUsable_skip (by simp [usable, passed])]
        exact later accepted
    · rw [if_pos sized, takeUsable_skip (by simp [usable, sized])]
      exact later accepted
  · rw [if_neg room, takeUsable_full room]
    exact answers_pure accepted

theorem selectSlices_after (steady : Steady env disk passes) (slices : List Par2Slice)
    (last : Par2Slice) (accepted : List AcceptedSlice) :
    Answers (fun w => w.disk = disk)
      (selectSlices env set need slices (some last.exponent) accepted)
      (takeUsable set passes need accepted (runHeadsFrom declared last slices).tail) := by
  induction slices generalizing last accepted with
  | nil =>
    change Answers _ (pure accepted) (takeUsable set passes need accepted [])
    rw [takeUsable_nil]
    exact answers_pure accepted
  | cons s rest ih =>
    by_cases same : last.declared = s.declared
    · rw [runHeadsFrom_of_eq same, selectSlices]
      have skips : some last.exponent = some s.exponent := by rw [declared_eq_iff.mp same]
      by_cases room : accepted.length < need
      · rw [if_pos room, if_pos skips]
        exact ih last accepted
      · rw [if_neg room, takeUsable_full room]
        exact answers_pure accepted
    · rw [runHeadsFrom_of_ne same, tail_cons, runHeadsFrom_eq_cons]
      refine selectSlices_try steady ?_ (ih s)
      intro equal
      exact same (declared_eq_iff.mpr (Option.some.inj equal))

def tried (slices : List Par2Slice) : List Par2Slice :=
  runHeads declared slices

theorem selectSlices_answers (steady : Steady env disk passes) (slices : List Par2Slice) :
    Answers (fun w => w.disk = disk) (selectSlices env set need slices none [])
      ((((tried slices).filter (usable set passes)).take need).map accept) := by
  cases slices with
  | nil =>
    have nothing : ((tried []).filter (usable set passes)).take need = [] := by
      simp [tried, runHeads]
    rw [nothing]
    exact answers_pure []
  | cons s rest =>
    have after := @selectSlices_try s env [] set disk passes need steady rest _ none (by simp)
      (selectSlices_after steady rest s)
    rwa [takeUsable, nil_append, length_nil, Nat.sub_zero, ← runHeadsFrom_eq_cons] at after

end Loop

section Count

variable {set : Par2Set} {passes : Par2Slice → Bool}

variable (set passes) in
def usableExponents : Finset (BitVec 32) :=
  ((set.slices.filter (usable set passes)).map exponent).toFinset

variable (set passes) in
def firstUsableExponents : Finset (BitVec 32) :=
  (usableExponents set passes).filter fun e =>
    (set.slices.find? (·.exponent = e)).any (usable set passes) = true

def Sorted (slices : List Par2Slice) : Prop :=
  slices.Pairwise fun s t => s.declared ≤ t.declared

instance (slices : List Par2Slice) : Decidable (Sorted slices) :=
  inferInstanceAs (Decidable (slices.Pairwise _))

theorem mem_tried {slices : List Par2Slice} (sorted : Sorted slices) :
    s ∈ tried slices ↔ slices.find? (·.exponent = s.exponent) = some s := by
  rw [tried, mem_runHeads sorted]
  simp only [declared_eq_iff]

theorem mem_firstUsableExponents (sorted : Sorted set.slices) {e : BitVec 32} :
    e ∈ firstUsableExponents set passes ↔
      ∃ s ∈ (tried set.slices).filter (usable set passes), s.exponent = e := by
  constructor
  · intro member
    obtain ⟨-, first⟩ := Finset.mem_filter.mp member
    obtain ⟨s, found, good⟩ := (Option.any_eq_true _ _).mp first
    have same : s.exponent = e := by simpa using find?_some found
    refine ⟨s, mem_filter.mpr ⟨(mem_tried sorted).mpr ?_, good⟩, same⟩
    rwa [same]
  · rintro ⟨s, member, rfl⟩
    obtain ⟨isTried, good⟩ := mem_filter.mp member
    have found := (mem_tried sorted).mp isTried
    refine Finset.mem_filter.mpr ⟨?_, ?_⟩
    · have usable := mem_filter.mpr ⟨mem_of_find?_eq_some found, good⟩
      exact mem_toFinset.mpr (mem_map_of_mem usable)
    · rw [found]
      exact good

theorem length_tried_usable (sorted : Sorted set.slices) :
    ((tried set.slices).filter (usable set passes)).length =
      (firstUsableExponents set passes).card := by
  have distinct : (((tried set.slices).filter (usable set passes)).map
      exponent).Nodup := by
    rw [List.Nodup, pairwise_map]
    refine ((runHeads_ascend sorted).filter _).imp fun below => ?_
    intro same
    exact below.ne (declared_eq_iff.mpr same)
  have exponents : (((tried set.slices).filter (usable set passes)).map
      exponent).toFinset = firstUsableExponents set passes := by
    ext e
    rw [mem_toFinset, mem_map, mem_firstUsableExponents sorted]
  rw [← exponents, toFinset_card_of_nodup distinct, length_map]

end Count

def ReportsShortage (message : String) : Prop :=
  message.toList.take 18 = "PAR2 repair: need ".toList

instance (message : String) : Decidable (ReportsShortage message) :=
  inferInstanceAs (Decidable (_ = _))

section Report

variable {set : Par2Set} {w w' : World} {message : String}

theorem allocate_fails (fails : Fails (allocate env) w message w') :
    message = "PAR2 repair: out of memory" := by
  rcases fails_bind.mp fails with impossible | ⟨ok, t, -, rest⟩
  · cases impossible
  · cases ok with
    | true => exact absurd rest fails_pure
    | false => exact (fails_throw.mp rest).1.symm

theorem allocate_bind_fails {α : Type} {next : Unit → RepairM α}
    (fails : Fails (allocate env >>= next) w message w') (shortage : ReportsShortage message) :
    ∃ t, t.disk = w.disk ∧ Fails (next ()) t message w' := by
  rcases fails_bind.mp fails with failed | ⟨_, t, allocated, rest⟩
  · rw [allocate_fails failed] at shortage
    exact absurd shortage (by decide)
  · exact ⟨t, quiet_allocate.keeps allocated, rest⟩

theorem not_reportsShortage_append {text : String} (rest : String)
    (other : text.toList.take 18 ≠ "PAR2 repair: need ".toList) (long : 18 ≤ text.toList.length) :
    ¬ReportsShortage (text ++ rest) := by
  rw [ReportsShortage, String.toList_append, take_append_of_le_length long]
  exact other

def missingCount (set : Par2Set) (present : ℕ → Bool) : ℕ :=
  ((List.range set.sourceBlockCount.toNat).filter fun i => !present i).length

theorem planRepair_shortage {present : ℕ → Bool}
    (total : ∀ t, t.disk = w.disk → ∃ accepted t', Returns
      (selectSlices env set (missingCount set present) set.slices none []) t accepted t')
    (fails : Fails (planRepair env set present) w message w')
    (shortage : ReportsShortage message) :
    ∃ t accepted t', t.disk = w.disk ∧ Returns
      (selectSlices env set (missingCount set present) set.slices none []) t accepted t' ∧
      accepted.length < missingCount set present := by
  unfold planRepair at fails
  obtain ⟨t₁, same₁, fails⟩ := allocate_bind_fails fails shortage
  split at fails
  · rw [← (fails_throw.mp fails).1, String.append_assoc] at shortage
    exact absurd shortage (not_reportsShortage_append _ (by decide) (by decide))
  obtain ⟨t₂, same₂, fails⟩ := allocate_bind_fails fails shortage
  obtain ⟨t₃, same₃, fails⟩ := allocate_bind_fails fails shortage
  dsimp only at fails
  split at fails
  · exact absurd fails fails_pure
  obtain ⟨t₄, same₄, fails⟩ := allocate_bind_fails fails shortage
  have same : t₄.disk = w.disk := by rw [same₄, same₃, same₂, same₁]
  rcases fails_bind.mp fails with failed | ⟨accepted, t₅, selected, rest⟩
  · obtain ⟨accepted, t₅, selected⟩ := total t₄ same
    exact absurd failed selected.not_fails
  refine ⟨t₄, accepted, t₅, same, selected, ?_⟩
  by_contra enough
  rw [missingCount] at enough
  rw [if_neg enough] at rest
  obtain ⟨t₆, -, rest⟩ := allocate_bind_fails rest shortage
  obtain ⟨t₇, -, rest⟩ := allocate_bind_fails rest shortage
  obtain ⟨t₈, -, rest⟩ := allocate_bind_fails rest shortage
  obtain ⟨t₉, -, rest⟩ := allocate_bind_fails rest shortage
  rcases fails_bind.mp rest with impossible | ⟨callocOk, t, -, last⟩
  · cases impossible
  · split at last
    · rw [← (fails_throw.mp last).1] at shortage
      exact absurd shortage (by decide)
    · exact absurd last fails_pure

end Report

section Selection

variable {set : Par2Set} {disk : String → Option Bytes} {passes : Par2Slice → Bool}

def Takes (env : Env) (set : Par2Set) (disk : String → Option Bytes) (need count : ℕ) : Prop :=
  ∀ w, w.disk = disk → ∃ accepted w',
    Returns (selectSlices env set need set.slices none []) w accepted w' ∧
      accepted.length = count

def ReportsBeyond (env : Env) (set : Par2Set) (disk : String → Option Bytes) (need count : ℕ) :
    Prop :=
  ∀ present w message w', w.disk = disk → missingCount set present = need →
    Fails (planRepair env set present) w message w' → ReportsShortage message → count < need

theorem takes_firstUsable (steady : Steady env disk passes) (sorted : Sorted set.slices)
    (need : ℕ) : Takes env set disk need (min need (firstUsableExponents set passes).card) := by
  intro w here
  obtain ⟨w', returns, -⟩ := selectSlices_answers steady set.slices w here
  refine ⟨_, w', returns, ?_⟩
  rw [length_map, length_take, length_tried_usable sorted]

theorem allFirstUsable_iff : (∀ s ∈ set.slices, usable set passes s →
    (set.slices.find? (·.exponent = s.exponent)).any (usable set passes) = true) ↔
      (firstUsableExponents set passes).card = (usableExponents set passes).card := by
  rw [firstUsableExponents, Finset.card_filter_eq_iff]
  constructor
  · intro all e member
    obtain ⟨s, isUsable, rfl⟩ := mem_map.mp (mem_toFinset.mp member)
    obtain ⟨inSet, good⟩ := mem_filter.mp isUsable
    exact all s inSet good
  · intro all s inSet good
    exact all s.exponent
      (mem_toFinset.mpr (mem_map_of_mem (mem_filter.mpr ⟨inSet, good⟩)))

/-- The loop takes as many slices as there are usable exponents, up to the number needed,
and a shortage is reported only if there are too few of them, exactly if every usable
exponent has a usable first slice or enough of them have. -/
theorem selection_uses_every_exponent_iff (steady : Steady env disk passes)
    (sorted : Sorted set.slices) (need : ℕ) :
    (Takes env set disk need (min need (usableExponents set passes).card) ∧
      ReportsBeyond env set disk need (usableExponents set passes).card) ↔
    (∀ s ∈ set.slices, usable set passes s = true →
      (set.slices.find? (·.exponent = s.exponent)).any (usable set passes) = true) ∨
      need ≤ (firstUsableExponents set passes).card := by
  have fewer : (firstUsableExponents set passes).card ≤ (usableExponents set passes).card :=
    Finset.card_le_card (Finset.filter_subset _ _)
  rw [allFirstUsable_iff]
  constructor
  · rintro ⟨takes, -⟩
    obtain ⟨accepted, w', returns, length⟩ := takes ⟨disk, 0⟩ rfl
    obtain ⟨accepted', w'', returns', length'⟩ :=
      takes_firstUsable steady sorted need ⟨disk, 0⟩ rfl
    rw [(returns.unique returns').1, length'] at length
    omega
  · intro enough
    have same : min need (firstUsableExponents set passes).card =
        min need (usableExponents set passes).card := by omega
    have takes := takes_firstUsable steady sorted need
    rw [same] at takes
    refine ⟨takes, ?_⟩
    rintro present w message w' here rfl fails shortage
    obtain ⟨t, accepted, t', same, returns, short⟩ := planRepair_shortage
      (fun t unchanged => (takes t (unchanged.trans here)).imp fun accepted taken =>
        taken.imp fun t' both => both.1) fails shortage
    obtain ⟨accepted', t'', returns', length⟩ := takes t (same.trans here)
    rw [(returns.unique returns').1, length] at short
    omega

end Selection

def sliceIntact (env : Env) (disk : String → Option Bytes) (s : Par2Slice) : Bool :=
  (disk s.path).any fun content =>
    let body := readAt content (s.dataOffset - 4) (4 + s.dataLen).toNat
    body.length = (4 + s.dataLen).toNat ∧ env.md5 (s.headerTail ++ body) = s.hash

theorem steady_of_no_failure (smooth : ∀ n, env.fails n = false) (disk : String → Option Bytes) :
    Steady env disk (sliceIntact env disk) := by
  intro s
  have answers := @answers_withFile env disk smooth Bool s.path false false fun content =>
    let body := readAt content (s.dataOffset - 4) (4 + s.dataLen).toNat
    body.length = (4 + s.dataLen).toNat ∧ env.md5 (s.headerTail ++ body) = s.hash
  unfold sliceIntact
  cases found : disk s.path with
  | none =>
    rw [found] at answers
    exact answers
  | some content =>
    rw [found] at answers
    exact answers

def smoothEnv : Env :=
  withoutFailure fun _ => 0

def oneVolume : String → Option Bytes
  | "show.vol.par2" => some (List.replicate 8 0)
  | _ => none

def sliceOfVolume (exponent : BitVec 32) (hash : Digest) : Par2Slice :=
  ⟨"show.vol.par2", 4, 4, exponent, hash, []⟩

def oneBlock (slices : List Par2Slice) : Par2Set :=
  ⟨4, [], slices, 1⟩

theorem selection_uses_every_exponent_two :
    Takes smoothEnv (oneBlock [sliceOfVolume 0 1, sliceOfVolume 3 0]) oneVolume 1
      (min 1 (usableExponents (oneBlock [sliceOfVolume 0 1, sliceOfVolume 3 0])
        (sliceIntact smoothEnv oneVolume)).card) ∧
    ReportsBeyond smoothEnv (oneBlock [sliceOfVolume 0 1, sliceOfVolume 3 0]) oneVolume 1
      (usableExponents (oneBlock [sliceOfVolume 0 1, sliceOfVolume 3 0])
        (sliceIntact smoothEnv oneVolume)).card :=
  (selection_uses_every_exponent_iff (steady_of_no_failure (fun _ => rfl) oneVolume)
    (by decide) 1).mpr (.inl (by decide +kernel))

theorem assignBases_one : assignBases 1 0 = some [gAntilog 1] := by
  have first : gf16NextBase 0 = some (gAntilog 1, 2) :=
    gf16NextBase_eq (by decide) (by decide) (by decide) (by decide)
  simp only [assignBases, first, Option.bind_eq_bind, Option.bind_some, Option.pure_def]

/-- A damaged slice and a good one with the same exponent: none is taken for the missing
block, and repair reports that one is wanting. -/
theorem damaged_copy_hides_good :
    usableExponents (oneBlock [sliceOfVolume 0 1, sliceOfVolume 0 0])
      (sliceIntact smoothEnv oneVolume) = {0} ∧
    (∃ w', Returns (selectSlices smoothEnv (oneBlock [sliceOfVolume 0 1, sliceOfVolume 0 0]) 1
      [sliceOfVolume 0 1, sliceOfVolume 0 0] none []) ⟨oneVolume, 0⟩ [] w') ∧
    ∃ w', Fails (planRepair smoothEnv (oneBlock [sliceOfVolume 0 1, sliceOfVolume 0 0])
      fun _ => false) ⟨oneVolume, 0⟩
        "PAR2 repair: need 1 more recovery block(s) (have 0 usable, need 1)" w' := by
  refine ⟨by decide +kernel, ⟨_, rfl⟩, ?_⟩
  unfold planRepair
  dsimp only
  rw [show (oneBlock [sliceOfVolume 0 1, sliceOfVolume 0 0]).sourceBlockCount.toNat = 1 from rfl,
    assignBases_one]
  exact ⟨_, rfl⟩

end NzbDownloader.Par2
