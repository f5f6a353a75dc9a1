import NzbDownloader.Extract.Archive
import NzbDownloader.Storage.Rmdir

/-!
# Where extraction may write

`is_safe_relpath` looks at the path of one entry; where the entry lands depends on the links
that earlier entries have made.
-/

namespace NzbDownloader.Extract

open Util Storage Lib LinkTree Transition List Option

variable {root dir path : Path} {tree : Tree} {names : List Name} {cwd : Path} {kind : EntryKind}
  {node : Node Name} {change : Change} {changes : List Change} {parts : List Name}
  {writer : DiskWriter} {dest : Destination} {e : Extraction}

def Effect.Inside (root : Path) (tree : Tree) : Effect → Prop
  | .name path => root <+: path
  | .object path => root <+: path ∧ ∀ inode path', tree.get path = some (.file inode) →
      tree.get path' = some (.file inode) → root <+: path'

/-- A symbolic link does not lead out of the destination from the directory it lands
in; a hard link is to an object that may be in that directory. -/
def LinkCareful (root cwd : Path) (tree : Tree) (dir : Path) : EntryKind → Prop
  | .symlink target => Fits root dir (parseTarget target)
  | .hardlink target => ∀ node, Names cwd tree (parseTarget target) node →
      Admitted root tree dir node
  | _ => True

/-- The links that the next entry makes are careful where and when they are made. -/
def EntryCareful (writer : DiskWriter) (dest : Destination) (cwd : Path) (e : Extraction) :
    ExtractAct → Prop
  | .entry entry _ _ => ∀ pathname, entry.pathname = some pathname →
      let header := writer.header e.seen e.tree (fullPath dest pathname) entry.kind
      EachChange (fun tree change =>
        LinkCareful dest.dir cwd tree change.path.dropLast entry.kind)
        (header.before e.tree) header.own
  | .close => True

theorem EachChange.invariant {I : Tree → Prop} {P : Tree → Change → Prop} {Q : Change → Prop}
    (each : EachChange P tree changes)
    (preserved : ∀ tree change, I tree → P tree change → I (change.apply tree) ∧ Q change)
    (initially : I tree) : I (changes.foldl Change.apply tree) ∧ ∀ change ∈ changes, Q change := by
  induction changes generalizing tree with
  | nil => exact ⟨initially, by simp⟩
  | cons change rest ih =>
    obtain ⟨here, later⟩ := each
    obtain ⟨kept, holds⟩ := preserved tree change initially here
    obtain ⟨final, hold⟩ := ih later kept
    refine ⟨final, fun other member => ?_⟩
    rcases mem_cons.mp member with rfl | after
    · exact holds
    · exact hold other after

theorem EachChange.and {P Q : Tree → Change → Prop} (first : EachChange P tree changes)
    (second : EachChange Q tree changes) :
    EachChange (fun tree change => P tree change ∧ Q tree change) tree changes := by
  induction changes generalizing tree with
  | nil => trivial
  | cons change rest ih => exact ⟨⟨first.1, second.1⟩, ih first.2 second.2⟩

/-- A component of the path beyond the destination lands in the destination. -/
theorem Leads.within (confined : Confined root tree) (leads : Leads tree names path)
    (below : root <+: names) : root <+: path := by
  obtain ⟨init, n, fuel, dir, rfl, resolved, rfl⟩ := leads
  rcases prefix_concat_iff.mp below with rfl | inside
  · -- The destination itself: the directories above it are none of the archive's links.
    rw [resolve_dirs (confined.dirs (prefix_refl _))] at resolved
    cases resolved
    exact prefix_refl _
  · obtain ⟨more, rfl⟩ := inside
    exact (resolve_top_within confined resolved).trans (prefix_append _ _)

theorem Change.apply_confined (confined : Confined root tree) (below : root <+: change.path)
    (nonempty : change.path ≠ [])
    (admitted : ∀ node ∈ change.node, Admitted root tree change.path.dropLast node) :
    Confined root (change.apply tree) := by
  unfold Change.apply
  split
  · exact confined.remove below
  · rename_i node isNode
    rw [← dropLast_append_getLast nonempty] at below ⊢
    exact confined.put below (admitted node isNode)

theorem Leads.ne_nil (leads : Leads tree names path) : path ≠ [] := by
  obtain ⟨_, _, _, _, _, _, rfl⟩ := leads
  simp

theorem makesParent_confined (inside : root <+: names) (confined : Confined root tree)
    (makes : MakesParent names tree change) :
    Confined root (change.apply tree) ∧ root <+: change.path := by
  obtain ⟨first, shorter, -, leads, noDir, onlyDir⟩ := makes
  have beyond : root <+: first := by
    rcases prefix_or_prefix_of_prefix inside shorter with beyond | upper
    · exact beyond
    by_cases same : first = root
    · rw [same]
    -- Above the destination there are directories, and these are left alone.
    obtain ⟨init, n, fuel, dir, rfl, resolved, isPath⟩ := leads
    rw [resolve_dirs (confined.dirs upper)] at resolved
    cases resolved
    exact absurd (isPath ▸ confined.above upper same) noDir
  have below := leads.within confined beyond
  refine ⟨Change.apply_confined confined below leads.ne_nil fun node isNode => ?_, below⟩
  rw [onlyDir node isNode]
  trivial

theorem LinkCareful.admitted (careful : LinkCareful root cwd tree dir kind)
    (given : AsGiven cwd tree node kind) : Admitted root tree dir node := by
  cases kind with
  | regular =>
    obtain ⟨inode, rfl, new⟩ := given
    exact fun path found => absurd found (new path)
  | directory =>
    cases given
    trivial
  | symlink target =>
    cases given
    exact careful
  | hardlink target => exact careful node given

theorem inside_object (confined : Confined root tree) (inside : root <+: path) :
    (Effect.object path).Inside root tree :=
  ⟨inside, fun _ _ found found' => confined.inodes found found' inside⟩

theorem chmodEffect_inside (maxLinks : ℕ) (confined : Confined root tree) :
    ∀ effect ∈ chmodEffect maxLinks tree (root ++ parts), effect.Inside root tree := by
  intro effect member
  simp only [chmodEffect, mem_toList, map_eq_some_iff] at member
  obtain ⟨there, resolved, rfl⟩ := member
  exact inside_object confined (resolve_top_within confined resolved)

theorem objectEffect_inside (confined : Confined root tree) (inside : root <+: path) :
    ∀ effect ∈ objectEffect tree path, effect.Inside root tree := by
  intro effect member
  unfold objectEffect at member
  split at member
  · rw [mem_singleton] at member
    subst member
    exact inside_object confined inside
  · cases member

/-- The tree stays confined and nothing outside the destination was touched. -/
structure Extraction.Contained (root : Path) (e : Extraction) : Prop where
  confined : Confined root e.tree
  effects : ∀ effect ∈ e.effects, effect.Inside root e.tree
  paths : ∀ names ∈ e.paths, root <+: names

theorem header_confined (follows : writer.FollowsLinks cwd) {k : ℕ} (inside : root <+: names)
    (confined : Confined root tree)
    (careful : EachChange (fun tree change => LinkCareful root cwd tree change.path.dropLast kind)
      ((writer.header k tree names kind).before tree) (writer.header k tree names kind).own) :
    Confined root ((writer.header k tree names kind).after tree) ∧
      (∀ effect ∈ (writer.header k tree names kind).effects,
        effect.Inside root ((writer.header k tree names kind).after tree)) ∧
      ∀ path ∈ (writer.header k tree names kind).object, root <+: path := by
  obtain ⟨before, above⟩ := (follows.parents k tree names kind).invariant
    (fun _ _ confined makes => makesParent_confined inside confined makes) confined
  obtain ⟨after, here⟩ := ((follows.own k tree names kind).and careful).invariant
    (I := Confined root) (Q := fun change => root <+: change.path) (by
      rintro tree change confined ⟨⟨leads, given⟩, linkCareful⟩
      have below := leads.within confined inside
      exact ⟨Change.apply_confined confined below leads.ne_nil fun node isNode =>
        linkCareful.admitted (given node isNode), below⟩) before
  refine ⟨after, fun effect member => ?_, fun path isObject =>
    (follows.object k tree names kind path isObject).within before inside⟩
  obtain ⟨change, isChange, rfl⟩ := mem_map.mp member
  rcases mem_append.mp isChange with early | late
  · exact above change early
  · exact here change late

theorem extractStep_contained {e' : Extraction} {act : ExtractAct}
    (follows : writer.FollowsLinks cwd) (contained : e.Contained dest.dir)
    (careful : EntryCareful writer dest cwd e act)
    (does : extractStep writer dest e act = some e') : e'.Contained dest.dir := by
  cases act with
  | close =>
    cases does
    refine ⟨contained.confined, fun effect member => ?_, contained.paths⟩
    obtain ⟨path, closed, rfl⟩ := mem_map.mp member
    obtain ⟨names, isEntry, -, fuel, resolved⟩ := follows.close e.tree e.paths path closed
    obtain ⟨parts, rfl⟩ := contained.paths names isEntry
    exact inside_object contained.confined (resolve_top_within contained.confined resolved)
  | entry entry copies maxLinks =>
    unfold extractStep at does
    dsimp only at does
    split at does
    · contradiction
    split at does
    · cases does
      exact ⟨contained.confined, by simp, contained.paths⟩
    rename_i safePath
    obtain ⟨pathname, isPath⟩ : ∃ pathname, entry.pathname = some pathname := by
      cases isPath : entry.pathname with
      | none => simp [isPath, isSafeRelpath] at safePath
      | some pathname => exact ⟨pathname, rfl⟩
    rw [isPath, getD_some] at does
    have inside : dest.dir <+: fullPath dest pathname := prefix_append _ _
    obtain ⟨confined, touched, objects⟩ :=
      header_confined follows inside contained.confined (careful pathname isPath)
    generalize writer.header e.seen e.tree (fullPath dest pathname) entry.kind = header at *
    have paths : ∀ names ∈ fullPath dest pathname :: e.paths, dest.dir <+: names := by
      rintro names (_ | ⟨_, earlier⟩)
      · exact inside
      · exact contained.paths names earlier
    split at does
    · cases does
      exact ⟨confined, touched, paths⟩
    rename_i path isObject
    have wrote : ∀ effect ∈ objectEffect (header.after e.tree) path ++ header.effects,
        effect.Inside dest.dir (header.after e.tree) := by
      intro effect member
      rcases mem_append.mp member with data | name
      · exact objectEffect_inside confined (objects path isObject) effect data
      · exact touched effect name
    split at does
    · cases does
      exact ⟨confined, wrote, paths⟩
    · cases does
      refine ⟨confined, fun effect member => ?_, paths⟩
      rcases mem_append.mp member with mode | earlier
      · exact chmodEffect_inside maxLinks confined effect mode
      · exact wrote effect earlier

theorem contained_of_reachable (follows : writer.FollowsLinks cwd)
    (confined : Confined dest.dir tree)
    (run : Reachable (extractStep writer dest) (EntryCareful writer dest cwd) (.start tree) e) :
    e.Contained dest.dir := by
  refine run.invariant ⟨confined, by simp [Extraction.start], by simp [Extraction.start]⟩ ?_
  exact fun _ _ _ contained careful does => extractStep_contained follows contained careful does

/-- As long as the links of an archive do not lead out of the destination from where
they land, no entry touches anything outside, whatever came before it. -/
theorem extraction_contained {writer : DiskWriter} {dest : Destination} {e : Extraction}
    (follows : writer.FollowsLinks cwd) (confined : Confined dest.dir tree)
    (run : Reachable (extractStep writer dest) (EntryCareful writer dest cwd) (.start tree) e) :
    Confined dest.dir e.tree ∧ ∀ effect ∈ e.effects, effect.Inside dest.dir e.tree := by
  have contained := contained_of_reachable follows confined run
  exact ⟨contained.confined, contained.effects⟩

/-- Deleting the destination after such an extraction removes nothing outside it, although
`rmdir_recursive` follows links. -/
theorem rmdirRecursive_of_extraction (follows : writer.FollowsLinks cwd)
    (confined : Confined dest.dir tree)
    (run : Reachable (extractStep writer dest) (EntryCareful writer dest cwd) (.start tree) e)
    {maxLinks : ℕ} (named : entryAt maxLinks e.tree dest.dir = some dest.dir)
    (isDir : e.tree.get dest.dir = some .dir) (rooted : Rooted e.tree) (env : RmdirEnv) (fuel : ℕ) :
    ∀ deletion ∈ (rmdirRecursive maxLinks env fuel dest.dir ⟨e.tree, []⟩).2.deleted,
      dest.dir <+: deletion.location :=
  rmdirRecursive_inside named isDir rooted (contained_of_reachable follows confined run).confined

section Examples

theorem confined_of_dirs (dirs : ∀ entry ∈ tree.nodes, entry.2 = Node.dir)
    (above : ∀ path ∈ root.inits, path ≠ root → tree.get path = some .dir) :
    Confined root tree := by
  have isDir : ∀ {path node}, tree.get path = some node → node = Node.dir :=
    fun found => dirs _ (mem_nodes_of_get found)
  constructor
  · intro path shorter different
    exact above path ((mem_inits _ _).mpr shorter) different
  · intro dir n target _ found
    cases isDir found
  · intro path path' inode found
    cases isDir found

def filmDest : Destination where
  dir := ["data".toList, "film".toList]
  room := 1000

def emptyTree : Tree :=
  ⟨[[], ["data".toList], ["data".toList, "film".toList], ["home".toList]].map (·, Node.dir)⟩

theorem emptyTree_confined : Confined filmDest.dir emptyTree := by
  apply confined_of_dirs <;> decide

def plainNode (tree : Tree) : EntryKind → Option (Node Name)
  | .regular => some (.file tree.freshInode)
  | .directory => some .dir
  | .symlink target => some (.link (parseTarget target))
  | .hardlink _ => none

/-- Where the path of the entry leads, links followed, if nothing is there yet. -/
def vacancy (tree : Tree) (names : List Name) : Option Path :=
  (entryAt 32 tree names).filter fun path => tree.get path = none

/-- A writer that makes no directories on the way and replaces nothing. -/
def plainWriter : DiskWriter where
  header _ tree names kind :=
    match vacancy tree names, plainNode tree kind with
    | some path, some node =>
        if ['.', '.'] ∈ names then ⟨[], [], none⟩
        else ⟨[], [⟨path, some node⟩], some path⟩
    | _, _ => ⟨[], [], none⟩
  close _ _ := []

theorem vacancy_leads (free : vacancy tree names = some path) : Leads tree names path := by
  obtain ⟨named, -⟩ := filter_eq_some_iff.mp free
  obtain ⟨dir, resolved, last⟩ := bind_eq_some_iff.mp named
  obtain ⟨n, isLast, rfl⟩ := map_eq_some_iff.mp last
  refine ⟨names.dropLast, n, 32, dir, ?_, resolved, rfl⟩
  exact (dropLast_append_getLast? n isLast).symm

theorem plainNode_asGiven (given : plainNode tree kind = some node) : AsGiven cwd tree node kind := by
  cases kind with
  | regular =>
    cases given
    exact ⟨_, rfl, fun path found => absurd (lt_freshInode found) (Nat.lt_irrefl _)⟩
  | directory =>
    cases given
    rfl
  | symlink target =>
    cases given
    rfl
  | hardlink target => contradiction

theorem plainWriter_follows : plainWriter.FollowsLinks cwd where
  noDotDot k tree names kind dots := by
    simp only [plainWriter, dots, if_true]
    split <;> rfl
  parents k tree names kind := by
    simp only [plainWriter]
    split
    · split <;> trivial
    · trivial
  own k tree names kind := by
    simp only [plainWriter]
    split
    · rename_i path node free given
      split
      · trivial
      · refine ⟨⟨vacancy_leads free, fun node' isNode => ?_⟩, trivial⟩
        cases isNode
        exact plainNode_asGiven given
    · trivial
  object k tree names kind path isObject := by
    simp only [plainWriter] at isObject ⊢
    split at isObject
    · rename_i free _
      split at isObject
      · contradiction
      · cases isObject
        simp only [*]
        exact vacancy_leads free
    · contradiction
  close _ _ _ closed := nomatch closed

def entryOf (pathname : String) (kind : EntryKind) : ExtractAct :=
  .entry ⟨some pathname.toList, kind, kind = .regular⟩ true 32

/-- The link `extras` leads to `/home`, and the file `extras/autorun` is made there. -/
theorem symlink_escapes : ∃ (writer : DiskWriter) (dest : Destination) (cwd : Path) (tree : Tree)
    (e : Extraction) (effect : Effect), writer.FollowsLinks cwd ∧ Confined dest.dir tree ∧
    Reachable (extractStep writer dest) Anything (.start tree) e ∧ effect ∈ e.effects ∧
    ¬effect.Inside dest.dir e.tree := by
  let escaped : Effect := .name ["home".toList, "autorun".toList]
  have runs : (replay (extractStep plainWriter filmDest) (fun _ _ => true) (.start emptyTree)
      [entryOf "extras" (.symlink "/home".toList), entryOf "extras/autorun" .regular]).any
        (fun e => escaped ∈ e.effects) = true := by
    decide +kernel
  obtain ⟨e, run, member⟩ : ∃ e, Reachable (extractStep plainWriter filmDest) Anything
      (.start emptyTree) e ∧ decide (escaped ∈ e.effects) = true :=
    exists_reachable (fun _ _ _ => trivial) runs
  refine ⟨plainWriter, filmDest, [], emptyTree, e, escaped, plainWriter_follows,
    emptyTree_confined, run, of_decide_eq_true member, ?_⟩
  change ¬filmDest.dir <+: ["home".toList, "autorun".toList]
  decide

def entryTest (e : Extraction) : ExtractAct → Bool
  | .entry ⟨some pathname, .symlink target, _⟩ _ _ =>
      (vacancy e.tree (fullPath filmDest pathname)).all fun path =>
        Fits filmDest.dir path.dropLast (parseTarget target)
  | _ => true

theorem entryTest_careful (e : Extraction) (act : ExtractAct) (passed : entryTest e act = true) :
    EntryCareful plainWriter filmDest cwd e act := by
  match act with
  | .close => trivial
  | .entry ⟨isPath, kind, hasData⟩ copies maxLinks =>
    rintro pathname rfl
    simp only [plainWriter]
    split
    · rename_i path node free given
      split
      · trivial
      refine ⟨?_, trivial⟩
      cases kind with
      | regular | directory => trivial
      | symlink target =>
        have fits : Fits filmDest.dir path.dropLast (parseTarget target) := by
          simpa [entryTest, free] using passed
        exact fits
      | hardlink target => contradiction
    · trivial

/-- A link to a directory of the archive, and a file that goes through it. -/
theorem extraction_contained_versions : ∃ e,
    Reachable (extractStep plainWriter filmDest) (EntryCareful plainWriter filmDest [])
      (.start emptyTree) e ∧
    .name ["data".toList, "film".toList, "v1".toList, "notes".toList] ∈ e.effects ∧
    Confined filmDest.dir e.tree ∧ ∀ effect ∈ e.effects, effect.Inside filmDest.dir e.tree := by
  let landed : Effect := .name ["data".toList, "film".toList, "v1".toList, "notes".toList]
  have runs : (replay (extractStep plainWriter filmDest) entryTest (.start emptyTree)
      [entryOf "v1" .directory, entryOf "current" (.symlink "v1".toList),
        entryOf "current/notes" .regular]).any (fun e => landed ∈ e.effects) = true := by
    decide +kernel
  obtain ⟨e, run, member⟩ := exists_reachable entryTest_careful runs
  exact ⟨e, run, of_decide_eq_true member,
    extraction_contained plainWriter_follows emptyTree_confined run⟩

theorem rmdirRecursive_of_versions : ∃ e,
    Reachable (extractStep plainWriter filmDest) (EntryCareful plainWriter filmDest [])
      (.start emptyTree) e ∧
    ∀ env fuel, ∀ deletion ∈ (rmdirRecursive 32 env fuel filmDest.dir ⟨e.tree, []⟩).2.deleted,
      filmDest.dir <+: deletion.location := by
  have runs : (replay (extractStep plainWriter filmDest) entryTest (.start emptyTree)
      [entryOf "v1" .directory, entryOf "current" (.symlink "v1".toList), .close]).any
        (fun e => entryAt 32 e.tree filmDest.dir = some filmDest.dir ∧
          e.tree.get filmDest.dir = some .dir ∧
          ∀ entry ∈ e.tree.nodes,
            entry.1 = [] ∨ e.tree.get entry.1.dropLast = some .dir) = true := by
    decide +kernel
  obtain ⟨e, run, ends⟩ := exists_reachable entryTest_careful runs
  obtain ⟨named, isDir, parents⟩ := of_decide_eq_true ends
  exact ⟨e, run, rmdirRecursive_of_extraction plainWriter_follows emptyTree_confined run named
    isDir (rooted_of_nodes parents)⟩

end Examples

end NzbDownloader.Extract
