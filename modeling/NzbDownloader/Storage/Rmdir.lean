import NzbDownloader.Lib.LinkTree
import NzbDownloader.Storage.Layout

/-!
# `rmdir_recursive` and symbolic links

The function decides with `stat`, which follows links, whether an entry is a directory, and
opens what it finds with `opendir`, which follows them too.
-/

namespace NzbDownloader.Storage

open Util Lib List Option LinkTree

/-- What the system answers to the calls for each path; `true` leaves it to the tree. -/
structure RmdirEnv where
  stat : Path → Bool
  opendir : Path → Bool
  remove : Path → Bool
  rmdir : Path → Bool
  missing : Path → Bool

structure Deletion where
  written : Path
  location : Path
  deriving DecidableEq, Repr

structure RmdirState where
  tree : LinkTree Name
  deleted : List Deletion
  deriving DecidableEq, Repr

section Model

-- How many links the resolution of one path follows.
variable (maxLinks : ℕ)

def follow (tree : LinkTree Name) (path : Path) : Option Path :=
  tree.resolve maxLinks [] (path.map .name)

def entryAt (tree : LinkTree Name) (path : Path) : Option Path :=
  (follow maxLinks tree path.dropLast).bind fun dir => path.getLast?.map fun n => dir ++ [n]

def followDir (tree : LinkTree Name) (path : Path) : Option Path :=
  (follow maxLinks tree path).filter fun dir => tree.get dir = some .dir

variable (env : RmdirEnv)

def statIsDir (tree : LinkTree Name) (path : Path) : Bool :=
  env.stat path && (followDir maxLinks tree path).isSome

def openDir (tree : LinkTree Name) (path : Path) : Option Path :=
  if env.opendir path then followDir maxLinks tree path else none

def RmdirState.delete (s : RmdirState) (written location : Path) : RmdirState :=
  ⟨s.tree.remove location, ⟨written, location⟩ :: s.deleted⟩

def rmdirCall (path : Path) (s : RmdirState) : Bool × RmdirState :=
  match entryAt maxLinks s.tree path with
  | none => (false, s)
  | some location =>
      if env.rmdir path ∧ s.tree.get location = some .dir ∧ s.tree.hasEntries location = false then
        (true, s.delete path location)
      else (false, s)

def removeCall (path : Path) (s : RmdirState) : RmdirState :=
  match entryAt maxLinks s.tree path with
  | none => s
  | some location =>
      match s.tree.get location with
      | none => s
      | some .dir => (rmdirCall maxLinks env path s).2
      | some _ => if env.remove path then s.delete path location else s

def rmdirRecursive : ℕ → Path → RmdirState → ℤ × RmdirState
  | 0, _, s => (-1, s)
  | fuel + 1, path, s =>
      match openDir maxLinks env s.tree path with
      | none => (if env.missing path then 0 else -1, s)
      | some dir =>
          let s := (s.tree.children dir).foldl (fun s n =>
            if statIsDir maxLinks env s.tree (path ++ [n]) then (rmdirRecursive fuel (path ++ [n]) s).2
            else removeCall maxLinks env (path ++ [n]) s) s
          match rmdirCall maxLinks env path s with
          | (true, s) => (0, s)
          | (false, s) => (-1, s)

def clearEntry (fuel : ℕ) (path : Path) (s : RmdirState) (n : Name) : RmdirState :=
  if statIsDir maxLinks env s.tree (path ++ [n]) then
    (rmdirRecursive maxLinks env fuel (path ++ [n]) s).2
  else removeCall maxLinks env (path ++ [n]) s

end Model

variable {tree : LinkTree Name} {maxLinks : ℕ} {path target : Path} {deletion : Deletion}

section Rule

variable {env : RmdirEnv} {smaller : LinkTree Name} {dir location : Path} {n : Name}
  {s : RmdirState}

theorem followDir_eq_some_iff : followDir maxLinks tree path = some dir ↔
    follow maxLinks tree path = some dir ∧ tree.get dir = some .dir := by
  rw [followDir, filter_eq_some_iff, decide_eq_true_eq]

theorem entryAt_concat : entryAt maxLinks tree (path ++ [n]) =
    (follow maxLinks tree path).map fun dir => dir ++ [n] := by
  simp only [entryAt, dropLast_concat, getLast?_concat, map_some]
  cases follow maxLinks tree path <;> rfl

theorem rmdirRecursive_of_opened {fuel : ℕ} (opened : openDir maxLinks env s.tree path = some dir) :
    (rmdirRecursive maxLinks env (fuel + 1) path s).2 =
      (rmdirCall maxLinks env path
        ((s.tree.children dir).foldl (clearEntry maxLinks env fuel path) s)).2 := by
  rw [rmdirRecursive, opened]
  change (match rmdirCall maxLinks env path
    ((s.tree.children dir).foldl (clearEntry maxLinks env fuel path) s) with
    | (true, s) => ((0 : ℤ), s)
    | (false, s) => (-1, s)).2 = _
  split <;> rename_i result <;> rw [result]

theorem follow_concat (isDir : followDir maxLinks tree path = some dir) :
    ∃ left, ∀ names : List Name, follow maxLinks tree (path ++ names) =
      tree.resolve left dir (names.map .name) := by
  obtain ⟨led, found⟩ := followDir_eq_some_iff.mp isDir
  obtain ⟨left, -, eq⟩ := resolve_append led found
  exact ⟨left, fun names => by rw [follow, map_append, eq]⟩

structure Smaller (maxLinks : ℕ) (smaller tree : LinkTree Name) : Prop where
  get : ∀ {path node}, smaller.get path = some node → tree.get path = some node
  follow : ∀ {path location}, follow maxLinks smaller path = some location →
    follow maxLinks tree path = some location

theorem Smaller.refl (maxLinks : ℕ) (tree : LinkTree Name) : Smaller maxLinks tree tree :=
  ⟨id, id⟩

theorem Smaller.remove (less : Smaller maxLinks smaller tree) (location : Path) :
    Smaller maxLinks (smaller.remove location) tree where
  get := fun found => less.get (get_of_get_remove found)
  follow := fun led => less.follow (resolve_of_resolve_remove led)

theorem Smaller.followDir (less : Smaller maxLinks smaller tree)
    (led : followDir maxLinks smaller path = some dir) :
    followDir maxLinks tree path = some dir := by
  obtain ⟨led, found⟩ := followDir_eq_some_iff.mp led
  exact followDir_eq_some_iff.mpr ⟨less.follow led, less.get found⟩

theorem Smaller.entryAt (less : Smaller maxLinks smaller tree)
    (named : entryAt maxLinks smaller path = some location) :
    entryAt maxLinks tree path = some location := by
  obtain ⟨dir, led, last⟩ := bind_eq_some_iff.mp named
  exact bind_eq_some_iff.mpr ⟨dir, less.follow led, last⟩

structure Tracks (maxLinks : ℕ) (tree : LinkTree Name) (R : Path → Path → Prop) : Prop where
  entry : ∀ {path dir n}, R path dir → R (path ++ [n]) (dir ++ [n])
  enter : ∀ {path dir n dir'}, R path dir → followDir maxLinks tree path = some dir →
    followDir maxLinks tree (path ++ [n]) = some dir' → R (path ++ [n]) dir'

def Preserved (env : RmdirEnv) (R : Path → Path → Prop) (P : RmdirState → Prop) : Prop :=
  ∀ s written location, P s → R written location →
    env.remove written = true ∨ env.rmdir written = true → P (s.delete written location)

variable {R : Path → Path → Prop} {P : RmdirState → Prop}

section

variable (preserved : Preserved env R P) (less : Smaller maxLinks s.tree tree)
  (names : ∀ location, entryAt maxLinks tree path = some location → R path location) (holds : P s)

include preserved less names holds

theorem rmdirCall_rule :
    Smaller maxLinks (rmdirCall maxLinks env path s).2.tree tree ∧
      P (rmdirCall maxLinks env path s).2 := by
  unfold rmdirCall
  split
  · exact ⟨less, holds⟩
  rename_i location named
  split_ifs with permitted
  · exact ⟨less.remove location,
      preserved s _ _ holds (names _ (less.entryAt named)) (.inr permitted.1)⟩
  · exact ⟨less, holds⟩

theorem removeCall_rule :
    Smaller maxLinks (removeCall maxLinks env path s).tree tree ∧
      P (removeCall maxLinks env path s) := by
  unfold removeCall
  split
  · exact ⟨less, holds⟩
  rename_i location named
  split
  · exact ⟨less, holds⟩
  · exact rmdirCall_rule preserved less names holds
  · split_ifs with permitted
    · exact ⟨less.remove location,
        preserved s _ _ holds (names _ (less.entryAt named)) (.inl permitted)⟩
    · exact ⟨less, holds⟩

end

theorem rmdirRecursive_rule (tracks : Tracks maxLinks tree R) (preserved : Preserved env R P)
    (fuel : ℕ) (less : Smaller maxLinks s.tree tree)
    (names : ∀ location, entryAt maxLinks tree path = some location → R path location)
    (enters : ∀ dir, followDir maxLinks tree path = some dir → R path dir) (holds : P s) :
    Smaller maxLinks (rmdirRecursive maxLinks env fuel path s).2.tree tree ∧
      P (rmdirRecursive maxLinks env fuel path s).2 := by
  induction fuel generalizing path s with
  | zero => exact ⟨less, holds⟩
  | succ fuel ih =>
    cases opened : openDir maxLinks env s.tree path with
    | none =>
      rw [rmdirRecursive, opened]
      exact ⟨less, holds⟩
    | some dir =>
      have isDir : followDir maxLinks tree path = some dir :=
        less.followDir (ite_none_right_eq_some.mp opened).2
      have here := enters dir isDir
      have below : ∀ n location, entryAt maxLinks tree (path ++ [n]) = some location →
          R (path ++ [n]) location := by
        intro n location named
        rw [entryAt_concat, (followDir_eq_some_iff.mp isDir).1] at named
        cases named
        exact tracks.entry here
      have loop := List.foldlRecOn (motive := fun s => Smaller maxLinks s.tree tree ∧ P s)
        (s.tree.children dir) (clearEntry maxLinks env fuel path) ⟨less, holds⟩ (by
          rintro s ⟨less, holds⟩ n -
          unfold clearEntry
          split_ifs
          · exact ih less (below n) (fun dir' => tracks.enter here isDir) holds
          · exact removeCall_rule preserved less (below n) holds)
      rw [rmdirRecursive_of_opened opened]
      exact rmdirCall_rule preserved loop.1 names loop.2

end Rule

section Straight

variable {env : RmdirEnv} {root dir : Path} {s : RmdirState} {fuel : ℕ}

/-- The path of the call leads to its place without a link: both are the same way below
`path` and `root`. -/
def Straight (path root written location : Path) : Prop :=
  ∃ names, written = path ++ names ∧ location = root ++ names

def OnlyStraight (maxLinks : ℕ) (tree : LinkTree Name) (path root : Path) : Prop :=
  ∀ env fuel, ∀ deletion ∈ (rmdirRecursive maxLinks env fuel path ⟨tree, []⟩).2.deleted,
    Straight path root deletion.written deletion.location

def NoDirLinks (maxLinks : ℕ) (tree : LinkTree Name) (path root : Path) : Prop :=
  ∀ names target, tree.get (root ++ names) = some (.link target) →
    followDir maxLinks tree (path ++ names) = none

def Rooted (tree : LinkTree Name) : Prop :=
  ∀ dir n, (tree.get (dir ++ [n])).isSome = true → tree.get dir = some .dir

theorem tracks_straight (plain : NoDirLinks maxLinks tree path root) :
    Tracks maxLinks tree (Straight path root) where
  entry := by
    rintro _ _ n ⟨names, rfl, rfl⟩
    exact ⟨names ++ [n], append_assoc .., append_assoc ..⟩
  enter := by
    rintro _ _ n dir' ⟨names, rfl, rfl⟩ isDir entered
    obtain ⟨left, eq⟩ := follow_concat isDir
    have led := (followDir_eq_some_iff.mp entered).1
    rw [eq] at led
    obtain ⟨node, found⟩ := isSome_iff_exists.mp (isSome_of_resolve_name led)
    have noLink : ∀ target, node ≠ .link target := by
      rintro target rfl
      rw [append_assoc] at found entered
      exact absurd entered (by rw [plain _ target found]; exact nofun)
    rw [map_singleton, resolve_name found noLink] at led
    cases led
    exact ⟨names ++ [n], append_assoc .., append_assoc ..⟩

section

variable (named : entryAt maxLinks tree path = some root) (isDir : tree.get root = some .dir)
  (rooted : Rooted tree)

include named isDir rooted

theorem followDir_of_entryAt : followDir maxLinks tree path = some root := by
  rcases eq_nil_or_concat' path with rfl | ⟨parent, n, rfl⟩
  · obtain ⟨_, -, last⟩ := bind_eq_some_iff.mp named
    contradiction
  rw [entryAt_concat] at named
  obtain ⟨dir, led, rfl⟩ := map_eq_some_iff.mp named
  have above := rooted dir n (by rw [isDir]; rfl)
  obtain ⟨left, eq⟩ := follow_concat (followDir_eq_some_iff.mpr ⟨led, above⟩)
  refine followDir_eq_some_iff.mpr ⟨?_, isDir⟩
  rw [eq, map_singleton, resolve_name isDir nofun]

theorem deleted_tracked (tracks : Tracks maxLinks tree R) (start : R path root) :
    ∀ deletion ∈ (rmdirRecursive maxLinks env fuel path ⟨tree, []⟩).2.deleted,
      R deletion.written deletion.location := by
  refine (rmdirRecursive_rule (P := fun s => ∀ deletion ∈ s.deleted,
    R deletion.written deletion.location) tracks ?_ fuel (Smaller.refl maxLinks tree) ?_ ?_
      (fun _ member => absurd member not_mem_nil)).2
  · intro s written location holds here _ deletion member
    rcases mem_cons.mp member with rfl | earlier
    · exact here
    · exact holds deletion earlier
  · intro location here
    rw [named] at here
    cases here
    exact start
  · intro dir entered
    rw [followDir_of_entryAt named isDir rooted] at entered
    cases entered
    exact start

theorem onlyStraight_of_noDirLinks (plain : NoDirLinks maxLinks tree path root) :
    OnlyStraight maxLinks tree path root := fun _ _ =>
  deleted_tracked named isDir rooted (tracks_straight plain)
    ⟨[], (append_nil path).symm, (append_nil root).symm⟩

theorem rmdirRecursive_inside (confined : LinkTree.Confined root tree) :
    ∀ deletion ∈ (rmdirRecursive maxLinks env fuel path ⟨tree, []⟩).2.deleted,
      root <+: deletion.location := by
  have tracks : Tracks maxLinks tree fun _ location => root <+: location := by
    refine ⟨fun inside => inside.trans (prefix_append _ _), fun inside opened entered => ?_⟩
    obtain ⟨left, eq⟩ := follow_concat opened
    have led := (followDir_eq_some_iff.mp entered).1
    rw [eq] at led
    exact resolve_name_within confined (inside.trans (prefix_append _ _)) led
  exact deleted_tracked named isDir rooted tracks (prefix_refl _)

end

def removesOnly (path : Path) : RmdirEnv where
  stat := fun _ => true
  opendir := fun _ => true
  remove := fun written => written = path
  rmdir := fun _ => false
  missing := fun _ => false

theorem rmdirRecursive_removesOnly (apart : ¬path <+: target) :
    (rmdirRecursive maxLinks (removesOnly target) fuel path s).2 = s := by
  have tracks : Tracks maxLinks s.tree fun written _ => path <+: written :=
    ⟨fun below => below.trans (prefix_append _ _),
      fun below _ _ => below.trans (prefix_append _ _)⟩
  refine (rmdirRecursive_rule (P := fun s' => s' = s) tracks ?_ fuel (Smaller.refl maxLinks s.tree)
    (fun _ _ => prefix_refl _) (fun _ _ => prefix_refl _) rfl).2
  intro s' written location _ below permitted
  rcases permitted with here | never
  · exact absurd (of_decide_eq_true here ▸ below) apart
  · contradiction

theorem removeCall_removesOnly (apart : path ≠ target) :
    removeCall maxLinks (removesOnly target) path s = s := by
  refine (removeCall_rule (R := fun written _ => written = path) (P := fun s' => s' = s) ?_
    (Smaller.refl maxLinks s.tree) (fun _ _ => rfl) rfl).2
  rintro s' written location - rfl permitted
  rcases permitted with here | never
  · exact absurd (of_decide_eq_true here) apart
  · contradiction

theorem preserved_deleted (env : RmdirEnv) (deletion : Deletion) :
    Preserved env (fun _ _ => True) fun s => deletion ∈ s.deleted :=
  fun _ _ _ member _ _ => .tail _ member

theorem mem_deleted_rmdirCall (member : deletion ∈ s.deleted) :
    deletion ∈ (rmdirCall maxLinks env path s).2.deleted :=
  (rmdirCall_rule (preserved_deleted env deletion) (Smaller.refl maxLinks s.tree)
    (fun _ _ => trivial) member).2

theorem mem_deleted_clearEntry (n : Name) (member : deletion ∈ s.deleted) :
    deletion ∈ (clearEntry maxLinks env fuel path s n).deleted := by
  have tracks : Tracks maxLinks s.tree fun _ _ => True := ⟨fun _ => trivial, fun _ _ _ => trivial⟩
  unfold clearEntry
  split_ifs
  · exact (rmdirRecursive_rule tracks (preserved_deleted env deletion) fuel
      (Smaller.refl maxLinks s.tree) (fun _ _ => trivial) (fun _ _ => trivial) member).2
  · exact (removeCall_rule (preserved_deleted env deletion) (Smaller.refl maxLinks s.tree)
      (fun _ _ => trivial) member).2

/-- The call comes to every entry of its directory with an unchanged tree, if only something
below this entry may be removed. -/
theorem mem_deleted_of_child {n : Name} (opened : followDir maxLinks s.tree path = some dir)
    (found : n ∈ s.tree.children dir) (onTheWay : path ++ [n] <+: target)
    (removed : deletion ∈ (clearEntry maxLinks (removesOnly target) fuel path s n).deleted) :
    deletion ∈ (rmdirRecursive maxLinks (removesOnly target) (fuel + 1) path s).2.deleted := by
  obtain ⟨before, after, parts, first⟩ := eq_append_cons_of_mem found
  have idle : before.foldl (clearEntry maxLinks (removesOnly target) fuel path) s = s := by
    refine List.foldlRecOn (motive := fun s' => s' = s) _ _ rfl ?_
    rintro _ rfl m member
    have apart : ¬path ++ [m] <+: target := by
      intro below
      have same := ( prefix_or_prefix_of_prefix below onTheWay).elim
        (·.eq_of_length (by simp)) (fun other => (other.eq_of_length (by simp)).symm)
      rw [append_cancel_left_eq, singleton_inj] at same
      exact first (same ▸ member)
    unfold clearEntry
    split_ifs
    · exact rmdirRecursive_removesOnly apart
    · exact removeCall_removesOnly fun same => apart (same ▸ prefix_refl _)
  rw [rmdirRecursive_of_opened (show openDir maxLinks (removesOnly target) s.tree path = some dir
    from opened), parts, foldl_append, idle, foldl_cons]
  refine mem_deleted_rmdirCall (List.foldlRecOn (motive := fun (s : RmdirState) => deletion ∈ s.deleted)
    _ _ removed ?_)
  exact fun s member n _ => mem_deleted_clearEntry n member

theorem mem_deleted_of_way {names : List Name} {n : Name} {inode : ℕ}
    (way : ∀ first, first <+: names → (followDir maxLinks s.tree (path ++ first)).isSome)
    (arrived : followDir maxLinks s.tree (path ++ names) = some dir)
    (found : s.tree.get (dir ++ [n]) = some (.file inode)) :
    ⟨path ++ names ++ [n], dir ++ [n]⟩ ∈ (rmdirRecursive maxLinks
      (removesOnly (path ++ names ++ [n])) (names.length + 1) path s).2.deleted := by
  induction names generalizing path with
  | nil =>
    rw [append_nil] at arrived ⊢
    obtain ⟨left, eq⟩ := follow_concat arrived
    have led : follow maxLinks s.tree (path ++ [n]) = some (dir ++ [n]) := by
      rw [eq, map_singleton, resolve_name found nofun]
    have noDir : statIsDir maxLinks (removesOnly (path ++ [n])) s.tree (path ++ [n]) = false := by
      simp [statIsDir, followDir, led, found]
    refine mem_deleted_of_child arrived (mem_children.mpr (by rw [found]; rfl))
      (prefix_refl _) ?_
    rw [clearEntry, if_neg (by rw [noDir]; exact nofun), removeCall, entryAt_concat,
      (followDir_eq_some_iff.mp arrived).1]
    simp [found, removesOnly, RmdirState.delete]
  | cons m names ih =>
    obtain ⟨here, opened⟩ := isSome_iff_exists.mp (way [] nil_prefix)
    rw [append_nil] at opened
    have next := way [m] (by simp)
    obtain ⟨left, eq⟩ := follow_concat opened
    obtain ⟨there, entered⟩ := isSome_iff_exists.mp next
    have child : m ∈ s.tree.children here := by
      have led := (followDir_eq_some_iff.mp entered).1
      rw [eq] at led
      exact mem_children.mpr (isSome_of_resolve_name led)
    have assoc : path ++ (m :: names) = path ++ [m] ++ names := by simp
    rw [assoc] at arrived ⊢
    refine mem_deleted_of_child opened child ?_ ?_
    · exact (prefix_append _ names).trans (prefix_append _ _)
    · rw [clearEntry, if_pos (by rw [statIsDir, next]; rfl)]
      refine ih (fun first shorter => ?_) arrived
      rw [append_assoc]
      exact way (m :: first) (cons_prefix_cons.mpr ⟨rfl, shorter⟩)

def Populated (maxLinks : ℕ) (tree : LinkTree Name) (path root : Path) : Prop :=
  ∀ names target dir, tree.get (root ++ names) = some (.link target) →
    followDir maxLinks tree (path ++ names) = some dir →
    ∃ n inode, tree.get (dir ++ [n]) = some (.file inode)

theorem followDir_of_dirs {names : List Name} (isRoot : followDir maxLinks tree path = some root)
    (dirs : LinkTree.Dirs tree root names) :
    followDir maxLinks tree (path ++ names) = some (root ++ names) := by
  rcases eq_nil_or_concat' names with rfl | ⟨parent, n, rfl⟩
  · simpa using isRoot
  have isDir := dirs _ (prefix_refl _) (by simp)
  obtain ⟨left, eq⟩ := follow_concat isRoot
  refine followDir_eq_some_iff.mpr ⟨?_, isDir⟩
  rw [eq, resolve_dirs dirs]

theorem Rooted.dirs (rooted : Rooted tree) {names : List Name}
    (found : (tree.get (root ++ names)).isSome) {first : List Name}
    (shorter : first <+: names) (different : first ≠ names) :
    tree.get (root ++ first) = some .dir := by
  obtain ⟨rest, rfl⟩ := shorter
  induction rest using List.reverseRecOn with
  | nil => exact absurd (append_nil first).symm different
  | append_singleton rest n ih =>
    have above := rooted (root ++ (first ++ rest)) n (by simpa using found)
    cases rest with
    | nil => simpa using above
    | cons m rest => exact ih (by rw [above]; rfl) (by simp)

theorem noDirLinks_of_onlyStraight (isRoot : followDir maxLinks tree path = some root)
    (rooted : Rooted tree) (populated : Populated maxLinks tree path root)
    (only : OnlyStraight maxLinks tree path root) : NoDirLinks maxLinks tree path root := by
  intro names target isLink
  cases led : followDir maxLinks tree (path ++ names) with
  | none => rfl
  | some dir =>
    obtain ⟨n, inode, found⟩ := populated names target dir isLink led
    have way : ∀ first, first <+: names →
        (followDir maxLinks tree (path ++ first)).isSome = true := by
      intro first shorter
      by_cases last : first = names
      · rw [last, led]
        rfl
      rw [followDir_of_dirs isRoot]
      · rfl
      · intro first' shorter' _
        refine rooted.dirs (by rw [isLink]; rfl) (shorter'.trans shorter) ?_
        rintro rfl
        exact last (shorter.eq_of_length_le shorter'.length_le)
    obtain ⟨names', written, location⟩ := only _ _ _
      (@mem_deleted_of_way maxLinks path dir ⟨tree, []⟩ names n inode way led found)
    rw [append_assoc, append_cancel_left_eq] at written
    subst written
    rw [← append_assoc, append_left_inj] at location
    have isDir := (followDir_eq_some_iff.mp led).2
    rw [location, isLink] at isDir
    cases isDir

/-- `rmdir_recursive` deletes nothing behind a symbolic link, provided that no link in the
tree leads to a directory. -/
theorem rmdirRecursive_onlyStraight_iff (named : entryAt maxLinks tree path = some root)
    (isDir : tree.get root = some .dir) (rooted : Rooted tree) :
    (NoDirLinks maxLinks tree path root → OnlyStraight maxLinks tree path root) ∧
    (Populated maxLinks tree path root →
      (OnlyStraight maxLinks tree path root ↔ NoDirLinks maxLinks tree path root)) := by
  have enough := onlyStraight_of_noDirLinks named isDir rooted
  have isRoot := followDir_of_entryAt named isDir rooted
  exact ⟨enough, fun populated =>
    ⟨noDirLinks_of_onlyStraight isRoot rooted populated, enough⟩⟩

end Straight

section Examples

theorem rooted_of_nodes (parents : ∀ entry ∈ tree.nodes,
    entry.1 = [] ∨ tree.get entry.1.dropLast = some .dir) : Rooted tree := by
  intro dir n found
  obtain ⟨node, found⟩ := isSome_iff_exists.mp found
  simpa using parents _ (mem_nodes_of_get found)

theorem noDirLinks_of_nodes {root : Path}
    (plain : ∀ entry ∈ tree.nodes, root <+: entry.1 → entry.2 = .dir ∨
      followDir maxLinks tree (path ++ entry.1.drop root.length) = none) :
    NoDirLinks maxLinks tree path root := by
  intro names target found
  have leads := plain _ (mem_nodes_of_get found)
  rw [drop_left] at leads
  exact (leads (prefix_append _ _)).resolve_left nofun

def linkedTree (target : List String) : LinkTree Name where
  nodes := [([], .dir), (["home".toList], .dir), (["home".toList, "save".toList], .file 1),
    (["tmp".toList], .dir), (["tmp".toList, "j1".toList], .dir),
    (["tmp".toList, "j1".toList, "show.mkv".toList], .file 2),
    (["tmp".toList, "j1".toList, "extras".toList],
      .link ⟨true, target.map fun name => .name name.toList⟩)]

def jobDir : Path :=
  ["tmp".toList, "j1".toList]

theorem rmdirRecursive_onlyStraight_file_link :
    OnlyStraight 32 (linkedTree ["home", "save"]) jobDir jobDir := by
  refine (rmdirRecursive_onlyStraight_iff ?_ ?_ (rooted_of_nodes ?_)).1 (noDirLinks_of_nodes ?_)
  all_goals decide +kernel

theorem rmdirRecursive_follows_link : ∃ (env : RmdirEnv) (maxLinks fuel : ℕ)
    (tree : LinkTree Name) (root : Path) (deletion : Deletion),
    entryAt maxLinks tree root = some root ∧ tree.get root = some .dir ∧ Rooted tree ∧
    deletion ∈ (rmdirRecursive maxLinks env fuel root ⟨tree, []⟩).2.deleted ∧
    ¬root <+: deletion.location := by
  let env : RmdirEnv :=
    ⟨fun _ => true, fun _ => true, fun _ => true, fun _ => true, fun _ => true⟩
  refine ⟨env, 32, 8, linkedTree ["home"], jobDir,
    ⟨["tmp".toList, "j1".toList, "extras".toList, "save".toList], ["home".toList, "save".toList]⟩,
    ?_, ?_, rooted_of_nodes ?_, ?_, ?_⟩
  all_goals decide +kernel

end Examples

end NzbDownloader.Storage
